/-
HexDoc/Loop.lean

Loops, one turn at a time.  A turn makes another state of the one at hand, or it ends the loop with
what the loop comes to.  `Loop.Ends` tells after how many turns a loop ends.

Main statement: if something is used up by every turn that goes on, the loop ends after no more
turns than there is of it, and with a result that no turn changes (`Loop.exists_ends`).
-/
namespace HexDoc

/-- What a turn of a loop leads to. -/
inductive Loop.Next (σ ρ : Type)
  /-- Another turn. -/
  | again (s : σ)
  /-- The end of the loop. -/
  | ends (r : ρ)

/-- A loop, as what a turn makes of a state. -/
abbrev Loop (σ ρ : Type) := σ → Loop.Next σ ρ

namespace Loop

variable {σ ρ : Type} {loop : Loop σ ρ}

/-- A loop ends with a result, after so many turns that go on and one that does not. -/
inductive Ends (loop : Loop σ ρ) : σ → Nat → ρ → Prop
  | now {s : σ} {r : ρ} : loop s = .ends r → Ends loop s 0 r
  | later {s s' : σ} {k : Nat} {r : ρ} :
      loop s = .again s' → Ends loop s' k r → Ends loop s (k + 1) r

/-- What a loop comes to from each of its states. -/
structure ComesTo (loop : Loop σ ρ) (result : σ → ρ) : Prop where
  again : ∀ {s s'}, loop s = .again s' → result s = result s'
  ends : ∀ {s r}, loop s = .ends r → result s = r

/-- What a turn comes to, where every state comes to something. -/
def Next.result (f : σ → ρ) : Next σ ρ → ρ
  | .again s => f s
  | .ends r => r

theorem ComesTo.of_result {result : σ → ρ} (h : ∀ s, result s = (loop s).result result) :
    loop.ComesTo result where
  again {s s'} hs := by rw [h s, hs, Next.result]
  ends {s r} hs := by rw [h s, hs, Next.result]

/-- A loop that uses something up ends. -/
theorem exists_ends {result : σ → ρ} (hresult : loop.ComesTo result) (left : σ → Nat)
    (hleft : ∀ {s s'}, loop s = .again s' → left s' < left s) (s : σ) :
    ∃ k ≤ left s, loop.Ends s k (result s) := by
  induction hn : left s using Nat.strongRecOn generalizing s with
  | ind n ih =>
    subst hn
    rcases hs : loop s with s' | r
    · obtain ⟨k, hk, hends⟩ := ih (left s') (hleft hs) s' rfl
      refine ⟨k + 1, Nat.lt_of_le_of_lt hk (hleft hs), ?_⟩
      rw [hresult.again hs]
      exact .later hs hends
    · refine ⟨0, Nat.zero_le _, ?_⟩
      rw [hresult.ends hs]
      exact .now hs

end Loop

end HexDoc
