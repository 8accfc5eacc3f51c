/-
HexDoc/Proofs/Token/Seeking.lean

Looking for tokens, with skips in between.  A skip goes no further than the next reading would go
by itself, so it changes neither that reading nor a later one (`Cursor.readings_of_skipIgnored_eq`).

A fault and the end of a text are met again and again.  `Cursor.Rests` says that neither a reading
nor a skip moves a cursor, and this is how both leave it (`Cursor.rests_of_ends`).

Main statement: all this for the cursor of a text and any row of readings and skips
(`readings_of_seeking_moves`).
-/
import HexDoc.Proofs.Token.Resting
import HexDoc.Token.Moves

namespace HexDoc

namespace Cursor

variable {c d : Cursor} {ms : List Move} {x : Except LexError Token}

/-! ### Where a move stops -/

@[simp]
theorem stop_move_next (c : Cursor) : (c.move .next).stop = c.next.2 := by
  rcases h : c.next with ⟨e | t, d⟩ <;> simp [move, h]

theorem skip_snd (c : Cursor) : c.skip.2 = c.skipIgnored := by
  unfold skip refuseOpenComment
  split <;> rfl

@[simp]
theorem stop_move_skip (c : Cursor) : (c.move .skip).stop = c.skipIgnored := by
  rw [← skip_snd]
  rcases h : c.skip with ⟨e | u, d⟩ <;> simp [move, h]

/-- Once it has been passed, what is ignored has been passed. -/
theorem skipIgnored_skipIgnored (c : Cursor) : c.skipIgnored.skipIgnored = c.skipIgnored :=
  skipIgnored_of_zero c.ignoredLength_skipIgnored

/-- A second skip answers what the first one has answered, and moves nowhere. -/
theorem move_skip_skip (c : Cursor) : (c.move .skip).stop.move .skip = c.move .skip := by
  rw [stop_move_skip]
  simp only [move, skip, skipIgnored_skipIgnored]

/-! ### Skips between readings -/

/-- Where passing what is ignored leads to the same place, the same token is read. -/
theorem next_of_skipIgnored_eq (h : c.skipIgnored = d.skipIgnored) : c.next = d.next := by
  rw [← next_skipIgnored c, h, next_skipIgnored]

/-- From where passing what is ignored leads to the same place, the same is read with skips and
without. -/
theorem readings_of_skipIgnored_eq (h : c.skipIgnored = d.skipIgnored) (hms : ∀ m ∈ ms, m.Seeks) :
    c.readings ms = d.readings (ms.filter (· = .next)) := by
  induction ms generalizing c d with
  | nil => rfl
  | cons m ms ih =>
    obtain ⟨hm, htail⟩ := List.forall_mem_cons.mp hms
    cases m with
    | next =>
      have hnext := next_of_skipIgnored_eq h
      rw [List.filter_cons_of_pos (by simp), readings, readings, hnext, stop_move_next,
        stop_move_next, hnext, ih rfl htail]
    | skip =>
      -- the skip has passed a part of what the next reading passes
      have hskip : (c.move .skip).stop.skipIgnored = d.skipIgnored := by
        rw [stop_move_skip, skipIgnored_skipIgnored, h]
      rw [List.filter_cons_of_neg (by simp), readings, ih hskip htail]
      exact fun hne => by cases hne
    | advance n => cases hm
    | readOn => cases hm

/-! ### Rest -/

/-- Neither a skip nor a reading moves the cursor. -/
structure Rests (c : Cursor) : Prop where
  skip : c.skipIgnored = c
  next : c.next.2 = c

/-- No move that only looks for a token moves a cursor at rest. -/
theorem Rests.move (h : c.Rests) {m : Move} (hm : m.Seeks) : (c.move m).stop = c := by
  cases m with
  | next => rw [stop_move_next, h.next]
  | skip => rw [stop_move_skip, h.skip]
  | advance n => cases hm
  | readOn => cases hm

/-- Nor does a row of such moves. -/
theorem Rests.moves (h : c.Rests) (hms : ∀ m ∈ ms, m.Seeks) : c.moves ms = c := by
  induction ms with
  | nil => rfl
  | cons m ms ih =>
    obtain ⟨hm, hms⟩ := List.forall_mem_cons.mp hms
    show (c.move m).stop.moves ms = c
    rw [h.move hm, ih hms]

/-- A cursor at rest gives one answer to every reading. -/
theorem Rests.readings (h : c.Rests) (hms : ∀ m ∈ ms, m.Seeks) :
    c.readings ms = List.replicate (ms.count .next) c.next.1 := by
  induction ms with
  | nil => rfl
  | cons m ms ih =>
    obtain ⟨hm, htail⟩ := List.forall_mem_cons.mp hms
    have hstop := h.move hm
    cases m with
    | next => rw [Cursor.readings, hstop, ih htail, List.count_cons_self, List.replicate_succ]
    | skip =>
      rw [Cursor.readings, hstop, ih htail, List.count_cons_of_ne (by simp)]
      exact fun hne => by cases hne
    | advance n => cases hm
    | readOn => cases hm

/-- What ends the tokens of a text: a fault in a move, or the end token. -/
inductive Scan.Ends (s : Scan) : Except LexError Token → Prop
  | fault {e : LexError} : s.fault? = some e → Ends s (.error e)
  | endToken {t : Token} : t ∈ s.tokens → t.kind = .endOfText → Ends s (.ok t)

/-- Behind what is ignored, a reading that comes back to where it started is met again and again. -/
theorem rests_of_next (hd : d = c.skipIgnored) (hnext : d.next = (x, d)) :
    d.Rests ∧ d.next.1 = x := by
  refine ⟨⟨?_, ?_⟩, ?_⟩
  · rw [hd, skipIgnored_skipIgnored]
  · rw [hnext]
  · rw [hnext]

/-- What ends the tokens of a move is what a reading comes to in its place, and both leave the
cursor alike. -/
theorem next_of_ends {m : Move} (hm : m.Seeks) (h : (c.move m).Ends x) :
    c.next = (x, (c.move m).stop) := by
  cases m with
  | next =>
    rcases hc : c.next with ⟨e | t, d⟩
    · have hmove : c.move .next = ⟨[], some e, d⟩ := by simp [Cursor.move, hc]
      rw [hmove] at h ⊢
      cases h with
      | fault he =>
        cases he
        rfl
      | endToken ht => cases ht
    · have hmove : c.move .next = ⟨[t], none, d⟩ := by simp [Cursor.move, hc]
      rw [hmove] at h ⊢
      cases h with
      | fault he => cases he
      | endToken ht =>
        cases List.mem_singleton.mp ht
        rfl
  | skip =>
    rcases hc : c.skip with ⟨e | u, d⟩
    · have hmove : c.move .skip = ⟨[], some e, d⟩ := by simp [Cursor.move, hc]
      rw [hmove] at h ⊢
      cases h with
      | fault he =>
        cases he
        exact next_of_skip_error hc
      | endToken ht => cases ht
    · have hmove : c.move .skip = ⟨[], none, d⟩ := by simp [Cursor.move, hc]
      rw [hmove] at h
      cases h with
      | fault he => cases he
      | endToken ht => cases ht
  | advance n => cases hm
  | readOn => cases hm

/-- Where the tokens end, the cursor rests, and it is the end that every reading meets again. -/
theorem rests_of_ends {m : Move} (hm : m.Seeks) (h : (c.move m).Ends x) :
    (c.move m).stop.Rests ∧ (c.move m).stop.next.1 = x := by
  have hnext := next_of_ends hm h
  cases h with
  | fault => exact rests_of_next (eq_skipIgnored_of_error hnext) (next_of_error hnext)
  | endToken ht hend =>
    exact rests_of_next (eq_skipIgnored_of_end hnext hend) (next_of_end hnext hend)

theorem moves_concat (c : Cursor) (ms : List Move) (m : Move) :
    c.moves (ms ++ [m]) = ((c.moves ms).move m).stop := by
  rw [Cursor.moves, List.foldl_append]
  rfl

end Cursor

/-- The tokens of a text, looked for with skips in between.  The readings come to what they come to
without the skips, and a second skip adds nothing to the first.  From the first fault of a reading
or of a skip on, or from the first end token on, every reading comes to the same fault or to the
same end token, and the cursor stays where it is. -/
theorem readings_of_seeking_moves (text : String) {ms : List Cursor.Move}
    (hms : ∀ m ∈ ms, m.Seeks) :
    let c := Cursor.ofText text
    c.readings ms = c.readings (ms.filter (· = .next)) ∧
      (∀ d : Cursor, (d.move .skip).stop.move .skip = d.move .skip) ∧
      ∀ before m after x, ms = before ++ m :: after → ((c.moves before).move m).Ends x →
        let d := c.moves (before ++ [m])
        d.readings after = List.replicate (after.count .next) x ∧
          ∀ on, on <+: after → d.moves on = d := by
  intro c
  refine ⟨Cursor.readings_of_skipIgnored_eq rfl hms, Cursor.move_skip_skip, ?_⟩
  rintro before m after x rfl hends d
  obtain ⟨hm, hafter⟩ := List.forall_mem_cons.mp (List.forall_mem_append.mp hms).2
  obtain ⟨hrests, hx⟩ := Cursor.rests_of_ends hm hends
  rw [← Cursor.moves_concat] at hrests hx
  constructor
  · rw [hrests.readings hafter, hx]
  · rintro on ⟨off, rfl⟩
    exact hrests.moves fun m hm => hafter m (List.mem_append_left off hm)

/-- A skip meets the comment that is left open, and every reading behind it does. -/
theorem readings_of_seeking_moves_openComment :
    let before : List Cursor.Move := [.skip, .next]
    let after : List Cursor.Move := [.skip, .next, .skip, .next]
    let c := Cursor.ofText " a\n #="
    let e : LexError := ⟨⟨2, 2⟩, .openComment⟩
    (∀ m ∈ before ++ .skip :: after, m.Seeks) ∧
      c.readings (before ++ .skip :: after) = [.ok ⟨.name, "a", ⟨1, 2⟩⟩, .error e, .error e] ∧
      (c.moves (before ++ [.skip])).readings after = [.error e, .error e] := by
  have hms : ∀ m ∈ [.skip, .next] ++ Cursor.Move.skip :: [.skip, .next, .skip, .next], m.Seeks := by
    simp [Cursor.Move.Seeks]
  obtain ⟨hreadings, -, hrest⟩ := readings_of_seeking_moves " a\n #=" hms
  refine ⟨hms, hreadings.trans (by with_unfolding_all rfl), ?_⟩
  exact (hrest [.skip, .next] .skip _ (.error ⟨⟨2, 2⟩, .openComment⟩) rfl
    (.fault (by with_unfolding_all rfl))).1

end HexDoc
