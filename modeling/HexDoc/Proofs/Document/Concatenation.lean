/-
HexDoc/Proofs/Document/Concatenation.lean

Two documents one below the other.  The tokens of the text above do not change when a newline and
further text stand below it (`Cursor.scan_above`), and the text below is read as by itself, only
further down.  So the bindings below are put onto those above, and an error below is reported as
it is by itself, as many lines further down as the text above has.

`DocumentState.behind` puts a document read in part behind the bindings of another.  Main
statements: reading on behind other bindings is reading by itself and putting what is read onto
them (`DocumentState.run_behind`), and the law for whole texts (`parse_newline_append`).
-/
import HexDoc.Proofs.Document.RoundTrip
import HexDoc.Proofs.Token.Below
import HexDoc.Proofs.Token.Tiling

namespace HexDoc

/-! ### Entries put onto others -/

namespace Entries

variable {κ α : Type} [DecidableEq κ]

theorem putAll_cons (es : Entries κ α) (e : κ × α) (new : List (κ × α)) :
    putAll es (e :: new) = putAll (put es e.1 e.2) new := rfl

theorem putAll_concat (es : Entries κ α) (new : List (κ × α)) (e : κ × α) :
    putAll es (new ++ [e]) = put (putAll es new) e.1 e.2 :=
  List.foldl_append

/-- The keys that are there stay in front, and those that are new follow in their order. -/
theorem keys_putAll (es : Entries κ α) {new : Entries κ α} (hnew : (keys new).Nodup) :
    keys (putAll es new) = keys es ++ (keys new).filter (· ∉ keys es) := by
  induction new using List.reverseRecOn with
  | nil => simp [putAll]
  | append_singleton new e ih =>
    rw [keys_append, List.nodup_append] at hnew
    obtain ⟨hnew, -, hdisjoint⟩ := hnew
    have he : e.1 ∉ keys new := fun hmem => hdisjoint e.1 hmem e.1 (by simp) rfl
    rw [putAll_concat, keys_put, ih hnew, keys_append, List.filter_append]
    by_cases hmem : e.1 ∈ keys es <;> simp [hmem, he]

/-- A key has the value that was put last. -/
theorem get?_putAll (es : Entries κ α) {new : Entries κ α} (hnew : (keys new).Nodup) (k : κ) :
    get? (putAll es new) k = (get? new k).or (get? es k) := by
  induction new generalizing es with
  | nil => rfl
  | cons e new ih =>
    obtain ⟨l, w⟩ := e
    rw [keys_cons, List.nodup_cons] at hnew
    rw [putAll_cons, ih _ hnew.2, get?_put]
    by_cases hk : l = k
    · subst hk
      simp [get?, get?_eq_none_iff.mpr hnew.1]
    · simp [get?, hk]

theorem nodup_keys_putAll {es : Entries κ α} (hes : (keys es).Nodup) (new : Entries κ α) :
    (keys (putAll es new)).Nodup := by
  induction new generalizing es with
  | nil => exact hes
  | cons e new ih => exact ih (nodup_keys_put hes e.1 e.2)

/-- A put may be made before or after all are put onto others. -/
theorem putAll_put {es new : Entries κ α} (hes : (keys es).Nodup) (hnew : (keys new).Nodup)
    (k : κ) (v : α) : putAll es (put new k v) = put (putAll es new) k v := by
  have hput := nodup_keys_put hnew k v
  apply eq_of_get?_eq
  · rw [keys_putAll es hput, keys_put, keys_put, keys_putAll es hnew]
    by_cases hn : k ∈ keys new <;> by_cases he : k ∈ keys es <;> simp [hn, he]
  · exact nodup_keys_putAll hes _
  · intro l _
    rw [get?_putAll es hput, get?_put, get?_put, get?_putAll es hnew]
    split <;> simp

end Entries

/-! ### Reading on behind other bindings -/

namespace DocumentState

/-- A document read in part, behind the bindings of another one. -/
def behind (env : Environment) (bound : List Name) (s : DocumentState) : DocumentState :=
  ⟨env.putAll s.env, bound ++ s.bound, s.binding⟩

variable {env : Environment} {s s' : DocumentState} {t : Token}

theorem nodup_keys_after (hs : s.env.keys.Nodup) (p : Progress BindingState (Name × Value)) :
    (s.after p).env.keys.Nodup := by
  cases p with
  | more b => exact hs
  | complete b => exact Entries.nodup_keys_put hs b.1 b.2

/-- A token goes on with the current binding, whatever is in front. -/
theorem after_behind (henv : env.keys.Nodup) (hs : s.env.keys.Nodup) (bound : List Name)
    (p : Progress BindingState (Name × Value)) :
    (s.behind env bound).after p = (s.after p).behind env bound := by
  cases p with
  | more b => rfl
  | complete b =>
    obtain ⟨n, v⟩ := b
    simp only [after, behind, Entries.putAll_put henv hs, List.append_assoc]

/-- Reading on behind other bindings is reading by itself and putting what is read onto them. -/
theorem run_behind (henv : env.keys.Nodup) (hs : s.env.keys.Nodup) (bound : List Name)
    (fault? : Option LexError) (ts : List Token) :
    run fault? (s.behind env bound) ts = (run fault? s ts).map (·.behind env bound) := by
  induction ts generalizing s with
  | nil => cases fault? <;> rfl
  | cons t ts ih =>
    by_cases hend : t.kind = .endOfText ∧ s.binding = .name
    · have hb : (s.behind env bound).binding = .name := hend.2
      rw [run_cons_of_end hend.1 hend.2, run_cons_of_end hend.1 hb]
      rfl
    · rcases hp : s.binding.step t with f | p
      · have hb : ¬ (t.kind = .endOfText ∧ (s.behind env bound).binding = .name) := hend
        have hstep : (s.behind env bound).step t = .error f := step_of_error hp
        rw [run_cons_of_error (step_of_error hp) hend, run_cons_of_error hstep hb]
        rfl
      · have hstep : (s.behind env bound).step t = .ok ((s.behind env bound).after p) :=
          step_of_ok hp
        rw [run_cons_of_ok (step_of_ok hp), run_cons_of_ok hstep, after_behind henv hs]
        exact ih (nodup_keys_after hs p)

end DocumentState

/-! ### Errors further down -/

/-- The same error, some lines further down. -/
def ReadError.below (lines : Nat) : ReadError → ReadError
  | .lexical e => .lexical (e.below lines)
  | .grammatical e => .grammatical ⟨e.position.below lines, e.fault⟩

/-- Reading tokens further down comes to the same, with errors further down. -/
theorem DocumentState.run_below (lines : Nat) (fault? : Option LexError) (s : DocumentState)
    (ts : List Token) :
    run (fault?.map (·.below lines)) s (ts.map (·.below lines)) =
      (run fault? s ts).mapError (·.below lines) := by
  induction ts generalizing s with
  | nil => cases fault? <;> rfl
  | cons t ts ih =>
    have hstep : s.step (t.below lines) = s.step t := rfl
    rw [List.map_cons]
    by_cases hend : t.kind = .endOfText ∧ s.binding = .name
    · rw [run_cons_of_end hend.1 hend.2, run_cons_of_end (t := t.below lines) hend.1 hend.2]
      rfl
    · rcases hs : s.step t with f | s'
      · rw [run_cons_of_error hs hend, run_cons_of_error (hstep.trans hs) hend]
        rfl
      · rw [run_cons_of_ok hs, run_cons_of_ok (hstep.trans hs), ih]

/-! ### The tokens of two texts -/

/-- No token goes on with a newline. -/
theorem Kind.EndsBefore.newline {k : Kind} {cs : List Char} (h : k.EndsBefore cs)
    (ds : List Char) : k.EndsBefore (cs ++ '\n' :: ds) := by
  cases cs with
  | nil =>
    rintro d ⟨⟩
    exact Kind.goesOn_of_apart (by decide) (by decide) k
  | cons c cs => exact h

namespace Cursor

variable {c d : Cursor}

theorem scan_congr (h : c.next = d.next) : c.scan = d.scan := by
  rcases hd : d.next with ⟨e | t, d'⟩
  · rw [scan_of_error hd, scan_of_error (h.trans hd)]
  · by_cases ht : t.kind = .endOfText
    · rw [scan_of_end hd ht, scan_of_end (h.trans hd) ht]
    · rw [scan_of_token hd ht, scan_of_token (h.trans hd) ht]

/-- Behind a gap the same tokens are read as from its start. -/
theorem scan_of_gap {g rest : List Char} (hg : Gap g) (h : c.rest = g ++ rest) :
    c.scan = (c.advance g.length).scan := by
  apply scan_congr
  unfold next skip
  rw [skipIgnored_gap hg h]

/-- Tokens that are laid out above a newline are read first, and then those of the text below. -/
theorem scan_above {before : Option Lexeme} {ls : List Lexeme} {cs ds : List Char}
    (h : Layout before ls cs) (hls : ∀ l ∈ ls, IsLexeme l) (hc : c.rest = cs ++ '\n' :: ds) :
    ∃ us : List Token, us.map Token.lexeme = ls ∧
      c.scan.tokens = us ++ (c.advance (cs.length + 1)).scan.tokens ∧
      c.scan.fault? = (c.advance (cs.length + 1)).scan.fault? := by
  induction h generalizing c with
  | @stop before g hg =>
    rw [List.append_cons] at hc
    have hscan := scan_of_gap hg.newline hc
    rw [List.length_append, List.length_singleton] at hscan
    exact ⟨[], rfl, by rw [hscan, List.nil_append], by rw [hscan]⟩
  | @token before g cs l ls hg _ hlayout ih =>
    obtain ⟨hl, hls⟩ := List.forall_mem_cons.mp hls
    rw [List.append_assoc, List.append_assoc] at hc
    have hend := (hlayout.endsBefore hls).newline ds
    have hnext := next_of_gap hg hl hend hc
    have htext := rest_advance_append hc
    obtain ⟨us, hus, htok, hfault⟩ := ih hls (rest_advance_append htext)
    have hstop : ((c.advance g.length).advance l.2.toList.length).advance (cs.length + 1) =
        c.advance ((g ++ l.2.toList ++ cs).length + 1) := by
      rw [advance_advance c (by simp [hc]), advance_advance c (by simp [hc])]
      simp only [List.length_append, Nat.add_assoc]
    rw [hstop] at htok hfault
    rw [scan_of_token hnext hl.kind_ne]
    exact ⟨⟨l.1, l.2, (c.advance g.length).position⟩ :: us, by rw [List.map_cons, hus]; rfl,
      congrArg _ htok, hfault⟩

/-- A move over text that is ahead. -/
theorem advance_append {cs ds : List Char} (h : c.rest = cs ++ ds) :
    c.advance cs.length = ⟨ds, c.offset + cs.length, c.position.past cs⟩ := by
  simp [advance, h, Position.right]

/-- The text below starts as by itself, only further down. -/
theorem advance_above (text text' : String) :
    (ofText (text ++ "\n" ++ text')).advance (text.toList.length + 1) =
      (ofText text').below (text.toList.length + 1) (text.toList.count '\n' + 1) := by
  have hrest : (ofText (text ++ "\n" ++ text')).rest =
      (text.toList ++ ['\n']) ++ text'.toList := by
    simp [ofText, ofChars]
  have hmove := advance_append hrest
  rw [Position.past_newline, List.length_append, List.length_singleton] at hmove
  rw [hmove]
  simp [ofText, ofChars, below, Position.below, Position.start]
  omega

end Cursor

/-- Below a text that has tokens, the tokens of that text are read first, and then those of the
text below, further down. -/
theorem scan_of_tokenize {text : String} {us : List Token} {last : Token}
    (h : tokenize text = .ok (us ++ [last])) (text' : String) :
    let all := (Cursor.ofText (text ++ "\n" ++ text')).scan
    let below := (Cursor.ofText text').scan
    let lines := text.toList.count '\n' + 1
    ∃ vs : List Token, vs.map Token.lexeme = us.map Token.lexeme ∧
      all.tokens = vs ++ below.tokens.map (·.below lines) ∧
      all.fault? = below.fault?.map (·.below lines) := by
  obtain ⟨hfault, htok⟩ := tokenize_eq_ok_iff.mp h
  have hnone : ∀ l ∈ (none : Option Lexeme), l.1.EndsBefore (Cursor.ofText text).rest := by simp
  obtain ⟨us', last', htok', -, hus, hlayout⟩ :=
    (Cursor.ofText text).exists_layout_of_scan hfault hnone
  obtain ⟨rfl, -⟩ := List.append_inj' (htok'.symm.trans htok) rfl
  have hrest : (Cursor.ofText (text ++ "\n" ++ text')).rest =
      (Cursor.ofText text).rest ++ '\n' :: text'.toList := by
    simp [Cursor.ofText, Cursor.ofChars]
  obtain ⟨vs, hvs, hscan, hfault'⟩ :=
    Cursor.scan_above hlayout (List.forall_mem_map.mpr hus) hrest
  have hstop := Cursor.advance_above text text'
  rw [show text.toList = (Cursor.ofText text).rest from rfl] at hstop
  rw [hstop, Cursor.scan_below] at hscan hfault'
  exact ⟨vs, hvs, hscan, hfault'⟩

/-! ### The law of concatenation -/

theorem DocumentState.nodup_keys_feed {s s' : DocumentState} {ls : List Lexeme}
    (hs : s.env.keys.Nodup) (h : s.feed ls = .ok s') : s'.env.keys.Nodup := by
  induction ls generalizing s with
  | nil =>
    cases h
    exact hs
  | cons l ls ih =>
    obtain ⟨s₁, hstep, h⟩ := exists_of_feed_cons h
    obtain ⟨p, -, rfl⟩ := Outcome.map_eq_ok_iff.mp hstep
    exact ih (nodup_keys_after hs p) h

/-- No name is bound twice in what a text is read as. -/
theorem nodup_keys_parse {text : String} {env : Environment} (h : parse text = .ok env) :
    env.keys.Nodup := by
  obtain ⟨us, last, s, -, -, hfeed, -, rfl⟩ := parse_eq_ok_iff.mp h
  exact DocumentState.nodup_keys_feed (s := .initial) List.nodup_nil hfeed

/-- A text below one that is read comes to what it comes to by itself: its bindings are put onto
those above, or its error is reported further down. -/
theorem parse_below {text : String} {env : Environment} (h : parse text = .ok env)
    (text' : String) :
    parse (text ++ "\n" ++ text') =
      ((parse text').map env.putAll).mapError (·.below (text.toList.count '\n' + 1)) := by
  have henv := nodup_keys_parse h
  obtain ⟨us, last, ⟨env, bound, b⟩, htok, -, hfeed, rfl, rfl⟩ := parse_eq_ok_iff.mp h
  obtain ⟨vs, hvs, hscan, hfault⟩ := scan_of_tokenize htok text'
  have hstart : (⟨env, bound, .name⟩ : DocumentState) = DocumentState.initial.behind env bound := by
    simp [DocumentState.behind, DocumentState.initial, Entries.putAll]
  rw [← hvs, hstart] at hfeed
  rw [parse_eq_run, parse_eq_run, hscan, hfault, DocumentState.run_append hfeed,
    DocumentState.run_below, DocumentState.run_behind henv (s := .initial) List.nodup_nil]
  rcases DocumentState.run (Cursor.ofText text').scan.fault? .initial
    (Cursor.ofText text').scan.tokens <;> rfl

/-- A text that is read, a newline and another text.  If the other text is read too, its bindings
are put onto the first ones: the names of these stay in front, with the later value where there
is one, and the new names follow in their order.  If it is not, the whole fails as it does, on the
same column, further down by the lines above. -/
theorem parse_newline_append {text : String} {env : Environment} (h : parse text = .ok env)
    (text' : String) :
    (∀ new, parse text' = .ok new →
      ∃ all, parse (text ++ "\n" ++ text') = .ok all ∧
        all.keys = env.keys ++ new.keys.filter (· ∉ env.keys) ∧ all.keys.Nodup ∧
        ∀ n, all.get? n = (new.get? n).or (env.get? n)) ∧
    ∀ e, parse text' = .error e →
      parse (text ++ "\n" ++ text') = .error (e.below (text.toList.count '\n' + 1)) := by
  have hbelow := parse_below h text'
  constructor
  · intro new hnew
    have hnodup := nodup_keys_parse hnew
    rw [hnew] at hbelow
    exact ⟨_, hbelow, Entries.keys_putAll env hnodup,
      Entries.nodup_keys_putAll (nodup_keys_parse h) new, Entries.get?_putAll env hnodup⟩
  · intro e he
    rw [hbelow, he]
    rfl

/-- Below a text that ends in an open line comment: a document that refers to a name from above and
binds it again, and one with a fault, whose line counts from the first text on. -/
theorem parse_newline_append_redeclared :
    ∃ env all, parse "a = 0x1\nb = \x7b\x7d #" = .ok env ∧
      parse ("a = 0x1\nb = \x7b\x7d #" ++ "\n" ++ "c = [a]\na = 0x2") = .ok all ∧
      all.keys = ["a", "b", "c"] ∧ all.get? "a" = some (.number ⟨"0x2", 2⟩) ∧
      parse ("a = 0x1\nb = \x7b\x7d #" ++ "\n" ++ "c = 0x1 ?") =
        .error (.lexical ⟨⟨3, 9⟩, .unexpected '?'⟩) := by
  have habove : parse "a = 0x1\nb = \x7b\x7d #" =
      .ok [("a", .number ⟨"0x1", 1⟩), ("b", .dict [])] := by with_unfolding_all rfl
  have hnew : parse "c = [a]\na = 0x2" =
      .ok [("c", .reference "a"), ("a", .number ⟨"0x2", 2⟩)] := by with_unfolding_all rfl
  have hfault : parse "c = 0x1 ?" = .error (.lexical ⟨⟨1, 9⟩, .unexpected '?'⟩) := by
    with_unfolding_all rfl
  obtain ⟨all, hall, hkeys, -, hget⟩ := (parse_newline_append habove _).1 _ hnew
  have hbelow := (parse_newline_append habove _).2 _ hfault
  refine ⟨_, all, habove, hall, ?_, ?_, ?_⟩
  · rw [hkeys]
    decide
  · rw [hget]
    rfl
  · rw [hbelow]
    rfl

end HexDoc
