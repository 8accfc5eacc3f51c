/-
HexDoc/Proofs/Conversion/Log.lean

The log of a conversion that succeeds, record by record: the bindings as they are written, what
has happened in the resolution, and the two counts at the end (`Conversion.log_ofText`).  The
names that are noted while a text is read are those of the document that its tokens spell,
repeats included (`exists_document_of_readDocument`).

Main statement: the log of every text that is converted, with the number of records of each kind
told from the document alone (`conversion_log`).
-/
import HexDoc.Proofs.Conversion.Failures
import HexDoc.Proofs.Document.Concatenation
import HexDoc.Proofs.Document.RoundTrip
import HexDoc.Proofs.Resolution.Accounting

namespace HexDoc

/-- A text that is read is the text of a document, and the names that are noted are those of its
bindings, repeats included. -/
theorem exists_document_of_readDocument {text : String} {env : Environment} {names : List Name}
    (h : readDocument text = (.ok env, names)) :
    ∃ (d : WrittenDocument) (us : List Token) (last : Token),
      tokenize text = .ok (us ++ [last]) ∧ last.kind = .endOfText ∧
      d.WellFormed ∧ d.lexemes = us.map Token.lexeme ∧ d.environment = env ∧
      Entries.keys d = names := by
  have hparse : parse text = .ok env := congrArg Prod.fst h
  obtain ⟨us, last, s, htok, hlast, hfeed, hb, -⟩ := parse_eq_ok_iff.mp hparse
  obtain ⟨hfault, htokens⟩ := tokenize_eq_ok_iff.mp htok
  -- the state that the tokens lead to is the one that the reading ends in
  have hrun := readDocument_eq_run text
  rw [hfault, htokens, DocumentState.run_append hfeed, DocumentState.run_cons_of_end hlast hb,
    h] at hrun
  have hs : s = ⟨env, names, .name⟩ := Except.ok.inj hrun
  obtain ⟨d, hd, hlex, hsd⟩ :=
    (DocumentState.feed_initial_eq_ok_iff (isLexeme_of_tokenize htok)).mp ⟨hfeed, hb⟩
  have hstates := hsd.symm.trans hs
  exact ⟨d, us, last, htok, hlast, hd, hlex, congrArg DocumentState.env hstates,
    congrArg DocumentState.bound hstates⟩

namespace Conversion

/-- The log of a conversion whose steps succeed. -/
theorem log_ofText {text document : String} {env resolved : Environment} {names : List Name}
    {f : Format} (hread : readDocument text = (.ok env, names))
    (hresolve : resolve env = .ok resolved) (hwrite : writeResolved resolved f = .ok document) :
    (ofText text f).log = names.map .bound ++
      (Resolver.ofEnvironment env).all.events.map .resolution ++
      [.resolved resolved.length, .written document.length f] := by
  have hall : (Resolver.ofEnvironment env).all.result = .ok resolved := hresolve
  simp only [ofText, hread, ofEnvironment, hall, ofResolved, hwrite, List.append_assoc]

end Conversion

/-- The log of a text that is converted.  With `d` the document as it is written in the text, `env`
what it is read as and `resolved` what that comes to, the log notes each binding of `d` in its
place, repeats included; then what happens in the resolution; then how many names there are, and
how many characters the result has.

In the resolution each name is resolved once, in the order of `resolved`.  A name is found there as
often as the values of `env` refer to it, each time after it has been resolved. -/
theorem conversion_log {text document : String} {f : Format}
    (h : (Conversion.ofTextTo text f.word).result = .ok document) :
    ∃ (d : WrittenDocument) (us : List Token) (last : Token) (env resolved : Environment)
      (events : List Event),
      tokenize text = .ok (us ++ [last]) ∧ last.kind = .endOfText ∧
      d.WellFormed ∧ d.lexemes = us.map Token.lexeme ∧
      parse text = .ok env ∧ env = d.environment ∧ resolve env = .ok resolved ∧
      (Conversion.ofTextTo text f.word).log = d.map (fun b => .bound b.1) ++
        events.map .resolution ++
        [.resolved (Entries.keys d).eraseDups.length, .written document.length f] ∧
      Event.resolvedNames events = resolved.keys ∧
      resolved.keys.Perm (Entries.keys d).eraseDups ∧ resolved.keys.Nodup ∧
      (∀ n, events.count (.found n) = (Value.referencesOfFields env).count n) ∧
      ∀ before n rest, events = before ++ .found n :: rest → .resolved n ∈ before := by
  have hof : Conversion.ofTextTo text f.word = Conversion.ofText text f := by
    simp only [Conversion.ofTextTo, Format.ofWord?_word]
  rw [hof] at h ⊢
  rcases Conversion.result_ofText_cases text f with
    ⟨e, -, hres⟩ | ⟨env, e, -, -, hres⟩ | ⟨env, resolved, hparse, hresolve, hres⟩
  · cases h.symm.trans hres
  · cases h.symm.trans hres
  · have hwrite : Conversion.writeResolved resolved f = .ok document := hres.symm.trans h
    have hread : readDocument text = (.ok env, (readDocument text).2) := Prod.ext hparse rfl
    obtain ⟨d, us, last, htok, hlast, hd, hlex, henv, hnames⟩ :=
      exists_document_of_readDocument hread
    obtain ⟨hresolved, hperm, hfound, hafter⟩ :=
      events_of_resolve (nodup_keys_parse hparse) hresolve
    have hkeys : env.keys = (Entries.keys d).eraseDups := by
      rw [← henv, WrittenDocument.environment, Entries.keys_collapse]
      simp [Entries.keys, Function.comp_def]
    have hlength : resolved.length = (Entries.keys d).eraseDups.length := by
      rw [← hkeys, ← hperm.length_eq]
      exact (List.length_map _).symm
    refine ⟨d, us, last, env, resolved, _, htok, hlast, hd, hlex, hparse, henv.symm, hresolve, ?_,
      hresolved, hkeys ▸ hperm, (settled_resolve hresolve).1.nodup_keys, hfound, hafter⟩
    rw [Conversion.log_ofText hread hresolve hwrite, ← hnames, hlength]
    simp [Entries.keys]

/-- A binding that is written again is noted again, but the reference in its first value is not
followed: of the three references to `b` two count. -/
theorem conversion_log_overwritten :
    let text := "b=0x1 a=[b] a=\x7bx:[b],y:[b]\x7d"
    ∃ (document : String) (d : WrittenDocument) (events : List Event),
      (Conversion.ofTextTo text Format.yaml.word).result = .ok document ∧
      (Conversion.ofTextTo text Format.yaml.word).log = d.map (fun b => .bound b.1) ++
        events.map .resolution ++
        [.resolved (Entries.keys d).eraseDups.length, .written document.length .yaml] ∧
      events.count (.found "b") = 2 := by
  let d : WrittenDocument := [("b", .number "0x1"), ("a", .reference "b"),
    ("a", .dict [("x", .reference "b"), ("y", .reference "b")])]
  have hname (c : Char) (hc : isNameStart c = true) : IsName (String.ofList [c]) :=
    ⟨c, [], String.toList_ofList, hc, rfl⟩
  have hd : d.WellFormed := by
    refine List.forall_mem_cons.mpr ⟨⟨hname 'b' rfl, rfl⟩, List.forall_mem_cons.mpr
      ⟨⟨hname 'a' rfl, hname 'b' rfl⟩, List.forall_mem_singleton.mpr ?_⟩⟩
    exact ⟨hname 'a' rfl, hname 'x' rfl, hname 'b' rfl, hname 'y' rfl, hname 'b' rfl, trivial⟩
  have hblank : Gap [' '] := .blank rfl .empty
  have hlayout : Layout none d.lexemes "b=0x1 a=[b] a=\x7bx:[b],y:[b]\x7d".toList := by
    iterate 3 refine .token .empty (by decide) ?_
    refine .token hblank (by decide) ?_
    iterate 4 refine .token .empty (by decide) ?_
    refine .token hblank (by decide) ?_
    iterate 14 refine .token .empty (by decide) ?_
    exact .stop (.gap .empty)
  have hparse : parse "b=0x1 a=[b] a=\x7bx:[b],y:[b]\x7d" = .ok [("b", .number ⟨"0x1", 1⟩),
      ("a", .dict [("x", .reference "b"), ("y", .reference "b")])] := (parse_layout hd hlayout).1
  have hresult : (Conversion.ofTextTo "b=0x1 a=[b] a=\x7bx:[b],y:[b]\x7d" Format.yaml.word).result =
      .ok "b: 1\na:\n  x: 1\n  y: 1\n" := by
    show (Conversion.ofText _ .yaml).result = _
    rw [Conversion.result_ofText_eq, hparse]
    cbv
  obtain ⟨d', us, last, env, resolved, events, -, -, -, -, henv, -, -, hlog, -, -, -, hfound, -⟩ :=
    conversion_log hresult
  cases hparse.symm.trans henv
  exact ⟨_, d', events, hresult, hlog, hfound "b"⟩

end HexDoc
