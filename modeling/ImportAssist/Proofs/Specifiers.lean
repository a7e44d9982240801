import ImportAssist.Proofs.Segments

/-!
# Specifiers

A specifier is a row of up to four tokens in front of a comma or a closing brace. Its four forms differ in
their length or in their words, and each is tried as a whole: a form is a row of rules, one for each token
(`readText_form`). What is read of a specifier depends on its own tokens only, whatever the list goes on
with (`readText_specifier`).
-/

namespace ImportAssist

namespace Syntax

open Grammar (Production)
open Utf8 (glyphOf)

/-! ## Rows of rules -/

theorem Part.append_assoc (a b c : Part) : a ++ b ++ c = a ++ (b ++ c) := by
  refine Part.eq_of (List.append_assoc ..) fun offset => ?_
  change a.nodes offset ++ b.nodes _ ++ c.nodes (offset + bytesOf (a.chars ++ b.chars)) =
    a.nodes offset ++ (b.nodes _ ++ c.nodes (offset + bytesOf a.chars + bytesOf b.chars))
  rw [List.append_assoc, bytesOf_append, Nat.add_assoc]

section

variable {d : Dialect} {p : Place} {others : List Production}

theorem allBounded_append : ∀ {rules others : List Production},
    allBounded Symbol.rank 400 (rules ++ others) =
      (allBounded Symbol.rank 400 rules && allBounded Symbol.rank 400 others)
  | [], _ => rfl
  | rule :: rules, others => by
      simp only [List.cons_append, allBounded, allBounded_append, Bool.and_assoc]

/-- A row of rules reads what the first rules read, and then what the others read of the rest. -/
theorem readText_seq_append : ∀ {rules : List Production} {text : List Char},
    IsBounded (.seq rules) → IsBounded (.seq others) →
      readText d p (.seq (rules ++ others)) text = (readText d p (.seq rules) text).bind fun first =>
        (readText d p (.seq others) first.2).map fun more => (first.1 ++ more.1, more.2)
  | [], text, _, _ => by
      rw [readText_seq_nil]
      simp
  | rule :: rules, text, hrules, hothers => by
      have hboth : IsBounded (.seq (rule :: (rules ++ others))) := by
        simp only [IsBounded, Rule.bounded] at hrules hothers ⊢
        rw [← List.cons_append, allBounded_append, hrules, hothers, Bool.and_self]
      rw [List.cons_append, readText_seq_cons hboth, readText_seq_cons hrules, Option.bind_assoc]
      refine congrArg (readText d p rule text).bind (funext fun first => ?_)
      rw [readText_seq_append hrules.seq.2 hothers, Option.bind_map, Option.map_bind]
      simp [Function.comp_def, Part.append_assoc]

/-- A row at the front of a row. -/
theorem readText_seq_seq {rules : List Production} {text : List Char}
    (hbounded : IsBounded (.seq (.seq rules :: others))) :
    readText d p (.seq (.seq rules :: others)) text = readText d p (.seq (rules ++ others)) text := by
  rw [readText_seq_cons hbounded, readText_seq_append hbounded.seq.1 hbounded.seq.2]

/-- A row behind the first rule of a row. -/
theorem readText_seq_second {rule : Production} {rules : List Production} {text : List Char}
    (hbounded : IsBounded (.seq (rule :: .seq rules :: others)))
    (hflat : IsBounded (.seq (rule :: (rules ++ others)))) :
    readText d p (.seq (rule :: .seq rules :: others)) text =
      readText d p (.seq (rule :: (rules ++ others))) text := by
  rw [readText_seq_cons hbounded, readText_seq_cons hflat]
  exact congrArg (readText d p rule text).bind (funext fun first => by rw [readText_seq_seq hbounded.seq.2])

end

/-! ## Forms -/

/-- What a row of tokens is read as, if each passes its test and there is a token for each test. -/
def matchTokens : List TokenTest → Spaced → Option Part
  | [], [] => some .nil
  | test :: tests, (gap, s) :: tokens =>
    (test s).bind fun part => (matchTokens tests tokens).map fun more => part gap ++ more
  | _, _ => none

/-- The marks behind a specifier. -/
def EndsSpecifier (s : Segment) : Prop := s = .mark ',' ∨ s = .mark '\x7d'

instance (s : Segment) : Decidable (EndsSpecifier s) :=
  inferInstanceAs (Decidable (s = .mark ',' ∨ s = .mark '\x7d'))

/-- A test that lets no end of a specifier pass. -/
def TokenTest.Inner (test : TokenTest) : Prop := ∀ s, EndsSpecifier s → test s = none

section

variable {d : Dialect} {p : Place} {rules : List Production} {tests : List TokenTest} {tokens more : Spaced}
  {gap behind text rest : List Char} {s : Segment} {a : Part}

theorem readsToken_endOfSpecifier : ReadsToken d p (.alt [Grammar.sign ",", Grammar.sign "\x7d"])
    ((markTest "," ',').or (markTest "\x7d" '\x7d')) :=
  (readsToken_sign rfl (by decide)).alt (readsToken_sign rfl (by decide)) rfl

theorem endTest_isSome : (((markTest "," ',').or (markTest "\x7d" '\x7d')) s).isSome = true ↔ EndsSpecifier s := by
  simp only [TokenTest.or, markTest, EndsSpecifier]
  split
  · simp [*]
  · split <;> simp [*]

theorem readText_endOfSpecifier (hfits : Fits behind ((gap, s) :: more)) :
    readText d p Grammar.endOfSpecifier (textOf ((gap, s) :: more) ++ behind) =
      if EndsSpecifier s then some (.nil, textOf ((gap, s) :: more) ++ behind) else none := by
  rw [Grammar.endOfSpecifier, readText_ahead rfl, readsToken_endOfSpecifier.reads hfits]
  split
  · rename_i hends
    obtain ⟨part, hpart⟩ := Option.isSome_iff_exists.mp (endTest_isSome.mpr hends)
    rw [hpart]
    rfl
  · rename_i hends
    have hnone : ((markTest "," ',').or (markTest "\x7d" '\x7d')) s = none := by
      rw [← Option.not_isSome_iff_eq_none, endTest_isSome]
      exact hends
    rw [hnone]
    rfl

/-- A form reads a row of as many tokens as it has rules. -/
theorem readText_form : ∀ {rules : List Production} {tests : List TokenTest} {tokens : Spaced},
    List.Forall₂ (ReadsToken d p) rules tests → (∀ test ∈ tests, test.Inner) →
      IsBounded (.seq (rules ++ [Grammar.endOfSpecifier])) → (∀ token ∈ tokens, ¬EndsSpecifier token.2) →
        EndsSpecifier s → Fits behind (tokens ++ (gap, s) :: more) →
          readText d p (.seq (rules ++ [Grammar.endOfSpecifier]))
              (textOf (tokens ++ (gap, s) :: more) ++ behind) =
            (matchTokens tests tokens).map fun a => (a, textOf ((gap, s) :: more) ++ behind)
  | [], [], [], .nil, _, hbounded, _, hends, hfits => by
      rw [List.nil_append, List.nil_append, readText_seq_last hbounded, readText_endOfSpecifier hfits,
        if_pos hends]
      rfl
  | [], [], (gap', s') :: tokens, .nil, _, hbounded, hinner, _, hfits => by
      rw [List.cons_append] at hfits
      rw [List.nil_append, readText_seq_last hbounded, List.cons_append, readText_endOfSpecifier hfits,
        if_neg (hinner _ List.mem_cons_self)]
      rfl
  | rule :: rules, test :: tests, [], .cons hrule _, htests, hbounded, _, hends, hfits => by
      rw [List.cons_append] at hbounded
      rw [List.cons_append, List.nil_append, hrule.seq hbounded hfits, htests test List.mem_cons_self s hends]
      rfl
  | rule :: rules, test :: tests, (gap', s') :: tokens, .cons hrule hrules, htests, hbounded, hinner, hends,
    hfits => by
      rw [List.cons_append] at hbounded hfits
      have hmore := readText_form hrules (fun test htest => htests test (List.mem_cons_of_mem _ htest))
        hbounded.seq.2 (fun token htoken => hinner token (List.mem_cons_of_mem _ htoken)) hends hfits.2.2
      rw [List.cons_append, List.cons_append, hrule.seq hbounded hfits, hmore, matchTokens, Option.map_bind]
      simp only [Option.map_map, Function.comp_def]

/-- What a form has read. -/
theorem readText_form_inv : ∀ {rules : List Production} {tests : List TokenTest} {text rest : List Char}
    {a : Part}, List.Forall₂ (ReadsToken d p) rules tests →
      IsBounded (.seq (rules ++ [Grammar.endOfSpecifier])) →
      readText d p (.seq (rules ++ [Grammar.endOfSpecifier])) text = some (a, rest) →
      ∃ tokens gap s behind, Spans tokens text rest ∧ Spans [(gap, s)] rest behind ∧ EndsSpecifier s ∧
        (matchTokens tests tokens).isSome = true
  | [], [], text, rest, a, .nil, hbounded, h => by
      rw [List.nil_append, readText_seq_last hbounded] at h
      obtain ⟨rfl, ⟨b, behind⟩, hr⟩ := readText_ahead_inv rfl h
      obtain ⟨gap, s, hspans, htest⟩ := readsToken_endOfSpecifier.taken hr
      exact ⟨[], gap, s, behind, spans_nil _, hspans, endTest_isSome.mp htest, rfl⟩
  | rule :: rules, test :: tests, text, rest, a, .cons hrule hrules, hbounded, h => by
      rw [List.cons_append] at hbounded h
      obtain ⟨b, middle, c, hb, hc⟩ := readText_seq_inv hbounded h
      obtain ⟨gap, s, hspans, htest⟩ := hrule.taken hb
      obtain ⟨tokens, gap', s', behind, hmore, hend, hends, hmatch⟩ := readText_form_inv hrules hbounded.seq.2 hc
      refine ⟨(gap, s) :: tokens, gap', s', behind, hspans.append hmore, hend, hends, ?_⟩
      obtain ⟨part, hpart⟩ := Option.isSome_iff_exists.mp htest
      obtain ⟨more, hmore⟩ := Option.isSome_iff_exists.mp hmatch
      simp [matchTokens, hpart, hmore]

/-- Among the tokens that match there is no end of a specifier. -/
theorem matchTokens_inner : ∀ {tests : List TokenTest} {tokens : Spaced}, (∀ test ∈ tests, test.Inner) →
    (matchTokens tests tokens).isSome = true → ∀ token ∈ tokens, ¬EndsSpecifier token.2
  | [], [], _, _ => nofun
  | test :: tests, (gap, s) :: tokens, htests, h => by
      obtain ⟨a, ha⟩ := Option.isSome_iff_exists.mp h
      obtain ⟨part, hpart, hmore⟩ := Option.bind_eq_some_iff.mp ha
      obtain ⟨more, hmore, -⟩ := Option.map_eq_some_iff.mp hmore
      refine List.forall_mem_cons.mpr ⟨fun hends => ?_, ?_⟩
      · rw [htests test List.mem_cons_self s hends] at hpart
        cases hpart
      · exact matchTokens_inner (fun test htest => htests test (List.mem_cons_of_mem _ htest))
          (Option.isSome_of_eq_some hmore)

end

/-! ## Reading a specifier -/

/-- A word that restricts an import to types. -/
def typeTest (d : Dialect) : TokenTest :=
  if d.typed then (wordTest "type").or (wordTest "typeof") else fun _ => none

/-- A name that a module exports. -/
def exportTest : TokenTest := (nameTest []).or stringTest

/-- The forms of a specifier, in the order in which they are tried. -/
def specifierForms (d : Dialect) : List (List TokenTest) :=
  let renamed := [exportTest.withRole .name, wordTest "as", (nameTest []).withRole .newName]
  let plain := [(nameTest []).withRole .name]
  [typeTest d :: renamed, renamed, typeTest d :: plain, plain]

/-- What the tokens of a specifier are read as, with no gap in front of the first one. -/
def specifierInner (d : Dialect) (tokens : Spaced) : Option Part :=
  (specifierForms d).findSome? fun form => matchTokens form tokens

/-- What the tokens of a specifier are read as. -/
def specifierPart (d : Dialect) : Spaced → Option Part
  | [] => none
  | (gap, s) :: tokens => (specifierInner d (([], s) :: tokens)).map (Part.node .importSpecifier gap)

section

variable {d : Dialect} {p : Place} {tokens more : Spaced} {gap behind text rest : List Char} {s : Segment}
  {a : Part}

theorem readsToken_typeWord : ReadsToken d p (Grammar.typeWord d) (typeTest d) := by
  unfold Grammar.typeWord Grammar.onlyIf typeTest
  cases d.typed with
  | true => exact (readsToken_keyword (by decide)).alt (readsToken_keyword (by decide)) rfl
  | false => exact readsToken_never

theorem readsToken_moduleExportName : ReadsToken d p Grammar.moduleExportName exportTest :=
  (readsToken_name []).alt readsToken_string rfl

theorem specifierForms_inner : ∀ form ∈ specifierForms d, ∀ test ∈ form, test.Inner := by
  have hword (text : String) : (wordTest text).Inner := by
    rintro s (rfl | rfl) <;> rfl
  have hname (role : Role) : ((nameTest []).withRole role).Inner := by
    rintro s (rfl | rfl) <;> rfl
  have hexport : (exportTest.withRole .name).Inner := by
    rintro s (rfl | rfl) <;> rfl
  have htype : (typeTest d).Inner := by
    cases d <;> rintro s (rfl | rfl) <;> rfl
  simp [specifierForms, hword, hname, hexport, htype]

/-- The rules of the forms. -/
def specifierRules (d : Dialect) : List (List Production) :=
  let renamed := [.role .name Grammar.moduleExportName, Grammar.word "as",
    .role .newName (.name .identifier [])]
  let plain := [.role .name (.name .identifier [])]
  [Grammar.typeWord d :: renamed, renamed, Grammar.typeWord d :: plain, plain]

/-- A specifier is one of its forms. -/
def specifierForm (d : Dialect) : Production :=
  .alt ((specifierRules d).map fun rules => .seq (rules ++ [Grammar.endOfSpecifier]))

theorem specifierRules_read : List.Forall₂ (List.Forall₂ (ReadsToken d p)) (specifierRules d)
    (specifierForms d) := by
  have hexport := (readsToken_moduleExportName (d := d) (p := p)).role .name
  have has : ReadsToken d p (Grammar.word "as") (wordTest "as") := readsToken_keyword (by decide)
  have hname (role : Role) : ReadsToken d p (.role role (.name .identifier []))
    ((nameTest []).withRole role) := (readsToken_name []).role role
  have htype : ReadsToken d p (Grammar.typeWord d) (typeTest d) := readsToken_typeWord
  exact .cons (.cons htype (.cons hexport (.cons has (.cons (hname .newName) .nil))))
    (.cons (.cons hexport (.cons has (.cons (hname .newName) .nil)))
      (.cons (.cons htype (.cons (hname .name) .nil)) (.cons (.cons (hname .name) .nil) .nil)))

/-- Each rule has its form. -/
theorem exists_form {rules : List Production} (hrules : rules ∈ specifierRules d) :
    ∃ form ∈ specifierForms d, List.Forall₂ (ReadsToken d p) rules form := by
  have hread := @specifierRules_read d p
  generalize specifierRules d = choices, specifierForms d = forms at *
  induction hread with
  | nil => cases hrules
  | @cons first form choices forms hfirst _ ih =>
      rcases List.mem_cons.mp hrules with rfl | hmem
      · exact ⟨form, List.mem_cons_self, hfirst⟩
      · obtain ⟨form, hform, hread⟩ := ih hmem
        exact ⟨form, List.mem_cons_of_mem _ hform, hread⟩

/-- What the grammar has for a specifier. -/
def specifierAlternatives (d : Dialect) : Production :=
  let renamed := .seq [.role .name Grammar.moduleExportName, Grammar.word "as",
    .role .newName (.name .identifier [])]
  let plain := .role .name (.name .identifier [])
  .alt [
    .seq [Grammar.typeWord d, renamed, Grammar.endOfSpecifier],
    .seq [renamed, Grammar.endOfSpecifier],
    .seq [Grammar.typeWord d, plain, Grammar.endOfSpecifier],
    .seq [plain, Grammar.endOfSpecifier]]

theorem importSpecifier_eq : Grammar.importSpecifier d = .node .importSpecifier (specifierAlternatives d) := rfl

theorem isBounded_specifierAlternatives : IsBounded (specifierAlternatives d) := by cases d <;> rfl

theorem isBounded_specifierForm : IsBounded (specifierForm d) := by cases d <;> rfl

theorem readText_specifierAlternatives :
    readText d p (specifierAlternatives d) text = readText d p (specifierForm d) text := by
  have hbounded := @isBounded_specifierAlternatives d
  have hforms := @isBounded_specifierForm d
  unfold specifierAlternatives at hbounded ⊢
  unfold specifierForm specifierRules at hforms ⊢
  simp only [List.map_cons, List.map_nil, List.cons_append, List.nil_append] at hforms ⊢
  rw [readText_alt_cons hbounded, readText_alt_cons hbounded.alt.2, readText_alt_cons hbounded.alt.2.alt.2,
    readText_alt_cons hforms, readText_alt_cons hforms.alt.2, readText_alt_cons hforms.alt.2.alt.2,
    readText_seq_second hbounded.alt.1 hforms.alt.1, readText_seq_seq hbounded.alt.2.alt.1]
  rfl

/-- What is read of the forms depends on the tokens in front of the mark. -/
theorem readText_specifierForm (hinner : ∀ token ∈ tokens, ¬EndsSpecifier token.2) (hends : EndsSpecifier s)
    (hfits : Fits behind (tokens ++ (gap, s) :: more)) :
    readText d p (specifierForm d) (textOf (tokens ++ (gap, s) :: more) ++ behind) =
      (specifierInner d tokens).map fun a => (a, textOf ((gap, s) :: more) ++ behind) := by
  have hbounded := @isBounded_specifierForm d
  have hread := @specifierRules_read d p
  have hforms := @specifierForms_inner d
  unfold specifierForm specifierInner at *
  generalize specifierRules d = rules, specifierForms d = forms at *
  induction hread with
  | nil => exact readText_alt_nil
  | @cons rules form _ _ hrules _ ih =>
      rw [List.map_cons] at hbounded
      rw [List.map_cons, readText_alt_cons hbounded, ih hbounded.alt.2
          (fun form hform => hforms form (List.mem_cons_of_mem _ hform)),
        readText_form hrules (hforms form List.mem_cons_self) hbounded.alt.1 hinner hends hfits,
        List.findSome?_cons]
      cases matchTokens form tokens <;> rfl

/-- What is read of a specifier depends on the tokens in front of the mark. -/
theorem readText_specifier (hinner : ∀ token ∈ tokens, ¬EndsSpecifier token.2) (hends : EndsSpecifier s)
    (hfits : Fits behind (tokens ++ (gap, s) :: more)) :
    readText d p (Grammar.importSpecifier d) (textOf (tokens ++ (gap, s) :: more) ++ behind) =
      (specifierPart d tokens).map fun a => (a, textOf ((gap, s) :: more) ++ behind) := by
  have hbounded := @isBounded_specifierAlternatives d
  cases tokens with
  | nil =>
      have hnone : specifierInner d [] = none := by cases d <;> rfl
      have hforms := @readText_specifierForm d p [] more [] behind s nofun hends hfits.without_gap
      rw [List.nil_append] at hfits hforms ⊢
      rw [importSpecifier_eq, readText_node_row hbounded hfits, readText_specifierAlternatives, hforms, hnone]
      rfl
  | cons token tokens =>
      obtain ⟨gap', s'⟩ := token
      have hforms := @readText_specifierForm d p (([], s') :: tokens) more gap behind s
        (List.forall_mem_cons.mpr (List.forall_mem_cons.mp hinner)) hends hfits.without_gap
      rw [List.cons_append] at hfits hforms ⊢
      rw [importSpecifier_eq, readText_node_row hbounded hfits, readText_specifierAlternatives, hforms,
        specifierPart, Option.map_map, Option.map_map]
      rfl

/-- What has been read as a specifier. -/
theorem readText_specifier_inv (h : readText d p (Grammar.importSpecifier d) text = some (a, rest)) :
    ∃ tokens gap s behind, Spans tokens text rest ∧ Spans [(gap, s)] rest behind ∧ EndsSpecifier s ∧
      specifierPart d tokens = some a := by
  have hbounded := @isBounded_specifierAlternatives d
  rw [importSpecifier_eq] at h
  obtain ⟨gap, more, b, rfl, hgap, -, hb, -⟩ := readText_node_inv hbounded (by cases d <;> rfl) h
  rw [readText_specifierAlternatives] at hb
  obtain ⟨choice, hchoice, hb⟩ := readText_alt_inv isBounded_specifierForm hb
  obtain ⟨rules, hrules, rfl⟩ := List.mem_map.mp hchoice
  obtain ⟨form, hform, hread⟩ := @exists_form d p rules hrules
  obtain ⟨tokens, gap', s, behind, hspans, hend, hends, hmatch⟩ :=
    readText_form_inv hread (isBounded_specifierForm.of_mem hchoice) hb
  have hinner := matchTokens_inner (specifierForms_inner form hform) hmatch
  obtain ⟨⟨first, s'⟩, others, rfl⟩ : ∃ token others, tokens = token :: others := by
    refine List.exists_cons_of_ne_nil ?_
    rintro rfl
    cases form with
    | nil => simp [specifierForms] at hform
    | cons => cases hmatch
  -- the gap in front of the node is that of its first token
  have hwhole := hspans.behind_gap hgap
  obtain ⟨htext, hfits⟩ := hwhole.append hend
  have hread := @readText_specifier d p ((gap ++ first, s') :: others) [] gap' behind s
    (List.forall_mem_cons.mpr (List.forall_mem_cons.mp hinner)) hends hfits
  rw [← htext, importSpecifier_eq, h] at hread
  obtain ⟨part, hpart, heq⟩ := Option.map_eq_some_iff.mp hread.symm
  cases heq
  exact ⟨_, gap', s, behind, hwhole, hend, hends, hpart⟩

end

end Syntax

end ImportAssist
