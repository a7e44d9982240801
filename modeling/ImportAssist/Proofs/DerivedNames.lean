import Mathlib
import ImportAssist.Naming
import ImportAssist.Text.LowerCase

/-!
# Names derived from names

No rule of the user decides here: a name is cut into words and put together again by a convention.

The words hold every letter and digit of the name in their order, and nothing else (`flatten_wordsFrom`). A
convention changes only the case of letters and puts underscores between words, so all of them agree once
case and marks are disregarded (`conventions_agree`).
-/

namespace ImportAssist

/-! ## Words -/

section Words

variable {chars : List Char} {c : Char}

theorem take_takeWhile {p : Char → Bool} : chars.take (chars.takeWhile p).length = chars.takeWhile p :=
  (List.prefix_iff_eq_take.1 (List.takeWhile_prefix p)).symm

theorem takeWhile_cons_length {p : Char → Bool} (h : ((c :: chars).takeWhile p).length = 0) : p c = false := by
  simpa [List.takeWhile_cons] using h

theorem isAlphanum_of_isAlpha (h : c.isAlpha = true) : c.isAlphanum = true := by
  simp [Char.isAlphanum, h]

theorem isAlphanum_of_isUpper (h : c.isUpper = true) : c.isAlphanum = true :=
  isAlphanum_of_isAlpha (by simp [Char.isAlpha, h])

theorem isAlphanum_of_isLower (h : c.isLower = true) : c.isAlphanum = true :=
  isAlphanum_of_isAlpha (by simp [Char.isAlpha, h])

theorem isAlphanum_of_isDigit (h : c.isDigit = true) : c.isAlphanum = true := by
  simp [Char.isAlphanum, h]

theorem isAlphanum_of_mem_capitals {n : Nat} (hn : n ≤ capitals chars) (h : c ∈ chars.take n) :
    c.isAlphanum = true := by
  have hmem : c ∈ chars.take (capitals chars) := (List.take_prefix_take_left hn).mem h
  rw [capitals, take_takeWhile] at hmem
  exact isAlphanum_of_isUpper (List.mem_takeWhile_imp hmem)

theorem isAlphanum_of_mem_smallWord (h : c ∈ chars.take (smallWord chars)) : c.isAlphanum = true := by
  unfold smallWord at h
  dsimp only at h
  split at h
  · exact absurd h (by simp)
  · rw [List.take_add, take_takeWhile, take_takeWhile] at h
    rcases List.mem_append.mp h with h | h
    · exact isAlphanum_of_isLower (List.mem_takeWhile_imp h)
    · exact isAlphanum_of_isDigit (List.mem_takeWhile_imp h)

/-- A word is made of letters and digits. -/
theorem isAlphanum_of_mem_word (h : c ∈ chars.take (wordLength chars)) : c.isAlphanum = true := by
  unfold wordLength at h
  dsimp only at h
  split at h
  · rename_i hnone
    split at h
    · rw [hnone, List.drop_zero] at h
      exact isAlphanum_of_mem_smallWord h
    · rw [take_takeWhile] at h
      exact isAlphanum_of_isDigit (List.mem_takeWhile_imp h)
  · split at h
    · exact isAlphanum_of_mem_capitals (Nat.le_refl _) h
    · split at h
      · -- One capital starts a word of small letters.
        rename_i hone
        rw [hone, Nat.add_comm, List.take_add] at h
        rcases List.mem_append.mp h with h | h
        · exact isAlphanum_of_mem_capitals (Nat.le_of_eq hone.symm) h
        · exact isAlphanum_of_mem_smallWord h
      · split at h
        · rename_i htwo
          exact isAlphanum_of_mem_capitals (Nat.le_of_eq htwo.symm) h
        · exact isAlphanum_of_mem_capitals (Nat.sub_le ..) h

/-- A word starts at every letter and at every digit. -/
theorem wordLength_eq_zero (h : wordLength (c :: chars) = 0) : c.isAlphanum = false := by
  unfold wordLength at h
  dsimp only at h
  split at h
  · rename_i hnone
    have hupper : c.isUpper = false := takeWhile_cons_length hnone
    rw [hnone, List.drop_zero] at h
    split at h
    · contradiction
    · rename_i hsmall
      have hdigit : c.isDigit = false := takeWhile_cons_length h
      have hlower : c.isLower = false := by
        unfold smallWord at hsmall
        dsimp only at hsmall
        split at hsmall
        · rename_i hempty
          exact takeWhile_cons_length (List.isEmpty_iff_length_eq_zero.mp hempty)
        · rename_i hletters
          rw [List.isEmpty_iff_length_eq_zero] at hletters
          omega
      simp [Char.isAlphanum, Char.isAlpha, hupper, hlower, hdigit]
  · -- Capitals make a word of at least one character.
    split at h
    · contradiction
    · split at h
      · omega
      · split at h <;> omega

/-- The words of a text together are its letters and digits. -/
theorem flatten_wordsFrom (skip : Nat) (chars : List Char) :
    (wordsFrom skip chars).flatten = (chars.drop skip).filter Char.isAlphanum := by
  fun_induction wordsFrom skip chars with
  | case1 skip => simp
  | case2 skip c rest ih => rw [ih, List.drop_succ_cons]
  | case3 c rest hnone ih =>
      rw [ih, List.drop_zero, List.drop_zero, List.filter_cons_of_neg (by simp [wordLength_eq_zero hnone])]
  | case4 c rest n hlength ih =>
      have hword : ((c :: rest).take (n + 1)).filter Char.isAlphanum = (c :: rest).take (n + 1) :=
        List.filter_eq_self.mpr fun x hx => isAlphanum_of_mem_word (by rwa [hlength])
      rw [List.flatten_cons, ih, List.drop_zero, ← List.drop_succ_cons (a := c), ← hword, ← List.filter_append,
        List.take_append_drop]

/-- No word is empty. -/
theorem ne_nil_of_mem_wordsFrom {skip : Nat} {word : List Char} (h : word ∈ wordsFrom skip chars) :
    word ≠ [] := by
  fun_induction wordsFrom skip chars with
  | case1 skip => cases h
  | case2 skip c rest ih => exact ih h
  | case3 c rest hnone ih => exact ih h
  | case4 c rest n hlength ih =>
      rcases List.mem_cons.mp h with rfl | h
      · simp
      · exact ih h

theorem join_splitWords (name : String) :
    String.join (splitWords name) = String.ofList (name.toList.filter Char.isAlphanum) := by
  have hwords := flatten_wordsFrom 0 name.toList
  rw [List.drop_zero] at hwords
  apply String.toList_inj.1
  rw [String.toList_join, String.toList_ofList, ← hwords, splitWords, List.flatMap_map]
  simp [List.flatMap_def]

end Words

/-! ## Letters and marks -/

section Letters

variable {chars other : List Char} {c : Char}

/-- The characters of an identifier that are neither letters nor digits. -/
def isMark (c : Char) : Bool := c = '_' || c = '$'

/-- A text without its marks. -/
def withoutMarks (text : String) : String := String.ofList (text.toList.filter fun c => !isMark c)

/-- What is left of a text if case and marks are disregarded. -/
def letters (chars : List Char) : List Char := (chars.filter fun c => !isMark c).map Char.toLower

theorem toLower_cases (c : Char) : c.toLower = c ∨ c.isAlpha = true ∧ c.toLower.isAlpha = true := by
  by_cases hupper : c.isUpper = true
  · have halpha : c.isAlpha = true := by simp [Char.isAlpha, hupper]
    exact .inr ⟨halpha, by rwa [Char.isAlpha_toLower_eq_isAlpha]⟩
  · exact .inl (Char.toLower_eq_of_not_isUpper hupper)

theorem isDigit_of_isAlpha (h : c.isAlpha = true) : c.isDigit = false := by
  have hcapital : 'A'.val.toNat = 65 := rfl
  have hsmall : 'a'.val.toNat = 97 := rfl
  have hnine : '9'.val.toNat = 57 := rfl
  simp only [Char.isAlpha, Char.isUpper, Char.isLower, Bool.or_eq_true, Bool.and_eq_true, decide_eq_true_eq,
    ge_iff_le, UInt32.le_iff_toNat_le] at h
  simp only [Char.isDigit, Bool.and_eq_false_iff, decide_eq_false_iff_not, ge_iff_le, UInt32.le_iff_toNat_le]
  omega

theorem isMark_of_isAlphanum (h : c.isAlphanum = true) : isMark c = false := by
  rw [isMark, Bool.or_eq_false_iff, decide_eq_false_iff_not, decide_eq_false_iff_not]
  constructor <;>
    · rintro rfl
      cases h

theorem isIdentifierChar_eq (c : Char) : isIdentifierChar c = (c.isAlphanum || isMark c) := by
  rw [isIdentifierChar, isMark, Bool.or_assoc]

@[simp] theorem isDigit_toLower (c : Char) : c.toLower.isDigit = c.isDigit := by
  rcases toLower_cases c with heq | ⟨halpha, hlower⟩
  · rw [heq]
  · rw [isDigit_of_isAlpha halpha, isDigit_of_isAlpha hlower]

@[simp] theorem isAlphanum_toLower (c : Char) : c.toLower.isAlphanum = c.isAlphanum := by
  rw [Char.isAlphanum, Char.isAlphanum, Char.isAlpha_toLower_eq_isAlpha, isDigit_toLower]

@[simp] theorem isMark_toLower (c : Char) : isMark c.toLower = isMark c := by
  rcases toLower_cases c with heq | ⟨halpha, hlower⟩
  · rw [heq]
  · rw [isMark_of_isAlphanum (isAlphanum_of_isAlpha halpha), isMark_of_isAlphanum (isAlphanum_of_isAlpha hlower)]

theorem letters_eq (chars : List Char) : letters chars = (chars.map Char.toLower).filter fun c => !isMark c := by
  rw [letters, List.filter_map]
  congr 2
  funext c
  simp

/-- Texts that differ only in case have the same letters. -/
theorem letters_congr (h : chars.map Char.toLower = other.map Char.toLower) : letters chars = letters other := by
  rw [letters_eq, letters_eq, h]

theorem letters_append (chars other : List Char) : letters (chars ++ other) = letters chars ++ letters other := by
  rw [letters, List.filter_append, List.map_append, letters, letters]

theorem letters_flatten (lists : List (List Char)) : letters lists.flatten = lists.flatMap letters := by
  induction lists with
  | nil => rfl
  | cons chars lists ih => rw [List.flatten_cons, letters_append, ih, List.flatMap_cons]

theorem letters_intercalate (lists : List (List Char)) :
    letters (['_'].intercalate lists) = lists.flatMap letters := by
  induction lists with
  | nil => rfl
  | cons chars lists ih =>
      cases lists with
      | nil => simp
      | cons next lists =>
          have hmark : letters ['_'] = [] := rfl
          rw [List.intercalate_cons_cons, letters_append, letters_append, ih, hmark, List.append_nil]
          rfl

theorem letters_alphanumeric (h : ∀ c ∈ chars, c.isAlphanum = true) : letters chars = chars.map Char.toLower := by
  rw [letters, List.filter_eq_self.mpr fun c hc => by rw [isMark_of_isAlphanum (h c hc)]; rfl]

/-! ## Conventions -/

theorem toList_lowerWord (word : String) :
    (lowerWord word).toList.map Char.toLower = word.toList.map Char.toLower := by
  rw [lowerWord, String.toList_ofList, List.map_map]
  exact List.map_congr_left fun c _ => Char.toLower_toLower_eq_toLower c

theorem toList_upperFirst (word : String) :
    (upperFirst word).toList.map Char.toLower = word.toList.map Char.toLower := by
  unfold upperFirst
  split
  · rename_i hnil
    rw [hnil]
    rfl
  · rename_i c rest hcons
    rw [hcons, String.toList_ofList, List.map_cons, List.map_cons, Char.toLower_toUpper_eq_toLower]

/-- Spelling words another way differs only in case if it does so for each word. -/
theorem toList_join_map {spell : String → String} (words : List String)
    (h : ∀ word, (spell word).toList.map Char.toLower = word.toList.map Char.toLower) :
    (String.join (words.map spell)).toList.map Char.toLower = (String.join words).toList.map Char.toLower := by
  induction words with
  | nil => rfl
  | cons word words ih =>
      rw [String.toList_join, String.toList_join] at ih ⊢
      rw [List.map_cons, List.flatMap_cons, List.flatMap_cons, List.map_append, List.map_append, ih, h word]

theorem NamingConvention.toList_camelCase (name : String) :
    (NamingConvention.camelCase.apply name).toList.map Char.toLower =
      (String.join (splitWords name)).toList.map Char.toLower := by
  unfold apply
  dsimp only
  cases splitWords name with
  | nil => rfl
  | cons word words =>
      have hrest := toList_join_map words fun w => (toList_upperFirst (lowerWord w)).trans (toList_lowerWord w)
      rw [List.map_cons]
      dsimp only
      rw [String.toList_join, String.toList_join] at hrest ⊢
      rw [List.flatMap_cons, List.flatMap_cons, List.map_append, List.map_append, toList_lowerWord, List.map_map]
      exact congrArg _ hrest

/-- What a convention makes of the words, underscores between them apart. -/
theorem NamingConvention.toList_apply {convention : NamingConvention} (name : String)
    (hsnake : convention ≠ .snakeCase) (hnone : convention ≠ .none) :
    (convention.apply name).toList.map Char.toLower =
      (name.toList.filter Char.isAlphanum).map Char.toLower := by
  have hwords := congrArg String.toList (join_splitWords name)
  rw [String.toList_ofList] at hwords
  rw [← hwords]
  cases convention with
  | camelCase => exact toList_camelCase name
  | pascalCase => exact toList_join_map _ toList_upperFirst
  | snakeCase => exact absurd rfl hsnake
  | lowercase => exact toList_join_map _ toList_lowerWord
  | none => exact absurd rfl hnone

/-- Every convention keeps the letters and digits of a name. -/
theorem NamingConvention.letters_apply (convention : NamingConvention) (name : String) :
    letters (convention.apply name).toList = (name.toList.filter Char.isAlphanum).map Char.toLower := by
  have hall : letters (name.toList.filter Char.isAlphanum) =
      (name.toList.filter Char.isAlphanum).map Char.toLower :=
    letters_alphanumeric fun c hc => (List.mem_filter.mp hc).2
  by_cases hsnake : convention = .snakeCase
  · have hwords := letters_congr (toList_join_map (splitWords name) toList_lowerWord)
    rw [join_splitWords, String.toList_ofList, hall] at hwords
    rw [hsnake, ← hwords, String.toList_join, apply, String.toList_intercalate]
    exact (letters_intercalate _).trans (by rw [← letters_flatten, List.flatMap_def])
  · by_cases hnone : convention = .none
    · rw [hnone, apply, String.toList_ofList, letters, List.filter_filter]
      refine congrArg _ (List.filter_congr fun c _ => ?_)
      rw [isIdentifierChar_eq]
      cases halphanum : c.isAlphanum with
      | true => rw [isMark_of_isAlphanum halphanum]; rfl
      | false => cases isMark c <;> rfl
    · rw [letters_congr (toList_apply name hsnake hnone), hall]

/-- A convention makes a text of what identifiers can hold. -/
theorem NamingConvention.isIdentifierChar_of_mem {convention : NamingConvention} {name : String}
    (h : c ∈ (convention.apply name).toList) : isIdentifierChar c = true := by
  rw [isIdentifierChar_eq, Bool.or_eq_true, or_iff_not_imp_right, Bool.not_eq_true]
  intro hmark
  have hletter : c.toLower ∈ letters (convention.apply name).toList :=
    List.mem_map_of_mem (List.mem_filter.mpr ⟨h, by rw [hmark]; rfl⟩)
  rw [letters_apply] at hletter
  obtain ⟨other, hother, heq⟩ := List.mem_map.mp hletter
  rw [← isAlphanum_toLower, ← heq, isAlphanum_toLower]
  exact (List.mem_filter.mp hother).2

end Letters

/-! ## Lower case -/

theorem lowerFrom_eq_map {chars : List Char} (before : List Char) (h : ∀ c ∈ chars, c.toNat < 128) :
    lowerFrom before chars = chars.map Char.toLower := by
  induction chars generalizing before with
  | nil => rfl
  | cons c rest ih =>
      have hc : c.toNat < 128 := h c (List.mem_cons_self ..)
      have hsigma : c ≠ 'Σ' := by
        rintro rfl
        exact absurd hc (by decide)
      have hdotted : c ≠ 'İ' := by
        rintro rfl
        exact absurd hc (by decide)
      rw [lowerFrom, ih (c :: before) fun x hx => h x (List.mem_cons_of_mem _ hx), if_neg hsigma, if_neg hdotted,
        lowerChar]
      dsimp only
      rw [if_pos hc]
      rfl

theorem toNat_lt_of_isIdentifierChar {c : Char} (h : isIdentifierChar c = true) : c.toNat < 128 := by
  have hcapital : 'Z'.val.toNat = 90 := rfl
  have hsmall : 'z'.val.toNat = 122 := rfl
  have hnine : '9'.val.toNat = 57 := rfl
  rw [isIdentifierChar_eq, isMark, Char.isAlphanum, Char.isAlpha] at h
  simp only [Char.isUpper, Char.isLower, Char.isDigit, Bool.or_eq_true, Bool.and_eq_true, decide_eq_true_eq,
    ge_iff_le, UInt32.le_iff_toNat_le] at h
  rcases h with hword | rfl | rfl
  · have hvalue : c.toNat = c.val.toNat := rfl
    omega
  · decide
  · decide

theorem toLower_withoutMarks {text : String} (h : ∀ c ∈ text.toList, isIdentifierChar c = true) :
    toLower (withoutMarks text) = String.ofList (letters text.toList) := by
  rw [toLower, withoutMarks, String.toList_ofList, lowerFrom_eq_map, letters]
  exact fun c hc => toNat_lt_of_isIdentifierChar (h c (List.mem_filter.mp hc).1)

/-! ## Names that no rule decides -/

/-- The patterns of all rules can be read, and none is found in a name. -/
def NoRuleMatches (name : String) (rules : List (String × String)) : Prop :=
  ∀ rule ∈ rules, ∃ compiled, Pattern.read rule.1 = some compiled ∧ compiled.search name = none

theorem predefinedName?_eq_none_iff {name : String} {rules : List (String × String)} :
    predefinedName? name rules = .ok none ↔ NoRuleMatches name rules := by
  induction rules with
  | nil => exact iff_of_true rfl (fun _ hr => absurd hr List.not_mem_nil)
  | cons rule rules ih =>
      obtain ⟨pattern, replacement⟩ := rule
      rw [NoRuleMatches, List.forall_mem_cons, predefinedName?]
      cases hread : Pattern.read pattern with
      | none => simp
      | some compiled =>
          dsimp only
          cases hsearch : compiled.search name with
          | none => exact ih.trans (and_iff_right ⟨compiled, rfl, hsearch⟩).symm
          | some found =>
              -- What comes of the rule is its text or a failure.
              dsimp only
              refine iff_of_false ?_ (by simp [hsearch])
              split <;> simp

theorem variableName_eq {name : String} {options : Options} (h : NoRuleMatches name options.predefinedNames) :
    variableName name options =
      .ok (options.convention.apply (String.ofList (name.toList.dropWhile isDecimal))) := by
  rw [variableName, predefinedName?_eq_none_iff.mpr h]
  rfl

/-- A name gets the same letters and digits by every convention: those of the name behind the decimal digits that
lead it, in their order. In particular the words of a text hold all its letters and digits, each once. -/
theorem conventions_agree {name : String} {options : Options} (h : NoRuleMatches name options.predefinedNames) :
    (∀ convention, ∃ text, variableName name { options with convention := convention } = .ok text ∧
      toLower (withoutMarks text) =
        String.ofList (((name.toList.dropWhile isDecimal).filter Char.isAlphanum).map Char.toLower)) ∧
      ∀ input, String.join (splitWords input) = String.ofList (input.toList.filter Char.isAlphanum) := by
  refine ⟨fun convention => ⟨_, variableName_eq h, ?_⟩, join_splitWords⟩
  rw [toLower_withoutMarks fun c hc => NamingConvention.isIdentifierChar_of_mem hc, NamingConvention.letters_apply,
    String.toList_ofList]

/-- The rule that is there is for another name. The digits that lead the name are dropped, the one inside is kept. -/
theorem shaders_agree :
    NoRuleMatches "3d-glTF2_Shader" [("^jquery$", "$")] ∧
      String.join (splitWords "3d-glTF2_Shader") = "3dglTF2Shader" ∧
      ∀ convention, ∃ text,
        variableName "3d-glTF2_Shader" { predefinedNames := [("^jquery$", "$")], convention := convention } = .ok text ∧
          toLower (withoutMarks text) = "dgltf2shader" := by
  have hrules : NoRuleMatches "3d-glTF2_Shader" [("^jquery$", "$")] :=
    predefinedName?_eq_none_iff.mp (by decide +kernel)
  have hagree := @conventions_agree "3d-glTF2_Shader" { predefinedNames := [("^jquery$", "$")] } hrules
  exact ⟨hrules, (hagree.2 _).trans (by decide +kernel), fun convention =>
    (hagree.1 convention).imp fun text htext => ⟨htext.1, htext.2.trans (by decide +kernel)⟩⟩

/-! ## First characters -/

/-- A text that can be the name of a binding, unless it is a reserved word. -/
structure IsIdentifier (text : String) : Prop where
  ne_empty : text ≠ ""
  identifierChars : ∀ c ∈ text.toList, isIdentifierChar c = true
  no_digit : ∀ c, text.toList.head? = some c → c.isDigit = false

namespace NamingConvention

variable {convention : NamingConvention}

/-- What a convention keeps of a name. -/
def keeps : NamingConvention → Char → Bool
  | .none => isIdentifierChar
  | _ => Char.isAlphanum

/-- Only the digits that lead a name are dropped: behind separators, the first character that is kept can be
a digit again. -/
def ExposesDigit (convention : NamingConvention) (name : String) : Prop :=
  ∃ separators digit rest, name.toList.dropWhile isDecimal = separators ++ digit :: rest ∧
    (∀ c ∈ separators, convention.keeps c = false) ∧ digit.isDigit = true

theorem head?_intercalate {lists : List (List Char)} (h : ∀ chars ∈ lists, chars ≠ []) :
    (['_'].intercalate lists).head? = lists.flatten.head? := by
  cases lists with
  | nil => rfl
  | cons chars lists =>
      obtain ⟨c, rest, rfl⟩ := List.exists_cons_of_ne_nil (h chars (List.mem_cons_self ..))
      cases lists with
      | nil => simp
      | cons next lists => rw [List.intercalate_cons_cons]; rfl

/-- What a convention makes of a name starts with the first character that it keeps, in either case. -/
theorem head?_apply (convention : NamingConvention) (name : String) :
    (convention.apply name).toList.head?.map Char.toLower =
      (name.toList.find? convention.keeps).map Char.toLower := by
  by_cases hnone : convention = .none
  · rw [hnone, apply, String.toList_ofList, List.head?_filter]
    rfl
  · have hkeeps : convention.keeps = Char.isAlphanum := by
      cases convention <;> first | rfl | exact absurd rfl hnone
    rw [hkeeps, ← List.head?_filter, ← List.head?_map, ← List.head?_map]
    by_cases hsnake : convention = .snakeCase
    · have hwords := toList_join_map (splitWords name) toList_lowerWord
      rw [join_splitWords, String.toList_ofList] at hwords
      rw [← hwords, List.head?_map, List.head?_map, hsnake, apply, String.toList_intercalate, String.toList_join,
        List.flatMap_def]
      refine congrArg _ (head?_intercalate fun chars hchars => ?_)
      obtain ⟨text, htext, rfl⟩ := List.mem_map.mp hchars
      obtain ⟨word, hword, rfl⟩ := List.mem_map.mp htext
      obtain ⟨letters, hletters, rfl⟩ := List.mem_map.mp hword
      simpa [lowerWord] using ne_nil_of_mem_wordsFrom hletters
    · rw [toList_apply name hsnake hnone]

theorem keeps_of_isDigit {c : Char} (h : c.isDigit = true) : convention.keeps c = true := by
  have halphanum := isAlphanum_of_isDigit h
  cases convention with
  | none => rw [keeps, isIdentifierChar_eq, halphanum, Bool.true_or]
  | _ => exact halphanum

theorem exposesDigit_iff {name : String} :
    convention.ExposesDigit name ↔
      ∃ c, (name.toList.dropWhile isDecimal).find? convention.keeps = some c ∧ c.isDigit = true := by
  constructor
  · rintro ⟨separators, digit, rest, hname, hseparators, hdigit⟩
    refine ⟨digit, List.find?_eq_some_iff_append.mpr ?_, hdigit⟩
    exact ⟨keeps_of_isDigit hdigit, separators, rest, hname, fun x hx => by simpa using hseparators x hx⟩
  · rintro ⟨digit, hfind, hdigit⟩
    obtain ⟨-, separators, rest, hname, hseparators⟩ := List.find?_eq_some_iff_append.mp hfind
    exact ⟨separators, digit, rest, hname, fun x hx => by simpa using hseparators x hx, hdigit⟩

theorem head?_apply_isDigit {name : String} :
    (∃ c, (convention.apply (String.ofList (name.toList.dropWhile isDecimal))).toList.head? = some c ∧
      c.isDigit = true) ↔ convention.ExposesDigit name := by
  have hhead := head?_apply convention (String.ofList (name.toList.dropWhile isDecimal))
  rw [String.toList_ofList] at hhead
  rw [exposesDigit_iff]
  constructor
  · rintro ⟨c, hc, hdigit⟩
    rw [hc, Option.map_some, eq_comm, Option.map_eq_some_iff] at hhead
    obtain ⟨kept, hkept, heq⟩ := hhead
    exact ⟨kept, hkept, by rw [← isDigit_toLower, heq, isDigit_toLower, hdigit]⟩
  · rintro ⟨kept, hkept, hdigit⟩
    rw [hkept, Option.map_some, Option.map_eq_some_iff] at hhead
    obtain ⟨c, hc, heq⟩ := hhead
    exact ⟨c, hc, by rw [← isDigit_toLower, heq, isDigit_toLower, hdigit]⟩

end NamingConvention

theorem isDecimal_of_isAlpha {c : Char} (h : c.isAlpha = true) : isDecimal c = false := by
  have hlow : ∀ n, n < 128 → n < 48 ∨ 57 < n →
      (decimalRanges.any fun run => run.1 ≤ n && n ≤ run.2) = false := by decide +kernel
  have hascii : c.toNat < 128 :=
    toNat_lt_of_isIdentifierChar (by rw [isIdentifierChar_eq, isAlphanum_of_isAlpha h, Bool.true_or])
  have hdigit := isDigit_of_isAlpha h
  simp only [Char.isDigit, Bool.and_eq_false_iff, decide_eq_false_iff_not, ge_iff_le,
    UInt32.le_iff_toNat_le] at hdigit
  have hzero : '0'.val.toNat = 48 := rfl
  have hnine : '9'.val.toNat = 57 := rfl
  have hvalue : c.toNat = c.val.toNat := rfl
  exact hlow c.toNat hascii (by omega)

/-- A letter in a name is not dropped with the digits that lead it. -/
theorem exists_alphanumeric {chars : List Char} (h : ∃ c ∈ chars, c.isAlpha = true) :
    ∃ c ∈ chars.dropWhile isDecimal, c.isAlphanum = true := by
  obtain ⟨c, hc, halpha⟩ := h
  refine ⟨c, ?_, isAlphanum_of_isAlpha halpha⟩
  rw [← List.takeWhile_append_dropWhile (p := isDecimal) (l := chars), List.mem_append] at hc
  refine hc.resolve_left fun hleading => ?_
  have hdecimal := List.mem_takeWhile_imp hleading
  rw [isDecimal_of_isAlpha halpha] at hdecimal
  cases hdecimal

/-- A name with a letter gets a text of what identifiers can hold, and not an empty one. It is an identifier
unless a digit comes first behind separators. -/
theorem derived_isIdentifier_iff {name : String} {options : Options}
    (hletter : ∃ c ∈ name.toList, c.isAlpha = true) (h : NoRuleMatches name options.predefinedNames) :
    ∃ text, variableName name options = .ok text ∧ text ≠ "" ∧
      (∀ c ∈ text.toList, isIdentifierChar c = true) ∧
      (IsIdentifier text ↔ ¬ options.convention.ExposesDigit name) := by
  have hchars : ∀ c ∈ (options.convention.apply (String.ofList (name.toList.dropWhile isDecimal))).toList,
      isIdentifierChar c = true := fun c hc => NamingConvention.isIdentifierChar_of_mem hc
  have hdigit := @NamingConvention.head?_apply_isDigit options.convention name
  have hletters := options.convention.letters_apply (String.ofList (name.toList.dropWhile isDecimal))
  rw [String.toList_ofList] at hletters
  have hne : options.convention.apply (String.ofList (name.toList.dropWhile isDecimal)) ≠ "" := by
    intro hempty
    obtain ⟨c, hc, halphanum⟩ := exists_alphanumeric hletter
    have hmem : c.toLower ∈ ((name.toList.dropWhile isDecimal).filter Char.isAlphanum).map Char.toLower :=
      List.mem_map_of_mem (List.mem_filter.mpr ⟨hc, halphanum⟩)
    rw [← hletters, hempty] at hmem
    cases hmem
  refine ⟨_, variableName_eq h, hne, hchars, ?_⟩
  constructor
  · intro hidentifier hexposed
    obtain ⟨c, hc, hfirst⟩ := hdigit.mpr hexposed
    rw [hidentifier.no_digit c hc] at hfirst
    cases hfirst
  · intro hnot
    refine ⟨hne, hchars, fun c hc => ?_⟩
    rw [← Bool.not_eq_true]
    exact fun hfirst => hnot (hdigit.mp ⟨c, hc, hfirst⟩)

/-- A scoped package with a digit inside its name. -/
theorem scoped_name_isIdentifier :
    (∃ c ∈ "@babel/preset-2".toList, c.isAlpha = true) ∧ NoRuleMatches "@babel/preset-2" [("^jquery$", "$")] ∧
      variableName "@babel/preset-2" { predefinedNames := [("^jquery$", "$")] } = .ok "babelPreset2" ∧
      IsIdentifier "babelPreset2" := by
  have hletter : ∃ c ∈ "@babel/preset-2".toList, c.isAlpha = true := ⟨'b', by decide +kernel, by decide⟩
  have hrules : NoRuleMatches "@babel/preset-2" [("^jquery$", "$")] :=
    predefinedName?_eq_none_iff.mp (by decide +kernel)
  have hname : variableName "@babel/preset-2" { predefinedNames := [("^jquery$", "$")] } = .ok "babelPreset2" := by
    decide +kernel
  obtain ⟨text, htext, -, -, hidentifier⟩ :=
    @derived_isIdentifier_iff _ { predefinedNames := [("^jquery$", "$")] } hletter hrules
  obtain rfl : "babelPreset2" = text := Except.ok.inj (hname.symm.trans htext)
  refine ⟨hletter, hrules, hname, hidentifier.mpr fun hexposed => ?_⟩
  obtain ⟨c, hc, hdigit⟩ := NamingConvention.exposesDigit_iff.mp hexposed
  obtain rfl : 'b' = c := Option.some.inj (Eq.trans (by decide +kernel) hc)
  cases hdigit

/-- The digit of a scoped package comes first in its name by every convention, and no identifier starts with one. -/
theorem scoped_digit_exposed :
    (∃ c ∈ "@3d/model".toList, c.isAlpha = true) ∧ NoRuleMatches "@3d/model" [] ∧
      ∀ convention, ∃ text, variableName "@3d/model" { convention := convention } = .ok text ∧
        text.toList.head? = some '3' ∧ ¬ IsIdentifier text := by
  refine ⟨⟨'d', by decide +kernel, by decide⟩, nofun, fun convention => ?_⟩
  have hname : ∃ text, variableName "@3d/model" { convention := convention } = .ok text ∧
      text.toList.head? = some '3' := by
    cases convention <;> exact ⟨_, rfl, by decide +kernel⟩
  obtain ⟨text, htext, hfirst⟩ := hname
  exact ⟨text, htext, hfirst, fun hidentifier => absurd (hidentifier.no_digit '3' hfirst) (by decide)⟩

end ImportAssist
