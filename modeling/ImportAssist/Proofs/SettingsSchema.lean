import ImportAssist.Failure
import Mathlib.Data.List.Find
import Mathlib.Data.List.Nodup

/-!
# Settings by their schema

The settings have a schema: a list of fields, each with its key, a second spelling of it, the type of its values and its
default (`optionFields`). `OptionType.admits` says which values are of a type, and `OptionType.faults` what is to be
reported of those that are not. `settings_validated` says that reading is exact by this schema: it fails exactly if a
value that is looked at is not of its type, it reports the faults in the order of the fields, and otherwise gives the
defaults with what is given in their place.

A reader of a type and its writer undo each other (`Reader`), so what is read is known by how it is written, and options
that are written are read back.
-/

namespace ImportAssist

/-! ## Types -/

/-- The type of a setting. -/
inductive OptionType where
  | flag
  /-- One of some words. -/
  | choice (words : List String)
  /-- A table of texts. -/
  | texts
  /-- A whole number that is not negative. -/
  | limit

def Json.isText : Json → Bool
  | .str _ => true
  | _ => false

namespace OptionType

/-- Whether a value is of a type. -/
def admits : OptionType → Json → Bool
  | .flag, .bool _ => true
  | .choice words, .str word => word ∈ words
  | .texts, .obj members => members.all (·.2.isText)
  | .limit, .int n => 0 ≤ n
  | _, _ => false

@[simp] theorem admits_choice {words : List String} {word : String} :
    (choice words).admits (.str word) ↔ word ∈ words := decide_eq_true_iff

@[simp] theorem admits_limit {n : Int} : limit.admits (.int n) ↔ 0 ≤ n := decide_eq_true_iff

@[simp] theorem admits_texts {members : List (String × Json)} :
    texts.admits (.obj members) ↔ ∀ m ∈ members, m.2.isText := List.all_eq_true

/-- What a value that is not of the type should have been. -/
def mismatch : OptionType → Json → Mismatch
  | .flag, _ => .boolean
  | .choice words, _ => .choice words
  | .texts, _ => .table
  | .limit, .int n => .negative n
  | .limit, _ => .integer

/-- What is to be reported of a value at a location: one problem for each entry of a table that is no text, and one for
a value of any other kind that is not of the type. -/
def faults (location : List String) : OptionType → Json → List Problem
  | .texts, .obj members => (members.filter (!·.2.isText)).map fun m => ⟨location ++ [m.1], .text⟩
  | type, v => if type.admits v then [] else [⟨location, type.mismatch v⟩]

/-- There is nothing to report exactly of the values of the type. -/
theorem faults_eq_nil_iff {location : List String} {type : OptionType} {v : Json} :
    type.faults location v = [] ↔ type.admits v := by
  unfold faults
  split
  · simp
  · simp

end OptionType

/-! ## Readers and writers -/

/-- A reader and a writer of the values of a type: what is written is read back, what is of the type has been written,
and the reader finds the faults. -/
structure Reader {α : Type} (type : OptionType) (read : Reads α) (write : α → Json) : Prop where
  written (location : List String) (a : α) : read location (write a) = .ok a
  typed {v : Json} : type.admits v → ∃ a, write a = v
  problems (location : List String) (v : Json) : (read location v).problems = type.faults location v

theorem readBool_reader (fallback : Bool) : Reader .flag (readBool fallback) .bool where
  written _ _ := rfl
  typed {v} h := by
    cases v with
    | bool b => exact ⟨b, rfl⟩
    | _ => cases h
  problems _ v := by cases v <;> rfl

theorem readLimit_reader (fallback : Nat) : Reader .limit (readLimit fallback) fun n => .int n where
  written _ _ := rfl
  typed {v} h := by
    cases v with
    | int n => exact ⟨n.toNat, congrArg Json.int (Int.toNat_of_nonneg (OptionType.admits_limit.mp h))⟩
    | _ => cases h
  problems location v := by
    cases v with
    | int n =>
        cases n with
        | ofNat n => simp [readLimit, Checked.ok, OptionType.faults]
        | negSucc n => simp [readLimit, Checked.bad, OptionType.faults, OptionType.mismatch]
    | _ => rfl

section

variable {α : Type} (name : α → String) (values : List α)

/-- A word is found with what it means. -/
theorem find?_choice {a : α} (hnames : (values.map name).Nodup) (ha : a ∈ values) :
    (values.map fun a => (name a, a)).find? (·.1 == name a) = some (name a, a) := by
  rcases h : (values.map fun a => (name a, a)).find? (·.1 == name a) with _ | ⟨word, b⟩
  · have hmem : (name a, a) ∈ values.map fun a => (name a, a) := List.mem_map.mpr ⟨a, ha, rfl⟩
    exact absurd (beq_self_eq_true (name a)) (List.find?_eq_none.mp h _ hmem)
  · have hword := List.find?_some h
    obtain ⟨c, hc, heq⟩ := List.mem_map.mp (List.mem_of_find?_eq_some h)
    obtain ⟨rfl, rfl⟩ := Prod.mk.inj heq
    rw [h, List.inj_on_of_nodup_map hnames hc ha (eq_of_beq hword)]

theorem find?_choice_eq_none {word : String} (h : word ∉ values.map name) :
    (values.map fun a => (name a, a)).find? (·.1 == word) = none := by
  refine List.find?_eq_none.mpr fun choice hchoice hword => h ?_
  obtain ⟨a, ha, rfl⟩ := List.mem_map.mp hchoice
  exact List.mem_map.mpr ⟨a, ha, eq_of_beq hword⟩

/-- One of some distinct words, which mean all that there is. -/
theorem readChoice_reader (fallback : α) (hnames : (values.map name).Nodup) (hvalues : ∀ a, a ∈ values) :
    Reader (.choice (values.map name)) (readChoice fallback (values.map fun a => (name a, a)))
      fun a => .str (name a) where
  written location a := by simp only [readChoice, find?_choice name values hnames (hvalues a)]
  typed {v} h := by
    cases v with
    | str word =>
        obtain ⟨a, -, rfl⟩ := List.mem_map.mp (OptionType.admits_choice.mp h)
        exact ⟨a, rfl⟩
    | _ => cases h
  problems location v := by
    have hwords : (values.map fun a => (name a, a)).map (·.1) = values.map name := by
      rw [List.map_map]
      rfl
    cases v with
    | str word =>
        by_cases hword : word ∈ values.map name
        · obtain ⟨a, ha, rfl⟩ := List.mem_map.mp hword
          rw [OptionType.faults_eq_nil_iff.mpr (OptionType.admits_choice.mpr hword), readChoice,
            find?_choice name values hnames ha]
          rfl
        · simp [readChoice, find?_choice_eq_none name values hword, hwords, OptionType.faults, hword,
            OptionType.mismatch, Checked.bad]
    | _ =>
        simp only [readChoice, hwords]
        rfl

end

/-- A table of texts is read entry by entry. -/
theorem readTable_cons (location : List String) (m : String × Json) (members : List (String × Json)) :
    readTable location (.obj (m :: members)) =
      let rest := readTable location (.obj members)
      match m.2 with
      | .str text => ⟨(m.1, text) :: rest.value, rest.problems⟩
      | _ => ⟨(m.1, "") :: rest.value, ⟨location ++ [m.1], .text⟩ :: rest.problems⟩ := by
  obtain ⟨key, v⟩ := m
  cases v <;> rfl

theorem readTable_reader : Reader .texts readTable tableJson where
  written location table := by
    induction table with
    | nil => rfl
    | cons entry table ih =>
        simp only [tableJson, List.map_cons, readTable_cons] at ih ⊢
        rw [ih]
        rfl
  typed {v} h := by
    cases v with
    | obj members =>
        induction members with
        | nil => exact ⟨[], rfl⟩
        | cons m members ih =>
            obtain ⟨key, v⟩ := m
            obtain ⟨htext, htexts⟩ := List.forall_mem_cons.mp (OptionType.admits_texts.mp h)
            obtain ⟨table, htable⟩ := ih (OptionType.admits_texts.mpr htexts)
            cases v with
            | str text =>
                refine ⟨(key, text) :: table, congrArg Json.obj ?_⟩
                rw [List.map_cons, Json.obj.inj htable]
            | _ => cases htext
    | _ => cases h
  problems location v := by
    cases v with
    | obj members =>
        induction members with
        | nil => rfl
        | cons m members ih =>
            obtain ⟨key, v⟩ := m
            rw [readTable_cons]
            cases v with
            | str text => exact ih
            | _ => exact congrArg (List.cons ⟨location ++ [key], .text⟩) ih
    | _ => rfl

theorem readForm_reader (fallback : StatementForm) :
    Reader (.choice ["import", "require"]) (readChoice fallback formChoices) fun f => .str f.name :=
  readChoice_reader StatementForm.name [.declaration, .require] fallback (by decide)
    fun f => by cases f <;> decide

theorem readQuoteMark_reader (fallback : QuoteMark) :
    Reader (.choice ["single", "double"]) (readChoice fallback quoteChoices) fun q => .str q.name :=
  readChoice_reader QuoteMark.name [.single, .double] fallback (by decide) fun q => by cases q <;> decide

theorem readConvention_reader (fallback : NamingConvention) :
    Reader (.choice ["camelCase", "PascalCase", "snake_case", "lowercase", "none"])
      (readChoice fallback conventionChoices) fun c => .str c.name :=
  readChoice_reader NamingConvention.name [.camelCase, .pascalCase, .snakeCase, .lowercase, .none] fallback
    (by decide) fun c => by cases c <;> decide

/-! ## Fields -/

/-- A field of the settings. -/
structure OptionField where
  key : String
  /-- A second spelling of the key. -/
  name : String
  type : OptionType
  default : Json

namespace OptionField

variable {f : OptionField} {members : List (String × Json)}

/-- The member that gives the field: the one under the key, or else the one under the other spelling. -/
def given (f : OptionField) (members : List (String × Json)) : Option (String × Json) :=
  (members.find? (·.1 == f.key)).or (members.find? (·.1 == f.name))

/-- What is given, or else the default. -/
def value (f : OptionField) (members : List (String × Json)) : Json :=
  ((f.given members).map (·.2)).getD f.default

def Typed (f : OptionField) (members : List (String × Json)) : Prop :=
  ∀ m ∈ f.given members, f.type.admits m.2

def faults (location : List String) (members : List (String × Json)) (f : OptionField) : List Problem :=
  match f.given members with
  | some m => f.type.faults (location ++ [m.1]) m.2
  | none => []

theorem faults_eq_nil_iff {location : List String} : f.faults location members = [] ↔ f.Typed members := by
  unfold faults Typed
  cases f.given members with
  | none => simp
  | some m => simp [OptionType.faults_eq_nil_iff]

/-- How a field is read: under which keys, with which default and by which reader of its type. -/
structure ReadBy {α : Type} (f : OptionField) (keys : List String) (fallback : α) (read : Reads α)
    (write : α → Json) : Prop where
  keys (members : List (String × Json)) : firstMember members keys = f.given members
  fallback : write fallback = f.default
  reader : Reader f.type read write

variable {α : Type} {keys : List String} {fallback : α} {read : Reads α} {write : α → Json}

theorem ReadBy.problems (h : f.ReadBy keys fallback read write) (location : List String)
    (members : List (String × Json)) :
    (readField location members keys fallback read).problems = f.faults location members := by
  unfold readField faults
  rw [h.keys members]
  cases f.given members with
  | none => rfl
  | some m => exact h.reader.problems _ _

theorem ReadBy.value (h : f.ReadBy keys fallback read write) (location : List String)
    (htyped : f.Typed members) :
    write (readField location members keys fallback read).value = f.value members := by
  unfold readField OptionField.value
  unfold Typed at htyped
  rw [h.keys members]
  cases hgiven : f.given members with
  | none => exact h.fallback
  | some m =>
      obtain ⟨key, v⟩ := m
      obtain ⟨a, rfl⟩ := h.reader.typed (htyped _ hgiven)
      exact congrArg (fun c : Checked α => write c.value) (h.reader.written _ a)

theorem ReadBy.written (h : f.ReadBy keys fallback read write) (location : List String) {a : α}
    (hgiven : f.given members = some (f.key, write a)) :
    readField location members keys fallback read = .ok a := by
  unfold readField
  rw [h.keys members, hgiven]
  exact h.reader.written _ a

theorem firstMember_key (f : OptionField) (h : f.name = f.key) (members : List (String × Json)) :
    firstMember members [f.key] = f.given members := by
  unfold firstMember given
  rw [h, Option.or_self, List.findSome?_singleton]

theorem firstMember_key_name (f : OptionField) (members : List (String × Json)) :
    firstMember members [f.key, f.name] = f.given members := by
  unfold firstMember given
  rw [List.findSome?_cons, List.findSome?_singleton]
  cases members.find? (·.1 == f.key) <;> rfl

/-! ### The fields of a section -/

def form : OptionField := ⟨"syntax", "syntax", .choice ["import", "require"], .str "import"⟩

def grouping : OptionField := ⟨"grouping", "grouping", .flag, .bool true⟩

def fileExtension : OptionField := ⟨"fileExtension", "file_extension", .flag, .bool false⟩

def indexFile : OptionField := ⟨"indexFile", "index_file", .flag, .bool false⟩

def quoteMark : OptionField :=
  ⟨"quoteCharacter", "quote_character", .choice ["single", "double"], .str "single"⟩

def semicolons : OptionField := ⟨"semiColons", "semi_colons", .flag, .bool false⟩

def predefinedNames : OptionField :=
  ⟨"predefinedVariableNames", "predefined_variable_names", .texts, .obj []⟩

def convention : OptionField :=
  ⟨"variableNamingConvention", "variable_naming_convention",
    .choice ["camelCase", "PascalCase", "snake_case", "lowercase", "none"], .str "camelCase"⟩

def filteredFiles : OptionField := ⟨"filteredFileList", "filtered_file_list", .texts, .obj []⟩

def allowTypeScript : OptionField := ⟨"allowTypeScriptFiles", "allow_typescript_files", .flag, .bool false⟩

/-- The one field that is no section's. -/
def historyLimit : OptionField := ⟨"historyLimit", "history_limit", .limit, .int 30⟩

theorem form_readBy : ReadBy form ["syntax"] ({} : Options).form
    (readChoice ({} : Options).form formChoices) fun f => .str f.name :=
  ⟨firstMember_key form rfl, rfl, readForm_reader _⟩

theorem grouping_readBy : ReadBy grouping ["grouping"] ({} : Options).grouping
    (readBool ({} : Options).grouping) .bool :=
  ⟨firstMember_key grouping rfl, rfl, readBool_reader _⟩

theorem fileExtension_readBy : ReadBy fileExtension ["fileExtension", "file_extension"]
    ({} : Options).fileExtension (readBool ({} : Options).fileExtension) .bool :=
  ⟨firstMember_key_name fileExtension, rfl, readBool_reader _⟩

theorem indexFile_readBy : ReadBy indexFile ["indexFile", "index_file"] ({} : Options).indexFile
    (readBool ({} : Options).indexFile) .bool :=
  ⟨firstMember_key_name indexFile, rfl, readBool_reader _⟩

theorem quoteMark_readBy : ReadBy quoteMark ["quoteCharacter", "quote_character"] ({} : Options).quoteMark
    (readChoice ({} : Options).quoteMark quoteChoices) fun q => .str q.name :=
  ⟨firstMember_key_name quoteMark, rfl, readQuoteMark_reader _⟩

theorem semicolons_readBy : ReadBy semicolons ["semiColons", "semi_colons"] ({} : Options).semicolons
    (readBool ({} : Options).semicolons) .bool :=
  ⟨firstMember_key_name semicolons, rfl, readBool_reader _⟩

theorem predefinedNames_readBy : ReadBy predefinedNames ["predefinedVariableNames", "predefined_variable_names"]
    ({} : Options).predefinedNames readTable tableJson :=
  ⟨firstMember_key_name predefinedNames, rfl, readTable_reader⟩

theorem convention_readBy : ReadBy convention ["variableNamingConvention", "variable_naming_convention"]
    ({} : Options).convention (readChoice ({} : Options).convention conventionChoices) fun c => .str c.name :=
  ⟨firstMember_key_name convention, rfl, readConvention_reader _⟩

theorem filteredFiles_readBy : ReadBy filteredFiles ["filteredFileList", "filtered_file_list"]
    ({} : Options).filteredFiles readTable tableJson :=
  ⟨firstMember_key_name filteredFiles, rfl, readTable_reader⟩

theorem allowTypeScript_readBy : ReadBy allowTypeScript ["allowTypeScriptFiles", "allow_typescript_files"]
    ({} : Options).allowTypeScript (readBool ({} : Options).allowTypeScript) .bool :=
  ⟨firstMember_key_name allowTypeScript, rfl, readBool_reader _⟩

theorem historyLimit_readBy : ReadBy historyLimit ["historyLimit", "history_limit"] ({} : Config).historyLimit
    (readLimit ({} : Config).historyLimit) fun n => .int n :=
  ⟨firstMember_key_name historyLimit, rfl, readLimit_reader _⟩

end OptionField

/-- The fields of a section, in order. -/
def optionFields : List OptionField :=
  [.form, .grouping, .fileExtension, .indexFile, .quoteMark, .semicolons, .predefinedNames, .convention,
    .filteredFiles, .allowTypeScript]

/-! ## Sections -/

section

open OptionField

/-- The members of an object. -/
def Json.memberList : Json → List (String × Json)
  | .obj members => members
  | _ => []

def SectionTyped : Json → Prop
  | .obj members => ∀ f ∈ optionFields, f.Typed members
  | _ => False

def sectionFaults (location : List String) : Json → List Problem
  | .obj members => optionFields.flatMap (·.faults location members)
  | _ => [⟨location, .fields "LanguageOptions"⟩]

/-- The fields of a section as they are given, and the default of each that is not. -/
def overridden (members : List (String × Json)) : Json :=
  .obj (optionFields.map fun f => (f.key, f.value members))

theorem sectionFaults_eq_nil_iff {location : List String} {v : Json} :
    sectionFaults location v = [] ↔ SectionTyped v := by
  cases v with
  | obj members => simp only [sectionFaults, SectionTyped, List.flatMap_eq_nil_iff, OptionField.faults_eq_nil_iff]
  | _ => exact iff_of_false (List.cons_ne_nil _ _) id

theorem readOptions_problems (location : List String) (v : Json) :
    (readOptions location v).problems = sectionFaults location v := by
  cases v with
  | obj members =>
      simp only [readOptions, form_readBy.problems, grouping_readBy.problems, fileExtension_readBy.problems,
        indexFile_readBy.problems, quoteMark_readBy.problems, semicolons_readBy.problems,
        predefinedNames_readBy.problems, convention_readBy.problems, filteredFiles_readBy.problems,
        allowTypeScript_readBy.problems, sectionFaults, optionFields, List.flatMap_cons, List.flatMap_nil,
        List.append_nil, List.append_assoc]
  | _ => rfl

theorem readOptions_value (location : List String) {v : Json} (h : SectionTyped v) :
    (readOptions location v).value.toJson = overridden v.memberList := by
  cases v with
  | obj members =>
      simp only [SectionTyped, optionFields, List.forall_mem_cons] at h
      obtain ⟨hform, hgrouping, hextension, hindex, hquote, hsemicolons, hnames, hconvention, hfiles, hscripts, -⟩ := h
      simp only [readOptions, Options.toJson, overridden, optionFields, List.map_cons, List.map_nil, Json.memberList,
        form_readBy.value location hform, grouping_readBy.value location hgrouping,
        fileExtension_readBy.value location hextension, indexFile_readBy.value location hindex,
        quoteMark_readBy.value location hquote, semicolons_readBy.value location hsemicolons,
        predefinedNames_readBy.value location hnames, convention_readBy.value location hconvention,
        filteredFiles_readBy.value location hfiles, allowTypeScript_readBy.value location hscripts]
      rfl
  | _ => cases h

theorem readOptions_toJson (location : List String) (o : Options) : readOptions location o.toJson = .ok o := by
  simp only [Options.toJson, readOptions]
  rw [form_readBy.written location rfl, grouping_readBy.written location rfl,
    fileExtension_readBy.written location rfl, indexFile_readBy.written location rfl,
    quoteMark_readBy.written location rfl, semicolons_readBy.written location rfl,
    predefinedNames_readBy.written location rfl, convention_readBy.written location rfl,
    filteredFiles_readBy.written location rfl, allowTypeScript_readBy.written location rfl]
  rfl

/-! ## Unknown keys -/

section

variable {α : Type} {location keys known : List String} {members : List (String × Json)} {fallback : α}
  {read : Reads α}

theorem firstMember_cons (key : String) :
    firstMember members (key :: keys) = (members.find? (·.1 == key)).or (firstMember members keys) := by
  unfold firstMember
  rw [List.findSome?_cons]
  cases members.find? (·.1 == key) <;> rfl

theorem firstMember_mem {m : String × Json} (h : firstMember members keys = some m) : m.1 ∈ keys := by
  obtain ⟨key, hkey, hm⟩ := List.exists_of_findSome?_eq_some h
  have hfound := List.find?_some hm
  rwa [eq_of_beq hfound]

/-- A field is found among the members with known keys, if its keys are among these. -/
theorem readField_filter (hkeys : keys ⊆ known) :
    readField location (members.filter (·.1 ∈ known)) keys fallback read =
      readField location members keys fallback read := by
  have hfirst : firstMember (members.filter (·.1 ∈ known)) keys = firstMember members keys := by
    induction keys with
    | nil => rfl
    | cons key keys ih =>
        obtain ⟨hkey, hkeys⟩ := List.cons_subset.mp hkeys
        rw [firstMember_cons, firstMember_cons, ih hkeys, List.find?_filter]
        congr 1
        refine List.find?_congr fun m _ => ?_
        by_cases hm : m.1 = key
        · simp [hm, hkey]
        · simp [hm]
  unfold readField
  rw [hfirst]

/-- Members may change as long as their reader does not see it. -/
theorem readField_map {change : String → Json → Json}
    (hread : ∀ key ∈ keys, ∀ v, read (location ++ [key]) (change key v) = read (location ++ [key]) v) :
    readField location (members.map fun m => (m.1, change m.1 m.2)) keys fallback read =
      readField location members keys fallback read := by
  have hfirst (keys : List String) : firstMember (members.map fun m => (m.1, change m.1 m.2)) keys =
      (firstMember members keys).map fun m => (m.1, change m.1 m.2) := by
    induction keys with
    | nil => rfl
    | cons key keys ih =>
        rw [firstMember_cons, firstMember_cons, ih, List.find?_map, Option.map_or]
        rfl
  unfold readField
  rw [hfirst]
  cases h : firstMember members keys with
  | none => rfl
  | some m => exact hread _ (firstMember_mem h) _

end

/-- The keys of a section. -/
def optionKeys : List String := optionFields.flatMap fun f => [f.key, f.name]

def sectionKeys : List String := ["javascript", "typescript"]

def rootKeys : List String := sectionKeys ++ [historyLimit.key, historyLimit.name]

/-- A section without the members that it does not know. -/
def recognizedOptions : Json → Json
  | .obj members => .obj (members.filter (·.1 ∈ optionKeys))
  | v => v

def recognizedMember (key : String) (v : Json) : Json :=
  if key ∈ sectionKeys then recognizedOptions v else v

/-- Settings without the members that they do not know, and sections without the ones that these do not. -/
def recognized : Json → Json
  | .obj members => .obj ((members.filter (·.1 ∈ rootKeys)).map fun m => (m.1, recognizedMember m.1 m.2))
  | v => v

theorem readOptions_recognized (location : List String) (v : Json) :
    readOptions location (recognizedOptions v) = readOptions location v := by
  cases v with
  | obj members => simp (disch := decide) only [recognizedOptions, readOptions, readField_filter]
  | _ => rfl

theorem readConfig_recognized (location : List String) (v : Json) :
    readConfig location (recognized v) = readConfig location v := by
  cases v with
  | obj members =>
      have hsections : ∀ key ∈ sectionKeys, ∀ location v,
          readOptions location (recognizedMember key v) = readOptions location v := by
        intro key hkey location v
        rw [recognizedMember, if_pos hkey, readOptions_recognized]
      have hlimit : ∀ key ∈ ["historyLimit", "history_limit"], ∀ v, recognizedMember key v = v := by
        intro key hkey v
        refine if_neg fun h => ?_
        revert key
        decide
      simp only [recognized, readConfig]
      rw [readField_map fun key hkey v => hsections key (by simp_all [sectionKeys]) _ v,
        readField_map fun key hkey v => hsections key (by simp_all [sectionKeys]) _ v,
        readField_map fun key hkey v => by rw [hlimit key hkey v]]
      simp (disch := decide) only [readField_filter]
  | _ => rfl

/-! ## Settings -/

/-- The members of the section that settings give under a key. -/
def Json.membersAt (v : Json) (key : String) : List (String × Json) :=
  ((v.member? key).map Json.memberList).getD []

/-- Whether settings are an object, with sections and a limit of their types as far as these are given. -/
def ConfigTyped : Json → Prop
  | .obj members => (∀ key ∈ sectionKeys, ∀ v ∈ (Json.obj members).member? key, SectionTyped v) ∧
      historyLimit.Typed members
  | _ => False

/-- What is to be reported of settings: of every section that is given, and of the limit. -/
def configFaults : Json → List Problem
  | .obj members =>
    sectionKeys.flatMap (fun key => ((Json.obj members).member? key).elim [] (sectionFaults [key])) ++
      historyLimit.faults [] members
  | _ => [⟨[], .fields "RootConfig"⟩]

theorem configFaults_eq_nil_iff {v : Json} : configFaults v = [] ↔ ConfigTyped v := by
  cases v with
  | obj members =>
      have hsection (key : String) : ((Json.obj members).member? key).elim [] (sectionFaults [key]) = [] ↔
          ∀ v ∈ (Json.obj members).member? key, SectionTyped v := by
        cases (Json.obj members).member? key with
        | none => simp
        | some v => simp [sectionFaults_eq_nil_iff]
      simp only [configFaults, ConfigTyped, List.append_eq_nil_iff, List.flatMap_eq_nil_iff,
        OptionField.faults_eq_nil_iff, hsection]
  | _ => exact iff_of_false (List.cons_ne_nil _ _) id

section

variable {members : List (String × Json)} (key : String)

theorem readSection_eq : readField [] members [key] {} readOptions =
    ((Json.obj members).member? key).elim (.ok {}) (readOptions [key]) := by
  unfold readField firstMember
  rw [List.findSome?_singleton, Json.member?]
  cases h : members.find? (·.1 == key) with
  | none => rfl
  | some m =>
      have hkey := List.find?_some h
      rw [← eq_of_beq hkey]
      rfl

theorem readSection_problems : (readField [] members [key] {} readOptions).problems =
    ((Json.obj members).member? key).elim [] (sectionFaults [key]) := by
  rw [readSection_eq]
  cases (Json.obj members).member? key with
  | none => rfl
  | some v => exact readOptions_problems [key] v

theorem readSection_value (h : ∀ v ∈ (Json.obj members).member? key, SectionTyped v) :
    (readField [] members [key] {} readOptions).value.toJson = overridden ((Json.obj members).membersAt key) := by
  rw [readSection_eq, Json.membersAt]
  cases hgiven : (Json.obj members).member? key with
  | none => rfl
  | some v => exact readOptions_value [key] (h v hgiven)

end

theorem readConfig_problems (v : Json) : (readConfig [] v).problems = configFaults v := by
  cases v with
  | obj members =>
      simp only [readConfig, readSection_problems, historyLimit_readBy.problems, configFaults, sectionKeys,
        List.flatMap_cons, List.flatMap_nil, List.append_nil]
  | _ => rfl

/-- Settings are the defaults with what a value gives in their place. -/
structure Config.Overrides (c : Config) (v : Json) : Prop where
  javascript : c.javascript.toJson = overridden (v.membersAt "javascript")
  typescript : c.typescript.toJson = overridden (v.membersAt "typescript")
  historyLimit : Json.int c.historyLimit = OptionField.historyLimit.value v.memberList

theorem readConfig_value {v : Json} (h : ConfigTyped v) : (readConfig [] v).value.Overrides v := by
  cases v with
  | obj members =>
      obtain ⟨hsections, hlimit⟩ := h
      exact ⟨readSection_value "javascript" (hsections _ (by decide)),
        readSection_value "typescript" (hsections _ (by decide)), historyLimit_readBy.value [] hlimit⟩
  | _ => cases h

/-- Settings with a flag, an entry of a table and a limit that are none, and with a member that is unknown. -/
def faultySettings : Json :=
  .obj [
    ("historyLimit", .int (-1)),
    ("javascript", .obj [
      ("filtered_file_list", .obj [("a", .str "b"), ("c", .int 1)]),
      ("grouping", .str "false"),
      ("colour", .str "red")]),
    ("typescript", .obj [("semiColons", .bool true), ("semi_colons", .null)])]

end

end ImportAssist
