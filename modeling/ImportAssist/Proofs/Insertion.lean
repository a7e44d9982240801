import Mathlib.Data.List.Basic
import ImportAssist.Proofs.Encoding
import ImportAssist.Proofs.RequireCalls
import ImportAssist.Proofs.Sequence
import ImportAssist.Proofs.Splice

/-!
# The imports of a source with a statement put in

A statement is put in at an offset where reading arrives (`Arrives`). Behind it the source is read as
before, only further on, so it has the imports it had (`ofStatement_relocate`). What is left is the new
statement itself: if it is read as one import, and as no more than its own text (`Lands`), then it
comes first and the others follow as they were (`parse_insert`).

A source may be written in several dialects. The one that accepted the source accepts the new one, and
those that refused it refuse the new one.
-/

namespace ImportAssist

open Syntax

/-! ## Imports further on -/

/-- From the offset `i` on, the bytes of one source are those of another `k` bytes further on. -/
def SameBehind (source source' : Bytes) (i k : Nat) : Prop := source'.drop (i + k) = source.drop i

/-- A tree that keeps to some places has the same texts in two sources, with each offset `x` of the one at `f x` of
the other. -/
def SameTexts (source source' : Bytes) (f : Nat → Nat) (ok : Nat → Prop) : Prop :=
  ∀ n : Node, n.Placed ok → (n.relocate f).text source' = n.text source

namespace Node

variable {source source' : Bytes} {f : Nat → Nat} {ok : Nat → Prop} {n : Node}

theorem relocate_child? (role : Role) : (n.relocate f).child? role = (n.child? role).map (relocate f) := by
  have hrole : (fun c : Node => c.role == some role) ∘ relocate f = fun c => c.role == some role :=
    funext fun c => by simp
  rw [child?, child?, relocate_children, List.find?_map, hrole]

theorem relocate_childrenOfKind (kind : Kind) :
    (n.relocate f).childrenOfKind kind = (n.childrenOfKind kind).map (relocate f) := by
  rw [childrenOfKind, childrenOfKind, relocate_children, List.filter_map]
  simp [Function.comp_def]

theorem relocate_namedChildren : (n.relocate f).namedChildren = n.namedChildren.map (relocate f) := by
  have hnamed : isNamed ∘ relocate f = isNamed := funext fun c => by simp [isNamed]
  rw [namedChildren, namedChildren, relocate_children, List.filter_map, hnamed]

theorem relocate_stringValue? (hsame : SameTexts source source' f ok) (hn : n.Placed ok) :
    (n.relocate f).stringValue? source' = n.stringValue? source := by
  rw [stringValue?, stringValue?, relocate_hasKind, hsame n hn]

theorem relocate_requireLiteral? (hsame : SameTexts source source' f ok) (hn : n.Placed ok) :
    (n.relocate f).requireLiteral? source' = (n.requireLiteral? source).map (relocate f) := by
  unfold requireLiteral?
  rw [relocate_hasKind, relocate_child?, relocate_child?]
  split
  · cases hfunction : n.child? .function with
    | none => rfl
    | some callee =>
        cases harguments : n.child? .arguments with
        | none => rfl
        | some args =>
            have hargs := hn.child? harguments
            simp only [Option.map_some, relocate_hasKind, hsame callee (hn.child? hfunction),
              relocate_namedChildren]
            split
            · cases hliteral : args.namedChildren with
              | nil => rfl
              | cons literal others =>
                  cases others with
                  | cons => rfl
                  | nil =>
                      have hplaced : literal.Placed ok := hargs.named (by simp [hliteral])
                      simp only [List.map_cons, List.map_nil, relocate_stringValue? hsame hplaced]
                      split <;> rfl
            · rfl
  · rfl

theorem relocate_requirePath? (hsame : SameTexts source source' f ok) (hn : n.Placed ok) :
    (n.relocate f).requirePath? source' = n.requirePath? source := by
  rw [requirePath?, requirePath?, relocate_requireLiteral? hsame hn]
  cases hliteral : n.requireLiteral? source with
  | none => rw [Option.map_none, Option.bind_none, Option.bind_none]
  | some literal =>
      have hplaced : literal.Placed ok := by
        obtain ⟨-, -, ⟨args, hargs, -, hnamed⟩, -⟩ := requireLiteral?_eq_some_iff.mp hliteral
        exact (hn.child? hargs).named (by simp [hnamed])
      exact relocate_stringValue? hsame hplaced

end Node

/-- The import with its nodes in other places. -/
def Import.relocate (f : Nat → Nat) (i : Import) : Import :=
  ⟨i.form, i.path, i.statement.relocate f, i.node.relocate f⟩

/-- The import moved on by `k` bytes. -/
abbrev Import.shift (k : Nat) : Import → Import := Import.relocate (· + k)

theorem ofStatement_relocate {source source' : Bytes} {f : Nat → Nat} {ok : Nat → Prop} {n : Node}
    (hsame : SameTexts source source' f ok) (hn : n.Placed ok) :
    Import.ofStatement source' (n.relocate f) = (Import.ofStatement source n).map (Import.relocate f) := by
  unfold Import.ofStatement
  simp only [Node.relocate_hasKind, Node.relocate_child?, Node.relocate_childrenOfKind,
    Node.relocate_namedChildren]
  split
  · cases hsource : n.child? .source with
    | none => rfl
    | some literal =>
        simp only [Option.map_some, Option.bind_some,
          Node.relocate_stringValue? hsame (hn.child? hsource)]
        cases literal.stringValue? source <;> rfl
  · split
    · rw [List.filterMap_map, List.map_filterMap]
      refine List.filterMap_congr fun declarator hmem => ?_
      have hdeclarator := hn.ofKind hmem
      rw [Function.comp_apply, Node.relocate_child?]
      cases hvalue : declarator.child? .value with
      | none => rfl
      | some value =>
          simp only [Option.map_some, Option.bind_some,
            Node.relocate_requirePath? hsame (hdeclarator.child? hvalue)]
          cases value.requirePath? source <;> rfl
    · split
      · cases hnamed : n.namedChildren with
        | nil => rfl
        | cons expression others =>
            cases others with
            | cons => rfl
            | nil =>
                have hplaced : expression.Placed ok := hn.named (by simp [hnamed])
                simp only [List.map_cons, List.map_nil, Node.relocate_requirePath? hsame hplaced]
                cases expression.requirePath? source <;> rfl
      · rfl

theorem SameBehind.sameTexts {source source' : Bytes} {i k : Nat} (h : SameBehind source source' i k) :
    SameTexts source source' (· + k) (i ≤ ·) := by
  intro n hn
  obtain ⟨m, hm⟩ := Nat.exists_eq_add_of_le hn.ends.1
  have hdrop : source'.drop (n.start + k) = source.drop n.start := by
    rw [hm, Nat.add_right_comm, ← List.drop_drop, h, List.drop_drop]
  rw [Node.text, Node.text, Node.bytes, Node.bytes, Node.relocate_start, Node.relocate_stop, hdrop,
    Nat.add_sub_add_right]

/-! ## Arriving at a statement -/

/-- The imports that some statements make. -/
def importsAmong (source : Bytes) (ns : List Node) : List Import :=
  ns.flatMap (Import.ofStatement source)

section

variable {source : Bytes}

@[simp] theorem importsAmong_nil : importsAmong source [] = [] := rfl

@[simp] theorem importsAmong_append (ns ms : List Node) :
    importsAmong source (ns ++ ms) = importsAmong source ns ++ importsAmong source ms :=
  List.flatMap_append

theorem importsAmong_singleton (n : Node) : importsAmong source [n] = Import.ofStatement source n := by
  simp [importsAmong]

theorem importsAmong_trivia : ∀ (fuel : Nat) (c : Cursor), importsAmong source (trivia fuel c).1 = []
  | 0, _ => rfl
  | fuel + 1, c => by
      rw [trivia]
      split
      · rfl
      · split
        · exact importsAmong_trivia fuel _
        · split
          · exact importsAmong_trivia fuel _
          · rfl

theorem importsAmong_readHashBang (c : Cursor) : importsAmong source (readHashBang c).1 = [] := by
  unfold readHashBang
  split <;> rfl

end

/-- Reading comes to the offset `i` between two statements, or to the white space and the comments
there, and no import stands before it. -/
def Arrives (d : Dialect) (source : Bytes) (i : Nat) : Prop :=
  ∃ front before n, Steps d (readHashBang (Cursor.start source)).2 front before ∧
    importsAmong source front = [] ∧ (trivia n before).2.offset = i

/-- What is left of a source at an offset. -/
def cursorAt (source : Bytes) (i : Nat) : Cursor := ⟨i, Utf8.glyphs (source.drop i)⟩

variable {d : Dialect}

theorem Steps.forward {c last : Cursor} {ns : List Node} (h : Steps d c ns last) :
    ∃ n, last = c.advance n := by
  induction h with
  | refl c => exact ⟨0, rfl⟩
  | step hread _ ih =>
      obtain ⟨m, hm⟩ := readStatement_forward hread
      obtain ⟨n, hn⟩ := ih
      exact ⟨m + n, by rw [hn, hm, Cursor.advance_advance]⟩

theorem advance_start (source : Bytes) (n : Nat) :
    (Cursor.start source).advance n = cursorAt source (Utf8.cut source n) := by
  rw [Cursor.advance_eq, cursorAt, Utf8.glyphs_drop_cut]
  simp [Cursor.start, Utf8.cut]

/-- Reading that has come to an offset has the rest of the source before it. -/
theorem Steps.stands {source : Bytes} {front : List Node} {before : Cursor}
    (h : Steps d (readHashBang (Cursor.start source)).2 front before) (n : Nat) :
    (trivia n before).2 = cursorAt source (trivia n before).2.offset ∧
      Utf8.IsCut source (trivia n before).2.offset := by
  obtain ⟨k, hk⟩ := readHashBang_forward (Cursor.start source)
  obtain ⟨l, hl⟩ := h.forward
  obtain ⟨m, hm⟩ := trivia_forward n before
  have hhere : (trivia n before).2 = cursorAt source (Utf8.cut source (k + (l + m))) := by
    rw [hm, hl, hk, Cursor.advance_advance, Cursor.advance_advance, advance_start]
  have hoffset : (trivia n before).2.offset = Utf8.cut source (k + (l + m)) := by rw [hhere]; rfl
  rw [hoffset]
  exact ⟨hhere, k + (l + m), rfl⟩

/-- Reading that arrives has the rest of the source before it. -/
theorem Arrives.stands {source : Bytes} {i : Nat} (h : Arrives d source i) :
    ∃ front before n, Steps d (readHashBang (Cursor.start source)).2 front before ∧
      importsAmong source front = [] ∧ (trivia n before).2 = cursorAt source i ∧
      Utf8.IsCut source i := by
  obtain ⟨front, before, n, hsteps, himports, rfl⟩ := h
  exact ⟨front, before, n, hsteps, himports, hsteps.stands n⟩

/-- The body of a source from where reading arrives. -/
theorem Arrives.readBody_eq {source : Bytes} {i : Nat} (h : Arrives d source i) :
    ∃ front, importsAmong source front = [] ∧ readBody d (readHashBang (Cursor.start source)).2 =
      (front ++ (readBody d (cursorAt source i)).1, (readBody d (cursorAt source i)).2) := by
  obtain ⟨front, before, n, hsteps, himports, hhere, -⟩ := h.stands
  refine ⟨front ++ (trivia n before).1, ?_, ?_⟩
  · rw [importsAmong_append, himports, importsAmong_trivia, List.append_nil]
  · rw [hsteps.readBody_eq, readBody_skip n before, hhere, List.append_assoc]

theorem Arrives.isCut {source : Bytes} {i : Nat} (h : Arrives d source i) : Utf8.IsCut source i := by
  obtain ⟨-, -, -, -, -, -, hcut⟩ := h.stands
  exact hcut

/-- Reading statements arrives at the first import among them. -/
theorem readStatements_arrives {source : Bytes} {first : Import} {others : List Import} :
    ∀ {limit : Nat} {c : Cursor},
      importsAmong source (readStatements d limit c).1 = first :: others →
      ∃ front before n, Steps d c front before ∧ importsAmong source front = [] ∧
        (trivia n before).2.offset = first.statement.start
  | 0, _, h => by cases h
  | limit + 1, c, h => by
      rw [readStatements] at h
      cases hread : readStatement d c with
      | none => simp [hread] at h
      | some r =>
          rw [hread] at h
          dsimp only at h
          rw [importsAmong_append] at h
          obtain ⟨n, hr, hn, -⟩ := readStatement_eq hread
          cases hr1 : importsAmong source r.1 with
          | nil =>
              rw [hr1] at h
              obtain ⟨front, before, m, hsteps, himports, hoffset⟩ := readStatements_arrives h
              exact ⟨r.1 ++ front, before, m, .step hread hsteps, by simp [hr1, himports], hoffset⟩
          | cons i is =>
              rw [hr1, List.cons_append, List.cons.injEq] at h
              obtain ⟨rfl, -⟩ := h
              have hmem : i ∈ Import.ofStatement source n := by
                rw [hr, importsAmong_append, importsAmong_trivia, importsAmong_singleton] at hr1
                simp at hr1
                simp [hr1]
              rw [(Import.ofStatement_spec hmem).1, hn]
              exact ⟨[], c, c.rest.length, .refl c, rfl, rfl⟩

/-- Reading arrives at the first import of a source that is accepted. -/
theorem parseAs_arrives {source : Bytes} {tree : Node} {first : Import} {others : List Import}
    (htree : parseAs d source = some tree) (hfirst : imports source tree = first :: others) :
    Arrives d source first.statement.start := by
  unfold parseAs readBody at htree
  dsimp only at htree
  split at htree
  · cases htree
    change importsAmong source (_ ++ (_ ++ _)) = _ at hfirst
    rw [importsAmong_append, importsAmong_append, importsAmong_readHashBang, importsAmong_trivia,
      List.append_nil, List.nil_append] at hfirst
    exact readStatements_arrives hfirst
  · cases htree

/-! ## One dialect -/

/-- At the offset `i` of a source stands a text of `k` bytes that is read as a statement and white
space, and the statement makes the import `new`. -/
def Lands (d : Dialect) (source : Bytes) (i k : Nat) (new : Import) : Prop :=
  ∃ statement after n, readStatement d (cursorAt source i) = some ([statement], after) ∧
    trivia n after = ([], cursorAt source (i + k)) ∧ Import.ofStatement source statement = [new]

section

variable {source source' : Bytes} {i k : Nat} {new : Import}

theorem Lands.readBody_eq (hsame : SameBehind source source' i k) (h : Lands d source' i k new) :
    ∃ statement, Import.ofStatement source' statement = [new] ∧ readBody d (cursorAt source' i) =
      (statement :: (readBody d (cursorAt source i)).1.map (Node.shift k),
        (readBody d (cursorAt source i)).2.shift k) := by
  obtain ⟨statement, after, n, hread, htrivia, hnew⟩ := h
  have hshift : cursorAt source' (i + k) = (cursorAt source i).shift k := by
    unfold SameBehind at hsame
    rw [cursorAt, hsame]
    rfl
  refine ⟨statement, hnew, ?_⟩
  rw [readBody_step hread, readBody_skip n after, htrivia, hshift, readBody_shift]
  rfl

theorem importsAmong_shift (hsame : SameBehind source source' i k) :
    importsAmong source' ((readBody d (cursorAt source i)).1.map (Node.shift k)) =
      (importsAmong source (readBody d (cursorAt source i)).1).map (Import.shift k) := by
  have hreads : Syntax.Reads (i ≤ ·) (cursorAt source i) (readBody d (cursorAt source i)) :=
    readBody_reads d fun n => Cursor.offset_le_advance n (cursorAt source i)
  rw [importsAmong, importsAmong, List.flatMap_map, List.map_flatMap]
  refine List.flatMap_congr fun n hn => ?_
  exact ofStatement_relocate hsame.sameTexts (hreads.2.mem n hn).2.2

/-- A new import comes first, and the others follow as they were. -/
theorem parseAs_insert (hsame : SameBehind source source' i k) (h : Arrives d source i)
    (h' : Arrives d source' i) (hlands : Lands d source' i k new) :
    (parseAs d source = none → parseAs d source' = none) ∧
      ∀ tree, parseAs d source = some tree → ∃ tree', parseAs d source' = some tree' ∧
        imports source' tree' = new :: (imports source tree).map (Import.shift k) := by
  obtain ⟨front, hfront, hbody⟩ := h.readBody_eq
  obtain ⟨front', hfront', hbody'⟩ := h'.readBody_eq
  obtain ⟨statement, hnew, hlanded⟩ := hlands.readBody_eq hsame
  have hmoved := importsAmong_shift (d := d) hsame
  rw [hlanded] at hbody'
  simp only [parseAs, hbody, hbody', Cursor.shift_rest]
  refine ⟨fun hnone => ?_, fun tree htree => ?_⟩
  · split at hnone
    · cases hnone
    · rename_i hrest
      rw [if_neg hrest]
  · split at htree
    · rename_i hrest
      cases htree
      refine ⟨_, if_pos hrest, ?_⟩
      change importsAmong source' (_ ++ (_ ++ ([statement] ++ _))) =
        new :: (importsAmong source (_ ++ (_ ++ _))).map _
      rw [importsAmong_append, importsAmong_append, importsAmong_append, importsAmong_append,
        importsAmong_append, importsAmong_readHashBang, importsAmong_readHashBang, hfront, hfront',
        importsAmong_singleton, hnew, hmoved]
      rfl
    · cases htree

end

/-! ## All dialects -/

/-- Reading comes to the offset `i` as it did, if it did; otherwise the source is refused. -/
def FrontKept (source source' : Bytes) (i : Nat) (d : Dialect) : Prop :=
  (Arrives d source i → Arrives d source' i) ∧ (¬Arrives d source i → parseAs d source' = none)

theorem parse_insert {source source' : Bytes} {i k : Nat} {language : String} {tree : Node}
    {Q : Import → Prop} (hsame : SameBehind source source' i k)
    (htree : parse source language = some tree)
    (harrives : ∀ d, parseAs d source = some tree → Arrives d source i)
    (hfront : ∀ d ∈ Dialect.forLanguage language, FrontKept source source' i d)
    (hlands : ∀ d ∈ Dialect.forLanguage language, ∃ new, Lands d source' i k new ∧ Q new) :
    ∃ tree' new, parse source' language = some tree' ∧ Q new ∧
      imports source' tree' = new :: (imports source tree).map (Import.shift k) := by
  obtain ⟨refusing, d, others, hdialects, hd, hrefuse⟩ := List.findSome?_eq_some_iff.mp htree
  have hmem : ∀ d', d' ∈ refusing ∨ d' = d → d' ∈ Dialect.forLanguage language := by
    rintro d' (h | rfl) <;> simp [*]
  obtain ⟨new, hnew, hQ⟩ := hlands d (hmem d (.inr rfl))
  have hhere := harrives d hd
  have hhere' := (hfront d (hmem d (.inr rfl))).1 hhere
  obtain ⟨tree', htree', himports⟩ := (parseAs_insert hsame hhere hhere' hnew).2 tree hd
  refine ⟨tree', new, ?_, hQ, himports⟩
  refine List.findSome?_eq_some_iff.mpr ⟨refusing, d, others, hdialects, htree', fun d' hd' => ?_⟩
  obtain ⟨new', hnew', -⟩ := hlands d' (hmem d' (.inl hd'))
  obtain ⟨hkept, hrefused⟩ := hfront d' (hmem d' (.inl hd'))
  by_cases hhere' : Arrives d' source i
  · exact (parseAs_insert hsame hhere' (hkept hhere') hnew').1 (hrefuse d' hd')
  · exact hrefused hhere'

end ImportAssist
