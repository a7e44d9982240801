import ImportAssist.Proofs.Layout

/-!
# Reading the same glyphs at another offset

What a reader does depends on the glyphs ahead, and not on where in the source they stand. Moving the
cursor by `k` bytes moves the tree by `k` bytes, and changes nothing else (`readStatement_shift`).

White space and comments are skipped with a bound on their number. `trivia_stable` says that any bound
of at least the number of glyphs ahead does.
-/

namespace ImportAssist

namespace Node

mutual

/-- The tree with every offset moved by a function. -/
def relocate (f : Nat → Nat) : Node → Node
  | mk label role start stop children =>
    mk label role (f start) (f stop) (relocateAll f children)

def relocateAll (f : Nat → Nat) : List Node → List Node
  | [] => []
  | n :: ns => n.relocate f :: relocateAll f ns

end

/-- The tree moved on by `k` bytes. -/
abbrev shift (k : Nat) : Node → Node := relocate (· + k)

variable {f : Nat → Nat}

theorem relocateAll_eq_map : ∀ ns : List Node, relocateAll f ns = ns.map (relocate f)
  | [] => rfl
  | n :: ns => by rw [relocateAll, List.map_cons, relocateAll_eq_map ns]

theorem relocate_mk (label : Label) (role : Option Role) (start stop : Nat) (children : List Node) :
    relocate f (mk label role start stop children) =
      mk label role (f start) (f stop) (children.map (relocate f)) := by
  rw [relocate, relocateAll_eq_map]

@[simp] theorem relocate_label (n : Node) : (n.relocate f).label = n.label := by cases n; rfl

@[simp] theorem relocate_role (n : Node) : (n.relocate f).role = n.role := by cases n; rfl

@[simp] theorem relocate_start (n : Node) : (n.relocate f).start = f n.start := by cases n; rfl

@[simp] theorem relocate_stop (n : Node) : (n.relocate f).stop = f n.stop := by cases n; rfl

@[simp] theorem relocate_children (n : Node) :
    (n.relocate f).children = n.children.map (relocate f) := by
  obtain ⟨label, role, start, stop, cs⟩ := n
  rw [relocate_mk]
  rfl

@[simp] theorem relocate_hasKind (n : Node) (kind : Kind) :
    (n.relocate f).hasKind kind = n.hasKind kind := by
  rw [hasKind, hasKind, relocate_label]

theorem relocate_withRole (role : Role) (n : Node) :
    (n.withRole role).relocate f = (n.relocate f).withRole role := by
  cases n; rfl

end Node

namespace Syntax

/-! ## Readings -/

def Cursor.shift (k : Nat) (c : Cursor) : Cursor := ⟨c.offset + k, c.rest⟩

def Reading.shift (k : Nat) (r : Reading) : Reading := (r.1.map (Node.shift k), r.2.shift k)

variable {k : Nat}

@[simp] theorem Cursor.shift_rest (c : Cursor) : (c.shift k).rest = c.rest := rfl

@[simp] theorem Cursor.shift_offset (c : Cursor) : (c.shift k).offset = c.offset + k := rfl

@[simp] theorem Cursor.shift_advance (n : Nat) (c : Cursor) :
    (c.shift k).advance n = (c.advance n).shift k := by
  simp only [Cursor.advance_eq, Cursor.shift, Nat.add_right_comm]

theorem trivia_shift : ∀ (fuel : Nat) (c : Cursor),
    trivia fuel (c.shift k) = (trivia fuel c).shift k
  | 0, _ => rfl
  | fuel + 1, c => by
      rw [trivia, trivia, Cursor.shift_rest]
      split
      · rfl
      · split
        · rw [Cursor.shift_advance, trivia_shift fuel]
        · split
          · dsimp only
            rw [Cursor.shift_advance, trivia_shift fuel]
            rfl
          · rfl

theorem lineEnd_shift (endsLine : Char → Bool) : ∀ (fuel : Nat) (c : Cursor),
    lineEnd endsLine fuel (c.shift k) = (lineEnd endsLine fuel c).map (Reading.shift k)
  | 0, _ => rfl
  | fuel + 1, c => by
      rw [lineEnd, lineEnd, Cursor.shift_rest]
      dsimp only
      split
      · rfl
      · split
        · rfl
        · split
          · split <;> rfl
          · split
            · rw [Cursor.shift_advance, Cursor.shift_advance, lineEnd_shift endsLine fuel,
                Option.map_map, Option.map_map]
              rfl
            · rfl

/-! ## Skipping -/

theorem comment_pos {gs : List Glyph} {n : Nat} (h : Lexeme.comment gs = some n) : 0 < n := by
  unfold Lexeme.comment at h
  split at h
  · split at h
    · cases h
      omega
    · split at h
      · obtain ⟨m, -, rfl⟩ := Option.map_eq_some_iff.mp h
        omega
      · cases h
  · cases h

theorem Cursor.length_advance (n : Nat) (c : Cursor) :
    (c.advance n).rest.length = c.rest.length - n := by
  rw [advance_eq, List.length_drop]

theorem trivia_agree : ∀ {fuel fuel' : Nat} {c : Cursor}, c.rest.length ≤ fuel →
    c.rest.length ≤ fuel' → trivia fuel c = trivia fuel' c
  | 0, 0, _, _, _ => rfl
  | 0, fuel' + 1, c, h, _ => by simp [trivia, List.length_eq_zero_iff.mp (Nat.le_zero.mp h)]
  | fuel + 1, 0, c, _, h => by simp [trivia, List.length_eq_zero_iff.mp (Nat.le_zero.mp h)]
  | fuel + 1, fuel' + 1, c, h, h' => by
      have hagree : ∀ n, 0 < n → trivia fuel (c.advance n) = trivia fuel' (c.advance n) := by
        intro n hn
        have := c.length_advance n
        exact trivia_agree (by omega) (by omega)
      rw [trivia, trivia]
      split
      · rfl
      · split
        · exact hagree 1 Nat.one_pos
        · split
          · rename_i n hn
            dsimp only
            rw [hagree n (comment_pos hn)]
          · rfl

/-- Any bound of at least the number of glyphs ahead does. -/
theorem trivia_stable {fuel : Nat} {c : Cursor} (h : c.rest.length ≤ fuel) :
    trivia fuel c = trivia c.rest.length c :=
  trivia_agree h (Nat.le_refl _)

/-- Nothing is to be skipped. -/
def Cursor.Settled (c : Cursor) : Prop := ∀ fuel, trivia fuel c = ([], c)

theorem Cursor.Settled.shift {c : Cursor} (h : c.Settled) : (c.shift k).Settled := by
  intro fuel
  rw [trivia_shift, h fuel]
  rfl

theorem settled_nil (offset : Nat) : (Cursor.mk offset []).Settled
  | 0 => rfl
  | _ + 1 => rfl

theorem settled_cons {offset : Nat} {g : Glyph} {gs : List Glyph}
    (hblank : (g.valid && Lexeme.isBlank g.char) = false) (hcomment : Lexeme.comment (g :: gs) = none) :
    (Cursor.mk offset (g :: gs)).Settled
  | 0 => rfl
  | _ + 1 => by simp [trivia, hblank, hcomment]

/-- After skipping there is nothing to be skipped. -/
theorem trivia_settled : ∀ {fuel : Nat} {c : Cursor}, c.rest.length ≤ fuel →
    (trivia fuel c).2.Settled
  | 0, ⟨offset, rest⟩, h => by
      obtain rfl : rest = [] := List.length_eq_zero_iff.mp (Nat.le_zero.mp h)
      exact settled_nil offset
  | fuel + 1, ⟨offset, []⟩, _ => settled_nil offset
  | fuel + 1, ⟨offset, g :: gs⟩, h => by
      have hnext : ∀ n, 0 < n → (trivia fuel (Cursor.advance n ⟨offset, g :: gs⟩)).2.Settled := by
        intro n hn
        have := Cursor.length_advance n ⟨offset, g :: gs⟩
        exact trivia_settled (by omega)
      rw [trivia]
      split
      · contradiction
      · rename_i hcons
        cases hcons
        split
        · exact hnext 1 Nat.one_pos
        · rename_i hblank
          split
          · rename_i n hn
            exact hnext n (comment_pos hn)
          · rename_i hcomment
            exact settled_cons (Bool.eq_false_iff.mpr hblank) hcomment

/-! ## Readers made of readers -/

/-- A reader that does the same at every offset. -/
def Uniform (k : Nat) (read : Cursor → Option Reading) : Prop :=
  ∀ c, read (c.shift k) = (read c).map (Reading.shift k)

variable {σ : Type} {run : Rule σ → Cursor → Option Reading}

theorem runSeq_shift (hrun : ∀ rule, Uniform k (run rule)) :
    ∀ rules : List (Rule σ), Uniform k (runSeq run rules)
  | [], _ => rfl
  | rule :: rules, c => by
      rw [runSeq, runSeq, hrun rule c]
      cases run rule c with
      | none => rfl
      | some first =>
          have hrest := runSeq_shift hrun rules first.2
          cases hrules : runSeq run rules first.2 with
          | none => simp [Reading.shift, hrest, hrules]
          | some last => simp [Reading.shift, hrest, hrules]

theorem runAlt_shift (hrun : ∀ rule, Uniform k (run rule)) :
    ∀ rules : List (Rule σ), Uniform k (runAlt run rules)
  | [], _ => rfl
  | rule :: rules, c => by
      rw [runAlt, runAlt, hrun rule c]
      cases run rule c with
      | none => exact runAlt_shift hrun rules c
      | some reading => rfl

theorem repeatRun_shift {read : Cursor → Option Reading} (hread : Uniform k read) :
    ∀ (fuel : Nat) (done : List (List Node)) (c : Cursor),
      repeatRun read fuel (done.map (List.map (Node.shift k))) (c.shift k) =
        (repeatRun read fuel done c).shift k
  | 0, done, c => by
      simp [repeatRun, Reading.shift, List.map_flatten]
  | fuel + 1, done, c => by
      rw [repeatRun, repeatRun, hread c]
      cases read c with
      | none => simp [Reading.shift, List.map_flatten]
      | some next =>
          have hmore := repeatRun_shift hread fuel (next.1 :: done) next.2
          simp only [Option.map_some, Reading.shift, Cursor.shift_offset, Nat.add_le_add_iff_right]
          split
          · simp [List.map_flatten]
          · simpa [Reading.shift] using hmore

theorem assignRole_relocate (f : Nat → Nat) (role : Role) : ∀ ns : List Node,
    assignRole role (ns.map (Node.relocate f)) = (assignRole role ns).map (Node.relocate f)
  | [] => rfl
  | n :: ns => by
      rw [List.map_cons, assignRole, assignRole, assignRole_relocate f role ns]
      simp only [List.all_map, Function.comp_def, Node.relocate_hasKind]
      split
      · split
        · rfl
        · rw [List.map_cons, Node.relocate_withRole]
      · rfl

theorem runLinks_shift (hrun : ∀ rule, Uniform k (run rule)) (left : Node) (c : Cursor) :
    ∀ links : List (Link σ), runLinks run (left.shift k) links (c.shift k) =
      (runLinks run left links c).map fun r => (r.1.shift k, r.2.shift k)
  | [] => rfl
  | .mk kind role onto tail :: links => by
      have hmore := runLinks_shift hrun left c links
      have hkind : (left.shift k).hasKind = left.hasKind := funext fun kind => by simp
      unfold runLinks
      rw [hrun tail c, hmore, hkind]
      split
      · cases run tail c with
        | none => rfl
        | some next =>
            cases role <;> simp [Reading.shift, Node.relocate_mk, Node.relocate_withRole]
      · rfl

theorem runChain_shift (hrun : ∀ rule, Uniform k (run rule)) (links : List (Link σ)) :
    ∀ (fuel : Nat) (left : Node) (c : Cursor),
      runChain run links fuel (left.shift k) (c.shift k) =
        ((runChain run links fuel left c).1.shift k, (runChain run links fuel left c).2.shift k)
  | 0, _, _ => rfl
  | fuel + 1, left, c => by
      rw [runChain, runChain, runLinks_shift hrun left c links]
      cases runLinks run left links c with
      | none => rfl
      | some next => exact runChain_shift hrun links fuel next.1 next.2

theorem token_shift (cs : List Node) (c : Cursor) (n : Nat) (label : Label) :
    token (cs.map (Node.shift k)) (c.shift k) n (fun s e => .mk label none s e []) =
      (token cs c n fun s e => .mk label none s e []).shift k := by
  simp [token, Reading.shift, Node.relocate_mk]

end Syntax

open Syntax

/-! ## Rules -/

/-- A rule reads the same glyphs in the same way at every offset. -/
theorem Rule.run_shift {σ : Type} {k : Nat} (grammar : σ → Rule σ) (endsLine : Char → Bool) :
    ∀ (fuel : Nat) (place : Place) (rule : Rule σ),
      Uniform k (Rule.run grammar endsLine fuel place rule)
  | 0, _, _, _ => rfl
  | fuel + 1, place, rule, c => by
      have ih := Rule.run_shift (k := k) grammar endsLine fuel
      have hblank := trivia_shift (k := k) fuel c
      cases rule with
      | mark text notBefore =>
          simp only [Rule.run, hblank, Reading.shift, Cursor.shift_rest]
          split
          · exact congrArg some (token_shift _ _ _ (.token text))
          · rfl
      | keyword text =>
          simp only [Rule.run, hblank, Reading.shift, Cursor.shift_rest]
          split
          · exact congrArg some (token_shift _ _ _ (.token text))
          · rfl
      | name kind except =>
          simp only [Rule.run, hblank, Reading.shift, Cursor.shift_rest]
          split
          · rfl
          · exact congrArg some (token_shift _ _ _ (.kind kind))
      | lexeme kind raw literal =>
          have htoken := fun cs c n => token_shift (k := k) cs c n (.kind kind)
          cases raw with
          | true =>
              simp only [Rule.run, Cursor.shift_rest, if_true, Option.map_map]
              exact congrArg (Option.map · _) (funext fun n => htoken [] c n)
          | false =>
              simp only [Rule.run, hblank, Reading.shift, Option.map_map]
              exact congrArg (Option.map · _) (funext fun n => htoken _ _ n)
      | seq rules => exact runSeq_shift (ih place) rules c
      | alt rules => exact runAlt_shift (ih place) rules c
      | opt rule =>
          simp only [Rule.run]
          rw [ih place rule c]
          cases Rule.run grammar endsLine fuel place rule c <;> rfl
      | many rule =>
          simp only [Rule.run]
          exact congrArg some (repeatRun_shift (ih place rule) fuel [] c)
      | ahead rule =>
          simp only [Rule.run]
          rw [ih place rule c, Option.map_map, Option.map_map]
          rfl
      | notAhead rule =>
          simp only [Rule.run]
          rw [ih place rule c]
          cases Rule.run grammar endsLine fuel place rule c <;> rfl
      | node kind rule =>
          simp only [Rule.run, hblank, Reading.shift]
          rw [ih place rule, Option.map_map, Option.map_map]
          congr 1
          funext r
          simp [Reading.shift, Node.relocate_mk]
      | role part rule =>
          simp only [Rule.run]
          rw [ih place rule, Option.map_map, Option.map_map]
          congr 1
          funext r
          simp [Reading.shift, assignRole_relocate]
      | call symbol => exact ih place (grammar symbol) c
      | chain base links =>
          simp only [Rule.run]
          rw [ih place base c]
          cases Rule.run grammar endsLine fuel place base c with
          | none => rfl
          | some first =>
              simp only [Option.map_some, Reading.shift, List.getLast?_map]
              cases first.1.getLast? with
              | none => rfl
              | some left =>
                  simp only [Option.map_some]
                  rw [runChain_shift (ih place) links fuel left first.2]
                  simp [Reading.shift, List.map_dropLast]
      | fresh rule =>
          simp only [Rule.run, hblank, Reading.shift]
          rw [ih place rule, Option.map_map, Option.map_map]
          congr 1
          funext r
          simp [Reading.shift]
      | inside inner rule => exact ih inner rule c
      | outside other =>
          simp only [Rule.run]
          split <;> rfl
      | semicolon => exact lineEnd_shift endsLine fuel c
      | joined =>
          simp only [Rule.run]
          rw [lineEnd_shift endsLine fuel c]
          split
          · cases lineEnd endsLine fuel c <;> rfl
          · rfl
      | group =>
          simp only [Rule.run, hblank, Reading.shift, Cursor.shift_rest, Option.map_map]
          congr 1
          funext n
          simp [Reading.shift]

/-- A statement is read in the same way at every offset. -/
theorem readStatement_shift {k : Nat} (d : Dialect) : Uniform k (readStatement d) := by
  intro c
  simp only [readStatement, Cursor.shift_rest, trivia_shift, Reading.shift]
  rw [Rule.run_shift]
  cases Rule.run (grammar d) d.endsLine (readingDepth (trivia c.rest.length c).2.rest.length)
      .statement Grammar.item (trivia c.rest.length c).2 with
  | none => rfl
  | some next =>
      simp only [Option.map_some, Reading.shift, Cursor.shift_offset, Nat.add_le_add_iff_right]
      split
      · rfl
      · simp [Reading.shift]

theorem readStatements_shift {k : Nat} (d : Dialect) : ∀ (limit : Nat) (c : Cursor),
    readStatements d limit (c.shift k) = (readStatements d limit c).shift k
  | 0, _ => rfl
  | limit + 1, c => by
      rw [readStatements, readStatements, readStatement_shift d c]
      cases readStatement d c with
      | none => rfl
      | some next =>
          have hmore := readStatements_shift (k := k) d limit next.2
          simp [hmore, Reading.shift]

theorem readBody_shift {k : Nat} (d : Dialect) (c : Cursor) :
    readBody d (c.shift k) = (readBody d c).shift k := by
  simp [readBody, readStatements_shift, Reading.shift, trivia_shift]

end ImportAssist
