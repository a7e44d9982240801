import ImportAssist.Data.Json.Reader
import Mathlib.Data.List.TakeWhile

/-!
# Texts beyond the limits of the reader

A whole number with too many digits is not read, and neither are lists that stand in each other too deep, whatever comes
behind. Both are texts in ASCII; the first is JSON, and the second the beginning of it.
-/

namespace ImportAssist.Json

theorem skipSpace_of_head {c : Char} {rest : List Char} {index : Nat} (h : isSpace c = false) :
    Position.skipSpace ⟨index, c :: rest⟩ = ⟨index, c :: rest⟩ := by
  rw [Position.skipSpace, List.takeWhile_cons_of_neg (by simp [h])]
  rfl

/-! ## Nesting -/

theorem value_nested {rest : List Char} : ∀ {depth n index : Nat}, depth < n →
    value depth ⟨index, List.replicate n '[' ++ rest⟩ = .error (.limit .depth)
  | 0, _ + 1, _, _ => rfl
  | depth + 1, n + 2, index, h => by
      have ih := @value_nested rest depth (n + 1) (index + 1) (by omega)
      have hinside : Position.skipSpace (Position.drop ⟨index, List.replicate (n + 2) '[' ++ rest⟩ 1) =
          ⟨index + 1, List.replicate (n + 1) '[' ++ rest⟩ := skipSpace_of_head (by decide)
      -- the list that is opened has the shorter row of brackets as its first item
      have hitems : ∀ fuel, items (value depth) (fuel + 1) [] ⟨index + 1, List.replicate (n + 1) '[' ++ rest⟩ =
          .error (.limit .depth) := by
        intro fuel
        rw [items, ih]
        rfl
      rw [List.replicate_succ, List.cons_append, value]
      dsimp only
      rw [← List.cons_append, ← List.replicate_succ, hinside]
      exact hitems _

/-- Lists that stand in each other too deep are not read. -/
theorem read_nested {depth n : Nat} (h : depth < n) (rest : List Char) :
    read depth (String.ofList (List.replicate n '[' ++ rest)) = .error (.limit .depth) := by
  obtain ⟨n, rfl⟩ := Nat.exists_eq_add_of_lt h
  have hvalue := @value_nested rest depth (depth + n + 1) 0 (by omega)
  rw [List.replicate_succ, List.cons_append] at hvalue ⊢
  rw [read, String.toList_ofList]
  dsimp only
  rw [if_neg (by simp), skipSpace_of_head (by decide), hvalue]
  rfl

theorem read_opened {depth n : Nat} (h : depth < n) :
    read depth (String.ofList (List.replicate n '[')) = .error (.limit .depth) := by
  have hnested := read_nested h []
  rwa [List.append_nil] at hnested

/-! ## Digits -/

theorem ne_of_isDigit {c other : Char} (h : c.isDigit = true) (hother : other.isDigit = false) : c ≠ other := by
  rintro rfl
  rw [h] at hother
  cases hother

theorem number?_digits {c : Char} {digits : List Char} (hdigits : ∀ d ∈ c :: digits, d.isDigit = true)
    (hzero : c ≠ '0') :
    number? (c :: digits) = some (wholeNumber false (c :: digits), (c :: digits).length) := by
  have hsign : (List.head? (c :: digits) == some '-') = false := by
    simpa using ne_of_isDigit (hdigits c List.mem_cons_self) rfl
  have hrun : (c :: digits).takeWhile Char.isDigit = c :: digits := List.takeWhile_eq_self_iff.mpr hdigits
  have hwhole : (List.head? (c :: digits) == some '0') = false := by simpa using hzero
  unfold number?
  simp only [hsign, Bool.false_eq_true, if_false, List.drop_zero, hrun, hwhole, List.drop_length, List.isEmpty_cons,
    List.isEmpty_nil, if_true]
  simp

theorem value_simple {depth : Nat} {p : Position} (hlist : ∀ rest, p.rest ≠ '[' :: rest)
    (hobject : ∀ rest, p.rest ≠ '\x7b' :: rest) : value depth p = simpleValue p := by
  cases depth <;>
  · unfold value
    split
    · next h => exact absurd h (hlist _)
    · next h => exact absurd h (hobject _)
    · rfl

/-- A whole number with too many digits is not read. -/
theorem read_digits {depth : Nat} {c : Char} {digits : List Char} (hdigits : ∀ d ∈ c :: digits, d.isDigit = true)
    (hzero : c ≠ '0') (hlong : maxDigits < (c :: digits).length) :
    read depth (String.ofList (c :: digits)) = .error (.limit .digits) := by
  have hother : ∀ {other : Char}, other.isDigit = false → c ≠ other := ne_of_isDigit (hdigits c List.mem_cons_self)
  have hsimple : simpleValue ⟨0, c :: digits⟩ = .error (.limit .digits) := by
    unfold simpleValue
    split
    · next hquote => exact absurd (List.cons.inj hquote).1 (hother rfl)
    · rw [number?_digits hdigits hzero, wholeNumber, if_pos hlong]
      rfl
  have hvalue : value depth ⟨0, c :: digits⟩ = .error (.limit .digits) := by
    rw [value_simple (fun _ h => hother rfl (List.cons.inj h).1) (fun _ h => hother rfl (List.cons.inj h).1), hsimple]
  have hspace : isSpace c = false := by
    simp [isSpace, hother]
  rw [read, String.toList_ofList]
  dsimp only
  rw [if_neg (by simpa using hother rfl), skipSpace_of_head hspace, hvalue]
  rfl

/-- A row of ones that is too long is not read. -/
theorem read_ones {n : Nat} (h : maxDigits < n) (depth : Nat) :
    read depth (String.ofList (List.replicate n '1')) = .error (.limit .digits) := by
  obtain ⟨n, rfl⟩ := Nat.exists_eq_add_of_lt h
  rw [List.replicate_succ]
  refine read_digits (fun d hd => ?_) (by decide) ?_
  · rw [← List.replicate_succ] at hd
    rw [List.eq_of_mem_replicate hd]
    rfl
  · rw [List.length_cons, List.length_replicate]
    omega

end ImportAssist.Json
