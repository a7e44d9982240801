import Mathlib.Algebra.GroupWithZero.Nat
import ImportAssist.Text.Utf8

/-!
# Where a byte list may be cut

A *cut* is an offset between two glyphs. Cutting there cuts no glyph in two, so the glyphs of the
piece between two cuts are a piece of the glyphs (`glyphs_piece`), and a piece of a text that is
UTF-8 is UTF-8 again (`decode?_piece`). This holds for ill-formed runs as well: a run is recognised
by its own bytes.
-/

namespace ImportAssist.Utf8

/-- How many bytes some glyphs take. -/
def width (gs : List Glyph) : Nat := (gs.map Glyph.width).sum

@[simp] theorem width_nil : width [] = 0 := rfl

@[simp] theorem width_cons (g : Glyph) (gs : List Glyph) :
    width (g :: gs) = g.width + width gs := rfl

@[simp] theorem width_append (as bs : List Glyph) : width (as ++ bs) = width as + width bs := by
  simp [width]

/-- The offset in front of the glyph number `n`. -/
def cut (bytes : Bytes) (n : Nat) : Nat := width ((glyphs bytes).take n)

def IsCut (bytes : Bytes) (k : Nat) : Prop := ∃ n, k = cut bytes n

/-! ## One glyph -/

theorem glyphAt_width_pos (lead : UInt8) (rest : Bytes) : 1 ≤ (glyphAt lead rest).width := by
  unfold glyphAt stray
  repeat' split
  all_goals simp

theorem glyphAt_width_le (lead : UInt8) (rest : Bytes) :
    (glyphAt lead rest).width ≤ rest.length + 1 := by
  unfold glyphAt stray
  repeat' split
  all_goals simp

/-- A glyph is recognised by its own bytes. -/
theorem glyphAt_take (lead : UInt8) (rest : Bytes) {k : Nat}
    (hk : (glyphAt lead rest).width ≤ k + 1) :
    glyphAt lead (rest.take k) = glyphAt lead rest := by
  unfold glyphAt at hk ⊢
  split at hk
  · rfl
  · match rest, k with
    | [], _ => simp
    | b :: rest, 0 => simp_all [stray]; grind
    | b :: rest, k + 1 => simp
  · match rest, k with
    | [], _ => simp
    | b :: rest, 0 => simp_all [stray]; grind
    | [b], k + 1 => simp
    | b :: c :: rest, 1 => simp_all [stray]; grind
    | b :: c :: rest, k + 2 => simp
  · match rest, k with
    | [], _ => simp
    | b :: rest, 0 => simp_all [stray]; grind
    | [b], k + 1 => simp
    | b :: c :: rest, 1 => simp_all [stray]; grind
    | [b, c], k + 2 => simp
    | b :: c :: d :: rest, 2 => simp_all [stray]; grind
    | b :: c :: d :: rest, k + 3 => simp
  · rfl

/-! ## Many glyphs -/

theorem glyphsFrom_eq_drop : ∀ (skip : Nat) (bytes : Bytes),
    glyphsFrom skip bytes = glyphs (bytes.drop skip)
  | 0, bytes => by simp [glyphs]
  | skip + 1, [] => by simp [glyphs, glyphsFrom]
  | skip + 1, b :: rest => by
      rw [glyphsFrom, glyphsFrom_eq_drop skip rest, List.drop_succ_cons]

theorem glyphs_nil : glyphs [] = [] := rfl

/-- The first glyph, then those of the bytes behind it. -/
theorem glyphs_cons (lead : UInt8) (rest : Bytes) :
    glyphs (lead :: rest) =
      glyphAt lead rest :: glyphs (rest.drop ((glyphAt lead rest).width - 1)) := by
  rw [glyphs, glyphsFrom, glyphsFrom_eq_drop]

theorem width_pos_of_mem : ∀ (bytes : Bytes), ∀ g ∈ glyphs bytes, 1 ≤ g.width
  | [], g, hg => by simp [glyphs_nil] at hg
  | lead :: rest, g, hg => by
      rw [glyphs_cons, List.mem_cons] at hg
      rcases hg with rfl | hg
      · exact glyphAt_width_pos lead rest
      · exact width_pos_of_mem _ g hg
termination_by bytes => bytes.length

/-- The widths add up to the number of bytes. -/
theorem width_glyphs : ∀ (bytes : Bytes), width (glyphs bytes) = bytes.length
  | [] => rfl
  | lead :: rest => by
      have hpos := glyphAt_width_pos lead rest
      have hle := glyphAt_width_le lead rest
      rw [glyphs_cons, width_cons, width_glyphs, List.length_drop, List.length_cons]
      omega
termination_by bytes => bytes.length

/-! ## Cuts -/

@[simp] theorem cut_zero (bytes : Bytes) : cut bytes 0 = 0 := by simp [cut]

theorem cut_le_length (bytes : Bytes) (n : Nat) : cut bytes n ≤ bytes.length := by
  have h : width (glyphs bytes) = cut bytes n + width ((glyphs bytes).drop n) := by
    rw [cut, ← width_append, List.take_append_drop]
  have := width_glyphs bytes
  omega

theorem IsCut.le_length {bytes : Bytes} {k : Nat} (h : IsCut bytes k) : k ≤ bytes.length := by
  obtain ⟨n, rfl⟩ := h
  exact cut_le_length bytes n

theorem cut_cons (lead : UInt8) (rest : Bytes) (n : Nat) :
    cut (lead :: rest) (n + 1) =
      (glyphAt lead rest).width + cut (rest.drop ((glyphAt lead rest).width - 1)) n := by
  rw [cut, glyphs_cons, List.take_succ_cons, width_cons, cut]

/-- The glyphs behind a cut. -/
theorem glyphs_drop_cut : ∀ (n : Nat) (bytes : Bytes),
    glyphs (bytes.drop (cut bytes n)) = (glyphs bytes).drop n
  | 0, bytes => by simp
  | n + 1, [] => by simp [glyphs_nil]
  | n + 1, lead :: rest => by
      have hpos := glyphAt_width_pos lead rest
      have hsplit : ∀ k, (lead :: rest).drop ((glyphAt lead rest).width + k) =
          (rest.drop ((glyphAt lead rest).width - 1)).drop k := by
        intro k
        obtain ⟨w, hw⟩ := Nat.exists_eq_add_of_le' hpos
        rw [hw, List.drop_drop, Nat.add_right_comm, List.drop_succ_cons, Nat.add_sub_cancel]
      rw [cut_cons, hsplit, glyphs_drop_cut, glyphs_cons, List.drop_succ_cons]

/-- The glyphs in front of a cut. -/
theorem glyphs_take_cut : ∀ (n : Nat) (bytes : Bytes),
    glyphs (bytes.take (cut bytes n)) = (glyphs bytes).take n
  | 0, bytes => by simp [glyphs_nil]
  | n + 1, [] => by simp [glyphs_nil]
  | n + 1, lead :: rest => by
      have hpos := glyphAt_width_pos lead rest
      obtain ⟨w, hw⟩ := Nat.exists_eq_add_of_le' hpos
      have hfront : (lead :: rest).take (cut (lead :: rest) (n + 1)) =
          lead :: rest.take (w + cut (rest.drop w) n) := by
        rw [cut_cons, hw, Nat.add_sub_cancel, Nat.add_right_comm, List.take_succ_cons]
      have hlead : glyphAt lead (rest.take (w + cut (rest.drop w) n)) = glyphAt lead rest :=
        glyphAt_take lead rest (by omega)
      rw [hfront, glyphs_cons, glyphs_cons, hlead, hw, Nat.add_sub_cancel, List.drop_take,
        Nat.add_sub_cancel_left, glyphs_take_cut, List.take_succ_cons]

theorem cut_add (bytes : Bytes) (m k : Nat) :
    cut bytes (m + k) = cut bytes m + cut (bytes.drop (cut bytes m)) k := by
  rw [cut, List.take_add, width_append, ← glyphs_drop_cut]
  rfl

/-- The glyphs between two cuts. -/
theorem glyphs_piece (bytes : Bytes) (m k : Nat) :
    glyphs ((bytes.drop (cut bytes m)).take (cut bytes (m + k) - cut bytes m)) =
      ((glyphs bytes).drop m).take k := by
  rw [cut_add, Nat.add_sub_cancel_left, glyphs_take_cut, glyphs_drop_cut]

/-- A piece of UTF-8 between two cuts is UTF-8. -/
theorem decode?_piece {bytes : Bytes} {a b : Nat} (hutf8 : (decode? bytes).isSome)
    (ha : IsCut bytes a) (hb : IsCut bytes b) :
    (decode? ((bytes.drop a).take (b - a))).isSome := by
  obtain ⟨m, rfl⟩ := ha
  obtain ⟨n, rfl⟩ := hb
  have hall : (glyphs bytes).all Glyph.valid = true := by
    unfold decode? at hutf8
    split at hutf8
    · assumption
    · cases hutf8
  have hpiece : (glyphs ((bytes.drop (cut bytes m)).take (cut bytes n - cut bytes m))).all
      Glyph.valid = true := by
    rcases Nat.le_total m n with hmn | hnm
    · obtain ⟨k, rfl⟩ := Nat.exists_eq_add_of_le hmn
      rw [glyphs_piece, List.all_eq_true]
      intro g hg
      exact List.all_eq_true.mp hall g (List.mem_of_mem_drop (List.mem_of_mem_take hg))
    · obtain ⟨k, rfl⟩ := Nat.exists_eq_add_of_le hnm
      have hle : cut bytes n ≤ cut bytes (n + k) := by rw [cut_add]; exact Nat.le_add_right _ _
      simp [Nat.sub_eq_zero_of_le hle, glyphs_nil]
  simp [decode?, hpiece]

end ImportAssist.Utf8
