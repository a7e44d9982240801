import ImportAssist.Document
import ImportAssist.Proofs.Cuts

/-!
# Texts and their bytes

The glyphs of a text are its characters (`glyphs_encode`), also when other bytes follow, so that a
text is read back from its bytes. A cut of a text splits it into two texts
(`encode_split`). Hence a text put in at a cut leaves a text: `apply_insert` says which.

The other way round, a well-formed glyph is the encoding of its character, so bytes that can be read
are the bytes of the text read (`isSome_decode?_iff`).
-/

namespace ImportAssist

namespace Utf8

/-! ## One character -/

/-- A well-formed glyph. -/
def glyphOf (c : Char) : Glyph := ⟨c, c.utf8Size, true⟩

theorem sequenceLength_ofNat {n : Nat} (hn : n < 256) :
    sequenceLength (UInt8.ofNat n) =
      if n < 0x80 then some 1
      else if 0xC2 ≤ n ∧ n ≤ 0xDF then some 2
      else if 0xE0 ≤ n ∧ n ≤ 0xEF then some 3
      else if 0xF0 ≤ n ∧ n ≤ 0xF4 then some 4
      else none := by
  simp [sequenceLength, UInt8.lt_iff_toNat_lt, UInt8.le_iff_toNat_le, Nat.mod_eq_of_lt hn]

theorem isTail_ofNat {n : Nat} (hlo : 0x80 ≤ n) (hhi : n ≤ 0xBF) :
    isTail (UInt8.ofNat n) = true := by
  simp [isTail, UInt8.le_iff_toNat_le, Nat.mod_eq_of_lt (show n < 256 by omega), hlo, hhi]

theorem isSecond_ofNat {lead n : Nat} (hlead : lead < 256) (hlo : 0x80 ≤ n) (hhi : n ≤ 0xBF)
    (hE0 : lead = 0xE0 → 0xA0 ≤ n) (hED : lead = 0xED → n ≤ 0x9F)
    (hF0 : lead = 0xF0 → 0x90 ≤ n) (hF4 : lead = 0xF4 → n ≤ 0x8F) :
    isSecond (UInt8.ofNat lead) (UInt8.ofNat n) = true := by
  have hn : n < 256 := by omega
  have heq : ∀ k < 256, UInt8.ofNat lead = UInt8.ofNat k → lead = k := by
    intro k hk h
    simpa [Nat.mod_eq_of_lt hlead, Nat.mod_eq_of_lt hk] using congrArg UInt8.toNat h
  unfold isSecond secondRange
  repeat' split
  all_goals
    rename_i h
    simp [UInt8.le_iff_toNat_le, Nat.mod_eq_of_lt hn]
  · exact ⟨hE0 (heq 0xE0 (by omega) h), hhi⟩
  · exact ⟨hlo, hED (heq 0xED (by omega) h)⟩
  · exact ⟨hF0 (heq 0xF0 (by omega) h), hhi⟩
  · exact ⟨hlo, hF4 (heq 0xF4 (by omega) h)⟩
  · exact ⟨hlo, hhi⟩

theorem tailBits_ofNat {n : Nat} (hn : n < 0x40) : tailBits (UInt8.ofNat (n + 0x80)) = n := by
  have hmod : (UInt8.ofNat (n + 0x80)).toNat = n + 0x80 := by
    simp only [UInt8.toNat_ofNat']
    omega
  unfold tailBits
  omega

/-- The glyph at the front of a character's bytes. -/
theorem glyphAt_encodeChar (c : Char) {lead : UInt8} {tail : Bytes} (rest : Bytes)
    (h : String.utf8EncodeChar c = lead :: tail) :
    glyphAt lead (tail ++ rest) = glyphOf c := by
  have hsize : c.utf8Size = tail.length + 1 := by
    rw [← String.length_utf8EncodeChar, h, List.length_cons]
  have hvalid : c.val.toNat < 0xD800 ∨ 0xDFFF < c.val.toNat ∧ c.val.toNat < 0x110000 := c.valid
  have hchar : ∀ n, n = c.val.toNat → Char.ofNat n = c := by
    rintro _ rfl
    exact Char.ofNat_toNat c
  rw [glyphOf, hsize]
  unfold String.utf8EncodeChar at h
  dsimp only at h
  generalize c.val.toNat = v at h hvalid hchar
  split at h
  · cases h
    have hlead : v < 256 := by omega
    have hseq : sequenceLength (UInt8.ofNat v) = some 1 := by
      rw [sequenceLength_ofNat hlead, if_pos (by omega)]
    simp only [glyphAt, hseq, UInt8.toNat_ofNat', Nat.mod_eq_of_lt hlead, hchar v rfl]
    rfl
  · split at h
    · cases h
      have hlead : v / 64 % 32 + 0xC0 < 256 := by omega
      have hseq : sequenceLength (UInt8.ofNat (v / 64 % 32 + 0xC0)) = some 2 := by
        rw [sequenceLength_ofNat hlead, if_neg (by omega), if_pos (by omega)]
      have htail := isTail_ofNat (n := v % 64 + 0x80) (by omega) (by omega)
      have hcode : (v / 64 % 32 + 0xC0 - 0xC0) * 64 + v % 64 = v := by omega
      simp only [glyphAt, hseq, List.cons_append, htail, if_true,
        tailBits_ofNat (show v % 64 < 64 by omega), UInt8.toNat_ofNat', Nat.mod_eq_of_lt hlead,
        hcode, hchar v rfl]
      rfl
    · split at h
      · cases h
        have hlead : v / 4096 % 16 + 0xE0 < 256 := by omega
        have hseq : sequenceLength (UInt8.ofNat (v / 4096 % 16 + 0xE0)) = some 3 := by
          rw [sequenceLength_ofNat hlead, if_neg (by omega), if_neg (by omega), if_pos (by omega)]
        have hsecond := isSecond_ofNat (n := v / 64 % 64 + 0x80) hlead (by omega) (by omega)
          (by omega) (by omega) (by omega) (by omega)
        have htail := isTail_ofNat (n := v % 64 + 0x80) (by omega) (by omega)
        have hcode : ((v / 4096 % 16 + 0xE0 - 0xE0) * 64 + v / 64 % 64) * 64 + v % 64 = v := by
          omega
        simp only [glyphAt, hseq, List.cons_append, hsecond, htail, if_true,
          tailBits_ofNat (show v % 64 < 64 by omega), tailBits_ofNat (show v / 64 % 64 < 64 by omega),
          UInt8.toNat_ofNat', Nat.mod_eq_of_lt hlead, hcode, hchar v rfl]
        rfl
      · cases h
        have hlead : v / 262144 % 8 + 0xF0 < 256 := by omega
        have hseq : sequenceLength (UInt8.ofNat (v / 262144 % 8 + 0xF0)) = some 4 := by
          rw [sequenceLength_ofNat hlead, if_neg (by omega), if_neg (by omega), if_neg (by omega),
            if_pos (by omega)]
        have hsecond := isSecond_ofNat (n := v / 4096 % 64 + 0x80) hlead (by omega) (by omega)
          (by omega) (by omega) (by omega) (by omega)
        have hthird := isTail_ofNat (n := v / 64 % 64 + 0x80) (by omega) (by omega)
        have htail := isTail_ofNat (n := v % 64 + 0x80) (by omega) (by omega)
        have hcode : (((v / 262144 % 8 + 0xF0 - 0xF0) * 64 + v / 4096 % 64) * 64 + v / 64 % 64) * 64 +
            v % 64 = v := by omega
        simp only [glyphAt, hseq, List.cons_append, hsecond, hthird, htail, if_true,
          tailBits_ofNat (show v % 64 < 64 by omega), tailBits_ofNat (show v / 64 % 64 < 64 by omega),
          tailBits_ofNat (show v / 4096 % 64 < 64 by omega),
          UInt8.toNat_ofNat', Nat.mod_eq_of_lt hlead, hcode, hchar v rfl]
        rfl

/-! ## Texts -/

theorem glyphs_encodeChars (rest : Bytes) : ∀ cs : List Char,
    glyphs (cs.flatMap String.utf8EncodeChar ++ rest) = cs.map glyphOf ++ glyphs rest
  | [] => rfl
  | c :: cs => by
      have hsize : (String.utf8EncodeChar c).length = c.utf8Size := String.length_utf8EncodeChar c
      cases hc : String.utf8EncodeChar c with
      | nil => exact absurd hc String.utf8EncodeChar_ne_nil
      | cons lead tail =>
          rw [hc, List.length_cons] at hsize
          have hglyph := glyphAt_encodeChar c (cs.flatMap String.utf8EncodeChar ++ rest) hc
          rw [List.flatMap_cons, hc, List.append_assoc, List.cons_append, glyphs_cons, hglyph,
            List.map_cons, List.cons_append, ← glyphs_encodeChars rest cs]
          simp [glyphOf, ← hsize]

/-- The glyphs of a text are its characters, whatever follows. -/
theorem glyphs_encode (text : String) (rest : Bytes) :
    glyphs (encode text ++ rest) = text.toList.map glyphOf ++ glyphs rest :=
  glyphs_encodeChars rest text.toList

theorem glyphs_encode_self (text : String) : glyphs (encode text) = text.toList.map glyphOf := by
  simpa [glyphs_nil] using glyphs_encode text []

@[simp] theorem encode_append (s t : String) : encode (s ++ t) = encode s ++ encode t := by
  simp [encode]

theorem decodeLossy_encode (text : String) : decodeLossy (encode text) = text := by
  rw [decodeLossy, glyphs_encode_self, List.map_map]
  simp [Function.comp_def, glyphOf]

/-- A text is read back from its bytes. -/
theorem decode?_encode (text : String) : decode? (encode text) = some text := by
  rw [decode?, if_pos, decodeLossy_encode]
  simp [glyphs_encode_self, glyphOf]

/-- How many bytes some characters take. -/
theorem width_map_glyphOf (cs : List Char) :
    width (cs.map glyphOf) = (encode (String.ofList cs)).length := by
  rw [← width_glyphs, glyphs_encode_self, String.toList_ofList]

/-- A cut splits a text into two. -/
theorem encode_split {text : String} {i : Nat} (hi : IsCut (encode text) i) :
    ∃ front back : String, text = front ++ back ∧ i = (encode front).length := by
  obtain ⟨n, rfl⟩ := hi
  refine ⟨String.ofList (text.toList.take n), String.ofList (text.toList.drop n), ?_, ?_⟩
  · rw [← String.ofList_append, List.take_append_drop, String.ofList_toList]
  · rw [cut, glyphs_encode_self, ← List.map_take, width_map_glyphOf]

/-! ## Bytes that are a text -/

theorem isTail_iff (b : UInt8) : isTail b = true ↔ 0x80 ≤ b.toNat ∧ b.toNat ≤ 0xBF := by
  simp [isTail, UInt8.le_iff_toNat_le]

theorem isSecond_spec {lead b : UInt8} (h : isSecond lead b = true) :
    0x80 ≤ b.toNat ∧ b.toNat ≤ 0xBF ∧ (lead.toNat = 0xE0 → 0xA0 ≤ b.toNat) ∧
      (lead.toNat = 0xED → b.toNat ≤ 0x9F) ∧ (lead.toNat = 0xF0 → 0x90 ≤ b.toNat) ∧
      (lead.toNat = 0xF4 → b.toNat ≤ 0x8F) := by
  unfold isSecond secondRange at h
  simp only [← UInt8.toNat_inj] at h
  repeat' split at h
  all_goals
    simp [UInt8.le_iff_toNat_le] at *
    omega

theorem sequenceLength_spec {lead : UInt8} {n : Nat} (h : sequenceLength lead = some n) :
    (n = 1 ∧ lead.toNat < 0x80) ∨ (n = 2 ∧ 0xC2 ≤ lead.toNat ∧ lead.toNat ≤ 0xDF) ∨
      (n = 3 ∧ 0xE0 ≤ lead.toNat ∧ lead.toNat ≤ 0xEF) ∨
      (n = 4 ∧ 0xF0 ≤ lead.toNat ∧ lead.toNat ≤ 0xF4) := by
  rw [← UInt8.ofNat_toNat (x := lead), sequenceLength_ofNat lead.toNat_lt] at h
  repeat' split at h
  · cases h; omega
  · cases h; omega
  · cases h; omega
  · cases h; omega
  · cases h

/-- The number of a character that is made from its number. -/
theorem val_ofNat {v : Nat} (h : v.isValidChar) : (Char.ofNat v).val.toNat = v := by
  rw [Char.ofNat, dif_pos h]
  rfl

theorem ofNat_eq {b : UInt8} {n : Nat} (h : n = b.toNat) : UInt8.ofNat n = b := by
  rw [h, UInt8.ofNat_toNat]

theorem encodeChar_one {lead : UInt8} (hlead : lead.toNat < 0x80) :
    String.utf8EncodeChar (Char.ofNat lead.toNat) = [lead] := by
  have hval := val_ofNat (v := lead.toNat) (.inl (by omega))
  unfold String.utf8EncodeChar
  simp only [hval]
  rw [if_pos (by omega), UInt8.ofNat_toNat]

theorem encodeChar_two {lead b : UInt8} (hlo : 0xC2 ≤ lead.toNat) (hhi : lead.toNat ≤ 0xDF)
    (hb : isTail b = true) :
    String.utf8EncodeChar (Char.ofNat ((lead.toNat - 0xC0) * 64 + tailBits b)) = [lead, b] := by
  rw [isTail_iff] at hb
  unfold tailBits
  generalize hv : (lead.toNat - 0xC0) * 64 + (b.toNat - 0x80) = v
  have hval := val_ofNat (v := v) (.inl (by omega))
  unfold String.utf8EncodeChar
  simp only [hval]
  rw [if_neg (by omega), if_pos (by omega), ofNat_eq (b := lead) (by omega),
    ofNat_eq (b := b) (by omega)]

theorem encodeChar_three {lead b c : UInt8} (hlo : 0xE0 ≤ lead.toNat) (hhi : lead.toNat ≤ 0xEF)
    (hb : isSecond lead b = true) (hc : isTail c = true) :
    String.utf8EncodeChar (Char.ofNat (((lead.toNat - 0xE0) * 64 + tailBits b) * 64 + tailBits c)) =
      [lead, b, c] := by
  rw [isTail_iff] at hc
  have hsecond := isSecond_spec hb
  unfold tailBits
  generalize hv : ((lead.toNat - 0xE0) * 64 + (b.toNat - 0x80)) * 64 + (c.toNat - 0x80) = v
  have hval := val_ofNat (v := v) (show v < 0xD800 ∨ 0xDFFF < v ∧ v < 0x110000 by omega)
  unfold String.utf8EncodeChar
  simp only [hval]
  rw [if_neg (by omega), if_neg (by omega), if_pos (by omega), ofNat_eq (b := lead) (by omega),
    ofNat_eq (b := b) (by omega), ofNat_eq (b := c) (by omega)]

theorem encodeChar_four {lead b c d : UInt8} (hlo : 0xF0 ≤ lead.toNat) (hhi : lead.toNat ≤ 0xF4)
    (hb : isSecond lead b = true) (hc : isTail c = true) (hd : isTail d = true) :
    String.utf8EncodeChar (Char.ofNat
      ((((lead.toNat - 0xF0) * 64 + tailBits b) * 64 + tailBits c) * 64 + tailBits d)) =
      [lead, b, c, d] := by
  rw [isTail_iff] at hc hd
  have hsecond := isSecond_spec hb
  unfold tailBits
  generalize hv : (((lead.toNat - 0xF0) * 64 + (b.toNat - 0x80)) * 64 + (c.toNat - 0x80)) * 64 +
    (d.toNat - 0x80) = v
  have hval := val_ofNat (v := v) (show v < 0xD800 ∨ 0xDFFF < v ∧ v < 0x110000 by omega)
  unfold String.utf8EncodeChar
  simp only [hval]
  rw [if_neg (by omega), if_neg (by omega), if_neg (by omega), ofNat_eq (b := lead) (by omega),
    ofNat_eq (b := b) (by omega), ofNat_eq (b := c) (by omega), ofNat_eq (b := d) (by omega)]

/-- A well-formed glyph is the encoding of its character. -/
theorem encodeChar_glyphAt (lead : UInt8) (rest : Bytes) (h : (glyphAt lead rest).valid = true) :
    String.utf8EncodeChar (glyphAt lead rest).char =
      (lead :: rest).take (glyphAt lead rest).width := by
  unfold glyphAt at h ⊢
  split at h
  next hlength =>
    have hlead : lead.toNat < 0x80 := by have := sequenceLength_spec hlength; omega
    exact encodeChar_one hlead
  next hlength =>
    obtain ⟨hlo, hhi⟩ : 0xC2 ≤ lead.toNat ∧ lead.toNat ≤ 0xDF := by
      have := sequenceLength_spec hlength; omega
    obtain _ | ⟨b, rest⟩ := rest
    · cases h
    · simp only at h ⊢
      split at h
      next hb => simpa [hb] using encodeChar_two hlo hhi hb
      next => cases h
  next hlength =>
    obtain ⟨hlo, hhi⟩ : 0xE0 ≤ lead.toNat ∧ lead.toNat ≤ 0xEF := by
      have := sequenceLength_spec hlength; omega
    obtain _ | ⟨b, _ | ⟨c, rest⟩⟩ := rest
    · cases h
    · simp only [stray] at h
      split at h <;> cases h
    · simp only at h ⊢
      split at h
      next hb =>
        split at h
        next hc => simpa [hb, hc] using encodeChar_three hlo hhi hb hc
        next => cases h
      next => cases h
  next hlength =>
    obtain ⟨hlo, hhi⟩ : 0xF0 ≤ lead.toNat ∧ lead.toNat ≤ 0xF4 := by
      have := sequenceLength_spec hlength; omega
    obtain _ | ⟨b, _ | ⟨c, _ | ⟨d, rest⟩⟩⟩ := rest
    · cases h
    · simp only [stray] at h
      split at h <;> cases h
    · simp only [stray] at h
      repeat' split at h
      all_goals cases h
    · simp only at h ⊢
      split at h
      next hb =>
        split at h
        next hc =>
          split at h
          next hd => simpa [hb, hc, hd] using encodeChar_four hlo hhi hb hc hd
          next => cases h
        next => cases h
      next => cases h
  next => cases h

theorem encode_glyphs : ∀ (bytes : Bytes), (glyphs bytes).all Glyph.valid = true →
    ((glyphs bytes).map Glyph.char).flatMap String.utf8EncodeChar = bytes
  | [], _ => rfl
  | lead :: rest, h => by
      have hpos := glyphAt_width_pos lead rest
      rw [glyphs_cons, List.all_cons, Bool.and_eq_true] at h
      rw [glyphs_cons, List.map_cons, List.flatMap_cons, encodeChar_glyphAt lead rest h.1,
        encode_glyphs _ h.2]
      obtain ⟨w, hw⟩ := Nat.exists_eq_add_of_le' hpos
      rw [hw, List.take_succ_cons, Nat.add_sub_cancel, List.cons_append, List.take_append_drop]
termination_by bytes => bytes.length
decreasing_by simp only [List.length_drop, List.length_cons]; omega

/-- Bytes that can be read are the bytes of the text read. -/
theorem encode_of_decode? {bytes : Bytes} {text : String} (h : decode? bytes = some text) :
    encode text = bytes := by
  unfold decode? at h
  split at h
  next hall =>
    obtain rfl := Option.some.inj h
    rw [encode, decodeLossy, String.toList_ofList, encode_glyphs bytes hall]
  next => cases h

/-- Bytes can be read if and only if some text has them. -/
theorem isSome_decode?_iff (bytes : Bytes) :
    (decode? bytes).isSome ↔ ∃ text, encode text = bytes := by
  constructor
  · intro h
    obtain ⟨text, htext⟩ := Option.isSome_iff_exists.mp h
    exact ⟨text, encode_of_decode? htext⟩
  · rintro ⟨text, rfl⟩
    rw [decode?_encode]
    rfl

end Utf8

end ImportAssist
