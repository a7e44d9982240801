/-!
# UTF-8

Documents are addressed by byte offset, so the bytes of a text are kept as a plain list.

* `encode` gives the bytes of a text.
* `glyphs` cuts any byte list into glyphs: a character with its width, or a maximal ill-formed
  run standing for U+FFFD. The widths always add up to the number of bytes.
* `decode?` reads a byte list back when no glyph is ill-formed; `decodeLossy` always does.
-/

namespace ImportAssist

/-- The bytes of a document, in order. -/
abbrev Bytes := List UInt8

/-- One character of a byte list, or an ill-formed run standing for U+FFFD. -/
structure Glyph where
  char : Char
  /-- How many bytes it takes. -/
  width : Nat
  /-- Whether the bytes are the encoding of `char`. -/
  valid : Bool
  deriving DecidableEq, Repr

namespace Utf8

def encode (text : String) : Bytes :=
  text.toList.flatMap String.utf8EncodeChar

/-- An ill-formed run of `width` bytes. -/
def stray (width : Nat) : Glyph := ⟨'\uFFFD', width, false⟩

/-- A continuation byte. -/
def isTail (b : UInt8) : Bool := 0x80 ≤ b && b ≤ 0xBF

/-- The smallest and the largest byte that may follow the lead byte of a sequence. -/
def secondRange (lead : UInt8) : UInt8 × UInt8 :=
  if lead = 0xE0 then (0xA0, 0xBF)
  else if lead = 0xED then (0x80, 0x9F)
  else if lead = 0xF0 then (0x90, 0xBF)
  else if lead = 0xF4 then (0x80, 0x8F)
  else (0x80, 0xBF)

/-- How many bytes a sequence with this lead byte has; none if no sequence starts with it. -/
def sequenceLength (lead : UInt8) : Option Nat :=
  if lead < 0x80 then some 1
  else if 0xC2 ≤ lead && lead ≤ 0xDF then some 2
  else if 0xE0 ≤ lead && lead ≤ 0xEF then some 3
  else if 0xF0 ≤ lead && lead ≤ 0xF4 then some 4
  else none

def isSecond (lead b : UInt8) : Bool :=
  (secondRange lead).1 ≤ b && b ≤ (secondRange lead).2

/-- The payload bits of a continuation byte. -/
def tailBits (b : UInt8) : Nat := b.toNat - 0x80

/-- The glyph at the front of `lead :: rest`. -/
def glyphAt (lead : UInt8) (rest : Bytes) : Glyph :=
  match sequenceLength lead with
  | some 1 => ⟨Char.ofNat lead.toNat, 1, true⟩
  | some 2 =>
    match rest with
    | b :: _ =>
      if isTail b then ⟨Char.ofNat ((lead.toNat - 0xC0) * 64 + tailBits b), 2, true⟩ else stray 1
    | [] => stray 1
  | some 3 =>
    match rest with
    | b :: c :: _ =>
      if isSecond lead b then
        if isTail c then
          ⟨Char.ofNat (((lead.toNat - 0xE0) * 64 + tailBits b) * 64 + tailBits c), 3, true⟩
        else stray 2
      else stray 1
    | [b] => if isSecond lead b then stray 2 else stray 1
    | [] => stray 1
  | some 4 =>
    match rest with
    | b :: c :: d :: _ =>
      if isSecond lead b then
        if isTail c then
          if isTail d then
            ⟨Char.ofNat ((((lead.toNat - 0xF0) * 64 + tailBits b) * 64 + tailBits c) * 64 + tailBits d),
              4, true⟩
          else stray 3
        else stray 2
      else stray 1
    | [b, c] => if isSecond lead b then if isTail c then stray 3 else stray 2 else stray 1
    | [b] => if isSecond lead b then stray 2 else stray 1
    | [] => stray 1
  | _ => stray 1

/-- The glyphs of a byte list, of which the first `skip` bytes belong to a glyph already given. -/
def glyphsFrom : Nat → Bytes → List Glyph
  | _, [] => []
  | skip + 1, _ :: rest => glyphsFrom skip rest
  | 0, lead :: rest =>
    let g := glyphAt lead rest
    g :: glyphsFrom (g.width - 1) rest

def glyphs (bytes : Bytes) : List Glyph := glyphsFrom 0 bytes

/-- The text of a byte list with U+FFFD for every ill-formed run. -/
def decodeLossy (bytes : Bytes) : String :=
  String.ofList ((glyphs bytes).map Glyph.char)

/-- The text of a byte list; none if some run is ill-formed. -/
def decode? (bytes : Bytes) : Option String :=
  if (glyphs bytes).all Glyph.valid then some (decodeLossy bytes) else none

end Utf8

end ImportAssist
