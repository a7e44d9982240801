/-!
# The shortest decimal of a floating-point number

A finite double is `m * 2 ^ q`. The reals that round to it form an interval around it, whose ends
belong to it exactly when `m` is even. `shortest` gives the fewest decimal digits that name a point
of the interval, and of the points with that many digits the one nearest to the number. Everything
is done in whole numbers.
-/

namespace ImportAssist.Shortest

/-- A positive double taken apart. -/
structure Parts where
  /-- The significand. -/
  m : Nat
  /-- The binary exponent. -/
  q : Int
  /-- Whether the neighbour below is only half as far away as the one above. -/
  uneven : Bool
  deriving DecidableEq, Repr

/-- The parts of the double whose bits, without the sign, are given. -/
def Parts.ofBits (bits : Nat) : Parts :=
  let fraction := bits % Nat.pow 2 52
  let exponent : Nat := bits / Nat.pow 2 52
  if exponent = 0 then ⟨fraction, -1074, false⟩
  else ⟨Nat.pow 2 52 + fraction, (exponent : Int) - 1075, fraction == 0 && exponent != 1⟩

/-- A digit string `digits` that stands for `digits * 10 ^ exponent`. -/
structure Decimal where
  digits : Nat
  exponent : Int
  deriving DecidableEq, Repr

/-- `base ^ e` as a fraction. -/
def power (base : Nat) (e : Int) : Nat × Nat :=
  if 0 ≤ e then (Nat.pow base e.toNat, 1) else (1, Nat.pow base (-e).toNat)

/-- The number, the distance to its lower neighbour and to its upper one, all halved, over a common
denominator. -/
def scaled (p : Parts) : Nat × Nat × Nat × Nat :=
  let (num, den) := power 2 p.q
  (4 * p.m * num, if p.uneven then num else 2 * num, 2 * num, 4 * den)

/-- Whether a decimal rounds to the number, and how far it is from it. -/
def hit? (p : Parts) (d : Decimal) : Option Nat :=
  let (value, below, above, den) := scaled p
  let (num, tenDen) := power 10 d.exponent
  let point := d.digits * num * den
  let value := value * tenDen
  let closed := p.m % 2 = 0
  if point ≤ value then
    let gap := value - point
    if gap < below * tenDen || (closed && gap = below * tenDen) then some gap else none
  else
    let gap := point - value
    if gap < above * tenDen || (closed && gap = above * tenDen) then some gap else none

/-- The two neighbours of the number among the multiples of `10 ^ exponent`. -/
def neighbours (p : Parts) (exponent : Int) : List Decimal :=
  let (value, _, _, den) := scaled p
  let (num, tenDen) := power 10 exponent
  let floor := value * tenDen / (den * num)
  [⟨floor, exponent⟩, ⟨floor + 1, exponent⟩]

/-- The better of the neighbours that round to the number; the even one of two equally good. -/
def best? (p : Parts) (exponent : Int) : Option Decimal :=
  match neighbours p exponent with
  | [low, high] =>
    match hit? p low, hit? p high with
    | some a, some b =>
      if a < b then some low
      else if b < a then some high
      else if low.digits % 2 = 0 then some low else some high
    | some _, none => some low
    | none, some _ => some high
    | none, none => none
  | _ => none

/-- The first grid, from coarse to fine, with a hit that is not zero. -/
def search (p : Parts) : Nat → Int → Decimal
  | 0, e => ⟨0, e⟩
  | fuel + 1, e =>
    match best? p e with
    | some d => if d.digits = 0 then search p fuel (e - 1) else d
    | none => search p fuel (e - 1)

/-- Moves factors of ten into the exponent. -/
def normalize : Nat → Decimal → Decimal
  | 0, d => d
  | fuel + 1, d =>
    if d.digits ≠ 0 && d.digits % 10 = 0 then normalize fuel ⟨d.digits / 10, d.exponent + 1⟩ else d

def shortest (p : Parts) : Decimal :=
  if p.m = 0 then ⟨0, 0⟩ else normalize 400 (search p 700 310)

/-- The text of a decimal: positional from one ten-thousandth up to below 10^16, always with a
point; otherwise with an exponent of at least two digits and a sign. -/
def Decimal.render (d : Decimal) : String :=
  let digits := toString d.digits
  let n := digits.length
  -- the number is 0.digits * 10 ^ point
  let point : Int := d.exponent + n
  let zeros (k : Nat) : String := String.ofList (List.replicate k '0')
  if d.digits = 0 then "0.0"
  else if -4 < point && point ≤ 16 then
    if point ≤ 0 then "0." ++ zeros (-point).toNat ++ digits
    else if (n : Int) ≤ point then digits ++ zeros (point - n).toNat ++ ".0"
    else
      let k := point.toNat
      String.ofList (digits.toList.take k) ++ "." ++ String.ofList (digits.toList.drop k)
  else
    let e := point - 1
    let size := toString e.natAbs
    let mantissa := match digits.toList with
      | [c] => String.ofList [c]
      | c :: rest => String.ofList (c :: '.' :: rest)
      | [] => ""
    mantissa ++ "e" ++ (if e < 0 then "-" else "+") ++ (if size.length < 2 then "0" else "") ++ size

/-- The text of any double; `nan` and `infinity` are the words for the others. -/
def render (nan infinity : String) (x : Float) : String :=
  let bits := x.toBits.toNat
  let sign := if Nat.pow 2 63 ≤ bits then "-" else ""
  let magnitude := bits % Nat.pow 2 63
  if magnitude > 0x7FF0000000000000 then nan
  else if magnitude = 0x7FF0000000000000 then sign ++ infinity
  else sign ++ (shortest (Parts.ofBits magnitude)).render

end ImportAssist.Shortest
