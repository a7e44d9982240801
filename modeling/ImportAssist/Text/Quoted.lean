import ImportAssist.Text.Printable

/-!
# Quoted texts

How a text is shown inside a message: in single quotes, or in double ones if it holds single
quotes only, with escapes for what cannot be printed.
-/

namespace ImportAssist

def hexDigit (n : Nat) : Char :=
  if n < 10 then Char.ofNat (48 + n) else Char.ofNat (87 + n)

/-- The last `width` hexadecimal digits of a number. -/
def hexDigits : Nat → Nat → List Char
  | 0, _ => []
  | width + 1, n => hexDigits width (n / 16) ++ [hexDigit (n % 16)]

namespace Quoted

def escape (quote : Char) (c : Char) : List Char :=
  let n := c.toNat
  if c = quote || c = '\\' then ['\\', c]
  else if c = '\n' then ['\\', 'n']
  else if c = '\r' then ['\\', 'r']
  else if c = '\t' then ['\\', 't']
  else if isPrintable c then [c]
  else if n < 0x100 then '\\' :: 'x' :: hexDigits 2 n
  else if n < 0x10000 then '\\' :: 'u' :: hexDigits 4 n
  else '\\' :: 'U' :: hexDigits 8 n

def render (text : String) : String :=
  let chars := text.toList
  let quote := if chars.contains '\x27' && !chars.contains '"' then '"' else '\x27'
  String.ofList (quote :: chars.flatMap (escape quote) ++ [quote])

end Quoted

end ImportAssist
