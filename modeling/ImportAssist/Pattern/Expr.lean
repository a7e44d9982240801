import ImportAssist.Text.Blank
import ImportAssist.Text.Digit
import ImportAssist.Text.LowerCase
import ImportAssist.Text.Word

/-!
# Patterns

A pattern describes texts. What its flags mean is settled where it is read: every part says for
itself whether it minds the case of letters, whether a dot may stand for a line feed, and where the
end of a text is.
-/

namespace ImportAssist.Pattern

/-! ## Case -/

/-- The small letters that count as one when case is not minded. -/
def caseClasses : List (List Nat) :=
  [[105, 305], [115, 383], [181, 956], [837, 953, 8126], [912, 8147], [944, 8163], [946, 976],
   [949, 1013], [952, 977], [954, 1008], [960, 982], [961, 1009], [962, 963], [966, 981],
   [1074, 7296], [1076, 7297], [1086, 7298], [1089, 7299], [1090, 7300, 7301], [1098, 7302],
   [1123, 7303], [7304, 42571], [7777, 7835], [64261, 64262]]

/-- A character that stands for all that differ from `c` in case only. -/
def foldCase (c : Char) : Char :=
  let small := if c = 'İ' then 'i' else lowerChar c
  match caseClasses.find? (·.contains small.toNat) with
  | some (first :: _) => Char.ofNat first
  | _ => small

/-- How two characters are compared. -/
inductive Case where
  | minded | folded
  /-- Only the case of ASCII letters does not matter. -/
  | asciiFolded
  deriving DecidableEq, Repr

def Case.apply : Case → Char → Char
  | .minded, c => c
  | .folded, c => foldCase c
  | .asciiFolded, c => c.toLower

/-! ## Sets of characters -/

inductive CharClass where
  | decimal | blank | word
  deriving DecidableEq, Repr

/-- Whether a character is in a class, of which `ascii` keeps the ASCII characters only. -/
def CharClass.contains (ascii : Bool) : CharClass → Char → Bool
  | .decimal, c => if ascii then c.isDigit else isDecimal c
  | .blank, c => if ascii then c = ' ' || (9 ≤ c.toNat && c.toNat ≤ 13) else isBlank c
  | .word, c => if ascii then c.isAlphanum || c = '_' else isWordChar c

inductive SetItem where
  | char (c : Char)
  | range (low high : Char)
  | charClass (negated ascii : Bool) (charClass : CharClass)
  deriving DecidableEq, Repr

def SetItem.contains (case : Case) (c : Char) : SetItem → Bool
  | .char d => case.apply d = case.apply c
  | .range low high =>
    match case with
    | .minded => low ≤ c && c ≤ high
    | _ =>
      (List.range (high.toNat - low.toNat + 1)).any fun i =>
        case.apply (Char.ofNat (low.toNat + i)) = case.apply c
  | .charClass negated ascii k => k.contains ascii c != negated

/-! ## Expressions -/

/-- Places between characters. -/
inductive Anchor where
  | textStart | lineStart | textEnd
  /-- The end of the text, or in front of a line feed that ends it. -/
  | finalEnd
  | lineEnd
  | wordBoundary (negated ascii : Bool)
  deriving DecidableEq, Repr

inductive Greed where
  /-- As often as possible first. -/
  | greedy
  /-- As rarely as possible first. -/
  | lazy
  deriving DecidableEq, Repr

inductive Expr where
  | empty
  | fail
  | char (case : Case) (c : Char)
  | any (lineFeed : Bool)
  | set (case : Case) (negated : Bool) (items : List SetItem)
  | anchor (anchor : Anchor)
  | seq (first second : Expr)
  | alt (first second : Expr)
  | group (index : Nat) (body : Expr)
  /-- What a group matched, once more. -/
  | backReference (case : Case) (index : Nat)
  /-- One of two, by whether a group took part. -/
  | ifGroup (index : Nat) (yes no : Expr)
  | ahead (negated : Bool) (body : Expr)
  /-- `body` ends here; it has `width` characters. -/
  | behind (negated : Bool) (width : Nat) (body : Expr)
  /-- The first match of `body` only. -/
  | atomic (body : Expr)
  /-- `body` at least `low` and at most `high` times. After a turn that began at `last?` and took
  nothing, there are no more turns. -/
  | loop (greed : Greed) (last? : Option Nat) (low : Nat) (high : Option Nat) (body : Expr)
  deriving Repr

namespace Expr

def size : Expr → Nat
  | seq a b | alt a b | ifGroup _ a b => a.size + b.size + 1
  | group _ a | ahead _ a | behind _ _ a | atomic a => a.size + 1
  | loop _ _ low _ a => a.size + low + 1
  | _ => 1

/-- The least and the greatest number of characters, given those of the groups that are closed. -/
def width (groups : List (Nat × Nat × Option Nat)) : Expr → Nat × Option Nat
  | empty | fail | anchor _ | ahead _ _ | behind _ _ _ => (0, some 0)
  | char _ _ | any _ | set _ _ _ => (1, some 1)
  | seq a b =>
    let (l, h) := a.width groups
    let (l', h') := b.width groups
    (l + l', h.bind fun n => h'.map (n + ·))
  | alt a b | ifGroup _ a b =>
    let (l, h) := a.width groups
    let (l', h') := b.width groups
    (min l l', h.bind fun n => h'.map (max n ·))
  | group _ a | atomic a => a.width groups
  | backReference _ n => ((groups.find? (·.1 == n)).map (·.2)).getD (0, none)
  | loop _ _ low high a =>
    let (l, h) := a.width groups
    (l * low, if high = some 0 ∨ h = some 0 then some 0 else h.bind fun n => high.map (n * ·))

end Expr

/-- A pattern that has been read. -/
structure Compiled where
  expr : Expr
  /-- How many groups it has. -/
  groups : Nat
  /-- The groups that have names. -/
  names : List (String × Nat)
  deriving Repr

end ImportAssist.Pattern
