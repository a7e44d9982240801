import ImportAssist.Session.Session
import ImportAssist.Text.Blank

/-!
# The console

Choices are numbered lists, and every answer is a line. An answer that makes no sense dismisses the
choice.
-/

namespace ImportAssist.CommandLine

/-- Where lines come from and where text goes. -/
structure Terminal (m : Type → Type) where
  /-- The next line with its line feed; empty at the end. -/
  readLine : m String
  /-- Writes results. -/
  print : String → m Unit
  /-- Writes questions and notices. -/
  printNotice : String → m Unit

namespace Terminal

variable {m : Type → Type} [Monad m]

/-- Asks for a line. -/
def ask (t : Terminal m) (prompt : String) : m String := do
  t.printNotice prompt
  return strip (← t.readLine)

/-- The items as a numbered list. -/
def menu (items : List String) : String :=
  String.join (items.zipIdx.map fun (item, i) => s!"  {i + 1}) {item}\n")

/-- The item that an answer picks. Digits that cannot be written in a number are a failure. -/
def pick (items : List String) (answer : String) : Except Failure (Option String) :=
  let chars := answer.toList
  if chars.isEmpty || !chars.all isDigit then .ok none
  else
    match decimalNumber? chars with
    | none => .error (.notANumber answer)
    | some 0 => .ok none
    | some (n + 1) => .ok items[n]?

/-- Lets the user pick one of some items. -/
def select (t : Terminal m) (items : List String) (placeholder : String) :
    m (Except Failure (Option String)) := do
  if placeholder ≠ "" then t.printNotice (placeholder ++ "\n")
  t.printNotice (menu items)
  return pick items (← t.ask "Select: ")

/-- The reply that an answer means. -/
def replyOf (answer : String) : Option Bool :=
  match toLower answer with
  | "r" | "replace" => some true
  | "k" | "keep" => some false
  | _ => none

/-- Asks whether a binding is to be replaced. -/
def confirmReplace (t : Terminal m) (identifier : String) : m (Option Bool) := do
  t.printNotice ("The identifier \"" ++ identifier ++ "\" has been already declared.\n")
  return replyOf (← t.ask "[r]eplace it / [k]eep both: ")

end Terminal

/-- A notice as it is printed. -/
def noticeText : Notice → String
  | .info text => text ++ "\n"
  | .warning text => "warning: " ++ text ++ "\n"
  | .error text => "error: " ++ text ++ "\n"
  | .reveal p => s!"  at line {p.line + 1}, column {p.column + 1}\n"

/-- One who answers the questions of a session. -/
structure Selector (m : Type → Type) where
  select : List String → String → m (Except Failure (Option String))
  confirmReplace : String → m (Option Bool)

/-- The console as the one who answers. -/
def Terminal.selector {m : Type → Type} [Monad m] (t : Terminal m) : Selector m :=
  ⟨t.select, t.confirmReplace⟩

/-- A selector as the user's side of a session. -/
def Selector.front {m : Type → Type} [Monad m] (selector : Selector m) : Session.Front m where
  select items placeholder := do
    match ← liftM (selector.select items placeholder) with
    | .ok answer => return answer
    | .error failure => throw failure
  confirmReplace identifier := liftM (selector.confirmReplace identifier)
  isCancelled := return false

end ImportAssist.CommandLine
