import ImportAssist.Pattern.Expr

/-!
# Matching

`Expr.run` tries an expression at a place in a text and hands every place where it may end to the
rest of the match, in the order of preference, until the rest accepts one. `search` takes the first
place of a text where a pattern matches.
-/

namespace ImportAssist.Pattern

/-- A place in a text and what the groups have matched on the way to it. -/
structure Place where
  index : Nat
  /-- The text in front, in reverse. -/
  before : List Char
  rest : List Char
  /-- Start and end of each group that took part. -/
  groups : List (Nat × Nat × Nat)
  deriving Repr

namespace Place

def start (text : List Char) : Place := ⟨0, [], text, []⟩

/-- The place behind the next character. -/
def next? (p : Place) : Option (Char × Place) :=
  match p.rest with
  | [] => none
  | c :: rest => some (c, { p with index := p.index + 1, before := c :: p.before, rest := rest })

def back : Nat → Place → Option Place
  | 0, p => some p
  | n + 1, p =>
    match p.before with
    | [] => none
    | c :: before =>
      back n { p with index := p.index - 1, before := before, rest := c :: p.rest }

def group? (p : Place) (index : Nat) : Option (Nat × Nat) :=
  (p.groups.find? (·.1 == index)).map (·.2)

def setGroup (p : Place) (index start : Nat) : Place :=
  { p with groups := (index, start, p.index) :: p.groups.filter (·.1 != index) }

/-- The text between two earlier places. -/
def between (p : Place) (start stop : Nat) : List Char :=
  ((p.before.reverse ++ p.rest).take stop).drop start

end Place

/-- Whether an anchor holds at a place. An empty text has neither kind of word boundary. -/
def Anchor.holds (p : Place) : Anchor → Bool
  | .textStart => p.before.isEmpty
  | .lineStart => p.before.isEmpty || p.before.head? == some '\n'
  | .textEnd => p.rest.isEmpty
  | .finalEnd => p.rest.isEmpty || p.rest == ['\n']
  | .lineEnd => p.rest.isEmpty || p.rest.head? == some '\n'
  | .wordBoundary negated ascii =>
    let isWord (c? : Option Char) := c?.any (CharClass.word.contains ascii)
    !(p.before.isEmpty && p.rest.isEmpty)
      && (isWord p.before.head? != isWord p.rest.head?) != negated

/-- The place behind a text, if it stands here. -/
def Place.literal? (case : Case) : List Char → Place → Option Place
  | [], p => some p
  | c :: cs, p =>
    match p.next? with
    | some (d, q) => if case.apply c = case.apply d then literal? case cs q else none
    | none => none

/-- Tries an expression at a place. `fuel` bounds the depth of the expression and the turns of its
loops. -/
def Expr.run : Nat → Expr → Place → (Place → Option Place) → Option Place
  | 0, _, _, _ => none
  | fuel + 1, e, p, k =>
    match e with
    | .empty => k p
    | .fail => none
    | .char case c => (p.literal? case [c]).bind k
    | .any lineFeed =>
      match p.next? with
      | some (c, q) => if lineFeed || c ≠ '\n' then k q else none
      | none => none
    | .set case negated items =>
      match p.next? with
      | some (c, q) => if (items.any (·.contains case c)) != negated then k q else none
      | none => none
    | .anchor a => if a.holds p then k p else none
    | .seq a b => run fuel a p fun q => run fuel b q k
    | .alt a b =>
      match run fuel a p k with
      | some q => some q
      | none => run fuel b p k
    | .group index body => run fuel body p fun q => k (q.setGroup index p.index)
    | .backReference case index =>
      match p.group? index with
      | some (start, stop) => (p.literal? case (p.between start stop)).bind k
      | none => none
    | .ifGroup index yes no =>
      if (p.group? index).isSome then run fuel yes p k else run fuel no p k
    | .ahead negated body =>
      match run fuel body p some with
      | some q => if negated then none else k { p with groups := q.groups }
      | none => if negated then k p else none
    | .behind negated width body =>
      match (p.back width).bind fun q => run fuel body q some with
      | some q => if negated then none else k { p with groups := q.groups }
      | none => if negated then k p else none
    | .atomic body => (run fuel body p some).bind k
    | .loop greed last? low high body =>
      let turn (last? : Option Nat) : Option Place :=
        run fuel body p fun q => run fuel (.loop greed last? (low - 1) (high.map (· - 1)) body) q k
      if 0 < low then turn last?
      else
        let more (_ : Unit) : Option Place :=
          if high ≠ some 0 && last? ≠ some p.index then turn (some p.index) else none
        match greed with
        | .greedy =>
          match more () with
          | some q => some q
          | none => k p
        | .lazy =>
          match k p with
          | some q => some q
          | none => more ()

/-- Enough fuel for an expression and a text. -/
def Expr.fuel (e : Expr) (text : List Char) : Nat := (e.size + 1) * (text.length + 3)

/-- A match: where it starts and ends, and what its groups matched. -/
structure Match where
  start : Nat
  stop : Nat
  groups : List (Nat × Nat × Nat)
  deriving Repr

/-- The first match at `p` or behind it, where `p.rest` has `n` characters. -/
def searchFrom (e : Expr) (fuel : Nat) : Nat → Place → Option Match
  | n, p =>
    match e.run fuel p some with
    | some q => some ⟨p.index, q.index, q.groups⟩
    | none =>
      match n, p.next? with
      | n + 1, some (_, q) => searchFrom e fuel n q
      | _, _ => none

/-- The first match in a text. -/
def Compiled.search (pattern : Compiled) (text : String) : Option Match :=
  let chars := text.toList
  searchFrom pattern.expr (pattern.expr.fuel chars) chars.length (.start chars)

def Compiled.occursIn (pattern : Compiled) (text : String) : Bool := (pattern.search text).isSome

end ImportAssist.Pattern
