/-!
# Differences

A unified diff of two lists of lines. The lists are matched around their longest common block, and
the rests on both sides of it in the same way. In a long list, lines that occur very often do not
start a match; they can only extend one.
-/

namespace ImportAssist.Diff

/-- Lines `a[start ... start + size]` and `b[other ... other + size]` are the same. -/
structure Block where
  start : Nat
  other : Nat
  size : Nat
  deriving DecidableEq, Repr

/-- In `length` lines, how often a line may occur and still start a match. -/
def commonness (length : Nat) : Nat := if 200 ≤ length then length / 100 + 1 else length

/-- Where a line stands in a list; nowhere if it occurs too often. -/
def places (b : Array String) (line : String) : List Nat :=
  let found := (List.range b.size).filter fun j => b[j]? == some line
  if commonness b.size < found.length then [] else found

/-- Part of both lists. -/
structure Window where
  low : Nat
  high : Nat
  low' : Nat
  high' : Nat

/-- The blocks that end at line `i`, given those that end in front of it by where they end in `b`. -/
def endingAt (places : List Nat) (before : List (Nat × Nat)) : List (Nat × Nat) :=
  places.map fun j => (j, (before.find? (·.1 + 1 == j)).elim 1 (·.2 + 1))

/-- The longest block of lines that may start a match; of several the first. -/
def longestFrom (found : Nat → List Nat) (w : Window) : Nat → List (Nat × Nat) → Block → Block
  | 0, _, best => best
  | n + 1, before, best =>
    let i := w.high - (n + 1)
    let here := endingAt ((found i).filter fun j => w.low' ≤ j && j < w.high') before
    let best := here.foldl
      (fun best (j, k) => if best.size < k then ⟨i + 1 - k, j + 1 - k, k⟩ else best) best
    longestFrom found w n here best

/-- Extends a block to the front. -/
def extendFront (a b : Array String) (w : Window) : Nat → Block → Block
  | 0, m => m
  | fuel + 1, m =>
    if w.low < m.start && w.low' < m.other && a[m.start - 1]? == b[m.other - 1]? then
      extendFront a b w fuel ⟨m.start - 1, m.other - 1, m.size + 1⟩
    else m

/-- Extends a block to the back. -/
def extendBack (a b : Array String) (w : Window) : Nat → Block → Block
  | 0, m => m
  | fuel + 1, m =>
    if m.start + m.size < w.high && m.other + m.size < w.high'
        && a[m.start + m.size]? == b[m.other + m.size]? then
      extendBack a b w fuel { m with size := m.size + 1 }
    else m

def longest (a b : Array String) (found : Nat → List Nat) (w : Window) : Block :=
  let best := longestFrom found w (w.high - w.low) [] ⟨w.low, w.low', 0⟩
  extendBack a b w a.size (extendFront a b w a.size best)

/-- The blocks of a window in order. -/
def blocksIn (a b : Array String) (found : Nat → List Nat) : Nat → Window → List Block
  | 0, _ => []
  | fuel + 1, w =>
    let m := longest a b found w
    if m.size = 0 then []
    else
      let left :=
        if w.low < m.start && w.low' < m.other then
          blocksIn a b found fuel ⟨w.low, m.start, w.low', m.other⟩
        else []
      let right :=
        if m.start + m.size < w.high && m.other + m.size < w.high' then
          blocksIn a b found fuel ⟨m.start + m.size, w.high, m.other + m.size, w.high'⟩
        else []
      left ++ m :: right

/-- Neighbouring blocks as one. -/
def joinBlocks : List Block → List Block
  | m :: n :: rest =>
    if m.start + m.size = n.start && m.other + m.size = n.other then
      joinBlocks (⟨m.start, m.other, m.size + n.size⟩ :: rest)
    else m :: joinBlocks (n :: rest)
  | rest => rest
termination_by blocks => blocks.length

/-! ## Changes -/

/-- Part of `a` and what stands for it in `b`. -/
structure Change where
  same : Bool
  start : Nat
  stop : Nat
  start' : Nat
  stop' : Nat
  deriving DecidableEq, Repr

/-- The parts between the blocks and the blocks, from given places on. -/
def changesFrom (i j : Nat) : List Block → List Change
  | [] => []
  | m :: rest =>
    let gap : List Change := if i < m.start || j < m.other then [⟨false, i, m.start, j, m.other⟩] else []
    let body : List Change :=
      if m.size = 0 then [] else [⟨true, m.start, m.start + m.size, m.other, m.other + m.size⟩]
    gap ++ body ++ changesFrom (m.start + m.size) (m.other + m.size) rest

def changes (a b : Array String) : List Change :=
  let table := a.map (places b)
  let found := blocksIn a b (fun i => (table[i]?).getD []) (a.size + 1) ⟨0, a.size, 0, b.size⟩
  changesFrom 0 0 (joinBlocks found ++ [⟨a.size, b.size, 0⟩])

/-! ## Hunks -/

/-- How many lines are shown around a change. -/
def context : Nat := 3

def keepEnd (c : Change) : Change :=
  if c.same then
    ⟨true, max c.start (c.stop - context), c.stop, max c.start' (c.stop' - context), c.stop'⟩
  else c

def keepStart (c : Change) : Change :=
  if c.same then
    ⟨true, c.start, min c.stop (c.start + context), c.start', min c.stop' (c.start' + context)⟩
  else c

/-- Applies a function to the last element. -/
def mapLast (f : Change → Change) : List Change → List Change
  | [] => []
  | [c] => [f c]
  | c :: rest => c :: mapLast f rest

/-- Changes that stand together, cut where many lines stay the same. -/
def groups (group : List Change) : List Change → List (List Change)
  | [] => [group]
  | c :: rest =>
    if c.same && 2 * context < c.stop - c.start then
      (group ++ [keepStart c]) :: groups [keepEnd c] rest
    else groups (group ++ [c]) rest

/-- The groups of changes with the lines around them. -/
def hunks (a b : Array String) : List (List Change) :=
  let trimmed :=
    match changes a b with
    | [] => []
    | c :: rest => mapLast keepStart (keepEnd c :: rest)
  (groups [] trimmed).filter (·.any fun c => !c.same)

/-- A range of lines, counted from one. -/
def rangeText (start stop : Nat) : String :=
  match stop - start with
  | 0 => s!"{start},0"
  | 1 => s!"{start + 1}"
  | n => s!"{start + 1},{n}"

def linesText (mark : String) (lines : Array String) (start stop : Nat) : String :=
  String.join ((lines.toList.take stop).drop start |>.map (mark ++ ·))

def changeText (a b : Array String) (c : Change) : String :=
  if c.same then linesText " " a c.start c.stop
  else linesText "-" a c.start c.stop ++ linesText "+" b c.start' c.stop'

def hunkText (a b : Array String) (group : List Change) : String :=
  match group.head?, group.getLast? with
  | some first, some last =>
    "@@ -" ++ rangeText first.start last.stop ++ " +" ++ rangeText first.start' last.stop' ++ " @@\n"
      ++ String.join (group.map (changeText a b))
  | _, _ => ""

/-- The unified diff of two versions of a file; empty if they are the same. -/
def unified (path : String) (a b : List String) : String :=
  let a := a.toArray
  let b := b.toArray
  match hunks a b with
  | [] => ""
  | found =>
    "--- " ++ path ++ "\n+++ " ++ path ++ "\n" ++ String.join (found.map (hunkText a b))

end ImportAssist.Diff
