import ImportAssist.Data.Json
import ImportAssist.Data.Slice
import ImportAssist.Failure

/-!
# Recently used candidates

For each language the identities of the candidates that were used last, the latest first. A candidate
that is used again moves to the front, and a history that grows past the limit loses its end.
-/

namespace ImportAssist

structure Recency (ι : Type) where
  limit : Int
  /-- The history of each language, in the order in which they came up. -/
  histories : List (String × List ι)

namespace Recency

variable {ι : Type}

def empty (limit : Int) : Recency ι := ⟨limit, []⟩

/-- The history of a language. -/
def recent (r : Recency ι) (language : String) : List ι :=
  ((r.histories.find? (·.1 == language)).map (·.2)).getD []

def has (r : Recency ι) (language : String) : Bool := !(r.recent language).isEmpty

/-- Puts a history in the place of the old one, or behind all others. -/
def setHistory (language : String) (history : List ι) :
    List (String × List ι) → List (String × List ι)
  | [] => [(language, history)]
  | (l, h) :: rest =>
    if l = language then (l, history) :: rest else (l, h) :: setHistory language history rest

/-- Replaces a history by as much of another as the limit allows. -/
def set (r : Recency ι) (language : String) (history : List ι) : Recency ι :=
  { r with histories := setHistory language (sliceTo history r.limit) r.histories }

/-- Notes that a candidate has been used. -/
def mark [BEq ι] (r : Recency ι) (language : String) (id : ι) : Recency ι :=
  r.set language (id :: (r.recent language).erase id)

/-! ## Ranking -/

/-- The place of an identity in a history; of several places the last one, and behind all different
identities if it has none. -/
def rankIn [BEq ι] (history : List ι) (id : ι) : Nat :=
  match history.reverse.findIdx? (· == id) with
  | some back => history.length - 1 - back
  | none => history.eraseDups.length

/-- Candidates by their place in a history; those that have none keep their order behind the rest. -/
def rank [BEq ι] {α : Type} (r : Recency ι) (language : String) (id : α → ι) (items : List α) :
    List α :=
  if r.has language then
    let history := r.recent language
    items.mergeSort fun a b => rankIn history (id a) ≤ rankIn history (id b)
  else items

/-! ## Stored histories -/

/-- Whether a value can be looked up. -/
def isKey : Json → Bool
  | .arr _ | .obj _ => false
  | _ => true

/-- As `rank`, with identities that may have come from anywhere. -/
def rankStored {α : Type} (r : Recency Json) (language : String) (id : α → Json) (items : List α) :
    Except Failure (List α) :=
  if !r.has language then .ok items
  else if (r.recent language).all isKey && items.all fun a => isKey (id a) then
    .ok (r.rank language id items)
  else .error .notAKey

/-- The entries of a stored history: of a list its items, of a text its characters, of an object its
keys. -/
def entries : Json → Except Failure (List Json)
  | .arr items => .ok items
  | .str text => .ok (text.toList.map fun c => .str (String.singleton c))
  | .obj members => .ok (members.map fun m => .str m.1)
  | value => if value.isTruthy then .error .notAList else .ok []

/-- Takes over stored histories one after the other, up to the first that cannot be read. -/
def loadHistories (r : Recency Json) : List (String × Json) → Except Failure Unit × Recency Json
  | [] => (.ok (), r)
  | (language, stored) :: rest =>
    match entries stored with
    | .ok history => loadHistories (r.set language history) rest
    | .error failure => (.error failure, r)

/-- Takes over what was stored. -/
def load (r : Recency Json) : Json → Except Failure Unit × Recency Json
  | .obj members => r.loadHistories members
  | _ => (.error .notATable, r)

/-- What to store. -/
def toJson (r : Recency Json) : Json := .obj (r.histories.map fun (l, h) => (l, .arr h))

end Recency

end ImportAssist
