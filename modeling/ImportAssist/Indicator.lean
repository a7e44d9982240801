/-!
# Progress indicators

An indicator appears only if the work it stands for takes long, and goes when the work has ended.
-/

namespace ImportAssist

/-- What an indicator makes visible. -/
inductive IndicatorCall where
  | appear (title : String)
  | vanish
  deriving DecidableEq, Repr

structure Indicator where
  title : String
  shown : Bool
  finished : Bool
  deriving DecidableEq, Repr

namespace Indicator

def start (title : String) : Indicator := ⟨title, false, false⟩

/-- The delay is over. -/
def elapse (i : Indicator) : List IndicatorCall × Indicator :=
  if i.finished then ([], i) else ([.appear i.title], { i with shown := true })

/-- The work has ended, well or not. -/
def finish (i : Indicator) : List IndicatorCall × Indicator :=
  (if i.shown then [.vanish] else [], { i with finished := true })

end Indicator

end ImportAssist
