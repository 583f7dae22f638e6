/-! Moments in time. -/

namespace SchemaJson

/-- A moment as seconds since the start of 1970 and nanoseconds after that. During a leap second
the seconds stand still and the nanoseconds go on from one billion. -/
structure Instant where
  seconds : Int
  nanos : Nat
  deriving DecidableEq, Inhabited, Repr

def Instant.epoch : Instant := ⟨0, 0⟩

end SchemaJson
