import Recurrence.Calendar.DateTime

/-! A wall-clock reading together with the offset of its clock from UTC. -/

namespace Recurrence

structure Timestamp where
  clock : DateTime
  /-- Seconds that the clock is ahead of UTC. -/
  offset : Int
  deriving DecidableEq

namespace Timestamp

def instant (t : Timestamp) : DateTime := t.clock.shift (-t.offset)

def ofInstant (instant : DateTime) (offset : Int) : Timestamp := ⟨instant.shift offset, offset⟩

end Timestamp

end Recurrence
