import Recurrence.Main
import Recurrence.Proofs.WellFormed
import Recurrence.Proofs.EarliestFault
import Recurrence.Proofs.PrintedForm
import Recurrence.Proofs.JoinedByComma
import Recurrence.Proofs.Respelling
import Recurrence.Proofs.Meaning
import Recurrence.Proofs.CalendarDays
import Recurrence.Proofs.SameInstant
import Recurrence.Proofs.WrittenTimestamp
import Recurrence.Proofs.RepeatedCheck
import Recurrence.Proofs.CalendarCycle
import Recurrence.Proofs.WrittenItems
import Recurrence.Proofs.WallClock
import Recurrence.Proofs.WrittenWallClock
import Recurrence.Proofs.NamedScales
import Recurrence.Proofs.WrappedSpans
import Recurrence.Proofs.TokenPlaces
import Recurrence.Proofs.FaultPositions
import Recurrence.Proofs.CursorDescent
import Recurrence.Proofs.Juxtaposition
import Recurrence.Proofs.ForeignCharacters
import Recurrence.Proofs.WrittenValues
import Recurrence.Proofs.Rearrangement
import Recurrence.Proofs.YearSpans
import Recurrence.Proofs.WeekdaysOfMonth
import Recurrence.Proofs.FieldValues
import Recurrence.Proofs.PrintedLine
import Recurrence.Proofs.JsonStructure
import Recurrence.Proofs.TokenPartition
