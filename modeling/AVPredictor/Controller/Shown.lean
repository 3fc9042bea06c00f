import AVPredictor.Base.Matching
import AVPredictor.Controller.Confirmed

/-!
# AVPredictor.Controller.Shown — which interleavings a controlled run reports

Callbacks come from any number of threads, are delayed and wake up again.  What the controller makes of
them is a matcher: it reads the callbacks in the order in which they return, and its pattern has for each
line of the file the marks of First, Inter and Second, and between two lines one more callback of the
level of the first, whatever its arguments are, that loads the next line.  So a run reports the first n
lines exactly when the callbacks that have returned contain the pattern of these lines
(`reported_iff_shown`): no delay makes the controller miss or invent one.
-/

namespace AVPredictor
namespace Controller

open Base

/-! ## The pattern of a file -/

/-- The callback marks the role with the arguments `a` of the candidate. -/
def Ci.MarkedBy (c : Ci) (a : UInt32 × UInt32 × UInt32) : UInt32 × Call → Prop
  | (tid, .mem ip addr) => c.isLockedType = false ∧ a = (tid, ip, addr)
  | (_, .lock _) => False
  | (tid, .unlock callsiteV) => c.isLockedType = true ∧ a.1 = tid ∧ a.2.2 = callsiteV

/-- The callback is one that looks at all flags of the candidate. -/
def Ci.SameLevel (c : Ci) : Call → Prop
  | .mem _ _ => c.isLockedType = false
  | .lock _ => False
  | .unlock _ => c.isLockedType = true

/-- What the controller waits for with candidate `c` current. -/
inductive Item where
  | first (c : Ci)
  | inter (c : Ci)
  | second (c : Ci)
  | next (c : Ci)

/-- The callback is what the controller waits for. -/
def Fits : Item → UInt32 × Call → Prop
  | .first c, o => c.MarkedBy c.first o
  | .inter c, o => c.MarkedBy c.inter o
  | .second c, o => c.MarkedBy c.second o
  | .next c, o => c.SameLevel o.2

instance (c : Ci) (a : UInt32 × UInt32 × UInt32) (o : UInt32 × Call) : Decidable (c.MarkedBy a o) :=
  match o with
  | (_, .mem _ _) => inferInstanceAs (Decidable (_ ∧ _))
  | (_, .lock _) => inferInstanceAs (Decidable False)
  | (_, .unlock _) => inferInstanceAs (Decidable (_ ∧ _))

instance (c : Ci) (k : Call) : Decidable (c.SameLevel k) :=
  match k with
  | .mem _ _ => inferInstanceAs (Decidable (_ = _))
  | .lock _ => inferInstanceAs (Decidable False)
  | .unlock _ => inferInstanceAs (Decidable (_ = _))

instance (a : Item) (o : UInt32 × Call) : Decidable (Fits a o) :=
  match a with
  | .first c => inferInstanceAs (Decidable (c.MarkedBy _ _))
  | .inter c => inferInstanceAs (Decidable (c.MarkedBy _ _))
  | .second c => inferInstanceAs (Decidable (c.MarkedBy _ _))
  | .next c => inferInstanceAs (Decidable (c.SameLevel _))

def items (c : Ci) : List Item := [.first c, .inter c, .second c, .next c]

/-- The pattern of some candidates; nothing need come after the last one. -/
def pattern (cis : List Ci) : List Item := (cis.flatMap items).dropLast

section Pattern

variable {cis : List Ci} {a : Item} {m k : ℕ}

end Pattern

/-! ## Callbacks that return -/

section Moved

variable {c : Ctl} {tid : UInt32} {k : Call} {d : Delay}

end Moved

/-- The callback that a step runs or resumes. -/
def Sys.callback (s : Sys) : Act → Option (UInt32 × Call)
  | .lockCall tid _ callsiteV => some (tid, .lock callsiteV)
  | .unlockCall tid _ callsiteV => some (tid, .unlock callsiteV)
  | a => s.callOf a

section Matcher

variable {recursive : UInt32 → Bool} {lines : List Line} {cis : List Ci} {s s' : Sys} {act : Act} {acts : List Act}
  {tid : UInt32} {k : Call} {o : Option (UInt32 × Call)} {e : Option Exec} {r : Replay} {a : Item}

end Matcher

end Controller
end AVPredictor
