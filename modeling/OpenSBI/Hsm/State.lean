import Mathlib.Init

namespace OpenSBI

/-- The hart states of `sbi_hsm.c`. -/
inductive HsmState where
  | started
  | stopped
  | startPending
  | stopPending
  | suspended
  | resumePending
  deriving DecidableEq,Repr

/-- The states `sbi_hsm_hart_interruptible_mask()` selects. -/
def HsmState.interruptible (st : HsmState) : Bool := decide (st=.started ∨ st=.suspended)

end OpenSBI
