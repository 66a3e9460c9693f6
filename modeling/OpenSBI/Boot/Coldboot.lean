import OpenSBI.Scratch.Alloc

namespace OpenSBI

open Framework

variable {x : Xlen}

/-- Where a hart is in `wait_for_coldboot()`: at a `spin_lock()`, with the lock before and behind the
load of `coldboot_wait_hmask`, at the `spin_unlock()`; `mark` tells the first critical section from the
second. Between them it polls `coldboot_done`, sleeps in `wfi`, or is behind it. -/
inductive WaitPc where
  | out
  | lock (mark : Bool)
  | load (mark : Bool)
  | store (mark : Bool) (hmask : Hartmask)
  | unlock (mark : Bool)
  | poll
  | wfi
  | readMip
  | restoreMie
  deriving DecidableEq

/-- Where the coldboot hart is: before `wake_coldboot_harts()`, or in it, at hart `i` of its loop. -/
inductive WakerPc where
  | booting
  | lock
  | scan (i : Nat)
  | send (i : Nat)
  | unlock
  | finished
  deriving DecidableEq

/-- Who has `coldboot_lock`. -/
inductive ColdbootParty where
  | waker
  | hart (h : Nat)
  deriving DecidableEq

/-- The platform, `hartid_to_scratch` of the firmware by which every valid hart has a scratch space, the
memory at boot, the coldboot hart, and whether an IPI device is registered. -/
structure ColdbootConfig (x : Xlen) where
  plat : Platform
  hartidToScratch : Nat → Word x
  hasScratch : ∀ h,plat.hartInvalid h=false → hartidToScratch h≠0
  mem : Mem x
  hartid : Nat
  ipiDev : Bool

/-- `sbi_scratch_last_hartid()`. -/
def ColdbootConfig.lastHartid (c : ColdbootConfig x) : Nat :=
  (sbiScratchInit c.plat c.hartidToScratch (.boot c.mem)).lastHartid

/-- The harts that pass the first check of `sbi_init()`. -/
def ColdbootConfig.mayRun (c : ColdbootConfig x) (h : Nat) : Bool :=
  decide (h<SBI_HARTMASK_MAX_BITS) && !c.plat.hartInvalid h

/-- `coldboot_done`, `coldboot_wait_hmask`, `coldboot_lock`, the MSIP and MSIE bits of the harts, and
their local `saved_mie`. -/
structure ColdbootState where
  done : Bool
  hmask : Hartmask
  lock : Option ColdbootParty
  msip : Nat → Bool
  msie : Nat → Bool
  savedMie : Nat → Bool
  pc : Nat → WaitPc
  waker : WakerPc

def ColdbootState.boot (msip msie : Nat → Bool) : ColdbootState where
  done := false
  hmask := sbiHartmaskClearAll
  lock := none
  msip := msip
  msie := msie
  savedMie _ := false
  pc _ := .out
  waker := .booting

def ColdbootState.goto (s : ColdbootState) (h : Nat) (p : WaitPc) : ColdbootState :=
  { s with pc := Function.update s.pc h p }

inductive ColdbootEvent where
  | left (h : Nat)
  deriving DecidableEq

/-- A hart enters `wait_for_coldboot()`, takes its next step in it, or its `wfi` returns; the coldboot hart
takes its next step. Around them, anyone raises the software interrupt of a hart; a hart outside the wait
clears its own or writes its MIE, and the boot before the hand-off clears any. -/
inductive ColdbootAction where
  | arrive (h : Nat)
  | wait (h : Nat)
  | wake (h : Nat) (other : Bool)
  | waker
  | raise (h : Nat)
  | clear (h : Nat)
  | writeMie (h : Nat) (msie : Bool)

/-- The next step of a hart in `wait_for_coldboot()`. -/
def waitForColdboot (s : ColdbootState) (h : Nat) : Option (ColdbootState×List ColdbootEvent) :=
  match s.pc h with
  | .lock mark =>
    if s.lock=none then some (({ s with lock := some (.hart h) }).goto h (.load mark),[]) else none
  | .load mark => some (s.goto h (.store mark s.hmask),[])
  | .store mark hmask =>
    let hmask := if mark then sbiHartmaskSetHart h hmask else sbiHartmaskClearHart h hmask
    some (({ s with hmask := hmask }).goto h (.unlock mark),[])
  | .unlock mark =>
    some (({ s with lock := none }).goto h (if mark then .poll else .restoreMie),[])
  | .poll => some (s.goto h (if s.done then .lock false else .wfi),[])
  | .readMip => some (s.goto h (if s.msip h then .poll else .wfi),[])
  | .restoreMie =>
    some (({ s with msie := Function.update s.msie h (s.savedMie h) }).goto h .out,[.left h])
  | .out | .wfi => none

/-- `sbi_ipi_raw_send()`. -/
def sbiIpiRawSend (c : ColdbootConfig x) (s : ColdbootState) (h : Nat) : ColdbootState :=
  if c.ipiDev then { s with msip := Function.update s.msip h true } else s

/-- The next step of `wake_coldboot_harts()`. -/
def wakeColdbootHarts (c : ColdbootConfig x) (s : ColdbootState) : Option ColdbootState :=
  match s.waker with
  | .booting => some { s with done := true,waker := .lock }
  | .lock => if s.lock=none then some { s with lock := some .waker,waker := .scan 0 } else none
  | .scan i =>
    if i ≤ c.lastHartid then
      if i≠c.hartid ∧ sbiHartmaskTestHart i s.hmask=true then some { s with waker := .send i }
      else some { s with waker := .scan (i+1) }
    else some { s with waker := .unlock }
  | .send i => some { sbiIpiRawSend c s i with waker := .scan (i+1) }
  | .unlock => some { s with lock := none,waker := .finished }
  | .finished => none

def coldbootStep (c : ColdbootConfig x) (s : ColdbootState) :
    ColdbootAction → Option (ColdbootState×List ColdbootEvent)
  | .arrive h =>
    if s.pc h=.out ∧ c.mayRun h ∧ (h≠c.hartid ∨ s.waker=.finished) then
      some (({ s with
        savedMie := Function.update s.savedMie h (s.msie h)
        msie := Function.update s.msie h true }).goto h (.lock true),[])
    else none
  | .wait h => waitForColdboot s h
  | .wake h other =>
    if s.pc h=.wfi ∧ (other || (s.msip h && s.msie h)) then some (s.goto h .readMip,[]) else none
  | .waker => (wakeColdbootHarts c s).map fun s' => (s',[])
  | .raise h => some ({ s with msip := Function.update s.msip h true },[])
  | .clear h =>
    if s.pc h=.out ∨ s.waker=.booting then some ({ s with msip := Function.update s.msip h false },[])
    else none
  | .writeMie h msie =>
    if s.pc h=.out then some ({ s with msie := Function.update s.msie h msie },[]) else none

/-- The harts that boot, and the coldboot hart that wakes them. -/
def coldbootMachine (c : ColdbootConfig x) : Machine ColdbootState ColdbootAction ColdbootEvent :=
  ⟨coldbootStep c⟩

/-! ## The harts of the loop -/

theorem sbiScratchInit_table (plat : Platform) (hartidToScratch : Nat → Word x) (s : ScratchState x)
    {h : Nat} (hlt : h<SBI_HARTMASK_MAX_BITS) (hvalid : plat.hartInvalid h=false) :
    (sbiScratchInit plat hartidToScratch s).table h=hartidToScratch h := by
  suffices hn : ∀ n,h<n → ((List.range n).foldl (scratchInitRound plat hartidToScratch) s).table h=
      hartidToScratch h from hn _ hlt
  intro n
  induction n with
  | zero => exact fun h0 => absurd h0 (Nat.not_lt_zero h)
  | succ n ih =>
    intro hn
    rw [List.range_succ,List.foldl_append,List.foldl_cons,List.foldl_nil,scratchInitRound]
    by_cases he : h=n
    · subst he
      rw [hvalid]
      exact Function.update_self ..
    · have hkept := ih (by omega)
      split
      · exact hkept
      · exact (Function.update_of_ne he ..).trans hkept

/-- The loop of `wake_coldboot_harts()` reaches every hart that may run. -/
theorem ColdbootConfig.le_lastHartid (c : ColdbootConfig x) {h : Nat} (hrun : c.mayRun h=true) :
    h ≤ c.lastHartid := by
  rw [mayRun,Bool.and_eq_true,decide_eq_true_eq,Bool.not_eq_true'] at hrun
  apply sbiScratchInit_lastBounds
  rw [sbiScratchInit_table c.plat c.hartidToScratch _ hrun.1 hrun.2]
  exact c.hasScratch h hrun.2

end OpenSBI
