import OpenSBI.Domain.Boot
import OpenSBI.Hsm.Start
import OpenSBI.Ipi.Machine

namespace OpenSBI

open Framework

variable {x : Xlen}

def SBI_EXT_0_1_SEND_IPI : Nat := 0x4
def SBI_EXT_0_1_REMOTE_FENCE_I : Nat := 0x5
def SBI_EXT_0_1_REMOTE_SFENCE_VMA : Nat := 0x6
def SBI_EXT_0_1_REMOTE_SFENCE_VMA_ASID : Nat := 0x7
def SBI_EXT_0_1_SHUTDOWN : Nat := 0x8
def SBI_EXT_IPI : Nat := 0x735049
def SBI_EXT_RFENCE : Nat := 0x52464e43
def SBI_EXT_HSM : Nat := 0x48534d
def SBI_EXT_SRST : Nat := 0x53525354

/-- The harts with their domains and the devices that can reset the system. -/
structure Firmware (x : Xlen) extends Harts x where
  table : DomainTable x
  coldHartid : Nat
  consistent : table.Consistent coldHartid
  assigned_eq : ∀ h j,assigned h j=sbiDomainIsAssignedHart (table.domainOf h) j
  /-- `sbi_system_reset_get_device()` finds a device for a reset type and reason. -/
  resetSupported : Word x → Word x → Bool

/-- A trapped call: the registers and CSR fields the handlers read, and `sbi_load_ulong()` on the
memory of the caller, `none` for a load that traps. -/
structure Ecall (x : Xlen) where
  a0 : Word x
  a1 : Word x
  a2 : Word x
  a3 : Word x
  a4 : Word x
  a6 : Word x
  a7 : Word x
  mpp : Nat
  hgatpVmid : Word x
  misaH : Bool
  loadUlong : Word x → Option (Word x)

/-- A legacy call that waits for its hart mask. -/
inductive LegacyCall (x : Xlen) where
  | sendIpi
  | fence (data : TlbInfo x)

/-- Where the handler of a call goes on when `sbi_ipi_send_many()` is not running. The mask frames
are in the loop of `sbi_hsm_hart_interruptible_mask()`. -/
inductive Frame (x : Xlen) where
  | idle
  | legacyMask (call : LegacyCall x) (i : Nat) (mask : Word x)
  | resetMask (resetType resetReason : Word x) (hbase i : Nat) (hmask : Word x)
  | resetStop (resetType resetReason : Word x)
  | resetDevice (resetType resetReason : Word x)
  | resetExit
  | suspended
  | resumeStart
  | resumeFinish
  | hang

structure EcallState (x : Xlen) where
  ipi : IpiState x
  frame : Nat → Frame x

/-- What a hart can do: `run` goes on in the firmware, `deviceReturns` is a reset device that did
not reset the system, and `warmBoot` the end of a non-retentive suspend. -/
inductive EcallAction (x : Xlen) where
  | run
  | trap
  | ecall (call : Ecall x)
  | deviceReturns
  | warmBoot

/-- A step of the handlers or of the firmware below them. -/
abbrev EcallResult (x : Xlen) := Option (EcallState x × List (IpiTrace x))

namespace EcallState

def setFrame (s : EcallState x) (h : Nat) (f : Frame x) : EcallState x :=
  { s with frame := Function.update s.frame h f }

def setHsm (s : EcallState x) (h : Nat) (st : HsmState) : EcallState x :=
  { s with ipi := { s.ipi with hsm := Function.update s.ipi.hsm h st } }

/-- The call of a function of `sbi_ipi.c` or `sbi_hsm.c` that the machine below takes over. -/
def enter (c : Firmware x) (s : EcallState x) (h : Nat) (a : Action x) : EcallResult x :=
  (smodeStep c.toHarts s.ipi h a).map fun r => ({ s with ipi := r.1 },r.2)

end EcallState

/-- The call of a legacy handler once its mask is there. -/
def LegacyCall.action (call : LegacyCall x) (hmask : Word x) : Action x :=
  match call with
  | .sendIpi => .sendSmode hmask 0
  | .fence data => .tlbRequest hmask 0 data

/-- End of the window of `sbi_hsm_hart_interruptible_mask()` at `hbase`. -/
def windowEnd (c : Harts x) (hbase : Nat) : Nat :=
  if x.bits < c.lastHartid+1-hbase then hbase+x.bits else c.lastHartid+1

/-- The body of that loop for hart `hbase+i`. -/
def maskBit (c : Firmware x) (s : IpiState x) (h hbase i : Nat) (m : Word x) : Word x :=
  if sbiDomainGetAssignedHartmask (c.table.domainOf h) hbase &&& Word.bit i≠0 then
    if c.scratch (hbase+i) && (s.hsm (hbase+i)).interruptible then m ||| Word.bit i else m
  else m

/-- `sbi_load_hart_mask_unpriv()` with the call that follows it. -/
def legacyLoad (c : Firmware x) (s : EcallState x) (h : Nat) (call : Ecall x)
    (legacy : LegacyCall x) : EcallResult x :=
  if call.a0≠0 then
    match call.loadUlong call.a0 with
    | none => some (s,[])
    | some mask => s.enter c h (legacy.action mask)
  else some (s.setFrame h (.legacyMask legacy 0 0),[])

/-- `sbi_system_reset()` at the window at `hbase`. -/
def resetWindow (c : Firmware x) (resetType resetReason : Word x) (hbase : Nat) : Frame x :=
  if c.lastHartid+1≤hbase then .resetStop resetType resetReason
  else .resetMask resetType resetReason hbase 0 0

def sbiEcallLegacyHandler (c : Firmware x) (s : EcallState x) (h : Nat) (call : Ecall x) :
    EcallResult x :=
  if call.a7.toNat=SBI_EXT_0_1_SEND_IPI then legacyLoad c s h call .sendIpi
  else if call.a7.toNat=SBI_EXT_0_1_REMOTE_FENCE_I then
    legacyLoad c s h call (.fence ⟨0,0,0,0,.fenceI,0⟩)
  else if call.a7.toNat=SBI_EXT_0_1_REMOTE_SFENCE_VMA then
    legacyLoad c s h call (.fence ⟨call.a1,call.a2,0,0,.sfenceVma,0⟩)
  else if call.a7.toNat=SBI_EXT_0_1_REMOTE_SFENCE_VMA_ASID then
    legacyLoad c s h call (.fence ⟨call.a1,call.a2,call.a3,0,.sfenceVmaAsid,0⟩)
  else if call.a7.toNat=SBI_EXT_0_1_SHUTDOWN then some (s.setFrame h (resetWindow c 0 0 0),[])
  else some (s,[])

/-- The request of `sbi_ecall_rfence_handler()`; the source mask is set in `sbi_tlb_request()`. -/
def rfenceInfo (call : Ecall x) : Option (TlbInfo x) :=
  match call.a6.toNat with
  | 0 => some ⟨0,0,0,0,.fenceI,0⟩
  | 1 => some ⟨call.a2,call.a3,0,0,.sfenceVma,0⟩
  | 2 => some ⟨call.a2,call.a3,call.a4,0,.sfenceVmaAsid,0⟩
  | 3 => some ⟨call.a2,call.a3,0,call.a4,.hfenceGvmaVmid,0⟩
  | 4 => some ⟨call.a2,call.a3,0,0,.hfenceGvma,0⟩
  | 5 => some ⟨call.a2,call.a3,call.a4,call.hgatpVmid,.hfenceVvmaAsid,0⟩
  | 6 => some ⟨call.a2,call.a3,0,call.hgatpVmid,.hfenceVvma,0⟩
  | _ => none

def sbiEcallRfenceHandler (c : Firmware x) (s : EcallState x) (h : Nat) (call : Ecall x) :
    EcallResult x :=
  if 3≤call.a6.toNat ∧ call.a6.toNat≤6 ∧ !call.misaH then some (s,[])
  else
    match rfenceInfo call with
    | some data => s.enter c h (.tlbRequest call.a0 call.a1 data)
    | none => some (s,[])

def sbiEcallIpiHandler (c : Firmware x) (s : EcallState x) (h : Nat) (call : Ecall x) :
    EcallResult x :=
  if call.a6=0 then s.enter c h (.sendSmode call.a0 call.a1) else some (s,[])

/-- `sbi_hsm_hart_suspend()` up to the wait; a hart that is not started fails to restore a state it
did not change. -/
def hartSuspend (c : Firmware x) (s : EcallState x) (h : Nat) (call : Ecall x) : EcallResult x :=
  if hartSuspendCheck (c.table.domainOf h) (toU32 call.a0) call.a1 call.mpp≠SBI_OK then some (s,[])
  else if s.ipi.hsm h=.started then some ((s.setHsm h .suspended).setFrame h .suspended,[])
  else some (s.setFrame h .hang,[])

def sbiEcallHsmHandler (c : Firmware x) (s : EcallState x) (h : Nat) (call : Ecall x) :
    EcallResult x :=
  match call.a6.toNat with
  | 0 =>
      let start : StartCall x := ⟨(toU32 call.a0).toNat,call.a1,call.mpp,call.a2⟩
      if hartStartCheck (c.table.domainOf h) c.scratch start≠SBI_OK then some (s,[])
      else s.enter c h (.hartStart start.hartid)
  | 1 => if (c.table.domainOf h).isNone then some (s,[]) else s.enter c h .hartStop
  | 3 => hartSuspend c s h call
  | _ => some (s,[])

def sbiEcallSrstHandler (c : Firmware x) (s : EcallState x) (h : Nat) (call : Ecall x) :
    EcallResult x :=
  if call.a6≠0 ∨ 2^32-1≤call.a0.toNat ∨ 2^32-1≤call.a1.toNat then some (s,[])
  else if ¬(call.a0.toNat≤2) ∨ ¬(call.a1.toNat≤1) then some (s,[])
  else if c.resetSupported call.a0 call.a1 then
    some (s.setFrame h (resetWindow c call.a0 call.a1 0),[])
  else some (s,[])

/-- `sbi_ecall_handler()` for the extensions that reach other harts; the calls of the others leave
the words of the machine alone. -/
def sbiEcallHandler (c : Firmware x) (s : EcallState x) (h : Nat) (call : Ecall x) :
    EcallResult x :=
  if call.a7.toNat=SBI_EXT_RFENCE then sbiEcallRfenceHandler c s h call
  else if call.a7.toNat=SBI_EXT_IPI then sbiEcallIpiHandler c s h call
  else if call.a7.toNat=SBI_EXT_HSM then sbiEcallHsmHandler c s h call
  else if call.a7.toNat=SBI_EXT_SRST then sbiEcallSrstHandler c s h call
  else if call.a7.toNat≤SBI_EXT_0_1_SHUTDOWN then sbiEcallLegacyHandler c s h call
  else some (s,[])

/-- A handler goes on; the send of a halt request to a window leaves the frame at the next one. -/
def frameStep (c : Firmware x) (s : EcallState x) (h : Nat) : Frame x → EcallResult x
  | .idle => none
  | .legacyMask call i mask =>
      if i < windowEnd c.toHarts 0 then
        some (s.setFrame h (.legacyMask call (i+1) (maskBit c s.ipi h 0 i mask)),[])
      else (s.setFrame h .idle).enter c h (call.action mask)
  | .resetMask ty re hbase i hmask =>
      if hbase+i < windowEnd c.toHarts hbase then
        some (s.setFrame h (.resetMask ty re hbase (i+1) (maskBit c s.ipi h hbase i hmask)),[])
      else
        let s := s.setFrame h (resetWindow c ty re (hbase+x.bits))
        if othersMask h hmask (BitVec.ofNat x.bits hbase)=0 then some (s,[])
        else s.enter c h (.sendHalt hmask (BitVec.ofNat x.bits hbase))
  | .resetStop ty re =>
      let s := s.setFrame h (.resetDevice ty re)
      if (c.table.domainOf h).isSome ∧ s.ipi.hsm h=.started then
        some (s.setHsm h .stopPending,[])
      else some (s,[])
  | .resetDevice ty re =>
      if (c.table.domainOf h).any (fun d => d.systemResetAllowed) && c.resetSupported ty re then none
      else some (s.setFrame h .resetExit,[])
  | .resetExit =>
      some ({ s.setFrame h .idle with ipi := s.ipi.setPc h (.ipiClear true) },[])
  | .suspended =>
      if s.ipi.hsm h=.suspended then some ((s.setHsm h .started).setFrame h .idle,[])
      else some (s.setFrame h .hang,[])
  | .resumeStart =>
      if s.ipi.hsm h=.suspended then some ((s.setHsm h .resumePending).setFrame h .resumeFinish,[])
      else some (s.setFrame h .hang,[])
  | .resumeFinish =>
      if s.ipi.hsm h=.resumePending then some ((s.setHsm h .started).setFrame h .idle,[])
      else some (s.setFrame h .hang,[])
  | .hang => none

/-- The hart goes on in `sbi_ipi_send_many()` and the like, or back in the handler. -/
def firmwareStep (c : Firmware x) (s : EcallState x) (h : Nat) : EcallResult x :=
  match s.ipi.pc h with
  | .smode => frameStep c s h (s.frame h)
  | p => (runStep c.toHarts s.ipi h p).map fun r => ({ s with ipi := r.1 },r.2)

/-- What a hart does on its own accord. -/
def hartStep (c : Firmware x) (s : EcallState x) (h : Nat) : EcallAction x → EcallResult x
  | .run => firmwareStep c s h
  | .trap =>
      match s.ipi.pc h,s.frame h with
      | .smode,.idle => s.enter c h .trap
      | _,_ => none
  | .ecall call =>
      match s.ipi.pc h,s.frame h with
      | .smode,.idle => sbiEcallHandler c s h call
      | _,_ => none
  | .deviceReturns =>
      match s.frame h with
      | .resetDevice _ _ => some (s.setFrame h .resetExit,[])
      | _ => none
  | .warmBoot =>
      match s.frame h with
      | .suspended =>
          if s.ipi.hsm h=.suspended then some (s.setFrame h .resumeStart,[])
          else some ({ s.setFrame h .idle with ipi := s.ipi.setPc h .hartWait },[])
      | _ => none

/-- The SBI calls of all harts, step by step. -/
def ecallMachine (c : Firmware x) :
    Machine (EcallState x) (Nat × EcallAction x) (IpiTrace x) where
  step s l := if c.scratch l.1 then hartStep c s l.1 l.2 else none

/-- After cold boot no handler is running. -/
structure EcallState.Initial (s : EcallState x) : Prop where
  ipi : s.ipi.Initial
  frame : ∀ h,s.frame h=.idle

end OpenSBI
