import OpenSBI.Riscv.Bitops
import OpenSBI.Riscv.Csr
import OpenSBI.Riscv.Error

namespace OpenSBI

variable {x : Xlen}

def SBI_PMU_HW_CTR_MAX : Nat := 32
def SBI_PMU_FW_CTR_MAX : Nat := 16
def SBI_PMU_CTR_MAX : Nat := SBI_PMU_HW_CTR_MAX+SBI_PMU_FW_CTR_MAX
def SBI_PMU_FW_EVENT_MAX : Nat := 32
def SBI_PMU_FW_MAX : Nat := 22
def SBI_PMU_FIXED_CTR_MASK : Nat := 0x07
def SBI_PMU_HW_CPU_CYCLES : Nat := 1
def SBI_PMU_HW_INSTRUCTIONS : Nat := 2

def SBI_PMU_EVENT_TYPE_HW : Nat := 0x0
def SBI_PMU_EVENT_TYPE_FW : Nat := 0xf
def SBI_PMU_EVENT_TYPE_MAX : Nat := 0x10
def SBI_PMU_EVENT_IDX_OFFSET : Nat := 20
def SBI_PMU_EVENT_IDX_CODE_MASK : Nat := 0xffff
def SBI_PMU_EVENT_IDX_TYPE_MASK : Nat := 0xf0000
def SBI_PMU_EVENT_RAW_IDX : Nat := 0x20000
def SBI_PMU_EVENT_IDX_INVALID : BitVec 32 := 0xffffffff

def SBI_PMU_CFG_FLAG_SKIP_MATCH : Word x := Word.bit 0
def SBI_PMU_CFG_FLAG_CLEAR_VALUE : Word x := Word.bit 1
def SBI_PMU_CFG_FLAG_AUTO_START : Word x := Word.bit 2
def SBI_PMU_CFG_FLAG_SET_VUINH : Word x := Word.bit 3
def SBI_PMU_CFG_FLAG_SET_VSINH : Word x := Word.bit 4
def SBI_PMU_CFG_FLAG_SET_UINH : Word x := Word.bit 5
def SBI_PMU_CFG_FLAG_SET_SINH : Word x := Word.bit 6
def SBI_PMU_START_FLAG_SET_INIT_VALUE : Word x := Word.bit 0
def SBI_PMU_STOP_FLAG_RESET : Word x := Word.bit 0

def MIP_LCOFIP : Word x := Word.bit 13
def MHPMEVENT_MINH : BitVec 64 := 1 <<< 62
def MHPMEVENT_SINH : BitVec 64 := 1 <<< 61
def MHPMEVENT_UINH : BitVec 64 := 1 <<< 60
def MHPMEVENT_VSINH : BitVec 64 := 1 <<< 59
def MHPMEVENT_VUINH : BitVec 64 := 1 <<< 58
def MHPMEVENT_SSCOF_MASK : BitVec 64 := 0xffff000000000000

/-- `get_cidx_type()`, of an `unsigned long` or of an entry of `active_events`. -/
def getCidxType {n : Nat} (v : BitVec n) : Nat :=
  (v.toNat &&& SBI_PMU_EVENT_IDX_TYPE_MASK) >>> 16

/-- `get_cidx_code()`. -/
def getCidxCode {n : Nat} (v : BitVec n) : Nat := v.toNat &&& SBI_PMU_EVENT_IDX_CODE_MASK

/-- `struct sbi_pmu_hw_event`. -/
structure PmuHwEvent where
  counters : BitVec 32
  startIdx : BitVec 32
  endIdx : BitVec 32
  select : BitVec 64

/-- `struct sbi_pmu_fw_event`; no function uses its `event_idx`. -/
structure PmuFwEvent (x : Xlen) where
  currCount : Word x
  bStarted : Bool
  deriving DecidableEq

/-- What cold boot finds out about the counters, and the map and callback of the platform. -/
structure PmuConfig (x : Xlen) where
  mhpmCount : Nat
  mhpmCount_le : mhpmCount≤29
  mhpmBits : Nat
  hasMcountinhibit : Bool
  hasSscofpmf : Bool
  hwEventMap : List PmuHwEvent
  xlateToMhpmevent : BitVec 32 → BitVec 64 → BitVec 64

namespace PmuConfig

def numHwCtrs (c : PmuConfig x) : Nat := c.mhpmCount+2

def totalCtrs (c : PmuConfig x) : Nat := c.numHwCtrs+SBI_PMU_FW_CTR_MAX

theorem numHwCtrs_le (c : PmuConfig x) : c.numHwCtrs≤31 := by
  have := c.mhpmCount_le
  simp only [numHwCtrs]
  omega

theorem totalCtrs_lt (c : PmuConfig x) : c.totalCtrs<SBI_PMU_CTR_MAX := by
  have := c.numHwCtrs_le
  simp only [totalCtrs,SBI_PMU_CTR_MAX,SBI_PMU_HW_CTR_MAX]
  omega

end PmuConfig

/-- One hart's rows of `active_events` and `fw_event_map`, and its registers. -/
structure PmuState (x : Xlen) where
  activeEvents : Nat → BitVec 32
  fwEventMap : Nat → PmuFwEvent x
  csrs : Csrs x

namespace PmuState

/-- `active_events[hartid][cidx]`; `none` is an access outside the row. -/
def activeEvent (s : PmuState x) (cidx : Nat) : Option (BitVec 32) :=
  if cidx<SBI_PMU_CTR_MAX then some (s.activeEvents cidx) else none

def setActiveEvent (s : PmuState x) (cidx : Nat) (v : BitVec 32) : Option (PmuState x) :=
  if cidx<SBI_PMU_CTR_MAX then
    some { s with activeEvents := Function.update s.activeEvents cidx v }
  else none

/-- `fw_event_map[hartid][code]`; `none` is an access outside the row. -/
def fwEvent (s : PmuState x) (code : Nat) : Option (PmuFwEvent x) :=
  if code<SBI_PMU_FW_EVENT_MAX then some (s.fwEventMap code) else none

def setFwEvent (s : PmuState x) (code : Nat) (v : PmuFwEvent x) : Option (PmuState x) :=
  if code<SBI_PMU_FW_EVENT_MAX then
    some { s with fwEventMap := Function.update s.fwEventMap code v }
  else none

/-- `csr_write_num()`. -/
def writeNum (s : PmuState x) (num : Nat) (val : Word x) : Option (PmuState x) := do
  let csrs ← csrWriteNum s.csrs num val
  some { s with csrs := csrs }

/-- `csr_write()` on a register the code names itself. -/
def writeCsr (s : PmuState x) (num : Nat) (val : Word x) : PmuState x :=
  { s with csrs := Function.update s.csrs num val }

end PmuState

/-- `pmu_ctr_validate()`: the event type and code of a counter, the inner `none` is `SBI_EINVAL`. -/
def pmuCtrValidate (c : PmuConfig x) (s : PmuState x) (cidx : Nat) :
    Option (Option (Nat × Nat)) := do
  let eventIdxVal ← s.activeEvent cidx
  if c.totalCtrs≤cidx ∨ eventIdxVal=SBI_PMU_EVENT_IDX_INVALID then some none
  else if SBI_PMU_EVENT_TYPE_MAX≤getCidxType eventIdxVal then some none
  else some (some (getCidxType eventIdxVal,getCidxCode eventIdxVal))

/-- `pmu_ctr_read_hw()`; its caller drops the value. -/
def pmuCtrReadHw (s : PmuState x) (cidx : Nat) : Option Int :=
  if cidx=1 then some SBI_EINVAL
  else
    match x with
    | .rv32 => do
        let _ ← csrReadNum s.csrs (CSR_MCYCLE+cidx)
        let _ ← csrReadNum s.csrs (CSR_MCYCLEH+cidx)
        some 0
    | .rv64 => do
        let _ ← csrReadNum s.csrs (CSR_MCYCLE+cidx)
        some 0

/-- `sbi_pmu_ctr_read()`, with the value it writes to `cval`. -/
def sbiPmuCtrRead (c : PmuConfig x) (s : PmuState x) (cidx : Nat) :
    Option (Int × Option (Word x)) := do
  match ← pmuCtrValidate c s cidx with
  | none => some (SBI_EINVAL,none)
  | some (eventIdxType,eventCode) =>
      if eventIdxType=SBI_PMU_EVENT_TYPE_FW then
        let fevent ← s.fwEvent eventCode
        some (0,some fevent.currCount)
      else
        let _ ← pmuCtrReadHw s cidx
        some (0,none)

/-- `pmu_ctr_enable_irq_hw()`; its caller drops the result. -/
def pmuCtrEnableIrqHw (s : PmuState x) (ctrIdx : Nat) : Option (PmuState x) :=
  if ctrIdx<3 ∨ SBI_PMU_HW_CTR_MAX≤ctrIdx then some s
  else do
    let mhpmeventCsr := (match x with
      | .rv32 => CSR_MHPMEVENT3H
      | .rv64 => CSR_MHPMEVENT3)+ctrIdx-3
    let ofMask : Word x := ~~~Word.bit (x.bits-1)
    let mhpmeventCurr ← csrReadNum s.csrs mhpmeventCsr
    if s.csrs CSR_MIP &&& MIP_LCOFIP=0 then s.writeNum mhpmeventCsr (mhpmeventCurr &&& ofMask)
    else some s

/-- `pmu_ctr_write_hw()`. -/
def pmuCtrWriteHw (s : PmuState x) (cidx : Nat) (ival : BitVec 64) : Option (PmuState x) :=
  match x with
  | .rv32 => do
      let s ← s.writeNum (CSR_MCYCLE+cidx) 0
      let s ← s.writeNum (CSR_MCYCLE+cidx) (ival.setWidth _)
      s.writeNum (CSR_MCYCLEH+cidx) ((ival >>> 32).setWidth _)
  | .rv64 => s.writeNum (CSR_MCYCLE+cidx) (ival.setWidth _)

/-- `pmu_ctr_start_hw()`. -/
def pmuCtrStartHw (c : PmuConfig x) (s : PmuState x) (cidx : Nat) (ival : BitVec 64)
    (ivalUpdate : Bool) : Option (PmuState x × Int) :=
  if c.numHwCtrs<cidx ∨ cidx=1 then some (s,SBI_EINVAL)
  else if c.hasMcountinhibit then
    let mctrInhbt := s.csrs CSR_MCOUNTINHIBIT
    if mctrInhbt.getLsbD cidx=false then some (s,SBI_EALREADY_STARTED)
    else do
      let s ← (if c.hasSscofpmf then pmuCtrEnableIrqHw s cidx else some s)
      let s := s.writeCsr CSR_MCOUNTINHIBIT (mctrInhbt &&& ~~~Word.bit cidx)
      let s ← (if ivalUpdate then pmuCtrWriteHw s cidx ival else some s)
      some (s,0)
  else do
    let s ← (if ivalUpdate then pmuCtrWriteHw s cidx ival else some s)
    some (s,0)

/-- `pmu_ctr_start_fw()`; `curr_count` takes the low word of `ival`. -/
def pmuCtrStartFw (s : PmuState x) (fwEvtCode : Nat) (ival : BitVec 64) (ivalUpdate : Bool) :
    Option (PmuState x × Int) := do
  let fevent ← s.fwEvent fwEvtCode
  let count := if ivalUpdate then ival.setWidth _ else fevent.currCount
  let s ← s.setFwEvent fwEvtCode ⟨count,true⟩
  some (s,0)

/-- `pmu_ctr_stop_hw()`. -/
def pmuCtrStopHw (c : PmuConfig x) (s : PmuState x) (cidx : Nat) : PmuState x × Int :=
  if c.hasMcountinhibit=false then (s,0)
  else
    let mctrInhbt := s.csrs CSR_MCOUNTINHIBIT
    if c.numHwCtrs<cidx ∨ cidx=1 then (s,SBI_EINVAL)
    else if mctrInhbt.getLsbD cidx=false then
      (s.writeCsr CSR_MCOUNTINHIBIT (mctrInhbt ||| Word.bit cidx),0)
    else (s,SBI_EALREADY_STOPPED)

/-- `pmu_ctr_stop_fw()`. -/
def pmuCtrStopFw (s : PmuState x) (fwEvtCode : Nat) : Option (PmuState x × Int) := do
  let fevent ← s.fwEvent fwEvtCode
  let s ← s.setFwEvent fwEvtCode ⟨fevent.currCount,false⟩
  some (s,0)

/-- `pmu_reset_hw_mhpmevent()`; its caller drops the result. -/
def pmuResetHwMhpmevent (s : PmuState x) (ctrIdx : Nat) : Option (PmuState x) :=
  if ctrIdx<3 ∨ SBI_PMU_HW_CTR_MAX≤ctrIdx then some s
  else
    match x with
    | .rv32 => do
        let s ← s.writeNum (CSR_MHPMEVENT3+ctrIdx-3) 0
        s.writeNum (CSR_MHPMEVENT3H+ctrIdx-3) 0
    | .rv64 => s.writeNum (CSR_MHPMEVENT3+ctrIdx-3) 0

/-- `pmu_update_inhibit_flags()`. -/
def pmuUpdateInhibitFlags (flags : Word x) (mhpmeventVal : BitVec 64) : BitVec 64 :=
  mhpmeventVal |||
  (if hasFlag flags SBI_PMU_CFG_FLAG_SET_VUINH then MHPMEVENT_VUINH else 0) |||
  (if hasFlag flags SBI_PMU_CFG_FLAG_SET_VSINH then MHPMEVENT_VSINH else 0) |||
  (if hasFlag flags SBI_PMU_CFG_FLAG_SET_UINH then MHPMEVENT_UINH else 0) |||
  (if hasFlag flags SBI_PMU_CFG_FLAG_SET_SINH then MHPMEVENT_SINH else 0)

/-- `pmu_update_hw_mhpmevent()`; it does not use its `hw_evt`. -/
def pmuUpdateHwMhpmevent (c : PmuConfig x) (s : PmuState x) (ctrIdx : Nat) (flags eindex : Word x)
    (data : BitVec 64) : Option (PmuState x × Int) :=
  let val := c.xlateToMhpmevent (toU32 eindex) data
  if val=0 ∨ ctrIdx<3 ∨ SBI_PMU_HW_CTR_MAX≤ctrIdx then some (s,SBI_EFAIL)
  else do
    let val := pmuUpdateInhibitFlags flags ((val &&& ~~~MHPMEVENT_SSCOF_MASK) ||| MHPMEVENT_MINH)
    let s ← s.writeNum (CSR_MHPMEVENT3+ctrIdx-3) (val.setWidth _)
    let s ← (match x with
      | .rv32 => s.writeNum (CSR_MHPMEVENT3H+ctrIdx-3) ((val >>> 32).setWidth _)
      | .rv64 => some s)
    some (s,0)

end OpenSBI
