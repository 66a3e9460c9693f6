import OpenSBI.Framework.Transition
import OpenSBI.Pmu.Counters

namespace OpenSBI

open Framework

variable {x : Xlen}

/-- The loop body of `sbi_pmu_ctr_start()`. -/
def pmuCtrStartRound (c : PmuConfig x) (ival : BitVec 64) (bUpdate : Bool)
    (r : PmuState x × Int) (cidx : Nat) : Option (PmuState x × Int) := do
  match ← pmuCtrValidate c r.1 cidx with
  | none => some r
  | some (eventIdxType,eventCode) =>
      if eventIdxType=SBI_PMU_EVENT_TYPE_FW then pmuCtrStartFw r.1 eventCode ival bUpdate
      else pmuCtrStartHw c r.1 cidx ival bUpdate

/-- `sbi_pmu_ctr_start()`; `behind` is the word behind its local `ctr_mask`. -/
def sbiPmuCtrStart (c : PmuConfig x) (s : PmuState x) (behind cbase cmask flags : Word x)
    (ival : BitVec 64) : Option (PmuState x × Int) :=
  let ctrMask := Word.shl cmask cbase.toNat
  if c.totalCtrs≤fls ctrMask then some (s,SBI_EINVAL)
  else
    (setBitsFrom (bitAt ctrMask behind) cbase.toNat c.totalCtrs).foldlM
      (pmuCtrStartRound c ival (hasFlag flags SBI_PMU_START_FLAG_SET_INIT_VALUE)) (s,SBI_EINVAL)

/-- The loop body of `sbi_pmu_ctr_stop()`. -/
def pmuCtrStopRound (c : PmuConfig x) (reset : Bool) (r : PmuState x × Int) (cidx : Nat) :
    Option (PmuState x × Int) := do
  match ← pmuCtrValidate c r.1 cidx with
  | none => some r
  | some (eventIdxType,eventCode) =>
      let (s,ret) ← (if eventIdxType=SBI_PMU_EVENT_TYPE_FW then pmuCtrStopFw r.1 eventCode
        else some (pmuCtrStopHw c r.1 cidx))
      if reset then
        let s ← s.setActiveEvent cidx SBI_PMU_EVENT_IDX_INVALID
        let s ← pmuResetHwMhpmevent s cidx
        some (s,ret)
      else some (s,ret)

/-- `sbi_pmu_ctr_stop()`; `behind` is the word behind its local `ctr_mask`. -/
def sbiPmuCtrStop (c : PmuConfig x) (s : PmuState x) (behind cbase cmask flag : Word x) :
    Option (PmuState x × Int) :=
  let ctrMask := Word.shl cmask cbase.toNat
  if c.totalCtrs≤fls ctrMask then some (s,SBI_EINVAL)
  else
    (setBitsFrom (bitAt ctrMask behind) cbase.toNat c.totalCtrs).foldlM
      (pmuCtrStopRound c (hasFlag flag SBI_PMU_STOP_FLAG_RESET)) (s,SBI_EINVAL)

/-- `pmu_ctr_find_fixed_fw()`; `none` is `SBI_EINVAL`. -/
def pmuCtrFindFixedFw (evtIdxCode : Word x) : Option Nat :=
  if evtIdxCode.toNat=SBI_PMU_HW_CPU_CYCLES then some 0
  else if evtIdxCode.toNat=SBI_PMU_HW_INSTRUCTIONS then some 2
  else none

/-- The inner loop body of `pmu_ctr_find_hw()`; `none` is the initial `SBI_ENOTSUPP`. -/
def pmuCtrFindHwBit (c : PmuConfig x) (s : PmuState x) (ctrIdx : Option Nat) (cbase : Nat) :
    Option (Option Nat) := do
  let eventIdxVal ← s.activeEvent cbase
  if eventIdxVal≠SBI_PMU_EVENT_IDX_INVALID then some ctrIdx
  else if c.hasMcountinhibit ∧ (s.csrs CSR_MCOUNTINHIBIT).getLsbD cbase=false then some ctrIdx
  else some (some cbase)

/-- The outer loop body of `pmu_ctr_find_hw()`. The inner loop leaves `cbase` at its end, where the
next round starts. -/
def pmuCtrFindHwRound (c : PmuConfig x) (s : PmuState x) (cmask eventIdx : Word x)
    (data : BitVec 64) (r : Nat × Option Nat) (temp : PmuHwEvent) : Option (Nat × Option Nat) :=
  let idx := eventIdx.toNat
  let first := temp.startIdx.toNat
  let last := temp.endIdx.toNat
  if (idx<first ∧ idx<last) ∨ (first < idx ∧ last < idx) then some r
  else if idx=SBI_PMU_EVENT_RAW_IDX ∧ temp.select≠data then some r
  else do
    let ctrMask := temp.counters.setWidth x.bits &&& Word.shl cmask r.1 &&&
      ~~~BitVec.ofNat x.bits SBI_PMU_FIXED_CTR_MASK
    let ctrIdx ← (setBitsFrom ctrMask.getLsbD r.1 SBI_PMU_HW_CTR_MAX).foldlM
      (pmuCtrFindHwBit c s) r.2
    some (SBI_PMU_HW_CTR_MAX,ctrIdx)

/-- `pmu_ctr_find_hw()` behind its loops; a counter was found, or not. -/
def pmuCtrFoundHw (c : PmuConfig x) (s : PmuState x) (flags eventIdx : Word x) (data : BitVec 64)
    (fixedCtr : Option Nat) : Option Nat → Option (PmuState x × Int)
  | none => some (s,fixedCtr.elim SBI_EFAIL Int.ofNat)
  | some ctrIdx => do
      let (s,ret) ← pmuUpdateHwMhpmevent c s ctrIdx flags eventIdx data
      some (s,if ret=0 then ctrIdx else ret)

/-- `pmu_ctr_find_hw()`. -/
def pmuCtrFindHw (c : PmuConfig x) (s : PmuState x) (cbase cmask flags eventIdx : Word x)
    (data : BitVec 64) : Option (PmuState x × Int) :=
  if c.numHwCtrs<cbase.toNat then some (s,SBI_EINVAL)
  else
    match pmuCtrFindFixedFw eventIdx,c.hasSscofpmf with
    | some fixedCtr,false => some (s,fixedCtr)
    | fixedCtr,_ => do
        let r ← c.hwEventMap.foldlM (pmuCtrFindHwRound c s cmask eventIdx data) (cbase.toNat,none)
        pmuCtrFoundHw c s flags eventIdx data fixedCtr r.2

/-- `pmu_ctr_find_fw()`; `none` is `SBI_ENOTSUPP`. `fw_base` is an `int` compared as a `uint32_t`. -/
def pmuCtrFindFw (c : PmuConfig x) (s : PmuState x) (cbase cmask : Word x) :
    Option (Option Nat) :=
  let ctrMask := Word.shl cmask cbase.toNat
  let fwBase := if cbase.toNat≤c.numHwCtrs then c.numHwCtrs+1 else (toU32 cbase).toNat
  ((List.range c.totalCtrs).filter fun i => decide (fwBase ≤ i)).findM? fun i => do
    let eventIdxVal ← s.activeEvent i
    some (decide (eventIdxVal=SBI_PMU_EVENT_IDX_INVALID) && decide (Word.bit i &&& ctrMask≠0))

/-- `sbi_pmu_ctr_cfg_match()` from `skip_match` on. -/
def pmuCtrSkipMatch (c : PmuConfig x) (s : PmuState x) (ctrIdx : Nat) (flags eventIdx : Word x) :
    Option (PmuState x × Int) :=
  if getCidxType eventIdx=SBI_PMU_EVENT_TYPE_HW then do
    let s ← (if hasFlag flags SBI_PMU_CFG_FLAG_CLEAR_VALUE then pmuCtrWriteHw s ctrIdx 0
      else some s)
    let s ← (if hasFlag flags SBI_PMU_CFG_FLAG_AUTO_START then
      (pmuCtrStartHw c s ctrIdx 0 false).map Prod.fst else some s)
    some (s,ctrIdx)
  else if getCidxType eventIdx=SBI_PMU_EVENT_TYPE_FW then do
    let fevent ← s.fwEvent (getCidxCode eventIdx)
    let count := if hasFlag flags SBI_PMU_CFG_FLAG_CLEAR_VALUE then 0 else fevent.currCount
    let started := hasFlag flags SBI_PMU_CFG_FLAG_AUTO_START || fevent.bStarted
    let s ← s.setFwEvent (getCidxCode eventIdx) ⟨count,started⟩
    some (s,ctrIdx)
  else some (s,ctrIdx)

/-- The search of `sbi_pmu_ctr_cfg_match()` for a counter, and its entry in `active_events`. -/
def pmuCtrFind (c : PmuConfig x) (s : PmuState x) (cidxBase cidxMask flags eventIdx : Word x)
    (eventData : BitVec 64) : Option (PmuState x × Option Nat) := do
  let (s,ctrIdx) ←
    (if getCidxType eventIdx=SBI_PMU_EVENT_TYPE_FW then
      (pmuCtrFindFw c s cidxBase cidxMask).map fun ctrIdx => (s,ctrIdx.elim SBI_ENOTSUPP Int.ofNat)
    else pmuCtrFindHw c s cidxBase cidxMask flags eventIdx eventData)
  if ctrIdx < 0 then some (s,none)
  else do
    let s ← s.setActiveEvent ctrIdx.toNat (toU32 eventIdx)
    some (s,some ctrIdx.toNat)

/-- `sbi_pmu_ctr_cfg_match()`. -/
def sbiPmuCtrCfgMatch (c : PmuConfig x) (s : PmuState x)
    (cidxBase cidxMask flags eventIdx : Word x) (eventData : BitVec 64) :
    Option (PmuState x × Int) :=
  let tmp := Word.shl cidxMask cidxBase.toNat
  if c.totalCtrs≤fls tmp ∨ SBI_PMU_EVENT_TYPE_MAX≤getCidxType eventIdx then some (s,SBI_EINVAL)
  else if hasFlag flags SBI_PMU_CFG_FLAG_SKIP_MATCH then do
    let eventIdxVal ← s.activeEvent cidxBase.toNat
    if eventIdxVal=SBI_PMU_EVENT_IDX_INVALID then some (s,SBI_EINVAL)
    else pmuCtrSkipMatch c s cidxBase.toNat flags eventIdx
  else do
    match ← pmuCtrFind c s cidxBase cidxMask flags eventIdx eventData with
    | (s,none) => some (s,SBI_ENOTSUPP)
    | (s,some ctrIdx) => pmuCtrSkipMatch c s ctrIdx flags eventIdx

/-- `sbi_pmu_ctr_incr_fw()`. -/
def sbiPmuCtrIncrFw (s : PmuState x) (fwId : Nat) : Option (PmuState x × Int) :=
  if SBI_PMU_FW_MAX≤fwId then some (s,SBI_EINVAL)
  else do
    let fevent ← s.fwEvent fwId
    if fevent.bStarted then
      let s ← s.setFwEvent fwId ⟨fevent.currCount+1,true⟩
      some (s,0)
    else some (s,0)

/-- `sbi_pmu_num_ctr()`. -/
def sbiPmuNumCtr (c : PmuConfig x) : Nat := c.numHwCtrs+SBI_PMU_FW_CTR_MAX

/-- `union sbi_pmu_ctr_info`, whose `csr`, `width` and `type` fields have 12, 6 and 1 bits. -/
def sbiPmuCtrInfo (csr width type : Nat) : Word x :=
  BitVec.ofNat x.bits (csr+width%64*2^12+type*2^(x.bits-1))

/-- `sbi_pmu_ctr_get_info()`, with what it writes to `ctr_info`. -/
def sbiPmuCtrGetInfo (c : PmuConfig x) (cidx : Nat) : Int × Option (Word x) :=
  if c.totalCtrs≤cidx ∨ cidx=1 then (SBI_EINVAL,none)
  else if cidx≤c.numHwCtrs then
    let width := if cidx=0 ∨ cidx=2 then 63 else c.mhpmBits+63
    (0,some (sbiPmuCtrInfo (CSR_CYCLE+cidx) width 0))
  else (0,some (sbiPmuCtrInfo 0 (x.bits-1) 1))

/-- `pmu_reset_event_map()`. -/
def pmuResetEventMap (c : PmuConfig x) (s : PmuState x) : PmuState x :=
  { s with
    activeEvents := fun j =>
      if 3≤j ∧ j<c.totalCtrs then SBI_PMU_EVENT_IDX_INVALID else s.activeEvents j
    fwEventMap := fun j => if j<SBI_PMU_FW_CTR_MAX then ⟨0,false⟩ else s.fwEventMap j }

/-- `sbi_pmu_exit()`. -/
def sbiPmuExit (c : PmuConfig x) (s : PmuState x) : PmuState x :=
  let s := if c.hasMcountinhibit then
    s.writeCsr CSR_MCOUNTINHIBIT (BitVec.ofNat _ 0xfffffff8) else s
  pmuResetEventMap c (s.writeCsr CSR_MCOUNTEREN Word.max)

/-- An entry of `active_events` for a fixed counter. -/
def fixedEvent (code : Nat) : BitVec 32 :=
  BitVec.ofNat 32 ((SBI_PMU_EVENT_TYPE_HW <<< SBI_PMU_EVENT_IDX_OFFSET) ||| code)

/-- `sbi_pmu_init()` on a state whose configuration cold boot has set. -/
def sbiPmuInit (c : PmuConfig x) (s : PmuState x) : PmuState x :=
  let s := pmuResetEventMap c s
  { s with activeEvents := fun j =>
      if j=0 then fixedEvent SBI_PMU_HW_CPU_CYCLES
      else if j=1 then SBI_PMU_EVENT_IDX_INVALID
      else if j=2 then fixedEvent SBI_PMU_HW_INSTRUCTIONS
      else s.activeEvents j }

/-- The registers of a call. -/
structure PmuRegs (x : Xlen) where
  a0 : Word x
  a1 : Word x
  a2 : Word x
  a3 : Word x
  a4 : Word x
  a5 : Word x

/-- A `uint64_t` passed in one register, or in two where they are small. -/
def uint64Arg (lo hi : Word x) : BitVec 64 :=
  match x with
  | .rv32 => (hi.setWidth 64 <<< 32) ||| lo.setWidth 64
  | .rv64 => lo.setWidth 64

/-- What a call returns: the error code and `out_val`, `none` where it is not written. -/
abbrev PmuReturn (x : Xlen) := Int × Option (Word x)

/-- `sbi_ecall_pmu_handler()`. -/
def sbiEcallPmuHandler (c : PmuConfig x) (s : PmuState x) (behind funcid : Word x)
    (regs : PmuRegs x) : Option (PmuState x × PmuReturn x) :=
  match funcid.toNat with
  | 0 => some (s,0,some (BitVec.ofNat _ (sbiPmuNumCtr c)))
  | 1 => some (s,sbiPmuCtrGetInfo c (toU32 regs.a0).toNat)
  | 2 => do
      let (s,ret) ← sbiPmuCtrCfgMatch c s regs.a0 regs.a1 regs.a2 regs.a3
        (uint64Arg regs.a4 regs.a5)
      some (s,if 0≤ret then (0,some (BitVec.ofInt _ ret)) else (ret,none))
  | 3 => do
      let (s,ret) ← sbiPmuCtrStart c s behind regs.a0 regs.a1 regs.a2 (uint64Arg regs.a3 regs.a4)
      some (s,ret,none)
  | 4 => do
      let (s,ret) ← sbiPmuCtrStop c s behind regs.a0 regs.a1 regs.a2
      some (s,ret,none)
  | 5 => do
      let r ← sbiPmuCtrRead c s (toU32 regs.a0).toNat
      some (s,r)
  | _ => some (s,SBI_ENOTSUPP,none)

/-- What happens on the hart: a call, an occurrence of a firmware event, a change of the registers
by the hardware, or a stop of the hart with its next start. -/
inductive PmuAction (x : Xlen) where
  | ecall (behind funcid : Word x) (regs : PmuRegs x)
  | occur (fwId : Nat)
  | hardware (csrs : Csrs x)
  | restart

def pmuStep (c : PmuConfig x) (s : PmuState x) : PmuAction x →
    Option (PmuState x × PmuReturn x)
  | .ecall behind funcid regs => sbiEcallPmuHandler c s behind funcid regs
  | .occur fwId => do
      let (s,ret) ← sbiPmuCtrIncrFw s fwId
      some (s,ret,none)
  | .hardware csrs => some ({ s with csrs := csrs },0,none)
  | .restart => some (sbiPmuInit c (sbiPmuExit c s),0,none)

/-- After cold boot. -/
def PmuState.initial (c : PmuConfig x) (csrs : Csrs x) : PmuState x :=
  sbiPmuInit c ⟨fun _ => 0,fun _ => ⟨0,false⟩,csrs⟩

/-- The PMU of one hart. -/
def pmuMachine (c : PmuConfig x) : Machine (PmuState x) (PmuAction x) (PmuReturn x) where
  step s a := (pmuStep c s a).map fun r => (r.1,[r.2])

end OpenSBI
