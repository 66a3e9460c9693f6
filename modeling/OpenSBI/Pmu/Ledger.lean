import OpenSBI.Pmu.Bounds

namespace OpenSBI

open Framework

variable {x : Xlen} {c : PmuConfig x} {s s' : PmuState x}

/-- The account of one counter: the firmware event it is configured for, the value last given to it,
the occurrences of its event since then while it was started, and whether it is. -/
structure Account (x : Xlen) where
  event : Option Nat
  given : Word x
  since : Nat
  started : Bool

namespace Account

def reading (a : Account x) : Word x := a.given+BitVec.ofNat x.bits a.since

def give (v : Word x) (a : Account x) : Account x := { a with given := v,since := 0 }

/-- What `fw_event_map` should hold for the counter. -/
def entry (a : Account x) : PmuFwEvent x := ⟨a.reading,a.started⟩

/-- A start, with or without an initial value. -/
def start (upd : Bool) (v : Word x) (a : Account x) : Account x :=
  if a.event.isSome then { if upd then a.give v else a with started := true } else a

/-- A stop, with or without a reset. -/
def stop (reset : Bool) (a : Account x) : Account x :=
  { a with started := false,event := if reset then none else a.event }

/-- The counter was found for an event. -/
def configure (flags eventIdx : Word x) (a : Account x) : Account x :=
  if getCidxType eventIdx=SBI_PMU_EVENT_TYPE_FW then
    { if hasFlag flags SBI_PMU_CFG_FLAG_CLEAR_VALUE then a.give 0 else a with
      event := some (getCidxCode eventIdx)
      started := hasFlag flags SBI_PMU_CFG_FLAG_AUTO_START }
  else { a with event := none,started := false }

/-- The counter is configured already; its event stays. -/
def reconfigure (flags eventIdx : Word x) (a : Account x) : Account x :=
  if getCidxType eventIdx=SBI_PMU_EVENT_TYPE_FW ∧ a.event.isSome then
    { if hasFlag flags SBI_PMU_CFG_FLAG_CLEAR_VALUE then a.give 0 else a with
      started := hasFlag flags SBI_PMU_CFG_FLAG_AUTO_START || a.started }
  else a

/-- An occurrence of a firmware event. -/
def occur (fwId : Nat) (a : Account x) : Account x :=
  if a.event=some fwId ∧ a.started then { a with since := a.since+1 } else a

theorem entry_start (ival : BitVec 64) (upd : Bool) {a : Account x} (h : a.event.isSome=true) :
    (a.start upd (ival.setWidth _)).entry=startFw ival upd a.entry := by
  cases upd <;> simp [start,h,entry,startFw,reading,give]

theorem entry_stop (reset : Bool) (a : Account x) : (a.stop reset).entry=stopFw a.entry := rfl

theorem entry_reconfigure (flags : Word x) {eventIdx : Word x} {a : Account x}
    (ht : getCidxType eventIdx=SBI_PMU_EVENT_TYPE_FW) (h : a.event.isSome=true) :
    (a.reconfigure flags eventIdx).entry=configFw flags a.entry := by
  cases hc : hasFlag flags SBI_PMU_CFG_FLAG_CLEAR_VALUE <;>
    simp [reconfigure,ht,h,hc,entry,configFw,reading,give]

/-- The entry of a counter found for an event, when the event stands where its account does. -/
theorem entry_configure (flags : Word x) {eventIdx : Word x} {a : Account x} {e : PmuFwEvent x}
    (ht : getCidxType eventIdx=SBI_PMU_EVENT_TYPE_FW)
    (hcount : hasFlag flags SBI_PMU_CFG_FLAG_CLEAR_VALUE=true ∨ e.currCount=a.reading)
    (hstart : hasFlag flags SBI_PMU_CFG_FLAG_AUTO_START=true ∨ e.bStarted=false) :
    (a.configure flags eventIdx).entry=configFw flags e := by
  have hs : (hasFlag flags SBI_PMU_CFG_FLAG_AUTO_START || e.bStarted)=
      hasFlag flags SBI_PMU_CFG_FLAG_AUTO_START := by
    rcases hstart with hs | hs <;> simp [hs]
  rw [configure,if_pos ht,configFw,hs]
  cases hc : hasFlag flags SBI_PMU_CFG_FLAG_CLEAR_VALUE
  · have he : e.currCount=a.reading := hcount.resolve_left (by simp [hc])
    simp [entry,reading,he]
  · simp [entry,reading,give]

theorem event_reconfigure (flags eventIdx : Word x) (a : Account x) :
    (a.reconfigure flags eventIdx).event=a.event := by
  rw [reconfigure]
  split_ifs <;> rfl

theorem event_start (upd : Bool) (v : Word x) (a : Account x) : (a.start upd v).event=a.event := by
  rw [start]
  split_ifs <;> rfl

theorem event_occur (fwId : Nat) (a : Account x) : (a.occur fwId).event=a.event := by
  rw [occur]
  split_ifs <;> rfl

theorem entry_occur (fwId : Nat) (a : Account x) (h : a.event=some fwId) :
    (a.occur fwId).entry=
      if a.started then ⟨a.reading+1,true⟩ else a.entry := by
  cases hs : a.started
  · simp [occur,hs]
  · simp [occur,h,hs,entry,reading,BitVec.ofNat_add,BitVec.add_assoc]

end Account

/-- The accounts of all counters. -/
abbrev Ledger (x : Xlen) := Nat → Account x

/-- The counters that a start or stop names; none when the check of the mask fails. -/
def namesCtr (c : PmuConfig x) (cbase cmask : Word x) (i : Nat) : Bool :=
  decide (fls (Word.shl cmask cbase.toNat)<c.totalCtrs) &&
  decide (cbase.toNat ≤ i ∧ i<c.totalCtrs ∧ i<x.bits) && cmask.getLsbD (i-cbase.toNat)

/-- The counters that an action names, with what it returned. -/
def PmuAction.names (c : PmuConfig x) (r : PmuReturn x) : PmuAction x → Nat → Bool
  | .ecall _ funcid regs,i =>
      match funcid.toNat with
      | 2 => r.2.any fun ctr => ctr.toNat=i
      | 3 => namesCtr c regs.a0 regs.a1 i
      | 4 => namesCtr c regs.a0 regs.a1 i
      | _ => false
  | _,_ => false

/-- What a call does to the account of a counter it names. -/
def PmuRegs.post (regs : PmuRegs x) (funcid : Word x) : Account x → Account x :=
  match funcid.toNat with
  | 2 =>
      if hasFlag regs.a2 SBI_PMU_CFG_FLAG_SKIP_MATCH then Account.reconfigure regs.a2 regs.a3
      else Account.configure regs.a2 regs.a3
  | 3 =>
      Account.start (hasFlag regs.a2 SBI_PMU_START_FLAG_SET_INIT_VALUE)
        ((uint64Arg regs.a3 regs.a4).setWidth _)
  | 4 => Account.stop (hasFlag regs.a2 SBI_PMU_STOP_FLAG_RESET)
  | _ => id

/-- The accounts of independent counters: an action that names counters is about these only, and an
occurrence about the counters of its event. -/
def Ledger.next (c : PmuConfig x) (L : Ledger x) (a : PmuAction x) (r : PmuReturn x) : Ledger x :=
  match a with
  | .ecall _ funcid regs => fun i => if a.names c r i then regs.post funcid (L i) else L i
  | .occur fwId => fun i => if fwId<SBI_PMU_FW_MAX then (L i).occur fwId else L i
  | .hardware _ => L
  | .restart => fun _ => ⟨none,0,0,false⟩

/-- No counter is configured. -/
def Ledger.initial : Ledger x := fun _ => ⟨none,0,0,false⟩

/-- What a start or stop makes of the events of the counters it visits, `f`, changes nothing for a
counter it does not name. -/
def Unshared (c : PmuConfig x) (s : PmuState x) (visited : List Nat) (named : Nat → Bool)
    (f : PmuFwEvent x → PmuFwEvent x) : Prop :=
  ∀ i j k,i∈visited → named j=false → s.fwEventOf c i=some k → s.fwEventOf c j=some k →
    f (s.fwEventMap k)=s.fwEventMap k

/-- The condition on a `COUNTER_CFG_MATCH` of a firmware event. When it skips the search, it changes
nothing for another counter of the event, nor for another event of the counter. With a search, it
changes nothing for a counter of the event, and the event stands where the account of the counter
found stands. -/
def CfgExact (c : PmuConfig x) (s : PmuState x) (L : Ledger x)
    (cidxBase cidxMask flags eventIdx : Word x) : Prop :=
  let code := getCidxCode eventIdx
  fls (Word.shl cidxMask cidxBase.toNat)<c.totalCtrs →
  getCidxType eventIdx=SBI_PMU_EVENT_TYPE_FW →
    if hasFlag flags SBI_PMU_CFG_FLAG_SKIP_MATCH=true then
      s.activeEvents cidxBase.toNat≠SBI_PMU_EVENT_IDX_INVALID →
      ∀ j k,s.fwEventOf c j=some k → (j=cidxBase.toNat ↔ k≠code) →
        configFw flags (s.fwEventMap k)=s.fwEventMap k
    else ∀ i,(List.range c.totalCtrs).find? (s.freeFwCtr c cidxBase cidxMask)=some i →
      (∀ j,s.fwEventOf c j=some code →
        configFw flags (s.fwEventMap code)=s.fwEventMap code) ∧
      (hasFlag flags SBI_PMU_CFG_FLAG_CLEAR_VALUE=true ∨
        (s.fwEventMap code).currCount=(L i).reading) ∧
      (hasFlag flags SBI_PMU_CFG_FLAG_AUTO_START=true ∨ (s.fwEventMap code).bStarted=false)

/-- The condition on an action: it changes nothing for the counters it does not name. -/
def PmuAction.Exact (c : PmuConfig x) (s : PmuState x) (L : Ledger x) : PmuAction x → Prop
  | .ecall behind funcid regs =>
      let visited := visitedCtrs c behind regs.a0 regs.a1
      let named := namesCtr c regs.a0 regs.a1
      (funcid.toNat=2 → CfgExact c s L regs.a0 regs.a1 regs.a2 regs.a3) ∧
      (funcid.toNat=3 → Unshared c s visited named
        (startFw (uint64Arg regs.a3 regs.a4)
          (hasFlag regs.a2 SBI_PMU_START_FLAG_SET_INIT_VALUE))) ∧
      (funcid.toNat=4 → Unshared c s visited named stopFw ∧
        (hasFlag regs.a2 SBI_PMU_STOP_FLAG_RESET=true →
          ∀ i∈visited,(s.fwEventOf c i).isSome=true → named i=true))
  | _ => True

end OpenSBI
