import OpenSBI.Framework.Relational
import OpenSBI.Pmu.Bounds

namespace OpenSBI

open Framework

variable {x : Xlen} {c : PmuConfig x} {s s' : PmuState x}

/-! ## What calls can tell apart -/

/-- Two states of a hart with the same tables, and the same MCOUNTINHIBIT where there is one. The
other registers decide no answer. -/
structure SameTables (c : PmuConfig x) (s s' : PmuState x) : Prop where
  active : ∀ j<SBI_PMU_CTR_MAX,s.activeEvents j=s'.activeEvents j
  map : ∀ k<SBI_PMU_FW_EVENT_MAX,s.fwEventMap k=s'.fwEventMap k
  inhibit : c.hasMcountinhibit=true → s.csrs CSR_MCOUNTINHIBIT=s'.csrs CSR_MCOUNTINHIBIT

/-- The same with equal results. -/
abbrev SamePair {α : Type} (c : PmuConfig x) (r r' : PmuState x×α) : Prop :=
  SameTables c r.1 r'.1 ∧ r.2=r'.2

/-- Two outcomes of an operation without a result, and of one with a result. -/
abbrev SameState (c : PmuConfig x) : Option (PmuState x) → Option (PmuState x) → Prop :=
  Option.Rel (SameTables c)

abbrev SameReturn {α : Type} (c : PmuConfig x) :
    Option (PmuState x×α) → Option (PmuState x×α) → Prop :=
  Option.Rel (SamePair c)

namespace SameTables

theorem symm (h : SameTables c s s') : SameTables c s' s :=
  ⟨fun j hj => (h.active j hj).symm,fun k hk => (h.map k hk).symm,fun hm => (h.inhibit hm).symm⟩

theorem trans {s2 : PmuState x} (h : SameTables c s s') (h2 : SameTables c s' s2) :
    SameTables c s s2 :=
  ⟨fun j hj => (h.active j hj).trans (h2.active j hj),fun k hk => (h.map k hk).trans (h2.map k hk),
    fun hm => (h.inhibit hm).trans (h2.inhibit hm)⟩

theorem refl (c : PmuConfig x) (s : PmuState x) : SameTables c s s :=
  ⟨fun _ _ => rfl,fun _ _ => rfl,fun _ => rfl⟩

theorem ret {α : Type} (h : SameTables c s s') (v : α) : SameReturn c (some (s,v)) (some (s',v)) :=
  .some ⟨h,rfl⟩

theorem activeEvent (h : SameTables c s s') (i : Nat) : s.activeEvent i=s'.activeEvent i := by
  unfold PmuState.activeEvent
  split
  next hi => rw [h.active i hi]
  next => rfl

theorem fwEvent (h : SameTables c s s') (k : Nat) : s.fwEvent k=s'.fwEvent k := by
  unfold PmuState.fwEvent
  split
  next hk => rw [h.map k hk]
  next => rfl

theorem setActiveEvent (h : SameTables c s s') (i : Nat) (v : BitVec 32) :
    SameState c (s.setActiveEvent i v) (s'.setActiveEvent i v) := by
  unfold PmuState.setActiveEvent
  split
  · refine .some ⟨fun j hj => ?_,h.map,h.inhibit⟩
    dsimp only
    by_cases hji : j=i
    · rw [hji,Function.update_self,Function.update_self]
    · rw [Function.update_of_ne hji,Function.update_of_ne hji,h.active j hj]
  · exact .none

theorem setFwEvent (h : SameTables c s s') (k : Nat) (v : PmuFwEvent x) :
    SameState c (s.setFwEvent k v) (s'.setFwEvent k v) := by
  unfold PmuState.setFwEvent
  split
  · refine .some ⟨h.active,fun j hj => ?_,h.inhibit⟩
    dsimp only
    by_cases hjk : j=k
    · rw [hjk,Function.update_self,Function.update_self]
    · rw [Function.update_of_ne hjk,Function.update_of_ne hjk,h.map j hj]
  · exact .none

/-- The values written to another register may differ. -/
theorem writeNum (h : SameTables c s s') {num : Nat} (hn : num≠CSR_MCOUNTINHIBIT) (v v' : Word x) :
    SameState c (s.writeNum num v) (s'.writeNum num v') := by
  unfold PmuState.writeNum csrWriteNum
  split
  · refine .some ⟨h.active,h.map,fun hm => ?_⟩
    dsimp only
    rw [Function.update_of_ne hn.symm,Function.update_of_ne hn.symm,h.inhibit hm]
  · exact .none

theorem writeInhibit (h : SameTables c s s') (v : Word x) :
    SameTables c (s.writeCsr CSR_MCOUNTINHIBIT v) (s'.writeCsr CSR_MCOUNTINHIBIT v) :=
  ⟨h.active,h.map,fun _ => by simp [PmuState.writeCsr]⟩

theorem validate (h : SameTables c s s') (i : Nat) :
    pmuCtrValidate c s i=pmuCtrValidate c s' i := by
  rw [pmuCtrValidate,pmuCtrValidate,h.activeEvent]

/-! ## Hardware counters -/

/-- Whether the overflow bit is cleared hangs on MIP, which is not compared. -/
theorem enableIrq_same (c : PmuConfig x) (s : PmuState x) (i : Nat) :
    ∃ s1,pmuCtrEnableIrqHw s i=some s1 ∧ SameTables c s s1 := by
  have hwrite : ∀ num v,csrKnown x num=true → num≠CSR_MCOUNTINHIBIT →
      ∃ s1,s.writeNum num v=some s1 ∧ SameTables c s s1 := by
    intro num v hk hn
    refine ⟨{ s with csrs := Function.update s.csrs num v },by simp [PmuState.writeNum,csrWriteNum,hk],
      fun _ _ => rfl,fun _ _ => rfl,fun _ => ?_⟩
    dsimp only
    rw [Function.update_of_ne hn.symm]
  rw [pmuCtrEnableIrqHw.eq_def]
  by_cases h : i<3 ∨ SBI_PMU_HW_CTR_MAX ≤ i
  · exact ⟨s,by rw [if_pos h],.refl c s⟩
  rw [if_neg h]
  push Not at h
  have hm : ∀ first,CSR_MCOUNTINHIBIT<first → first+i-3≠CSR_MCOUNTINHIBIT := fun first hf => by omega
  cases x with
  | rv32 =>
    have hk := csrKnown_eventh h.1 h.2
    simp only [csrReadNum,hk,if_true,Option.bind_eq_bind,Option.bind_some]
    split
    · exact hwrite _ _ hk (hm CSR_MHPMEVENT3H (by decide))
    · exact ⟨s,rfl,.refl c s⟩
  | rv64 =>
    have hk := csrKnown_event (x := .rv64) h.1 h.2
    simp only [csrReadNum,hk,if_true,Option.bind_eq_bind,Option.bind_some]
    split
    · exact hwrite _ _ hk (hm CSR_MHPMEVENT3 (by decide))
    · exact ⟨s,rfl,.refl c s⟩

theorem enableIrq (h : SameTables c s s') (i : Nat) :
    SameState c (pmuCtrEnableIrqHw s i) (pmuCtrEnableIrqHw s' i) := by
  obtain ⟨s1,h1,hs1⟩ := enableIrq_same c s i
  obtain ⟨s2,h2,hs2⟩ := enableIrq_same c s' i
  rw [h1,h2]
  exact .some (hs1.symm.trans (h.trans hs2))

theorem writeHw (h : SameTables c s s') (i : Nat) (v : BitVec 64) :
    SameState c (pmuCtrWriteHw s i v) (pmuCtrWriteHw s' i v) := by
  have hm : ∀ first,CSR_MCOUNTINHIBIT<first → first+i≠CSR_MCOUNTINHIBIT := fun first hf => by omega
  have h1 := hm CSR_MCYCLE (by decide)
  have h2 := hm CSR_MCYCLEH (by decide)
  cases x with
  | rv32 =>
    exact optionRel_bind (h.writeNum h1 _ _) fun a b hab =>
      optionRel_bind (hab.writeNum h1 _ _) fun a b hab => hab.writeNum h2 _ _
  | rv64 => exact h.writeNum h1 _ _

theorem resetMhpmevent (h : SameTables c s s') (i : Nat) :
    SameState c (pmuResetHwMhpmevent s i) (pmuResetHwMhpmevent s' i) := by
  unfold pmuResetHwMhpmevent
  split
  · exact .some h
  next hi =>
    have hm : ∀ first,CSR_MCOUNTINHIBIT<first → first+i-3≠CSR_MCOUNTINHIBIT := fun first hf => by omega
    have h1 := hm CSR_MHPMEVENT3 (by decide)
    have h2 := hm CSR_MHPMEVENT3H (by decide)
    cases x with
    | rv32 =>
      exact optionRel_bind (h.writeNum h1 _ _) fun a b hab => hab.writeNum h2 _ _
    | rv64 => exact h.writeNum h1 _ _

theorem startHw (h : SameTables c s s') (i : Nat) (v : BitVec 64) (upd : Bool) :
    SameReturn c (pmuCtrStartHw c s i v upd) (pmuCtrStartHw c s' i v upd) := by
  have hw : ∀ {a b : PmuState x},SameTables c a b →
      SameReturn c ((if upd then pmuCtrWriteHw a i v else some a).bind fun r => some (r,(0 : Int)))
        ((if upd then pmuCtrWriteHw b i v else some b).bind fun r => some (r,(0 : Int))) := by
    intro a b hab
    refine optionRel_bind (r := SameTables c) ?_ fun a' b' hab' => hab'.ret 0
    split
    · exact hab.writeHw i v
    · exact .some hab
  unfold pmuCtrStartHw
  split
  · exact h.ret _
  split
  next hm =>
    dsimp only
    rw [h.inhibit hm]
    split
    · exact h.ret _
    · refine optionRel_bind (r := SameTables c) ?_ fun a b hab => hw (hab.writeInhibit _)
      split
      · exact h.enableIrq i
      · exact .some h
  · exact hw h

theorem stopHw (h : SameTables c s s') (i : Nat) :
    SameReturn c (some (pmuCtrStopHw c s i)) (some (pmuCtrStopHw c s' i)) := by
  unfold pmuCtrStopHw
  split
  · exact h.ret _
  next hm =>
    dsimp only
    rw [h.inhibit (by simpa using hm)]
    split_ifs
    · exact h.ret _
    · exact (h.writeInhibit _).ret _
    · exact h.ret _

theorem updateMhpmevent (h : SameTables c s s') (i : Nat) (flags eindex : Word x) (data : BitVec 64) :
    SameReturn c (pmuUpdateHwMhpmevent c s i flags eindex data)
      (pmuUpdateHwMhpmevent c s' i flags eindex data) := by
  unfold pmuUpdateHwMhpmevent
  dsimp only
  split
  · exact h.ret _
  next hi =>
    have hm : ∀ first,CSR_MCOUNTINHIBIT<first → first+i-3≠CSR_MCOUNTINHIBIT := fun first hf => by omega
    refine optionRel_bind (h.writeNum (hm _ (by decide)) _ _) fun a b hab =>
      optionRel_bind (r := SameTables c) ?_ fun a' b' hab' => hab'.ret 0
    cases x with
    | rv32 => exact hab.writeNum (hm CSR_MHPMEVENT3H (by decide)) _ _
    | rv64 => exact .some hab

/-! ## Firmware counters -/

theorem startFw (h : SameTables c s s') (code : Nat) (v : BitVec 64) (upd : Bool) :
    SameReturn c (pmuCtrStartFw s code v upd) (pmuCtrStartFw s' code v upd) := by
  unfold pmuCtrStartFw
  rw [h.fwEvent]
  exact optionRel_bind_self fun e _ => optionRel_bind (h.setFwEvent _ _) fun a b hab => hab.ret 0

theorem stopFw (h : SameTables c s s') (code : Nat) :
    SameReturn c (pmuCtrStopFw s code) (pmuCtrStopFw s' code) := by
  unfold pmuCtrStopFw
  rw [h.fwEvent]
  exact optionRel_bind_self fun e _ => optionRel_bind (h.setFwEvent _ _) fun a b hab => hab.ret 0

theorem incrFw (h : SameTables c s s') (fwId : Nat) :
    SameReturn c (sbiPmuCtrIncrFw s fwId) (sbiPmuCtrIncrFw s' fwId) := by
  unfold sbiPmuCtrIncrFw
  split
  · exact h.ret _
  rw [h.fwEvent]
  refine optionRel_bind_self fun e _ => ?_
  split
  · exact optionRel_bind (h.setFwEvent _ _) fun a b hab => hab.ret 0
  · exact h.ret _

/-! ## The calls -/

/-- A read changes nothing, and its register numbers are known or not. -/
theorem ctrRead (h : SameTables c s s') (i : Nat) : sbiPmuCtrRead c s i=sbiPmuCtrRead c s' i := by
  have hw : pmuCtrReadHw s i=pmuCtrReadHw s' i := by
    cases x <;> simp only [pmuCtrReadHw,csrReadNum] <;> split_ifs <;> rfl
  unfold sbiPmuCtrRead
  rw [h.validate]
  simp only [h.fwEvent,hw]

theorem startRound {ival : BitVec 64} {upd : Bool} {i : Nat} {r r' : PmuState x×Int}
    (h : SamePair c r r') :
    SameReturn c (pmuCtrStartRound c ival upd r i) (pmuCtrStartRound c ival upd r' i) := by
  obtain ⟨s,ret⟩ := r
  obtain ⟨s',ret'⟩ := r'
  obtain ⟨h,rfl⟩ := h
  unfold pmuCtrStartRound
  rw [h.validate]
  refine optionRel_bind_self fun e _ => ?_
  split
  · exact h.ret _
  · split
    · exact h.startFw _ _ _
    · exact h.startHw _ _ _

theorem stopRound {reset : Bool} {i : Nat} {r r' : PmuState x×Int}
    (h : SamePair c r r') : SameReturn c (pmuCtrStopRound c reset r i) (pmuCtrStopRound c reset r' i) := by
  obtain ⟨s,ret⟩ := r
  obtain ⟨s',ret'⟩ := r'
  obtain ⟨h,rfl⟩ := h
  unfold pmuCtrStopRound
  rw [h.validate]
  refine optionRel_bind_self fun e _ => ?_
  split
  · exact h.ret _
  · refine optionRel_bind (r := SamePair c) ?_ ?_
    · split
      · exact h.stopFw _
      · exact h.stopHw _
    · rintro ⟨a,v⟩ ⟨b,_⟩ ⟨hab,rfl⟩
      dsimp only
      split
      · exact optionRel_bind (hab.setActiveEvent _ _) fun a b hab =>
          optionRel_bind (hab.resetMhpmevent _) fun a b hab => hab.ret _
      · exact hab.ret _

theorem ctrStart (h : SameTables c s s') (behind cbase cmask flags : Word x) (ival : BitVec 64) :
    SameReturn c (sbiPmuCtrStart c s behind cbase cmask flags ival)
      (sbiPmuCtrStart c s' behind cbase cmask flags ival) := by
  unfold sbiPmuCtrStart
  dsimp only
  split
  · exact h.ret _
  · apply optionRel_foldlM (r := SamePair c)
    · exact fun i _ a b hab => startRound hab
    · exact ⟨h,rfl⟩

theorem ctrStop (h : SameTables c s s') (behind cbase cmask flag : Word x) :
    SameReturn c (sbiPmuCtrStop c s behind cbase cmask flag)
      (sbiPmuCtrStop c s' behind cbase cmask flag) := by
  unfold sbiPmuCtrStop
  dsimp only
  split
  · exact h.ret _
  · apply optionRel_foldlM (r := SamePair c)
    · exact fun i _ a b hab => stopRound hab
    · exact ⟨h,rfl⟩

theorem findHwRound (h : SameTables c s s') (cmask eventIdx : Word x) (data : BitVec 64)
    (r : Nat×Option Nat) (temp : PmuHwEvent) :
    pmuCtrFindHwRound c s cmask eventIdx data r temp=
      pmuCtrFindHwRound c s' cmask eventIdx data r temp := by
  have hb : pmuCtrFindHwBit c s=pmuCtrFindHwBit c s' := by
    funext o i
    unfold pmuCtrFindHwBit
    rw [h.activeEvent]
    by_cases hm : c.hasMcountinhibit=true
    · rw [h.inhibit hm]
    · simp only [hm,Bool.false_eq_true,false_and]
  unfold pmuCtrFindHwRound
  rw [hb]

theorem findHw (h : SameTables c s s') (cbase cmask flags eventIdx : Word x) (data : BitVec 64) :
    SameReturn c (pmuCtrFindHw c s cbase cmask flags eventIdx data)
      (pmuCtrFindHw c s' cbase cmask flags eventIdx data) := by
  have hr : pmuCtrFindHwRound c s cmask eventIdx data=pmuCtrFindHwRound c s' cmask eventIdx data := by
    funext r temp
    exact h.findHwRound cmask eventIdx data r temp
  unfold pmuCtrFindHw
  split
  · exact h.ret _
  split
  · exact h.ret _
  · rw [hr]
    refine optionRel_bind_self fun r _ => ?_
    unfold pmuCtrFoundHw
    split
    · exact h.ret _
    · refine optionRel_bind (h.updateMhpmevent _ _ _ _) ?_
      rintro ⟨a,v⟩ ⟨b,_⟩ ⟨hab,rfl⟩
      exact hab.ret _

theorem findFw (h : SameTables c s s') (cbase cmask : Word x) :
    pmuCtrFindFw c s cbase cmask=pmuCtrFindFw c s' cbase cmask := by
  unfold pmuCtrFindFw
  simp only [h.activeEvent]

theorem find (h : SameTables c s s') (cbase cmask flags eventIdx : Word x) (data : BitVec 64) :
    SameReturn c (pmuCtrFind c s cbase cmask flags eventIdx data)
      (pmuCtrFind c s' cbase cmask flags eventIdx data) := by
  unfold pmuCtrFind
  refine optionRel_bind (r := SamePair c) ?_ ?_
  · split
    · rw [h.findFw]
      cases pmuCtrFindFw c s' cbase cmask with
      | none => exact .none
      | some o => exact .some ⟨h,rfl⟩
    · exact h.findHw _ _ _ _ _
  · rintro ⟨a,v⟩ ⟨b,_⟩ ⟨hab,rfl⟩
    dsimp only
    split
    · exact hab.ret _
    · exact optionRel_bind (hab.setActiveEvent _ _) fun a b hab => hab.ret _

theorem skipMatch (h : SameTables c s s') (i : Nat) (flags eventIdx : Word x) :
    SameReturn c (pmuCtrSkipMatch c s i flags eventIdx) (pmuCtrSkipMatch c s' i flags eventIdx) := by
  unfold pmuCtrSkipMatch
  split
  · refine optionRel_bind (r := SameTables c) ?_ fun a b hab =>
      optionRel_bind (r := SameTables c) ?_ fun a b hab => hab.ret _
    · split
      · exact h.writeHw _ _
      · exact .some h
    · split
      · exact optionRel_map (hab.startHw _ _ _) fun a b hab => hab.1
      · exact .some hab
  split
  · rw [h.fwEvent]
    exact optionRel_bind_self fun e _ => optionRel_bind (h.setFwEvent _ _) fun a b hab => hab.ret _
  · exact h.ret _

theorem cfgMatch (h : SameTables c s s') (base mask flags eventIdx : Word x) (data : BitVec 64) :
    SameReturn c (sbiPmuCtrCfgMatch c s base mask flags eventIdx data)
      (sbiPmuCtrCfgMatch c s' base mask flags eventIdx data) := by
  unfold sbiPmuCtrCfgMatch
  dsimp only
  split
  · exact h.ret _
  split
  · rw [h.activeEvent]
    refine optionRel_bind_self fun e _ => ?_
    split
    · exact h.ret _
    · exact h.skipMatch _ _ _
  · refine optionRel_bind (h.find _ _ _ _ _) ?_
    rintro ⟨a,v⟩ ⟨b,_⟩ ⟨hab,rfl⟩
    cases v with
    | none => exact hab.ret _
    | some i => exact hab.skipMatch _ _ _

theorem ecall (h : SameTables c s s') (behind funcid : Word x) (regs : PmuRegs x) :
    SameReturn c (sbiEcallPmuHandler c s behind funcid regs)
      (sbiEcallPmuHandler c s' behind funcid regs) := by
  unfold sbiEcallPmuHandler
  split
  · exact h.ret _
  · exact h.ret _
  · refine optionRel_bind (h.cfgMatch _ _ _ _ _) ?_
    rintro ⟨a,v⟩ ⟨b,_⟩ ⟨hab,rfl⟩
    exact hab.ret _
  · refine optionRel_bind (h.ctrStart _ _ _ _ _) ?_
    rintro ⟨a,v⟩ ⟨b,_⟩ ⟨hab,rfl⟩
    exact hab.ret _
  · refine optionRel_bind (h.ctrStop _ _ _ _) ?_
    rintro ⟨a,v⟩ ⟨b,_⟩ ⟨hab,rfl⟩
    exact hab.ret _
  · rw [h.ctrRead]
    exact optionRel_bind_self fun r _ => h.ret r
  · exact h.ret _

theorem restart (h : SameTables c s s') :
    SameTables c (sbiPmuInit c (sbiPmuExit c s)) (sbiPmuInit c (sbiPmuExit c s')) := by
  refine ⟨fun j hj => ?_,fun k hk => ?_,fun hm => ?_⟩
  · simp only [sbiPmuInit,sbiPmuExit,pmuResetEventMap]
    split_ifs <;> first | rfl | exact h.active j hj
  · simp only [sbiPmuInit,sbiPmuExit,pmuResetEventMap]
    split_ifs <;> first | rfl | exact h.map k hk
  · simp [sbiPmuInit,sbiPmuExit,pmuResetEventMap,PmuState.writeCsr,hm,CSR_MCOUNTEREN,CSR_MCOUNTINHIBIT]

end SameTables

/-- No action tells states with the same tables apart. -/
theorem pmuMachine_bisimilar (c : PmuConfig x) : (pmuMachine c).Bisimilar (SameTables c) := by
  intro s s' a h
  refine optionRel_map (r := SamePair c) ?_ fun r r' hr => ⟨hr.1,by rw [hr.2]⟩
  cases a with
  | ecall behind funcid regs => exact h.ecall behind funcid regs
  | occur fwId =>
    refine optionRel_bind (h.incrFw fwId) ?_
    rintro ⟨a,v⟩ ⟨b,_⟩ ⟨hab,rfl⟩
    exact hab.ret _
  | hardware csrs => exact .some ⟨⟨h.active,h.map,fun _ => rfl⟩,rfl⟩
  | restart => exact h.restart.ret _

/-! ## Stop and start -/

/-- The value `sbi_hart_init()` and `sbi_pmu_exit()` leave in MCOUNTINHIBIT. -/
def CountersStopped (c : PmuConfig x) (csrs : Csrs x) : Prop :=
  c.hasMcountinhibit=true → csrs CSR_MCOUNTINHIBIT=BitVec.ofNat x.bits 0xfffffff8

/-- A hart as after its first boot, in its tables and in the answers it gives from then on. -/
structure LikeFirstBoot (c : PmuConfig x) (s : PmuState x) : Prop where
  active : ∀ csrs,∀ j<SBI_PMU_CTR_MAX,s.activeEvents j=(PmuState.initial c csrs).activeEvents j
  map : ∀ csrs,∀ k<SBI_PMU_FW_EVENT_MAX,s.fwEventMap k=(PmuState.initial c csrs).fwEventMap k
  answers : ∀ csrs,CountersStopped c csrs → ∀ as,
    (pmuMachine c).answers s as=(pmuMachine c).answers (.initial c csrs) as

/-- The entries the loops of `pmu_reset_event_map()` stop short of are as they were at first. -/
structure RestUnused (c : PmuConfig x) (s : PmuState x) : Prop where
  active : ∀ j,c.totalCtrs ≤ j → j<SBI_PMU_CTR_MAX → s.activeEvents j=0
  map : ∀ k,SBI_PMU_FW_CTR_MAX ≤ k → k<SBI_PMU_FW_EVENT_MAX → s.fwEventMap k=⟨0,false⟩

theorem restart_active (c : PmuConfig x) (s : PmuState x) (csrs : Csrs x) (j : Nat) :
    (sbiPmuInit c (sbiPmuExit c s)).activeEvents j=
      if j<c.totalCtrs then (PmuState.initial c csrs).activeEvents j else s.activeEvents j := by
  have ht : SBI_PMU_FW_CTR_MAX ≤ c.totalCtrs := Nat.le_add_left _ _
  simp only [SBI_PMU_FW_CTR_MAX] at ht
  have hw : (s.writeCsr CSR_MCOUNTEREN Word.max).activeEvents=s.activeEvents := rfl
  simp only [PmuState.initial,sbiPmuInit,sbiPmuExit,pmuResetEventMap]
  split_ifs <;> first | rfl | omega

theorem initial_active_rest (c : PmuConfig x) (csrs : Csrs x) {j : Nat} (hj : c.totalCtrs ≤ j) :
    (PmuState.initial c csrs).activeEvents j=0 := by
  have ht : SBI_PMU_FW_CTR_MAX ≤ c.totalCtrs := Nat.le_add_left _ _
  simp only [SBI_PMU_FW_CTR_MAX] at ht
  simp only [PmuState.initial,sbiPmuInit,pmuResetEventMap]
  split_ifs <;> first | rfl | omega

theorem restart_map (c : PmuConfig x) (s : PmuState x) (k : Nat) :
    (sbiPmuInit c (sbiPmuExit c s)).fwEventMap k=
      if k<SBI_PMU_FW_CTR_MAX then ⟨0,false⟩ else s.fwEventMap k := by
  simp only [sbiPmuInit,sbiPmuExit,pmuResetEventMap]
  split_ifs <;> rfl

theorem initial_map (c : PmuConfig x) (csrs : Csrs x) (k : Nat) :
    (PmuState.initial c csrs).fwEventMap k=⟨0,false⟩ := by
  simp only [PmuState.initial,sbiPmuInit,pmuResetEventMap]
  split_ifs <;> rfl

theorem restart_sameTables (h : RestUnused c s) {csrs : Csrs x} (hi : CountersStopped c csrs) :
    SameTables c (sbiPmuInit c (sbiPmuExit c s)) (.initial c csrs) := by
  refine ⟨fun j hj => ?_,fun k hk => ?_,fun hm => ?_⟩
  · rw [restart_active c s csrs]
    split
    · rfl
    · rw [initial_active_rest c csrs (by omega),h.active j (by omega) hj]
  · rw [restart_map,initial_map]
    split
    · rfl
    · exact h.map k (by omega) hk
  · have hinit : (PmuState.initial c csrs).csrs=csrs := rfl
    rw [hinit,hi hm]
    simp [sbiPmuInit,sbiPmuExit,pmuResetEventMap,PmuState.writeCsr,hm,CSR_MCOUNTEREN,CSR_MCOUNTINHIBIT]

/-- `sbi_pmu_exit()` and `sbi_pmu_init()` make a hart as after its first boot if and only if nothing is
left in the entries that the reset does not reach. -/
theorem pmuRestart_likeFirstBoot_iff (c : PmuConfig x) (s : PmuState x) :
    LikeFirstBoot c (sbiPmuInit c (sbiPmuExit c s)) ↔ RestUnused c s := by
  constructor
  · intro h
    refine ⟨fun j ht hj => ?_,fun k hk hlt => ?_⟩
    · have hj' := h.active s.csrs j hj
      rw [restart_active c s s.csrs,if_neg (not_lt.mpr ht),initial_active_rest c s.csrs ht] at hj'
      exact hj'
    · have hk' := h.map s.csrs k hlt
      rw [restart_map,initial_map,if_neg (not_lt.mpr hk)] at hk'
      exact hk'
  · intro h
    refine ⟨fun csrs j hj => ?_,fun csrs k hk => ?_,fun csrs hi as => ?_⟩
    · rw [restart_active c s csrs]
      split
      · rfl
      · rw [initial_active_rest c csrs (by omega),h.active j (by omega) hj]
    · rw [restart_map,initial_map]
      split
      · rfl
      · exact h.map k (by omega) hk
    · exact (pmuMachine_bisimilar c).answers_eq (restart_sameTables h hi) as

/-- The count of code 20 is one, and a restart, an occurrence and a match later reads as two. -/
def counts20 (s : PmuState .rv64) : Bool :=
  decide (s.fwEventMap 20=⟨1,true⟩) && decide (((pmuMachine fullPmu).answers s
    [.restart,.occur 20,cfgMatchCall 32 0 0xf0014,fwReadCall 32]).getLast?=some (some [(0,some 2)]))

/-- `SBI_PMU_FW_HFENCE_VVMA_ASID_SENT` is counted once before the hart stops, and goes on counting
after it has started again. -/
theorem fwEvent20_survives : ∃ t s,
    Machine.Run (pmuMachine fullPmu) Machine.anyStep (.initial fullPmu fun _ => 0) t s ∧
    ¬LikeFirstBoot fullPmu (sbiPmuInit fullPmu (sbiPmuExit fullPmu s)) ∧ counts20 s=true := by
  have hreplay : ((pmuMachine fullPmu).replay (fun _ _ _ => true) (.initial fullPmu fun _ => 0)
      [cfgMatchCall 32 6 0xf0014,.occur 20]).any (fun r => counts20 r.1)=true := by
    decide +kernel
  obtain ⟨s,t,hrun,hp⟩ := Machine.exists_run (p := fun s _ => counts20 s) hreplay
  refine ⟨t,s,hrun.mono fun _ _ _ _ => trivial,fun h => ?_,hp⟩
  simp only [counts20,Bool.and_eq_true,decide_eq_true_eq] at hp
  have hk := h.map (fun _ => 0) 20 (by decide)
  rw [restart_map,initial_map,if_neg (by decide),hp.1] at hk
  exact absurd hk (by decide)

end OpenSBI
