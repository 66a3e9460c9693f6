import OpenSBI.Pmu.Effect

namespace OpenSBI

open Framework

variable {x : Xlen} {c : PmuConfig x} {s s' : PmuState x}

/-- The counter and event with which `skip_match` stays inside `fw_event_map` and among the counter
registers. -/
structure SkipInBounds (ctrIdx : Nat) (flags eventIdx : Word x) : Prop where
  clear : getCidxType eventIdx=SBI_PMU_EVENT_TYPE_HW →
    hasFlag flags SBI_PMU_CFG_FLAG_CLEAR_VALUE=true → HwCtr ctrIdx
  code : getCidxType eventIdx=SBI_PMU_EVENT_TYPE_FW → getCidxCode eventIdx<SBI_PMU_FW_EVENT_MAX

/-- What `skip_match` makes of its firmware event. -/
def configFw (flags : Word x) (e : PmuFwEvent x) : PmuFwEvent x :=
  ⟨if hasFlag flags SBI_PMU_CFG_FLAG_CLEAR_VALUE then 0 else e.currCount,
    hasFlag flags SBI_PMU_CFG_FLAG_AUTO_START || e.bStarted⟩

/-- `fw_event_map` behind `skip_match`. -/
def PmuState.configMap (s : PmuState x) (flags eventIdx : Word x) : Nat → PmuFwEvent x :=
  if getCidxType eventIdx=SBI_PMU_EVENT_TYPE_FW then
    Function.update s.fwEventMap (getCidxCode eventIdx)
      (configFw flags (s.fwEventMap (getCidxCode eventIdx)))
  else s.fwEventMap

theorem hw_ne_fw : SBI_PMU_EVENT_TYPE_HW≠SBI_PMU_EVENT_TYPE_FW := by decide

theorem pmuCtrSkipMatch_some (c : PmuConfig x) (s : PmuState x) {i : Nat} {flags eventIdx : Word x}
    (h : SkipInBounds i flags eventIdx) :
    ∃ s',pmuCtrSkipMatch c s i flags eventIdx=some (s',(i : Int)) ∧
      s'.activeEvents=s.activeEvents ∧ s'.fwEventMap=s.configMap flags eventIdx := by
  rw [pmuCtrSkipMatch]
  by_cases hw : getCidxType eventIdx=SBI_PMU_EVENT_TYPE_HW
  · have hclear : CsrsOnly s (if hasFlag flags SBI_PMU_CFG_FLAG_CLEAR_VALUE=true then
        pmuCtrWriteHw s i 0 else some s) := by
      split_ifs with hc
      · exact pmuCtrWriteHw_csrs s 0 (h.clear hw hc).1 (h.clear hw hc).2
      · exact .refl s
    obtain ⟨csrs1,h1⟩ := hclear
    have hstart : CsrsOnly { s with csrs := csrs1 }
        (if hasFlag flags SBI_PMU_CFG_FLAG_AUTO_START=true then
          (pmuCtrStartHw c { s with csrs := csrs1 } i 0 false).map Prod.fst
        else some { s with csrs := csrs1 }) := by
      split_ifs
      · obtain ⟨csrs2,ret,h2⟩ := pmuCtrStartHw_csrs c { s with csrs := csrs1 } i 0 false
        exact ⟨csrs2,by rw [h2]; rfl⟩
      · exact .refl _
    obtain ⟨csrs2,h2⟩ := hstart
    rw [if_pos hw,h1]
    refine ⟨{ s with csrs := csrs2 },?_,rfl,?_⟩
    · dsimp only [Option.bind_eq_bind,Option.bind_some]
      rw [h2]
      rfl
    · rw [PmuState.configMap,if_neg (hw ▸ hw_ne_fw)]
  · rw [if_neg hw]
    by_cases ht : getCidxType eventIdx=SBI_PMU_EVENT_TYPE_FW
    · have hk := h.code ht
      refine ⟨{ s with fwEventMap := s.configMap flags eventIdx },?_,rfl,rfl⟩
      simp [ht,PmuState.fwEvent,PmuState.setFwEvent,hk,PmuState.configMap,configFw]
    · exact ⟨s,by rw [if_neg ht],rfl,by rw [PmuState.configMap,if_neg ht]⟩

theorem pmuCtrSkipMatch_none (c : PmuConfig x) (s : PmuState x) {i : Nat} {flags eventIdx : Word x}
    (hi : i<SBI_PMU_CTR_MAX) (h : ¬SkipInBounds i flags eventIdx) :
    pmuCtrSkipMatch c s i flags eventIdx=none := by
  rw [pmuCtrSkipMatch]
  by_cases hw : getCidxType eventIdx=SBI_PMU_EVENT_TYPE_HW
  · have hc : hasFlag flags SBI_PMU_CFG_FLAG_CLEAR_VALUE=true ∧ ¬HwCtr i := by
      by_contra hn
      push Not at hn
      exact h ⟨fun _ => hn,fun ht => absurd (hw.symm.trans ht) hw_ne_fw⟩
    have hnone : pmuCtrWriteHw s i 0=none := by
      rw [← Option.not_isSome_iff_eq_none,pmuCtrWriteHw_isSome_iff s 0 hi]
      exact hc.2
    rw [if_pos hw,if_pos hc.1,hnone]
    rfl
  · have ht : getCidxType eventIdx=SBI_PMU_EVENT_TYPE_FW ∧
        ¬getCidxCode eventIdx<SBI_PMU_FW_EVENT_MAX := by
      by_contra hn
      push Not at hn
      exact h ⟨fun hw' => absurd hw' hw,hn⟩
    rw [if_neg hw,if_pos ht.1]
    simp [PmuState.fwEvent,ht.2]

/-- The arguments of a `COUNTER_CFG_MATCH` with which it stays inside the arrays and among the counter
registers. -/
def CfgInBounds (c : PmuConfig x) (s : PmuState x) (cidxBase cidxMask flags eventIdx : Word x) :
    Prop :=
  fls (Word.shl cidxMask cidxBase.toNat)<c.totalCtrs →
    if hasFlag flags SBI_PMU_CFG_FLAG_SKIP_MATCH=true then
      cidxBase.toNat<SBI_PMU_CTR_MAX ∧
      (s.activeEvents cidxBase.toNat≠SBI_PMU_EVENT_IDX_INVALID →
        SkipInBounds cidxBase.toNat flags eventIdx)
    else getCidxType eventIdx=SBI_PMU_EVENT_TYPE_FW →
      (∃ i<c.totalCtrs,s.freeFwCtr c cidxBase cidxMask i=true) →
      getCidxCode eventIdx<SBI_PMU_FW_EVENT_MAX

/-- What a `COUNTER_CFG_MATCH` does. -/
inductive CfgOutcome (c : PmuConfig x) (s : PmuState x) (cidxBase cidxMask flags eventIdx : Word x)
    (s' : PmuState x) : Int → Prop where
  | failed (ret : Int) (hret : ret < 0) (hact : s'.activeEvents=s.activeEvents)
      (hmap : s'.fwEventMap=s.fwEventMap) : CfgOutcome c s cidxBase cidxMask flags eventIdx s' ret
  | skipped (hfls : fls (Word.shl cidxMask cidxBase.toNat)<c.totalCtrs)
      (hskip : hasFlag flags SBI_PMU_CFG_FLAG_SKIP_MATCH=true)
      (hentry : s.activeEvents cidxBase.toNat≠SBI_PMU_EVENT_IDX_INVALID)
      (hin : SkipInBounds cidxBase.toNat flags eventIdx) (hact : s'.activeEvents=s.activeEvents)
      (hmap : s'.fwEventMap=s.configMap flags eventIdx) :
      CfgOutcome c s cidxBase cidxMask flags eventIdx s' cidxBase.toNat
  | matched (i : Nat) (hfls : fls (Word.shl cidxMask cidxBase.toNat)<c.totalCtrs)
      (hskip : hasFlag flags SBI_PMU_CFG_FLAG_SKIP_MATCH=false)
      (hfw : getCidxType eventIdx=SBI_PMU_EVENT_TYPE_FW →
        (List.range c.totalCtrs).find? (s.freeFwCtr c cidxBase cidxMask)=some i)
      (hhw : getCidxType eventIdx≠SBI_PMU_EVENT_TYPE_FW → HwCtr i)
      (hin : SkipInBounds i flags eventIdx)
      (hact : s'.activeEvents=Function.update s.activeEvents i (toU32 eventIdx))
      (hmap : s'.fwEventMap=s.configMap flags eventIdx) :
      CfgOutcome c s cidxBase cidxMask flags eventIdx s' i

/-- `sbi_pmu_ctr_cfg_match()` leaves the arrays or calls for an unknown register exactly with the
other arguments. -/
theorem sbiPmuCtrCfgMatch_cases (c : PmuConfig x) (s : PmuState x)
    (cidxBase cidxMask flags eventIdx : Word x) (data : BitVec 64) :
    (CfgInBounds c s cidxBase cidxMask flags eventIdx ∧
      ∃ s' ret,sbiPmuCtrCfgMatch c s cidxBase cidxMask flags eventIdx data=some (s',ret) ∧
        CfgOutcome c s cidxBase cidxMask flags eventIdx s' ret) ∨
    (¬CfgInBounds c s cidxBase cidxMask flags eventIdx ∧
      sbiPmuCtrCfgMatch c s cidxBase cidxMask flags eventIdx data=none) := by
  have ht := Nat.not_le.mpr (getCidxType_lt eventIdx)
  simp only [sbiPmuCtrCfgMatch,CfgInBounds,ht,or_false]
  by_cases hfls : c.totalCtrs≤fls (Word.shl cidxMask cidxBase.toNat)
  · exact .inl ⟨fun h => absurd hfls (Nat.not_le.mpr h),s,_,if_pos hfls,
      .failed _ (by decide) rfl rfl⟩
  rw [if_neg hfls]
  simp only [Nat.not_le.mp hfls,true_imp_iff]
  by_cases hskip : hasFlag flags SBI_PMU_CFG_FLAG_SKIP_MATCH=true
  · rw [if_pos hskip,if_pos hskip]
    by_cases hb : cidxBase.toNat<SBI_PMU_CTR_MAX
    · simp only [PmuState.activeEvent,hb,if_true,Option.bind_eq_bind,Option.bind_some,true_and]
      by_cases hinv : s.activeEvents cidxBase.toNat=SBI_PMU_EVENT_IDX_INVALID
      · exact .inl ⟨fun h => absurd hinv h,s,_,if_pos hinv,.failed _ (by decide) rfl rfl⟩
      rw [if_neg hinv]
      by_cases hin : SkipInBounds cidxBase.toNat flags eventIdx
      · obtain ⟨s',h,hact,hmap⟩ := pmuCtrSkipMatch_some c s hin
        exact .inl ⟨fun _ => hin,s',_,h,.skipped (Nat.not_le.mp hfls) hskip hinv hin hact hmap⟩
      · exact .inr ⟨fun h => hin (h hinv),pmuCtrSkipMatch_none c s hb hin⟩
    · refine .inr ⟨fun h => hb h.1,?_⟩
      simp [PmuState.activeEvent,hb]
  · rw [if_neg hskip,if_neg hskip]
    obtain ⟨s1,o,hfind,hmap1,hfw,hhw,hact1⟩ :=
      pmuCtrFind_effect c s cidxBase cidxMask flags eventIdx data
    rw [hfind]
    simp only [Option.bind_eq_bind,Option.bind_some]
    cases o with
    | none =>
      refine .inl ⟨fun hty hfree => ?_,s1,_,rfl,.failed _ (by decide) hact1 hmap1⟩
      obtain ⟨i,hi,hf⟩ := hfree
      have hnone := List.find?_eq_none.mp (hfw hty).symm i (List.mem_range.mpr hi)
      exact absurd hf hnone
    | some i =>
      have hfree : getCidxType eventIdx=SBI_PMU_EVENT_TYPE_FW →
          i<c.totalCtrs ∧ s.freeFwCtr c cidxBase cidxMask i=true := fun hty =>
        ⟨List.mem_range.mp (List.mem_of_find?_eq_some (hfw hty).symm),
          List.find?_some (hfw hty).symm⟩
      have hctr : getCidxType eventIdx≠SBI_PMU_EVENT_TYPE_FW → HwCtr i := fun hty => hhw hty i rfl
      have hi : i<SBI_PMU_CTR_MAX := by
        by_cases hty : getCidxType eventIdx=SBI_PMU_EVENT_TYPE_FW
        · exact (hfree hty).1.trans c.totalCtrs_lt
        · exact Nat.lt_of_lt_of_le (hctr hty).1 (by decide)
      by_cases hin : SkipInBounds i flags eventIdx
      · obtain ⟨s',h,hact,hmap⟩ := pmuCtrSkipMatch_some c s1 hin
        refine .inl ⟨fun hty _ => hin.code hty,s',_,h,
          .matched i (Nat.not_le.mp hfls) (by simpa using hskip) (fun hty => (hfw hty).symm) hctr hin
            (hact.trans hact1) ?_⟩
        rw [hmap,PmuState.configMap,PmuState.configMap,hmap1]
      · refine .inr ⟨fun h => hin ⟨fun hw _ => hctr (hw ▸ hw_ne_fw),fun hty => ?_⟩,
          pmuCtrSkipMatch_none c s1 hi hin⟩
        exact h hty ⟨i,hfree hty⟩

theorem event_of_matched {i : Nat} {eventIdx : Word x}
    (hact : s'.activeEvents=Function.update s.activeEvents i (toU32 eventIdx)) {j t k : Nat}
    (h : s'.event c j=some (t,k)) :
    j≠i ∧ s.event c j=some (t,k) ∨
      j=i ∧ t=getCidxType eventIdx ∧ k=getCidxCode eventIdx := by
  simp only [PmuState.event,hact] at h ⊢
  by_cases hj : j=i
  · subst hj
    rw [Function.update_self] at h
    split_ifs at h
    obtain ⟨rfl,rfl⟩ := Prod.mk.inj (Option.some.inj h)
    exact .inr ⟨rfl,getCidxType_toU32 eventIdx,getCidxCode_toU32 eventIdx⟩
  · rw [Function.update_of_ne hj] at h
    exact .inl ⟨hj,h⟩

theorem CfgOutcome.sound {cidxBase cidxMask flags eventIdx : Word x} {ret : Int}
    (h : CfgOutcome c s cidxBase cidxMask flags eventIdx s' ret) (hs : s.Sound c) : s'.Sound c := by
  cases h with
  | failed _ _ hact => exact hs.mono fun i => .inl (congrFun (PmuState.event_congr hact) i)
  | skipped _ _ _ _ hact => exact hs.mono fun i => .inl (congrFun (PmuState.event_congr hact) i)
  | matched i _ _ _ hhw hin hact =>
    intro j t k he
    rcases event_of_matched hact he with ⟨-,h⟩ | ⟨rfl,rfl,rfl⟩
    · exact hs j t k h
    · exact ⟨hin.code,hhw⟩

theorem sbiPmuCtrRead_isSome_iff (hs : s.Sound c) (i : Nat) :
    (sbiPmuCtrRead c s i).isSome=true ↔ i<SBI_PMU_CTR_MAX := by
  constructor
  · intro h
    by_contra hn
    simp [sbiPmuCtrRead,pmuCtrValidate_eq_none s (Nat.le_of_not_lt hn)] at h
  · intro hi
    simp only [sbiPmuCtrRead,pmuCtrValidate_eq s hi,Option.bind_eq_bind,Option.bind_some]
    cases he : s.event c i with
    | none => rfl
    | some e =>
      obtain ⟨t,k⟩ := e
      dsimp only
      split_ifs with ht
      · simp [PmuState.fwEvent,(hs i t k he).1 ht]
      · obtain ⟨h1,h2⟩ := (hs i t k he).2 ht
        obtain ⟨v,hv⟩ := Option.isSome_iff_exists.mp (pmuCtrReadHw_isSome s h1 h2)
        rw [hv]
        rfl

theorem sbiPmuCtrIncrFw_some (s : PmuState x) (fwId : Nat) :
    ∃ s' ret,sbiPmuCtrIncrFw s fwId=some (s',ret) ∧ s'.activeEvents=s.activeEvents := by
  rw [sbiPmuCtrIncrFw]
  split_ifs with h
  · exact ⟨s,_,rfl,rfl⟩
  have hk : fwId<SBI_PMU_FW_EVENT_MAX := (Nat.not_le.mp h).trans (by decide)
  simp only [PmuState.fwEvent,PmuState.setFwEvent,hk,if_true,Option.bind_eq_bind,Option.bind_some]
  split_ifs
  · exact ⟨_,_,rfl,rfl⟩
  · exact ⟨s,_,rfl,rfl⟩

/-- After a start of the hart only the fixed counters count something. -/
theorem sbiPmuInit_event {j t k : Nat} (h : (sbiPmuInit c s).event c j=some (t,k)) :
    t=SBI_PMU_EVENT_TYPE_HW ∧ (j=0 ∨ j=2) := by
  have h0 : (sbiPmuInit c s).activeEvents 0=fixedEvent SBI_PMU_HW_CPU_CYCLES := rfl
  have h1 : (sbiPmuInit c s).activeEvents 1=SBI_PMU_EVENT_IDX_INVALID := rfl
  have h2 : (sbiPmuInit c s).activeEvents 2=fixedEvent SBI_PMU_HW_INSTRUCTIONS := rfl
  have hcase : j=0 ∨ j=1 ∨ j=2 ∨ 3≤j := by omega
  rw [PmuState.event] at h
  rcases hcase with rfl | rfl | rfl | h3
  · rw [h0] at h
    split_ifs at h
    exact ⟨(congrArg Prod.fst (Option.some.inj h)).symm,.inl rfl⟩
  · simp [h1] at h
  · rw [h2] at h
    split_ifs at h
    exact ⟨(congrArg Prod.fst (Option.some.inj h)).symm,.inr rfl⟩
  · split_ifs at h with hn
    push Not at hn
    have hj : (sbiPmuInit c s).activeEvents j=SBI_PMU_EVENT_IDX_INVALID := by
      have hne : j≠0 ∧ j≠1 ∧ j≠2 := by omega
      simp [sbiPmuInit,pmuResetEventMap,hne,h3,hn.1]
    exact absurd hj hn.2

theorem sbiPmuInit_sound (c : PmuConfig x) (s : PmuState x) : (sbiPmuInit c s).Sound c := by
  intro j t k h
  obtain ⟨rfl,hj⟩ := sbiPmuInit_event h
  refine ⟨fun ht => absurd ht hw_ne_fw,fun _ => ?_⟩
  rcases hj with rfl | rfl
  · exact ⟨by decide,by decide⟩
  · exact ⟨by decide,by decide⟩

/-- The actions that stay inside the arrays and among the counter registers. -/
def PmuAction.InBounds (c : PmuConfig x) (s : PmuState x) : PmuAction x → Prop
  | .ecall _ funcid regs =>
      (funcid.toNat=2 → CfgInBounds c s regs.a0 regs.a1 regs.a2 regs.a3) ∧
      (funcid.toNat=5 → (toU32 regs.a0).toNat<SBI_PMU_CTR_MAX)
  | _ => True

theorem sbiEcallPmuHandler_cases (hs : s.Sound c) (behind funcid : Word x) (regs : PmuRegs x) :
    ((sbiEcallPmuHandler c s behind funcid regs).isSome=true ↔
      (PmuAction.ecall behind funcid regs).InBounds c s) ∧
    ∀ r,sbiEcallPmuHandler c s behind funcid regs=some r → r.1.Sound c := by
  simp only [PmuAction.InBounds,sbiEcallPmuHandler]
  split
  next h => simp [h,hs]
  next h => simp [h,hs]
  next h =>
    rcases sbiPmuCtrCfgMatch_cases c s regs.a0 regs.a1 regs.a2 regs.a3
      (uint64Arg regs.a4 regs.a5) with ⟨hin,s',ret,he,hout⟩ | ⟨hout,he⟩
    · simp [h,he,hin,hout.sound hs]
    · simp [h,he,hout]
  next h =>
    obtain ⟨s',ret,he,heff⟩ := sbiPmuCtrStart_effect hs behind regs.a0 regs.a1 regs.a2
      (uint64Arg regs.a3 regs.a4)
    simp [h,he,heff.sound hs]
  next h =>
    obtain ⟨s',ret,he,heff⟩ := sbiPmuCtrStop_effect hs behind regs.a0 regs.a1 regs.a2
    simp [h,he,heff.sound hs]
  next h =>
    constructor
    · rw [← sbiPmuCtrRead_isSome_iff hs]
      cases sbiPmuCtrRead c s (toU32 regs.a0).toNat <;> simp [h]
    · intro r hr
      cases he : sbiPmuCtrRead c s (toU32 regs.a0).toNat with
      | none => simp [he] at hr
      | some v =>
        simp only [he,Option.bind_eq_bind,Option.bind_some,Option.some.injEq] at hr
        exact hr ▸ hs
  next _ _ h2 _ _ h5 =>
    have hne : funcid.toNat≠2 ∧ funcid.toNat≠5 := ⟨h2,h5⟩
    simp [hne,hs]

/-- One step stays inside the arrays exactly when its action is one that does, and keeps the
invariant. -/
theorem pmuStep_cases (hs : s.Sound c) (a : PmuAction x) :
    ((pmuStep c s a).isSome=true ↔ a.InBounds c s) ∧
    ∀ r,pmuStep c s a=some r → r.1.Sound c := by
  cases a with
  | ecall behind funcid regs => exact sbiEcallPmuHandler_cases hs behind funcid regs
  | occur fwId =>
    obtain ⟨s',ret,he,hact⟩ := sbiPmuCtrIncrFw_some s fwId
    have hs' : s'.Sound c := hs.mono fun i => .inl (congrFun (PmuState.event_congr hact) i)
    simp [pmuStep,he,PmuAction.InBounds,hs']
  | hardware csrs =>
    have hs' : { s with csrs := csrs }.Sound c := hs
    simp [pmuStep,PmuAction.InBounds,hs']
  | restart => simp [pmuStep,PmuAction.InBounds,sbiPmuInit_sound]

theorem pmuMachine_sound (c : PmuConfig x) (csrs : Csrs x) {t : List (PmuReturn x)}
    {s : PmuState x} (h : Machine.Run (pmuMachine c) Machine.anyStep (.initial c csrs) t s) :
    s.Sound c := by
  refine h.invariant (P := fun s => s.Sound c) (fun s a s' ev hs hstep _ => ?_)
    (sbiPmuInit_sound c _)
  obtain ⟨r,hr,he⟩ := Option.map_eq_some_iff.mp hstep
  obtain ⟨rfl,-⟩ := Prod.mk.inj he
  exact (pmuStep_cases hs a).2 r hr

/-- In every state reached, an action uses an index outside `active_events` or `fw_event_map`, or a
number of no counter register, exactly when it is a read of a counter from `SBI_PMU_CTR_MAX` on, or
a `COUNTER_CFG_MATCH` with such a base, firmware event code or cleared counter. -/
theorem pmuMachine_inBounds_iff (c : PmuConfig x) (csrs : Csrs x) {t : List (PmuReturn x)}
    {s : PmuState x} (h : Machine.Run (pmuMachine c) Machine.anyStep (.initial c csrs) t s)
    (a : PmuAction x) : ((pmuMachine c).step s a).isSome=true ↔ a.InBounds c s := by
  rw [← (pmuStep_cases (pmuMachine_sound c csrs h) a).1]
  show (Option.map _ (pmuStep c s a)).isSome=true ↔ _
  rw [Option.isSome_map]

/-- A hart with all its counters. -/
def fullPmu : PmuConfig .rv64 where
  mhpmCount := 29
  mhpmCount_le := by decide
  mhpmBits := 64
  hasMcountinhibit := true
  hasSscofpmf := true
  hwEventMap := []
  xlateToMhpmevent _ _ := 0

/-- `COUNTER_CFG_MATCH` on one counter. -/
def cfgMatchCall (base flags eventIdx : Nat) : PmuAction .rv64 :=
  .ecall 0 2 ⟨BitVec.ofNat 64 base,1,BitVec.ofNat 64 flags,BitVec.ofNat 64 eventIdx,0,0⟩

/-- `COUNTER_FW_READ`. -/
def fwReadCall (cidx : Nat) : PmuAction .rv64 := .ecall 0 5 ⟨BitVec.ofNat 64 cidx,0,0,0,0,0⟩

/-- Counter 32 is configured for `SBI_PMU_FW_SET_TIMER`, then read. -/
theorem fwRead_inBounds : ∃ t s,
    Machine.Run (pmuMachine fullPmu) Machine.anyStep (.initial fullPmu fun _ => 0) t s ∧
    (((pmuMachine fullPmu).step s (fwReadCall 32)).isSome=true ↔
      (fwReadCall 32).InBounds fullPmu s) := by
  have hstep : ((pmuMachine fullPmu).step (.initial fullPmu fun _ => 0)
      (cfgMatchCall 32 6 0xf0005)).isSome=true := by decide +kernel
  obtain ⟨r,hr⟩ := Option.isSome_iff_exists.mp hstep
  have hrun : Machine.Run (pmuMachine fullPmu) Machine.anyStep (.initial fullPmu fun _ => 0)
      r.2 r.1 := .single hr trivial
  exact ⟨r.2,r.1,hrun,pmuMachine_inBounds_iff fullPmu (fun _ => 0) hrun (fwReadCall 32)⟩

/-- With counter 32 configured for `SBI_PMU_FW_SET_TIMER`: a read of counter 48, a match of counter 64
that skips the search, a match of a firmware event with code 32, and a match of counter 32 for a
hardware event that skips the search and clears the counter. -/
theorem pmuCalls_outOfBounds : ∃ t s,
    Machine.Run (pmuMachine fullPmu) Machine.anyStep (.initial fullPmu fun _ => 0) t s ∧
    (pmuMachine fullPmu).step s (fwReadCall 48)=none ∧
    (pmuMachine fullPmu).step s (cfgMatchCall 64 1 0xf0005)=none ∧
    (pmuMachine fullPmu).step s (cfgMatchCall 33 0 0xf0020)=none ∧
    (pmuMachine fullPmu).step s (cfgMatchCall 32 3 3)=none := by
  have hreplay : ((pmuMachine fullPmu).replay (fun _ _ _ => true) (.initial fullPmu fun _ => 0)
      [cfgMatchCall 32 6 0xf0005]).any (fun r => [fwReadCall 48,cfgMatchCall 64 1 0xf0005,
        cfgMatchCall 33 0 0xf0020,cfgMatchCall 32 3 3].all fun a =>
          ((pmuMachine fullPmu).step r.1 a).isNone)=true := by
    decide +kernel
  obtain ⟨s,t,hrun,hp⟩ := Machine.exists_run (p := fun s _ => [fwReadCall 48,
    cfgMatchCall 64 1 0xf0005,cfgMatchCall 33 0 0xf0020,cfgMatchCall 32 3 3].all fun a =>
      ((pmuMachine fullPmu).step s a).isNone) hreplay
  simp only [List.all_cons,List.all_nil,Bool.and_true,Bool.and_eq_true,Option.isNone_iff_eq_none]
    at hp
  exact ⟨t,s,hrun.mono fun _ _ _ _ => trivial,hp⟩

end OpenSBI
