import OpenSBI.Pmu.Operations
import Mathlib.Tactic.Common

namespace OpenSBI

variable {x : Xlen}

/-- An operation that does not fail and changes registers only. -/
def CsrsOnly (s : PmuState x) (o : Option (PmuState x)) : Prop :=
  ∃ csrs,o=some { s with csrs := csrs }

theorem CsrsOnly.refl (s : PmuState x) : CsrsOnly s (some s) := ⟨s.csrs,rfl⟩

theorem CsrsOnly.bind {o : Option (PmuState x)} {f : PmuState x → Option (PmuState x)}
    (h : CsrsOnly s o) (hf : ∀ s1 : PmuState x,CsrsOnly s1 (f s1)) : CsrsOnly s (o.bind f) := by
  obtain ⟨csrs,rfl⟩ := h
  obtain ⟨csrs',h'⟩ := hf { s with csrs := csrs }
  exact ⟨csrs',h'⟩

theorem writeNum_known (s : PmuState x) {num : Nat} (val : Word x) (h : csrKnown x num=true) :
    CsrsOnly s (s.writeNum num val) :=
  ⟨Function.update s.csrs num val,by simp [PmuState.writeNum,csrWriteNum,h]⟩

theorem csrKnown_counter {i : Nat} (h : i<SBI_PMU_HW_CTR_MAX) (h1 : i≠1) :
    csrKnown x (CSR_MCYCLE+i)=true := by
  have hc : i=0 ∨ i=2 ∨ 3 ≤ i := by omega
  rcases hc with rfl | rfl | h3
  · simp [csrKnown,csrBlock]
  · simp [csrKnown,csrBlock,CSR_MCYCLE,CSR_MINSTRET]
  · have hlo : CSR_MHPMCOUNTER3≤CSR_MCYCLE+i := by simp only [CSR_MHPMCOUNTER3,CSR_MCYCLE]; omega
    have hhi : CSR_MCYCLE+i<CSR_MHPMCOUNTER3+29 := by
      simp only [CSR_MHPMCOUNTER3,CSR_MCYCLE,SBI_PMU_HW_CTR_MAX] at h ⊢
      omega
    simp [csrKnown,csrBlock,hlo,hhi]

theorem csrKnown_counterh {i : Nat} (h : i<SBI_PMU_HW_CTR_MAX) (h1 : i≠1) :
    csrKnown .rv32 (CSR_MCYCLEH+i)=true := by
  have hc : i=0 ∨ i=2 ∨ 3 ≤ i := by omega
  rcases hc with rfl | rfl | h3
  · simp [csrKnown,csrBlock]
  · simp [csrKnown,csrBlock,CSR_MCYCLEH,CSR_MINSTRETH]
  · have hlo : CSR_MHPMCOUNTER3H≤CSR_MCYCLEH+i := by
      simp only [CSR_MHPMCOUNTER3H,CSR_MCYCLEH]
      omega
    have hhi : CSR_MCYCLEH+i<CSR_MHPMCOUNTER3H+29 := by
      simp only [CSR_MHPMCOUNTER3H,CSR_MCYCLEH,SBI_PMU_HW_CTR_MAX] at h ⊢
      omega
    simp [csrKnown,csrBlock,hlo,hhi]

theorem csrKnown_event {i : Nat} (h3 : 3 ≤ i) (h : i<SBI_PMU_HW_CTR_MAX) :
    csrKnown x (CSR_MHPMEVENT3+i-3)=true := by
  simp only [SBI_PMU_HW_CTR_MAX] at h
  have hlo : CSR_MHPMEVENT3≤CSR_MHPMEVENT3+i-3 := by omega
  have hhi : CSR_MHPMEVENT3+i-3<CSR_MHPMEVENT3+29 := by omega
  simp [csrKnown,csrBlock,hlo,hhi]

theorem csrKnown_eventh {i : Nat} (h3 : 3 ≤ i) (h : i<SBI_PMU_HW_CTR_MAX) :
    csrKnown .rv32 (CSR_MHPMEVENT3H+i-3)=true := by
  simp only [SBI_PMU_HW_CTR_MAX] at h
  have hlo : CSR_MHPMEVENT3H≤CSR_MHPMEVENT3H+i-3 := by omega
  have hhi : CSR_MHPMEVENT3H+i-3<CSR_MHPMEVENT3H+29 := by omega
  simp [csrKnown,csrBlock,hlo,hhi]

/-- Below the end of `active_events` the register numbers of a counter that has none are unknown. -/
theorem csrKnown_counter_iff {i : Nat} (h : i<SBI_PMU_CTR_MAX) :
    csrKnown x (CSR_MCYCLE+i)=true ↔ i<SBI_PMU_HW_CTR_MAX ∧ i≠1 := by
  refine ⟨fun hk => ?_,fun hi => csrKnown_counter hi.1 hi.2⟩
  have hb : ∀ first n num,csrBlock first n num=true ↔ first≤num ∧ num<first+n := by
    intro first n num
    simp [csrBlock]
  simp only [csrKnown,Bool.or_eq_true,Bool.and_eq_true,hb,CSR_PMPCFG0,CSR_PMPADDR0,CSR_MCYCLE,
    CSR_MINSTRET,CSR_MHPMCOUNTER3,CSR_MCOUNTINHIBIT,CSR_MHPMEVENT3,CSR_MCYCLEH,CSR_MINSTRETH,
    CSR_MHPMCOUNTER3H,CSR_MHPMEVENT3H,SBI_PMU_CTR_MAX,SBI_PMU_HW_CTR_MAX,SBI_PMU_FW_CTR_MAX]
    at h hk ⊢
  omega

theorem pmuCtrWriteHw_csrs (s : PmuState x) {i : Nat} (ival : BitVec 64)
    (h : i<SBI_PMU_HW_CTR_MAX) (h1 : i≠1) : CsrsOnly s (pmuCtrWriteHw s i ival) := by
  have hk := fun v (s : PmuState x) => writeNum_known s v (csrKnown_counter (x := x) h h1)
  cases x with
  | rv32 =>
    exact (hk _ s).bind fun s1 => (hk _ s1).bind fun s2 =>
      writeNum_known s2 _ (csrKnown_counterh h h1)
  | rv64 => exact hk _ s

theorem pmuCtrWriteHw_isSome_iff (s : PmuState x) {i : Nat} (ival : BitVec 64)
    (h : i<SBI_PMU_CTR_MAX) :
    (pmuCtrWriteHw s i ival).isSome=true ↔ i<SBI_PMU_HW_CTR_MAX ∧ i≠1 := by
  constructor
  · intro hs
    by_contra hn
    have hk := mt (csrKnown_counter_iff (x := x) h).mp hn
    have hw : ∀ v,s.writeNum (CSR_MCYCLE+i) v=none := by
      intro v
      simp [PmuState.writeNum,csrWriteNum,hk]
    cases x <;> simp [pmuCtrWriteHw,hw] at hs
  · rintro ⟨h2,h1⟩
    obtain ⟨csrs,he⟩ := pmuCtrWriteHw_csrs s ival h2 h1
    rw [he]
    rfl

theorem pmuCtrReadHw_isSome (s : PmuState x) {i : Nat} (h : i<SBI_PMU_HW_CTR_MAX) (h1 : i≠1) :
    (pmuCtrReadHw s i).isSome=true := by
  have hk := csrKnown_counter (x := x) h h1
  cases x with
  | rv32 => simp [pmuCtrReadHw,csrReadNum,h1,hk,csrKnown_counterh h h1]
  | rv64 => simp [pmuCtrReadHw,csrReadNum,h1,hk]

theorem pmuCtrEnableIrqHw_csrs (s : PmuState x) (i : Nat) :
    CsrsOnly s (pmuCtrEnableIrqHw s i) := by
  rw [pmuCtrEnableIrqHw.eq_def]
  by_cases h : i<3 ∨ SBI_PMU_HW_CTR_MAX ≤ i
  · rw [if_pos h]
    exact .refl s
  rw [if_neg h]
  push Not at h
  cases x with
  | rv32 =>
    have hk := csrKnown_eventh h.1 h.2
    simp only [csrReadNum,hk,if_true,Option.bind_eq_bind,Option.bind_some]
    split_ifs
    · exact writeNum_known s _ hk
    · exact .refl s
  | rv64 =>
    have hk := csrKnown_event (x := .rv64) h.1 h.2
    simp only [csrReadNum,hk,if_true,Option.bind_eq_bind,Option.bind_some]
    split_ifs
    · exact writeNum_known s _ hk
    · exact .refl s

theorem pmuResetHwMhpmevent_csrs (s : PmuState x) (i : Nat) :
    CsrsOnly s (pmuResetHwMhpmevent s i) := by
  rw [pmuResetHwMhpmevent.eq_def]
  split_ifs with h
  · exact .refl s
  · push Not at h
    have hk := fun (s : PmuState x) => writeNum_known s 0 (csrKnown_event (x := x) h.1 h.2)
    cases x with
    | rv32 => exact (hk s).bind fun s1 => writeNum_known s1 0 (csrKnown_eventh h.1 h.2)
    | rv64 => exact hk s

/-- An operation with a result that does not fail and changes registers only. -/
def CsrsRet (s : PmuState x) (o : Option (PmuState x × Int)) : Prop :=
  ∃ csrs ret,o=some ({ s with csrs := csrs },ret)

theorem CsrsRet.same (s : PmuState x) (ret : Int) : CsrsRet s (some (s,ret)) := ⟨s.csrs,ret,rfl⟩

theorem CsrsOnly.ret {o : Option (PmuState x)} (h : CsrsOnly s o) (ret : Int) :
    CsrsRet s (o.bind fun s1 => some (s1,ret)) := by
  obtain ⟨csrs,rfl⟩ := h
  exact ⟨csrs,ret,rfl⟩

theorem pmuCtrStartHw_csrs (c : PmuConfig x) (s : PmuState x) (i : Nat) (ival : BitVec 64)
    (upd : Bool) : CsrsRet s (pmuCtrStartHw c s i ival upd) := by
  have hle := c.numHwCtrs_le
  by_cases h : c.numHwCtrs < i ∨ i=1
  · rw [pmuCtrStartHw,if_pos h]
    exact .same s _
  rw [pmuCtrStartHw,if_neg h]
  push Not at h
  have hi : i<SBI_PMU_HW_CTR_MAX := by simp only [SBI_PMU_HW_CTR_MAX]; omega
  have hw : ∀ s1 : PmuState x,
      CsrsOnly s1 (if upd=true then pmuCtrWriteHw s1 i ival else some s1) := by
    intro s1
    split_ifs
    · exact pmuCtrWriteHw_csrs s1 ival hi h.2
    · exact .refl s1
  by_cases hm : c.hasMcountinhibit=true
  · rw [if_pos hm]
    dsimp only
    by_cases ht : (s.csrs CSR_MCOUNTINHIBIT).getLsbD i=false
    · rw [if_pos ht]
      exact .same s _
    rw [if_neg ht]
    have he : CsrsOnly s (if c.hasSscofpmf=true then pmuCtrEnableIrqHw s i else some s) := by
      split_ifs
      · exact pmuCtrEnableIrqHw_csrs s i
      · exact .refl s
    obtain ⟨csrs1,h1⟩ := he
    rw [h1]
    obtain ⟨csrs2,ret,h2⟩ := (hw ({ s with csrs := csrs1 }.writeCsr CSR_MCOUNTINHIBIT
      (s.csrs CSR_MCOUNTINHIBIT &&& ~~~Word.bit i))).ret 0
    exact ⟨csrs2,ret,h2⟩
  · rw [if_neg hm]
    exact (hw s).ret 0

theorem pmuCtrStopHw_csrs (c : PmuConfig x) (s : PmuState x) (i : Nat) :
    CsrsRet s (some (pmuCtrStopHw c s i)) := by
  simp only [pmuCtrStopHw]
  split_ifs
  · exact .same s _
  · exact .same s _
  · exact ⟨_,0,rfl⟩
  · exact .same s _

theorem pmuUpdateHwMhpmevent_csrs (c : PmuConfig x) (s : PmuState x) (i : Nat)
    (flags eindex : Word x) (data : BitVec 64) :
    ∃ csrs ret,pmuUpdateHwMhpmevent c s i flags eindex data=some ({ s with csrs := csrs },ret) ∧
      (ret=0 ∨ ret=SBI_EFAIL) := by
  simp only [pmuUpdateHwMhpmevent]
  split_ifs with h
  · exact ⟨s.csrs,_,rfl,.inr rfl⟩
  push Not at h
  have hk := fun v (s : PmuState x) => writeNum_known s v (csrKnown_event (x := x) h.2.1 h.2.2)
  obtain ⟨csrs1,h1⟩ := hk _ s
  rw [h1]
  cases x with
  | rv32 =>
    obtain ⟨csrs2,h2⟩ := writeNum_known { s with csrs := csrs1 } _
      (csrKnown_eventh h.2.1 h.2.2)
    refine ⟨csrs2,0,?_,.inl rfl⟩
    dsimp only [Option.bind_eq_bind,Option.bind_some]
    rw [h2]
    rfl
  | rv64 => exact ⟨csrs1,0,rfl,.inl rfl⟩

end OpenSBI
