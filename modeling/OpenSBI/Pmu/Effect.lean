import OpenSBI.Framework.Loop
import OpenSBI.Pmu.Registers

namespace OpenSBI

open Framework

variable {x : Xlen} {c : PmuConfig x} {s s' : PmuState x}

theorem getCidxCode_eq {n : Nat} (v : BitVec n) : getCidxCode v=v.toNat%2^16 :=
  Nat.and_two_pow_sub_one_eq_mod v.toNat 16

theorem getCidxType_eq {n : Nat} (v : BitVec n) : getCidxType v=v.toNat/2^16%2^4 := by
  have h : SBI_PMU_EVENT_IDX_TYPE_MASK >>> 16=2^4-1 := rfl
  rw [getCidxType,Nat.shiftRight_and_distrib,h,Nat.and_two_pow_sub_one_eq_mod,
    Nat.shiftRight_eq_div_pow]

theorem getCidxType_lt {n : Nat} (v : BitVec n) : getCidxType v<SBI_PMU_EVENT_TYPE_MAX := by
  rw [getCidxType_eq]
  exact Nat.mod_lt _ (by decide)

theorem toNat_toU32 (v : Word x) : (toU32 v).toNat=v.toNat%2^32 := BitVec.toNat_setWidth 32 v

theorem getCidxCode_toU32 (v : Word x) : getCidxCode (toU32 v)=getCidxCode v := by
  rw [getCidxCode_eq,getCidxCode_eq,toNat_toU32]
  omega

theorem getCidxType_toU32 (v : Word x) : getCidxType (toU32 v)=getCidxType v := by
  rw [getCidxType_eq,getCidxType_eq,toNat_toU32]
  omega

namespace PmuState

/-- The event type and code that a counter is configured for. -/
def event (c : PmuConfig x) (s : PmuState x) (cidx : Nat) : Option (Nat × Nat) :=
  if c.totalCtrs≤cidx ∨ s.activeEvents cidx=SBI_PMU_EVENT_IDX_INVALID then none
  else some (getCidxType (s.activeEvents cidx),getCidxCode (s.activeEvents cidx))

/-- The code of the firmware event that a counter is configured for. -/
def fwEventOf (c : PmuConfig x) (s : PmuState x) (cidx : Nat) : Option Nat :=
  (s.event c cidx).bind fun e => if e.1=SBI_PMU_EVENT_TYPE_FW then some e.2 else none

theorem event_congr (h : s'.activeEvents=s.activeEvents) : s'.event c=s.event c := by
  funext i
  simp only [event,h]

theorem event_eq_none (cidx : Nat) (h : c.totalCtrs≤cidx) : s.event c cidx=none := by
  simp [event,h]

theorem fwEventOf_eq_some {i k : Nat} :
    s.fwEventOf c i=some k ↔ s.event c i=some (SBI_PMU_EVENT_TYPE_FW,k) := by
  simp only [fwEventOf,Option.bind_eq_some_iff,Prod.exists]
  constructor
  · rintro ⟨t,k',he,hk⟩
    split_ifs at hk with ht
    obtain rfl := Option.some.inj hk
    rw [he,ht]
  · intro h
    exact ⟨_,_,h,by simp⟩

end PmuState

theorem pmuCtrValidate_eq (s : PmuState x) {i : Nat} (h : i<SBI_PMU_CTR_MAX) :
    pmuCtrValidate c s i=some (s.event c i) := by
  have ht := Nat.not_le.mpr (getCidxType_lt (s.activeEvents i))
  simp only [pmuCtrValidate,PmuState.activeEvent,if_pos h,Option.bind_eq_bind,Option.bind_some,
    PmuState.event,if_neg ht]
  split_ifs <;> rfl

theorem pmuCtrValidate_eq_none (s : PmuState x) {i : Nat} (h : SBI_PMU_CTR_MAX ≤ i) :
    pmuCtrValidate c s i=none := by
  simp [pmuCtrValidate,PmuState.activeEvent,Nat.not_lt.mpr h]

/-- A counter of a firmware event has a code inside `fw_event_map`, any other configured counter has
counter registers. -/
def PmuState.Sound (c : PmuConfig x) (s : PmuState x) : Prop :=
  ∀ i t k,s.event c i=some (t,k) →
    (t=SBI_PMU_EVENT_TYPE_FW → k<SBI_PMU_FW_EVENT_MAX) ∧
    (t≠SBI_PMU_EVENT_TYPE_FW → i<SBI_PMU_HW_CTR_MAX ∧ i≠1)

theorem PmuState.Sound.mono (h : s.Sound c)
    (hev : ∀ i,s'.event c i=s.event c i ∨ s'.event c i=none) : s'.Sound c := by
  intro i t k he
  rcases hev i with h1 | h1
  · exact h i t k (h1 ▸ he)
  · rw [h1] at he; cases he


/-- `fw_event_map` with the events of the counters of a list changed by `f`. -/
def PmuState.onFwEvents (c : PmuConfig x) (s : PmuState x) (l : List Nat)
    (f : PmuFwEvent x → PmuFwEvent x) (k : Nat) : PmuFwEvent x :=
  if ∃ i∈l,s.fwEventOf c i=some k then f (s.fwEventMap k) else s.fwEventMap k

/-- What starting or stopping the counters of a list does: it changes their firmware events by `f`,
and with `reset` they count no event any more. -/
structure Effect (c : PmuConfig x) (s s' : PmuState x) (reset : Bool) (l : List Nat)
    (f : PmuFwEvent x → PmuFwEvent x) : Prop where
  event : ∀ j,s'.event c j=if reset=true ∧ j∈l then none else s.event c j
  map : s'.fwEventMap=s.onFwEvents c l f

namespace Effect

variable {reset : Bool} {l : List Nat} {f : PmuFwEvent x → PmuFwEvent x}

theorem refl (c : PmuConfig x) (s : PmuState x) (reset : Bool) (f : PmuFwEvent x → PmuFwEvent x) :
    Effect c s s reset [] f where
  event j := by simp
  map := by
    funext k
    simp [PmuState.onFwEvents]

theorem sound (h : Effect c s s' reset l f) (hs : s.Sound c) : s'.Sound c := by
  apply hs.mono
  intro i
  rw [h.event]
  split_ifs
  · exact .inr rfl
  · exact .inl rfl

theorem fwEventOf_eq (h : Effect c s s' reset l f) (i : Nat) :
    s'.fwEventOf c i=if reset=true ∧ i∈l then none else s.fwEventOf c i := by
  simp only [PmuState.fwEventOf,h.event]
  split_ifs <;> rfl

/-- One more counter behind those done. -/
theorem snoc {s1 s2 : PmuState x} {i : Nat} (hf : ∀ e,f (f e)=f e)
    (h : Effect c s s1 reset l f) (h1 : Effect c s1 s2 reset [i] f) :
    Effect c s s2 reset (l++[i]) f where
  event j := by
    rw [h1.event,h.event]
    by_cases hr : reset=true
    · by_cases hj : j=i <;> by_cases hl : j∈l <;> simp [hr,hj,hl]
    · simp [hr]
  map := by
    funext k
    have hone : (∃ j∈[i],s1.fwEventOf c j=some k) ↔
        ¬(reset=true ∧ i∈l) ∧ s.fwEventOf c i=some k := by
      simp only [List.mem_singleton,exists_eq_left,h.fwEventOf_eq]
      split_ifs with hr <;> simp [hr]
    have hall : (∃ j∈l++[i],s.fwEventOf c j=some k) ↔
        (∃ j∈l,s.fwEventOf c j=some k) ∨ s.fwEventOf c i=some k := by
      simp only [List.mem_append,List.mem_singleton,or_and_right,exists_or,exists_eq_left]
    rw [h1.map,PmuState.onFwEvents,h.map]
    simp only [PmuState.onFwEvents,hone,hall]
    by_cases hl : ∃ j∈l,s.fwEventOf c j=some k
    · simp [hl,hf]
    · have hi : s.fwEventOf c i=some k → i∉l := fun hk hmem => hl ⟨i,hmem,hk⟩
      by_cases hk : s.fwEventOf c i=some k
      · simp [hl,hk,hi hk]
      · simp [hl,hk]

/-- The rule of the two loops over counters. -/
theorem foldlM {g : PmuState x × Int → Nat → Option (PmuState x × Int)} (hf : ∀ e,f (f e)=f e)
    (hg : ∀ (r : PmuState x × Int) i,r.1.Sound c → i<SBI_PMU_CTR_MAX → ∃ r',g r i=some r' ∧
      Effect c r.1 r'.1 reset [i] f)
    (hl : ∀ i∈l,i<SBI_PMU_CTR_MAX) (hs : s.Sound c) (ret : Int) :
    ∃ r',l.foldlM g (s,ret)=some r' ∧ Effect c s r'.1 reset l f := by
  refine foldlM_rule (fun done (r : PmuState x × Int) => Effect c s r.1 reset done f)
    (fun done i r hi hr => ?_) (.refl c s reset f)
  obtain ⟨r',hr',he⟩ := hg r i (hr.sound hs) (hl i hi)
  exact ⟨r',hr',hr.snoc hf he⟩

end Effect

/-- What `pmu_ctr_start_fw()` makes of its event. -/
def startFw (ival : BitVec 64) (ivalUpdate : Bool) (e : PmuFwEvent x) : PmuFwEvent x :=
  ⟨if ivalUpdate then ival.setWidth _ else e.currCount,true⟩

/-- What `pmu_ctr_stop_fw()` makes of its event. -/
def stopFw (e : PmuFwEvent x) : PmuFwEvent x := ⟨e.currCount,false⟩

theorem startFw_startFw (ival : BitVec 64) (upd : Bool) (e : PmuFwEvent x) :
    startFw ival upd (startFw ival upd e)=startFw ival upd e := by
  cases upd <;> rfl

theorem stopFw_stopFw (e : PmuFwEvent x) : stopFw (stopFw e)=stopFw e := rfl

/-- A counter of a firmware event changes that event. -/
theorem Effect.of_fwEvent {i k : Nat} {f : PmuFwEvent x → PmuFwEvent x}
    (h : s.event c i=some (SBI_PMU_EVENT_TYPE_FW,k)) (hact : s'.activeEvents=s.activeEvents)
    (hmap : s'.fwEventMap=Function.update s.fwEventMap k (f (s.fwEventMap k))) :
    Effect c s s' false [i] f where
  event j := by simp [PmuState.event_congr hact]
  map := by
    funext j
    have hk := PmuState.fwEventOf_eq_some.mpr h
    simp only [hmap,PmuState.onFwEvents,List.mem_singleton,exists_eq_left,hk,Option.some.injEq]
    by_cases hj : k=j
    · subst hj; simp
    · simp [hj,Function.update_of_ne (Ne.symm hj)]

/-- A counter that counts no firmware event changes none. -/
theorem Effect.of_other {i : Nat} {f : PmuFwEvent x → PmuFwEvent x}
    (h : s.fwEventOf c i=none) (hact : s'.activeEvents=s.activeEvents)
    (hmap : s'.fwEventMap=s.fwEventMap) : Effect c s s' false [i] f where
  event j := by simp [PmuState.event_congr hact]
  map := by
    funext j
    simp [hmap,PmuState.onFwEvents,h]

theorem fwEventOf_none {i : Nat} (h : s.event c i=none) : s.fwEventOf c i=none := by
  rw [PmuState.fwEventOf,h]
  rfl

theorem fwEventOf_hw {i t k : Nat} (h : s.event c i=some (t,k)) (ht : t≠SBI_PMU_EVENT_TYPE_FW) :
    s.fwEventOf c i=none := by
  simp [PmuState.fwEventOf,h,ht]

theorem pmuCtrStartFw_eq (s : PmuState x) {k : Nat} (ival : BitVec 64) (upd : Bool)
    (hk : k<SBI_PMU_FW_EVENT_MAX) : pmuCtrStartFw s k ival upd=
      some ({ s with fwEventMap := Function.update s.fwEventMap k
                       (startFw ival upd (s.fwEventMap k)) },0) := by
  simp [pmuCtrStartFw,PmuState.fwEvent,PmuState.setFwEvent,hk,startFw]

theorem pmuCtrStopFw_eq (s : PmuState x) {k : Nat} (hk : k<SBI_PMU_FW_EVENT_MAX) :
    pmuCtrStopFw s k=
      some ({ s with fwEventMap := Function.update s.fwEventMap k (stopFw (s.fwEventMap k)) },0) := by
  simp [pmuCtrStopFw,PmuState.fwEvent,PmuState.setFwEvent,hk,stopFw]

theorem pmuCtrStartRound_effect (c : PmuConfig x) (ival : BitVec 64) (upd : Bool)
    (r : PmuState x × Int) (i : Nat) (hs : r.1.Sound c) (hi : i<SBI_PMU_CTR_MAX) :
    ∃ r',pmuCtrStartRound c ival upd r i=some r' ∧
      Effect c r.1 r'.1 false [i] (startFw ival upd) := by
  simp only [pmuCtrStartRound,pmuCtrValidate_eq r.1 hi,Option.bind_eq_bind,Option.bind_some]
  cases he : r.1.event c i with
  | none => exact ⟨r,rfl,.of_other (fwEventOf_none he) rfl rfl⟩
  | some e =>
    obtain ⟨t,k⟩ := e
    dsimp only
    by_cases ht : t=SBI_PMU_EVENT_TYPE_FW
    · rw [if_pos ht,pmuCtrStartFw_eq r.1 ival upd ((hs i t k he).1 ht)]
      exact ⟨_,rfl,.of_fwEvent (ht ▸ he) rfl rfl⟩
    · rw [if_neg ht]
      obtain ⟨csrs,ret,hh⟩ := pmuCtrStartHw_csrs c r.1 i ival upd
      exact ⟨_,hh,.of_other (fwEventOf_hw he ht) rfl rfl⟩

theorem Effect.reset {i : Nat} {s1 : PmuState x}
    {f : PmuFwEvent x → PmuFwEvent x} (h : Effect c s s1 false [i] f)
    (hact : s'.activeEvents=Function.update s1.activeEvents i SBI_PMU_EVENT_IDX_INVALID)
    (hmap : s'.fwEventMap=s1.fwEventMap) : Effect c s s' true [i] f where
  event j := by
    have hj := h.event j
    simp only [PmuState.event,hact] at hj ⊢
    by_cases hji : j=i
    · subst hji; simp
    · simpa [hji,Function.update_of_ne] using hj
  map := hmap.trans h.map

theorem pmuCtrStopRound_effect (c : PmuConfig x) (reset : Bool)
    (r : PmuState x × Int) (i : Nat) (hs : r.1.Sound c) (hi : i<SBI_PMU_CTR_MAX) :
    ∃ r',pmuCtrStopRound c reset r i=some r' ∧ Effect c r.1 r'.1 reset [i] stopFw := by
  simp only [pmuCtrStopRound,pmuCtrValidate_eq r.1 hi,Option.bind_eq_bind,Option.bind_some]
  cases he : r.1.event c i with
  | none =>
    refine ⟨r,rfl,?_,?_⟩
    · intro j
      split_ifs with hj
      · obtain rfl := List.mem_singleton.mp hj.2
        exact he
      · rfl
    · have hsame : Effect c r.1 r.1 false [i] stopFw := .of_other (fwEventOf_none he) rfl rfl
      exact hsame.map
  | some e =>
    obtain ⟨t,k⟩ := e
    dsimp only
    have hstop : ∃ s1 ret,(if t=SBI_PMU_EVENT_TYPE_FW then pmuCtrStopFw r.1 k
        else some (pmuCtrStopHw c r.1 i))=some (s1,ret) ∧ Effect c r.1 s1 false [i] stopFw := by
      by_cases ht : t=SBI_PMU_EVENT_TYPE_FW
      · rw [if_pos ht,pmuCtrStopFw_eq r.1 ((hs i t k he).1 ht)]
        exact ⟨_,0,rfl,.of_fwEvent (ht ▸ he) rfl rfl⟩
      · rw [if_neg ht]
        obtain ⟨csrs,ret,hh⟩ := pmuCtrStopHw_csrs c r.1 i
        exact ⟨_,ret,hh,.of_other (fwEventOf_hw he ht) rfl rfl⟩
    obtain ⟨s1,ret,h1,heff⟩ := hstop
    rw [h1,Option.bind_some]
    cases reset with
    | false => exact ⟨(s1,ret),rfl,heff⟩
    | true =>
      simp only [if_true,PmuState.setActiveEvent,if_pos hi,Option.bind_some]
      obtain ⟨csrs,h2⟩ := pmuResetHwMhpmevent_csrs
        { s1 with activeEvents := Function.update s1.activeEvents i SBI_PMU_EVENT_IDX_INVALID } i
      rw [h2]
      exact ⟨_,rfl,heff.reset rfl rfl⟩

/-- The counters that a start or stop visits. -/
def visitedCtrs (c : PmuConfig x) (behind cbase cmask : Word x) : List Nat :=
  let ctrMask := Word.shl cmask cbase.toNat
  if c.totalCtrs≤fls ctrMask then []
  else setBitsFrom (bitAt ctrMask behind) cbase.toNat c.totalCtrs

theorem visitedCtrs_lt {behind cbase cmask : Word x} {i : Nat}
    (h : i∈visitedCtrs c behind cbase cmask) : i<c.totalCtrs := by
  simp only [visitedCtrs] at h
  split_ifs at h
  · cases h
  · exact (mem_setBitsFrom.mp h).1

theorem sbiPmuCtrStart_effect (hs : s.Sound c) (behind cbase cmask flags : Word x)
    (ival : BitVec 64) :
    ∃ s' ret,sbiPmuCtrStart c s behind cbase cmask flags ival=some (s',ret) ∧
      Effect c s s' false (visitedCtrs c behind cbase cmask)
        (startFw ival (hasFlag flags SBI_PMU_START_FLAG_SET_INIT_VALUE)) := by
  have hlt : ∀ i∈visitedCtrs c behind cbase cmask,i<SBI_PMU_CTR_MAX :=
    fun i hi => (visitedCtrs_lt hi).trans c.totalCtrs_lt
  simp only [sbiPmuCtrStart,visitedCtrs] at hlt ⊢
  split_ifs at hlt ⊢
  · exact ⟨s,_,rfl,.refl c s _ _⟩
  · obtain ⟨⟨s',ret⟩,h,he⟩ := Effect.foldlM (startFw_startFw ival _)
      (pmuCtrStartRound_effect c ival _) hlt hs SBI_EINVAL
    exact ⟨s',ret,h,he⟩

theorem sbiPmuCtrStop_effect (hs : s.Sound c) (behind cbase cmask flag : Word x) :
    ∃ s' ret,sbiPmuCtrStop c s behind cbase cmask flag=some (s',ret) ∧
      Effect c s s' (hasFlag flag SBI_PMU_STOP_FLAG_RESET) (visitedCtrs c behind cbase cmask)
        stopFw := by
  have hlt : ∀ i∈visitedCtrs c behind cbase cmask,i<SBI_PMU_CTR_MAX :=
    fun i hi => (visitedCtrs_lt hi).trans c.totalCtrs_lt
  simp only [sbiPmuCtrStop,visitedCtrs] at hlt ⊢
  split_ifs at hlt ⊢
  · exact ⟨s,_,rfl,.refl c s _ _⟩
  · obtain ⟨⟨s',ret⟩,h,he⟩ := Effect.foldlM stopFw_stopFw
      (pmuCtrStopRound_effect c _) hlt hs SBI_EINVAL
    exact ⟨s',ret,h,he⟩

/-- The test of `pmu_ctr_find_fw()`. -/
def PmuState.freeFwCtr (c : PmuConfig x) (s : PmuState x) (cbase cmask : Word x) (i : Nat) : Bool :=
  decide ((if cbase.toNat≤c.numHwCtrs then c.numHwCtrs+1 else (toU32 cbase).toNat) ≤ i) &&
  (decide (s.activeEvents i=SBI_PMU_EVENT_IDX_INVALID) &&
    decide (Word.bit i &&& Word.shl cmask cbase.toNat≠0))

theorem pmuCtrFindFw_eq (c : PmuConfig x) (s : PmuState x) (cbase cmask : Word x) :
    pmuCtrFindFw c s cbase cmask=
      some ((List.range c.totalCtrs).find? (s.freeFwCtr c cbase cmask)) := by
  rw [pmuCtrFindFw,findM?_eq_find? (q := fun i =>
    decide (s.activeEvents i=SBI_PMU_EVENT_IDX_INVALID) &&
      decide (Word.bit i &&& Word.shl cmask cbase.toNat≠0)),List.find?_filter]
  · simp only [Bool.decide_and,Bool.decide_eq_true]
    rfl
  · intro i hi
    have hlt := (List.mem_range.mp (List.mem_filter.mp hi).1).trans c.totalCtrs_lt
    simp [PmuState.activeEvent,hlt]

/-- What the search of `pmu_ctr_find_hw()` has found so far. -/
def FoundHw (o : Option Nat) : Prop := ∀ i,o=some i → 3 ≤ i ∧ i<SBI_PMU_HW_CTR_MAX

theorem pmuCtrFindHwBit_some (c : PmuConfig x) (s : PmuState x) {i : Nat} (h3 : 3 ≤ i)
    (hi : i<SBI_PMU_HW_CTR_MAX) {o : Option Nat} (ho : FoundHw o) :
    ∃ o',pmuCtrFindHwBit c s o i=some o' ∧ FoundHw o' := by
  have hmax : i<SBI_PMU_CTR_MAX := Nat.lt_of_lt_of_le hi (by decide)
  simp only [pmuCtrFindHwBit,PmuState.activeEvent,if_pos hmax,Option.bind_eq_bind,Option.bind_some]
  split_ifs
  · exact ⟨o,rfl,ho⟩
  · exact ⟨o,rfl,ho⟩
  · exact ⟨some i,rfl,fun j hj => Option.some.inj hj ▸ ⟨h3,hi⟩⟩

/-- The fixed counters are masked out. -/
theorem three_le_of_mask {a : Word x} {i : Nat}
    (h : (a &&& ~~~BitVec.ofNat x.bits SBI_PMU_FIXED_CTR_MASK).getLsbD i=true) : 3 ≤ i := by
  by_contra hn
  have hc : i=0 ∨ i=1 ∨ i=2 := by omega
  rw [BitVec.getLsbD_and,BitVec.getLsbD_not] at h
  rcases hc with rfl | rfl | rfl <;> cases x <;> simp [SBI_PMU_FIXED_CTR_MASK,Xlen.bits] at h

theorem pmuCtrFindHwRound_some (c : PmuConfig x) (s : PmuState x) (cmask eventIdx : Word x)
    (data : BitVec 64) (r : Nat × Option Nat) (temp : PmuHwEvent) (hr : FoundHw r.2) :
    ∃ r',pmuCtrFindHwRound c s cmask eventIdx data r temp=some r' ∧ FoundHw r'.2 := by
  simp only [pmuCtrFindHwRound]
  split_ifs
  · exact ⟨r,rfl,hr⟩
  · exact ⟨r,rfl,hr⟩
  have hloop := foldlM_rule (f := pmuCtrFindHwBit c s) (fun _ o => FoundHw o)
    (l := setBitsFrom (temp.counters.setWidth x.bits &&& Word.shl cmask r.1 &&&
      ~~~BitVec.ofNat x.bits SBI_PMU_FIXED_CTR_MASK).getLsbD r.1 SBI_PMU_HW_CTR_MAX)
    (fun _ i o hi ho => pmuCtrFindHwBit_some c s (three_le_of_mask (mem_setBitsFrom.mp hi).2.2)
      (mem_setBitsFrom.mp hi).1 ho) hr
  obtain ⟨o,ho,hinv⟩ := hloop
  rw [ho]
  exact ⟨(SBI_PMU_HW_CTR_MAX,o),rfl,hinv⟩

/-- A counter number that has counter registers. -/
def HwCtr (i : Nat) : Prop := i<SBI_PMU_HW_CTR_MAX ∧ i≠1

theorem pmuCtrFindFixedFw_hwCtr {eventIdx : Word x} {n : Nat}
    (h : pmuCtrFindFixedFw eventIdx=some n) : HwCtr n := by
  simp only [pmuCtrFindFixedFw] at h
  split_ifs at h <;> obtain rfl := Option.some.inj h
  · exact ⟨by decide,by decide⟩
  · exact ⟨by decide,by decide⟩

theorem pmuCtrFoundHw_csrs (c : PmuConfig x) (s : PmuState x) (flags eventIdx : Word x)
    (data : BitVec 64) {fixedCtr o : Option Nat} (hf : ∀ n,fixedCtr=some n → HwCtr n)
    (ho : ∀ n,o=some n → HwCtr n) :
    ∃ csrs ret,pmuCtrFoundHw c s flags eventIdx data fixedCtr o=
        some ({ s with csrs := csrs },ret) ∧ (0≤ret → HwCtr ret.toNat) := by
  cases o with
  | none =>
    refine ⟨s.csrs,_,rfl,fun hret => ?_⟩
    cases fixedCtr with
    | none => exact absurd hret (by decide)
    | some n => exact hf n rfl
  | some n =>
    obtain ⟨csrs,ret,h,hret⟩ := pmuUpdateHwMhpmevent_csrs c s n flags eventIdx data
    rw [pmuCtrFoundHw,h]
    refine ⟨csrs,_,rfl,fun hpos => ?_⟩
    rcases hret with rfl | rfl
    · exact ho n rfl
    · have hfail : ¬(0 : Int)≤SBI_EFAIL := by decide
      exact absurd hpos hfail

/-- `pmu_ctr_find_hw()` changes registers only, and finds a counter that has counter registers. -/
theorem pmuCtrFindHw_csrs (c : PmuConfig x) (s : PmuState x) (cbase cmask flags eventIdx : Word x)
    (data : BitVec 64) :
    ∃ csrs ret,pmuCtrFindHw c s cbase cmask flags eventIdx data=
        some ({ s with csrs := csrs },ret) ∧ (0≤ret → HwCtr ret.toNat) := by
  obtain ⟨⟨cb,o⟩,hl,hinv⟩ := foldlM_rule (f := pmuCtrFindHwRound c s cmask eventIdx data)
    (fun _ r => FoundHw r.2) (l := c.hwEventMap) (s := (cbase.toNat,none))
    (fun _ e r _ hr => pmuCtrFindHwRound_some c s _ _ _ r e hr) (fun i hi => by cases hi)
  have ho : ∀ n,o=some n → HwCtr n := by
    intro n hn
    obtain ⟨h3,hlt⟩ := hinv n hn
    exact ⟨hlt,by omega⟩
  rw [pmuCtrFindHw]
  split_ifs
  · exact ⟨s.csrs,_,rfl,fun h => absurd h (by decide)⟩
  split
  · next n hn _ => exact ⟨s.csrs,_,rfl,fun _ => pmuCtrFindFixedFw_hwCtr hn⟩
  · rw [hl]
    exact pmuCtrFoundHw_csrs c s flags eventIdx data (fun n => pmuCtrFindFixedFw_hwCtr) ho

/-- The search for a counter does not fail; what it finds is written to `active_events`. -/
theorem pmuCtrFind_effect (c : PmuConfig x) (s : PmuState x)
    (cbase cmask flags eventIdx : Word x) (data : BitVec 64) :
    ∃ s' o,pmuCtrFind c s cbase cmask flags eventIdx data=some (s',o) ∧
      s'.fwEventMap=s.fwEventMap ∧
      (getCidxType eventIdx=SBI_PMU_EVENT_TYPE_FW →
        o=(List.range c.totalCtrs).find? (s.freeFwCtr c cbase cmask)) ∧
      (getCidxType eventIdx≠SBI_PMU_EVENT_TYPE_FW → ∀ i,o=some i → HwCtr i) ∧
      s'.activeEvents=o.elim s.activeEvents
        (fun i => Function.update s.activeEvents i (toU32 eventIdx)) := by
  rw [pmuCtrFind]
  by_cases ht : getCidxType eventIdx=SBI_PMU_EVENT_TYPE_FW
  · rw [if_pos ht,pmuCtrFindFw_eq]
    cases ho : (List.range c.totalCtrs).find? (s.freeFwCtr c cbase cmask) with
    | none => exact ⟨s,none,rfl,rfl,fun _ => rfl,fun h => absurd ht h,rfl⟩
    | some i =>
      have hi := (List.mem_range.mp (List.mem_of_find?_eq_some ho)).trans c.totalCtrs_lt
      refine ⟨{ s with activeEvents := Function.update s.activeEvents i (toU32 eventIdx) },some i,
        ?_,rfl,fun _ => rfl,fun h => absurd ht h,rfl⟩
      simp [PmuState.setActiveEvent,hi]
  · obtain ⟨csrs,ret,h,hret⟩ := pmuCtrFindHw_csrs c s cbase cmask flags eventIdx data
    rw [if_neg ht,h]
    by_cases hneg : ret < 0
    · exact ⟨{ s with csrs := csrs },none,by simp [hneg],rfl,fun h => absurd h ht,
        (fun _ i hi => by cases hi),rfl⟩
    · have hctr := hret (not_lt.mp hneg)
      have hi : ret.toNat<SBI_PMU_CTR_MAX := Nat.lt_of_lt_of_le hctr.1 (by decide)
      refine ⟨⟨Function.update s.activeEvents ret.toNat (toU32 eventIdx),s.fwEventMap,csrs⟩,
        some ret.toNat,?_,rfl,fun h => absurd h ht,fun _ i hi => Option.some.inj hi ▸ hctr,rfl⟩
      simp [hneg,PmuState.setActiveEvent,hi]

end OpenSBI
