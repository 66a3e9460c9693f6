import OpenSBI.Pmu.Bounds

namespace OpenSBI

open Framework

variable {x : Xlen}

/-! ## The event map -/

def SBI_PMU_HW_EVENT_MAX : Nat := 64

/-- `pmu_event_range_overlap()` and `pmu_event_select_overlap()` on an entry of the map. -/
def pmuEventRangeOverlap (evtA : PmuHwEvent) (start last : Nat) : Bool :=
  !(decide (evtA.endIdx.toNat<start ∧ evtA.endIdx.toNat<last) ||
    decide (start<evtA.startIdx.toNat ∧ last<evtA.startIdx.toNat))
def pmuEventSelectOverlap (evt : PmuHwEvent) (select : BitVec 64) : Bool := evt.select==select

/-- The sanity check of a new entry against an old one. -/
def pmuEventOverlap (start last : Nat) (select : BitVec 64) (e : PmuHwEvent) : Bool :=
  if start=SBI_PMU_EVENT_RAW_IDX then pmuEventSelectOverlap e select
  else pmuEventRangeOverlap e start last

/-- `pmu_add_hw_event_map()` on the entries in use. -/
def pmuAddHwEventMap (map : List PmuHwEvent) (eidxStart eidxEnd cmap : BitVec 32) (select : BitVec 64) :
    Int×List PmuHwEvent :=
  if SBI_PMU_HW_INSTRUCTIONS<eidxStart.toNat ∧ cmap &&& BitVec.ofNat 32 SBI_PMU_FIXED_CTR_MASK≠0 then
    (SBI_EDENIED,map)
  else if SBI_PMU_HW_EVENT_MAX-1 ≤ map.length then (SBI_EFAIL,map)
  else if map.any (pmuEventOverlap eidxStart.toNat eidxEnd.toNat select) then (SBI_EINVAL,map)
  else (0,map++[⟨cmap,eidxStart,eidxEnd,select⟩])

def sbiPmuAddHwEventCounterMap (map : List PmuHwEvent) (eidxStart eidxEnd cmap : BitVec 32) :
    Int×List PmuHwEvent :=
  if eidxEnd.toNat<eidxStart.toNat ∨ eidxStart.toNat=SBI_PMU_EVENT_RAW_IDX ∨
      eidxEnd.toNat=SBI_PMU_EVENT_RAW_IDX then (SBI_EINVAL,map)
  else pmuAddHwEventMap map eidxStart eidxEnd cmap 0

def sbiPmuAddRawEventCounterMap (map : List PmuHwEvent) (select : BitVec 64) (cmap : BitVec 32) :
    Int×List PmuHwEvent :=
  pmuAddHwEventMap map (BitVec.ofNat 32 SBI_PMU_EVENT_RAW_IDX) (BitVec.ofNat 32 SBI_PMU_EVENT_RAW_IDX)
    cmap select

/-- The maps a platform can set up. -/
inductive HwEventMap : List PmuHwEvent → Prop where
  | empty : HwEventMap []
  | counters {map : List PmuHwEvent} (eidxStart eidxEnd cmap : BitVec 32) (h : HwEventMap map) :
      HwEventMap (sbiPmuAddHwEventCounterMap map eidxStart eidxEnd cmap).2
  | raw {map : List PmuHwEvent} (select : BitVec 64) (cmap : BitVec 32) (h : HwEventMap map) :
      HwEventMap (sbiPmuAddRawEventCounterMap map select cmap).2

theorem pmuAddHwEventMap_mem {map : List PmuHwEvent} {eidxStart eidxEnd cmap : BitVec 32}
    {select : BitVec 64} {e : PmuHwEvent}
    (h : e∈(pmuAddHwEventMap map eidxStart eidxEnd cmap select).2) :
    e∈map ∨ e=⟨cmap,eidxStart,eidxEnd,select⟩ := by
  unfold pmuAddHwEventMap at h
  split_ifs at h
  · exact .inl h
  · exact .inl h
  · exact .inl h
  · simpa using h

/-- Every entry of a map is a range. -/
theorem HwEventMap.range {map : List PmuHwEvent} (h : HwEventMap map) :
    ∀ e∈map,e.startIdx.toNat ≤ e.endIdx.toNat := by
  induction h with
  | empty => simp
  | counters eidxStart eidxEnd cmap _ ih =>
    intro e he
    unfold sbiPmuAddHwEventCounterMap at he
    split at he
    · exact ih e he
    next hr =>
      rcases pmuAddHwEventMap_mem he with hm | rfl
      · exact ih e hm
      · simp only [not_or,not_lt] at hr
        exact hr.1
  | raw select cmap _ ih =>
    intro e he
    rcases pmuAddHwEventMap_mem he with hm | rfl
    · exact ih e hm
    · exact le_refl _

/-! ## What a match owes -/

/-- The entry lists counter `i` for an event; a raw event is told by its data. -/
def PmuHwEvent.Lists (e : PmuHwEvent) (eventIdx : Nat) (data : BitVec 64) (i : Nat) : Prop :=
  e.startIdx.toNat ≤ eventIdx ∧ eventIdx ≤ e.endIdx.toNat ∧
    (eventIdx=SBI_PMU_EVENT_RAW_IDX → e.select=data) ∧ e.counters.getLsbD i=true

/-- Counter `i` is one of those the caller names. -/
def NamesCtr (cidxBase cidxMask : Word x) (i : Nat) : Prop :=
  ∃ k,i=cidxBase.toNat+k ∧ cidxMask.getLsbD k=true

/-- A programmable counter for a hardware event. -/
structure HwMatch (c : PmuConfig x) (s : PmuState x) (cidxBase cidxMask eventIdx : Word x)
    (data : BitVec 64) (i : Nat) : Prop where
  listed : ∃ e∈c.hwEventMap,e.Lists eventIdx.toNat data i
  named : NamesCtr cidxBase cidxMask i
  programmable : 3 ≤ i ∧ i<SBI_PMU_HW_CTR_MAX
  free : s.activeEvents i=SBI_PMU_EVENT_IDX_INVALID
  stopped : c.hasMcountinhibit=true → (s.csrs CSR_MCOUNTINHIBIT).getLsbD i=true

/-- A firmware counter for a firmware event. -/
structure FwMatch (c : PmuConfig x) (s : PmuState x) (cidxBase cidxMask : Word x) (i : Nat) : Prop where
  firmware : c.numHwCtrs < i
  named : NamesCtr cidxBase cidxMask i
  free : s.activeEvents i=SBI_PMU_EVENT_IDX_INVALID

/-- The counter a match returns. The fixed counters are for everyone. -/
def Honours (c : PmuConfig x) (s : PmuState x) (cidxBase cidxMask eventIdx : Word x)
    (data : BitVec 64) (i : Nat) : Prop :=
  i<c.totalCtrs ∧
    if getCidxType eventIdx=SBI_PMU_EVENT_TYPE_FW then FwMatch c s cidxBase cidxMask i
    else pmuCtrFindFixedFw eventIdx=some i ∨ HwMatch c s cidxBase cidxMask eventIdx data i

/-- The firmware search sees the base and the mask as they are: the base fits the `int` it is copied to,
and no named counter stands for one that lies a word's width past it. -/
def FwSearchExact (c : PmuConfig x) (cidxBase cidxMask eventIdx : Word x) : Prop :=
  getCidxType eventIdx=SBI_PMU_EVENT_TYPE_FW → cidxBase.toNat<2^32 ∧
    (cidxBase.toNat<x.bits → ∀ i,x.bits ≤ i → i<c.totalCtrs → ¬NamesCtr cidxBase cidxMask (i-x.bits))

theorem Word.shl_mod (a : Word x) (n : Nat) : Word.shl a (n%x.bits)=Word.shl a n := by
  rw [Word.shl,Word.shl,Nat.mod_mod]

theorem Word.bit_mod (n : Nat) : (Word.bit (n%x.bits) : Word x)=Word.bit n := Word.shl_mod 1 n

theorem Word.getLsbD_shl_below (a : Word x) {n i : Nat} (h : i<n) (hn : n<x.bits) :
    (Word.shl a n).getLsbD i=false := by
  rw [Word.shl,Nat.mod_eq_of_lt hn,BitVec.getLsbD_shiftLeft]
  simp [h]

section Match

variable {c : PmuConfig x} {s : PmuState x} {cidxBase cidxMask eventIdx : Word x} {data : BitVec 64}

/-- A bit of the mask the search starts from. -/
theorem namesCtr_of_shl {i : Nat} (hb : cidxBase.toNat ≤ i) (hi : i<x.bits)
    (h : (Word.shl cidxMask cidxBase.toNat).getLsbD i=true) : NamesCtr cidxBase cidxMask i := by
  rw [Word.getLsbD_shl cidxMask hb hi] at h
  exact ⟨i-cidxBase.toNat,by omega,h⟩

theorem lt_of_fls {m : Word x} {i n : Nat} (h : m.getLsbD i=true) (hf : fls m<n) : i<n := by
  have hp : 2^i ≤ m.toNat := Nat.ge_two_pow_of_testBit h
  have hne : m.toNat≠0 := fun h0 => by rw [h0] at hp; exact absurd hp (by simp)
  exact ((Nat.le_log2 hne).mpr hp).trans_lt hf

/-- What the search over the map has found so far, and where it stands. -/
structure SearchInv (c : PmuConfig x) (s : PmuState x) (cidxBase cidxMask eventIdx : Word x)
    (data : BitVec 64) (r : Nat×Option Nat) : Prop where
  base : r.1=cidxBase.toNat ∨ r.1=SBI_PMU_HW_CTR_MAX
  found : ∀ i,r.2=some i → HwMatch c s cidxBase cidxMask eventIdx data i ∧
    (Word.shl cidxMask cidxBase.toNat).getLsbD i=true

/-- One bit of an entry: a counter that is taken or runs is passed over. -/
theorem pmuCtrFindHwBit_found {i : Nat} {o o' : Option Nat}
    (h : pmuCtrFindHwBit c s o i=some o') :
    o'=o ∨ o'=some i ∧ s.activeEvents i=SBI_PMU_EVENT_IDX_INVALID ∧
      (c.hasMcountinhibit=true → (s.csrs CSR_MCOUNTINHIBIT).getLsbD i=true) := by
  unfold pmuCtrFindHwBit PmuState.activeEvent at h
  split at h
  · simp only [Option.bind_eq_bind,Option.bind_some] at h
    split_ifs at h with h1 h2
    · exact .inl (Option.some.inj h).symm
    · exact .inl (Option.some.inj h).symm
    · refine .inr ⟨(Option.some.inj h).symm,not_not.mp h1,fun hm => ?_⟩
      by_contra hb
      exact h2 ⟨hm,by simpa using hb⟩
  · cases h

theorem pmuCtrFindHwRound_inv {e : PmuHwEvent} {r r' : Nat×Option Nat} (he : e∈c.hwEventMap)
    (hrange : e.startIdx.toNat ≤ e.endIdx.toNat)
    (hr : SearchInv c s cidxBase cidxMask eventIdx data r)
    (h : pmuCtrFindHwRound c s cidxMask eventIdx data r e=some r') :
    SearchInv c s cidxBase cidxMask eventIdx data r' := by
  unfold pmuCtrFindHwRound at h
  dsimp only at h
  split_ifs at h with hout hraw
  · exact Option.some.inj h ▸ hr
  · exact Option.some.inj h ▸ hr
  obtain ⟨o,ho,hr'⟩ := Option.bind_eq_some_iff.mp h
  cases hr'
  refine ⟨.inr rfl,?_⟩
  refine foldlM_keeps (P := fun o => ∀ i,o=some i → HwMatch c s cidxBase cidxMask eventIdx data i ∧
    (Word.shl cidxMask cidxBase.toNat).getLsbD i=true) (fun i hi o o' hP hbit => ?_) hr.found ho
  rcases pmuCtrFindHwBit_found hbit with rfl | ⟨rfl,hfree,hstop⟩
  · exact hP
  intro j hj
  cases hj
  obtain ⟨hlt,hfirst,hmask⟩ := mem_setBitsFrom.mp hi
  have h3 := three_le_of_mask hmask
  -- the base was left at the end by an entry searched before: there is no bit to visit
  have hbase : r.1=cidxBase.toNat := hr.base.resolve_right fun h32 => by omega
  rw [hbase] at hfirst hmask
  rw [BitVec.getLsbD_and,BitVec.getLsbD_and,Bool.and_eq_true,Bool.and_eq_true] at hmask
  have hx : i<x.bits := hlt.trans_le x.bits_ge
  refine ⟨⟨⟨e,he,?_,?_,fun hidx => ?_,?_⟩,namesCtr_of_shl hfirst hx hmask.1.2,⟨h3,hlt⟩,hfree,hstop⟩,
    hmask.1.2⟩
  · by_contra hlt'
    exact hout (.inl ⟨by omega,by omega⟩)
  · by_contra hlt'
    exact hout (.inr ⟨by omega,by omega⟩)
  · by_contra hsel
    exact hraw ⟨hidx,hsel⟩
  · have hc := hmask.1.1
    rw [BitVec.getLsbD_setWidth,Bool.and_eq_true] at hc
    exact hc.2

/-- The search over the map finds nothing, or a match. -/
theorem hwEventMap_search (hmap : HwEventMap c.hwEventMap) {r : Nat×Option Nat}
    (h : c.hwEventMap.foldlM (pmuCtrFindHwRound c s cidxMask eventIdx data) (cidxBase.toNat,none)=
      some r) : SearchInv c s cidxBase cidxMask eventIdx data r := by
  refine foldlM_keeps (P := SearchInv c s cidxBase cidxMask eventIdx data)
    (fun e he r r' hr hround => pmuCtrFindHwRound_inv he (hmap.range e he) hr hround) ?_ h
  exact ⟨.inl rfl,fun i hi => by cases hi⟩

/-- `pmu_ctr_find_hw()` returns the fixed counter of the event, or a match that the shifted mask
names. -/
theorem pmuCtrFindHw_honours (hmap : HwEventMap c.hwEventMap) {flags : Word x} {s' : PmuState x}
    {ret : Int} (h : pmuCtrFindHw c s cidxBase cidxMask flags eventIdx data=some (s',ret))
    (hret : 0 ≤ ret) :
    pmuCtrFindFixedFw eventIdx=some ret.toNat ∨
      HwMatch c s cidxBase cidxMask eventIdx data ret.toNat ∧
        (Word.shl cidxMask cidxBase.toNat).getLsbD ret.toNat=true := by
  rw [pmuCtrFindHw] at h
  split_ifs at h
  · cases h
    exact absurd hret (by decide)
  split at h
  next n hn _ =>
    cases h
    exact .inl hn
  next =>
    obtain ⟨⟨cbase,o⟩,hr,hfound⟩ := Option.bind_eq_some_iff.mp h
    have hinv := hwEventMap_search hmap hr
    cases o with
    | none =>
      -- no programmable counter: the fixed one, if the event has one
      cases hfound
      cases hfix : pmuCtrFindFixedFw eventIdx with
      | none =>
        rw [hfix] at hret
        exact absurd hret (by decide)
      | some n => exact .inl rfl
    | some i =>
      obtain ⟨csrs,ret',hupd,hret'⟩ := pmuUpdateHwMhpmevent_csrs c s i flags eventIdx data
      rw [pmuCtrFoundHw,hupd] at hfound
      cases hfound
      rcases hret' with rfl | rfl
      · exact .inr (hinv.found i rfl)
      · have hfail : ¬(0 : Int) ≤ SBI_EFAIL := by decide
        exact absurd hret hfail

/-- The fixed counters are among the counters. -/
theorem pmuCtrFindFixedFw_lt {n : Nat} (h : pmuCtrFindFixedFw eventIdx=some n) : n<c.totalCtrs := by
  have htotal : 2<c.totalCtrs := by
    simp only [PmuConfig.totalCtrs,PmuConfig.numHwCtrs,SBI_PMU_FW_CTR_MAX]
    omega
  unfold pmuCtrFindFixedFw at h
  split_ifs at h <;> cases h <;> omega

/-- `pmu_ctr_find_fw()` returns a named counter, unless the width of a word hides which are named. -/
theorem freeFwCtr_match (hw : cidxBase.toNat<2^32 ∧ (cidxBase.toNat<x.bits →
      ∀ i,x.bits ≤ i → i<c.totalCtrs → ¬NamesCtr cidxBase cidxMask (i-x.bits))) {i : Nat}
    (hi : i<c.totalCtrs) (h : s.freeFwCtr c cidxBase cidxMask i=true) :
    FwMatch c s cidxBase cidxMask i := by
  simp only [PmuState.freeFwCtr,Bool.and_eq_true,decide_eq_true_eq] at h
  obtain ⟨hstart,hfree,hbit⟩ := h
  rw [toNat_toU32,Nat.mod_eq_of_lt hw.1] at hstart
  have hbase : c.numHwCtrs < i ∧ cidxBase.toNat ≤ i := by split at hstart <;> omega
  refine ⟨hbase.1,?_,hfree⟩
  have htotal := hi.trans c.totalCtrs_lt
  have hge := x.bits_ge
  simp only [SBI_PMU_CTR_MAX,SBI_PMU_HW_CTR_MAX,SBI_PMU_FW_CTR_MAX] at htotal
  rw [← Word.bit_mod,BitVec.and_comm,Word.and_bit_ne_zero (Nat.mod_lt _ (by omega))] at hbit
  rcases Nat.lt_or_ge i x.bits with hlt | hpast
  · rw [Nat.mod_eq_of_lt hlt] at hbit
    exact namesCtr_of_shl hbase.2 hlt hbit
  rw [Nat.mod_eq_sub_mod hpast,Nat.mod_eq_of_lt (by omega)] at hbit
  rcases Nat.lt_or_ge cidxBase.toNat x.bits with hb | hb
  · rcases Nat.lt_or_ge (i-x.bits) cidxBase.toNat with hbelow | hle
    · rw [Word.getLsbD_shl_below cidxMask hbelow hb] at hbit
      cases hbit
    · exact absurd (namesCtr_of_shl hle (by omega) hbit) (hw.2 hb i hpast hi)
  · -- base and counter both lie a width further than the shifts see
    rw [← Word.shl_mod,Nat.mod_eq_sub_mod hb,Nat.mod_eq_of_lt (by omega),
      Word.getLsbD_shl cidxMask (by omega) (by omega)] at hbit
    exact ⟨i-cidxBase.toNat,by omega,by rwa [show i-cidxBase.toNat=i-x.bits-(cidxBase.toNat-x.bits) by omega]⟩

/-- The counter that the search of `sbi_pmu_ctr_cfg_match()` enters honours the request. -/
theorem pmuCtrFind_honours (hmap : HwEventMap c.hwEventMap) {flags : Word x}
    (hfls : fls (Word.shl cidxMask cidxBase.toNat)<c.totalCtrs)
    (hw : FwSearchExact c cidxBase cidxMask eventIdx) {s' : PmuState x} {i : Nat}
    (h : pmuCtrFind c s cidxBase cidxMask flags eventIdx data=some (s',some i)) :
    Honours c s cidxBase cidxMask eventIdx data i := by
  obtain ⟨s1,o,h1,-,hfw,-,-⟩ := pmuCtrFind_effect c s cidxBase cidxMask flags eventIdx data
  by_cases ht : getCidxType eventIdx=SBI_PMU_EVENT_TYPE_FW
  · rw [h1] at h
    cases h
    have hfind := (hfw ht).symm
    have hi := List.mem_range.mp (List.mem_of_find?_eq_some hfind)
    refine ⟨hi,?_⟩
    rw [if_pos ht]
    exact freeFwCtr_match (hw ht) hi (List.find?_some hfind)
  · rw [pmuCtrFind,if_neg ht] at h
    obtain ⟨⟨s2,ret⟩,h2,hset⟩ := Option.bind_eq_some_iff.mp h
    dsimp only at hset
    split at hset
    · cases hset
    next hret =>
      obtain ⟨s3,-,h3⟩ := Option.bind_eq_some_iff.mp hset
      cases h3
      have hfound := pmuCtrFindHw_honours hmap h2 (not_lt.mp hret)
      refine ⟨?_,?_⟩
      · rcases hfound with hfix | ⟨-,hbit⟩
        · exact pmuCtrFindFixedFw_lt hfix
        · exact lt_of_fls hbit hfls
      · rw [if_neg ht]
        exact hfound.imp_right And.left

theorem skipInBounds_of_some {s1 : PmuState x} {i : Nat} {flags : Word x} {r : PmuState x×Int}
    (hi : i<SBI_PMU_CTR_MAX) (h : pmuCtrSkipMatch c s1 i flags eventIdx=some r) :
    SkipInBounds i flags eventIdx := by
  by_contra hn
  rw [pmuCtrSkipMatch_none c s1 hi hn] at h
  cases h

/-- A match that is not told to skip the search returns a counter that honours the request and enters
the event there, or changes no entry. -/
theorem sbiPmuCtrCfgMatch_honours (c : PmuConfig x) (s : PmuState x)
    (cidxBase cidxMask flags eventIdx : Word x) (data : BitVec 64) (hmap : HwEventMap c.hwEventMap)
    (hskip : hasFlag flags SBI_PMU_CFG_FLAG_SKIP_MATCH=false)
    (hw : FwSearchExact c cidxBase cidxMask eventIdx) {s' : PmuState x} {ret : Int}
    (h : sbiPmuCtrCfgMatch c s cidxBase cidxMask flags eventIdx data=some (s',ret)) :
    if 0 ≤ ret then ∃ i : Nat,ret=i ∧ Honours c s cidxBase cidxMask eventIdx data i ∧
      s'.activeEvents=Function.update s.activeEvents i (toU32 eventIdx)
    else s'.activeEvents=s.activeEvents := by
  obtain ⟨s1,o,h1,-,hfw,hhw,hact1⟩ := pmuCtrFind_effect c s cidxBase cidxMask flags eventIdx data
  rw [sbiPmuCtrCfgMatch] at h
  split at h
  · cases h
    rfl
  next hsane =>
    rw [hskip,if_neg (by decide),h1] at h
    cases o with
    | none =>
      cases h
      exact hact1
    | some i =>
      have hfls := not_le.mp fun hle => hsane (.inl hle)
      have hi := pmuCtrFind_honours hmap hfls hw h1
      obtain ⟨s2,h2,hact2,-⟩ := pmuCtrSkipMatch_some c s1 (skipInBounds_of_some
        (hi.1.trans c.totalCtrs_lt) h)
      have hpair := Option.some.inj (h2.symm.trans h)
      cases hpair
      rw [if_pos (Int.natCast_nonneg i)]
      exact ⟨i,rfl,hi,hact2.trans hact1⟩

end Match

/-- Hardware counters 0 to 4, and a map that lists the counters 3 and 7 for the events 3 to 5. -/
def mappedPmu : PmuConfig .rv64 where
  mhpmCount := 2
  mhpmCount_le := by decide
  mhpmBits := 64
  hasMcountinhibit := false
  hasSscofpmf := true
  hwEventMap := (sbiPmuAddHwEventCounterMap [] 3 5 0x88).2
  xlateToMhpmevent eventIdx _ := eventIdx.setWidth 64

/-- Counter 3 is asked for event 4. -/
theorem sbiPmuCtrCfgMatch_honours_counter3 : ∃ s',
    sbiPmuCtrCfgMatch mappedPmu (.initial mappedPmu fun _ => 0) 3 1 0 4 0=some (s',3) ∧
    Honours mappedPmu (.initial mappedPmu fun _ => 0) 3 1 4 0 3 ∧ s'.activeEvents 3=4 := by
  have hcall : (sbiPmuCtrCfgMatch mappedPmu (.initial mappedPmu fun _ => 0) 3 1 0 4 0).any
      (fun r => decide (r.2=3))=true := by decide +kernel
  obtain ⟨⟨s',ret⟩,hr,hret⟩ := (Option.any_eq_true _ _).mp hcall
  obtain rfl : ret=3 := of_decide_eq_true hret
  have h := sbiPmuCtrCfgMatch_honours mappedPmu (.initial mappedPmu fun _ => 0) 3 1 0 4 0
    (.counters 3 5 0x88 .empty) (by decide) (fun ht => absurd ht (by decide)) hr
  rw [if_pos (by decide)] at h
  obtain ⟨i,hi,hh,hact⟩ := h
  obtain rfl : 3=i := by exact_mod_cast hi
  refine ⟨s',hr,hh,?_⟩
  rw [hact,Function.update_self]
  rfl

/-- Counter 3 is asked to count the cycles, and the fixed counter 0 is returned; an event with a high bit
set is entered without it; counter 7, which the hart lacks, is returned because the map lists it. -/
theorem fixedCounter_returned :
    (∃ s',sbiPmuCtrCfgMatch mappedPmu (.initial mappedPmu fun _ => 0) 3 1 0 1 0=some (s',0) ∧
      ¬NamesCtr (3 : Word .rv64) 1 0) ∧
    (∃ s',sbiPmuCtrCfgMatch mappedPmu (.initial mappedPmu fun _ => 0) 5 1 0 0x1000f0005 0=some (s',5) ∧
      (s'.activeEvents 5).toNat≠0x1000f0005) ∧
    (∃ s',sbiPmuCtrCfgMatch mappedPmu (.initial mappedPmu fun _ => 0) 3 16 0 4 0=some (s',7) ∧
      mappedPmu.numHwCtrs<7) := by
  have hcycles : (sbiPmuCtrCfgMatch mappedPmu (.initial mappedPmu fun _ => 0) 3 1 0 1 0).any
      (fun r => decide (r.2=0))=true := by decide +kernel
  have hhigh : (sbiPmuCtrCfgMatch mappedPmu (.initial mappedPmu fun _ => 0) 5 1 0 0x1000f0005 0).any
      (fun r => decide (r.2=5 ∧ (r.1.activeEvents 5).toNat≠0x1000f0005))=true := by decide +kernel
  have hlacks : (sbiPmuCtrCfgMatch mappedPmu (.initial mappedPmu fun _ => 0) 3 16 0 4 0).any
      (fun r => decide (r.2=7))=true := by decide +kernel
  refine ⟨?_,?_,?_⟩
  · obtain ⟨⟨s',ret⟩,hr,hret⟩ := (Option.any_eq_true _ _).mp hcycles
    obtain rfl : ret=0 := of_decide_eq_true hret
    refine ⟨s',hr,?_⟩
    rintro ⟨k,hk,-⟩
    have h3 : (3 : Word .rv64).toNat=3 := rfl
    omega
  · obtain ⟨⟨s',ret⟩,hr,hret⟩ := (Option.any_eq_true _ _).mp hhigh
    obtain ⟨rfl,hne⟩ : ret=5 ∧ _ := of_decide_eq_true hret
    exact ⟨s',hr,hne⟩
  · obtain ⟨⟨s',ret⟩,hr,hret⟩ := (Option.any_eq_true _ _).mp hlacks
    obtain rfl : ret=7 := of_decide_eq_true hret
    exact ⟨s',hr,by decide⟩

end OpenSBI
