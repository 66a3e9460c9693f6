import OpenSBI.Pmu.Match

namespace OpenSBI

open Framework

variable {x : Xlen}

/-- The tests of `pmu_ctr_find_hw()` that let an entry take part in the search. -/
def PmuHwEvent.matches (temp : PmuHwEvent) (eventIdx : Nat) (data : BitVec 64) : Bool :=
  let first := temp.startIdx.toNat
  let last := temp.endIdx.toNat
  !decide ((eventIdx<first ∧ eventIdx<last) ∨ (first<eventIdx ∧ last<eventIdx)) &&
    !decide (eventIdx=SBI_PMU_EVENT_RAW_IDX ∧ temp.select≠data)

/-- The search passes over an entry that does not match. -/
theorem pmuCtrFindHwRound_skips {c : PmuConfig x} {s : PmuState x} {cmask eventIdx : Word x}
    {data : BitVec 64} {temp : PmuHwEvent} (h : temp.matches eventIdx.toNat data=false) (r : Nat×Option Nat) :
    pmuCtrFindHwRound c s cmask eventIdx data r temp=some r := by
  rw [pmuCtrFindHwRound]
  dsimp only
  split_ifs with hout hraw
  · rfl
  · rfl
  · simp [PmuHwEvent.matches,hout,hraw] at h

/-- The events that an entry was added for: a range of indices, or a selector. -/
def PmuHwEvent.Owns (e : PmuHwEvent) (eventIdx : Nat) (data : BitVec 64) : Prop :=
  if e.startIdx.toNat=SBI_PMU_EVENT_RAW_IDX then eventIdx=SBI_PMU_EVENT_RAW_IDX ∧ data=e.select
  else e.startIdx.toNat ≤ eventIdx ∧ eventIdx≤e.endIdx.toNat

/-- `hw_event_map` and `num_hw_events`. -/
structure HwEventTable where
  entries : Nat → PmuHwEvent
  numHwEvents : Nat

/-- A call that adds an entry. -/
inductive HwEventCall where
  | counters (eidxStart eidxEnd cmap : BitVec 32)
  | raw (select : BitVec 64) (cmap : BitVec 32)

namespace HwEventTable

def zero : HwEventTable := ⟨fun _ => ⟨0,0,0,0⟩,0⟩

/-- The entries in use. -/
def used (t : HwEventTable) : List PmuHwEvent := (List.range t.numHwEvents).map t.entries

/-- `hw_event_map[i] = e`; `none` is a write outside the array. -/
def write (t : HwEventTable) (i : Nat) (e : PmuHwEvent) : Option HwEventTable :=
  if i<SBI_PMU_HW_EVENT_MAX then some { t with entries := Function.update t.entries i e } else none

/-- `pmu_add_hw_event_map()`; the new entry is filled in place. -/
def pmuAddHwEventMap (t : HwEventTable) (eidxStart eidxEnd cmap : BitVec 32) (select : BitVec 64) :
    Option (HwEventTable×Int) :=
  if SBI_PMU_HW_INSTRUCTIONS<eidxStart.toNat ∧ cmap &&& BitVec.ofNat 32 SBI_PMU_FIXED_CTR_MASK≠0 then
    some (t,SBI_EDENIED)
  else if SBI_PMU_HW_EVENT_MAX-1≤t.numHwEvents then some (t,SBI_EFAIL)
  else do
    let n := t.numHwEvents
    let t ← t.write n { t.entries n with startIdx := eidxStart,endIdx := eidxEnd }
    if (List.range n).any fun i => pmuEventOverlap eidxStart.toNat eidxEnd.toNat select (t.entries i) then
      let t ← t.write n { t.entries n with startIdx := 0,endIdx := 0 }
      some (t,SBI_EINVAL)
    else
      let t ← t.write n { t.entries n with counters := cmap,select := select }
      some ({ t with numHwEvents := n+1 },0)

/-- `sbi_pmu_add_hw_event_counter_map()` and `sbi_pmu_add_raw_event_counter_map()`. -/
def call (t : HwEventTable) : HwEventCall → Option (HwEventTable×Int)
  | .counters eidxStart eidxEnd cmap =>
    if eidxEnd.toNat<eidxStart.toNat ∨ eidxStart.toNat=SBI_PMU_EVENT_RAW_IDX ∨
        eidxEnd.toNat=SBI_PMU_EVENT_RAW_IDX then some (t,SBI_EINVAL)
    else t.pmuAddHwEventMap eidxStart eidxEnd cmap 0
  | .raw select cmap =>
    t.pmuAddHwEventMap (BitVec.ofNat 32 SBI_PMU_EVENT_RAW_IDX) (BitVec.ofNat 32 SBI_PMU_EVENT_RAW_IDX) cmap select

end HwEventTable

/-- The same calls on the list of the entries in use. -/
def HwEventCall.onList (map : List PmuHwEvent) : HwEventCall → Int×List PmuHwEvent
  | .counters eidxStart eidxEnd cmap => sbiPmuAddHwEventCounterMap map eidxStart eidxEnd cmap
  | .raw select cmap => sbiPmuAddRawEventCounterMap map select cmap

/-- The setup of the map, call by call. -/
def hwEventMachine : Machine HwEventTable HwEventCall Int where
  step t c := (t.call c).map fun r => (r.1,[r.2])

section Table

variable {t : HwEventTable}

theorem used_update (e : PmuHwEvent) :
    (List.range t.numHwEvents).map (Function.update t.entries t.numHwEvents e)=t.used :=
  List.map_congr_left fun _ hi => Function.update_of_ne (List.mem_range.mp hi).ne e t.entries

/-- What a call leaves of the old entries. -/
structure HwEventTable.Extends (t t' : HwEventTable) : Prop where
  entries : ∀ i<t.numHwEvents,t'.entries i=t.entries i
  room : t'.numHwEvents<SBI_PMU_HW_EVENT_MAX

/-- On the table a new entry is what it is on the list of the entries in use. -/
theorem pmuAddHwEventMap_table (hroom : t.numHwEvents<SBI_PMU_HW_EVENT_MAX)
    (eidxStart eidxEnd cmap : BitVec 32) (select : BitVec 64) :
    ∃ t',t.pmuAddHwEventMap eidxStart eidxEnd cmap select=
        some (t',(pmuAddHwEventMap t.used eidxStart eidxEnd cmap select).1) ∧
      t'.used=(pmuAddHwEventMap t.used eidxStart eidxEnd cmap select).2 ∧ t.Extends t' := by
  have hlen : t.used.length=t.numHwEvents := by simp [HwEventTable.used]
  have hany : ∀ e,((List.range t.numHwEvents).any fun i => pmuEventOverlap eidxStart.toNat eidxEnd.toNat select
      (Function.update t.entries t.numHwEvents e i))=
        t.used.any (pmuEventOverlap eidxStart.toNat eidxEnd.toNat select) := by
    intro e
    rw [← used_update e,List.any_map]
    rfl
  rw [HwEventTable.pmuAddHwEventMap,pmuAddHwEventMap,hlen]
  split_ifs with hfixed hfull hover
  · exact ⟨t,rfl,rfl,fun _ _ => rfl,hroom⟩
  · exact ⟨t,rfl,rfl,fun _ _ => rfl,hroom⟩
  · simp only [HwEventTable.write,if_pos hroom,Option.bind_eq_bind,Option.bind_some,hany,hover,if_true,
      Function.update_idem]
    exact ⟨_,rfl,used_update _,fun i hi => Function.update_of_ne hi.ne _ _,hroom⟩
  · simp only [HwEventTable.write,if_pos hroom,Option.bind_eq_bind,Option.bind_some,hany,hover,
      Function.update_idem,Function.update_self]
    refine ⟨_,rfl,?_,fun i hi => Function.update_of_ne hi.ne _ _,by dsimp only; omega⟩
    rw [HwEventTable.used,List.range_succ,List.map_append,used_update]
    simp

/-- The calls keep the old entries, stay inside the array, and do to the entries in use what the calls on
the list do. -/
theorem hwEventCall_table (hroom : t.numHwEvents<SBI_PMU_HW_EVENT_MAX) (c : HwEventCall) :
    ∃ t',t.call c=some (t',(c.onList t.used).1) ∧ t'.used=(c.onList t.used).2 ∧ t.Extends t' := by
  cases c with
  | counters eidxStart eidxEnd cmap =>
    rw [HwEventTable.call,HwEventCall.onList,sbiPmuAddHwEventCounterMap]
    split_ifs
    · exact ⟨t,rfl,rfl,fun _ _ => rfl,hroom⟩
    · exact pmuAddHwEventMap_table hroom _ _ _ _
  | raw select cmap => exact pmuAddHwEventMap_table hroom _ _ _ _

end Table

section Entries

/-- An entry of a call for a range, or for a selector. -/
structure PmuHwEvent.Ranged (e : PmuHwEvent) : Prop where
  order : e.startIdx.toNat≤e.endIdx.toNat
  start : e.startIdx.toNat≠SBI_PMU_EVENT_RAW_IDX
  last : e.endIdx.toNat≠SBI_PMU_EVENT_RAW_IDX
  select : e.select=0

structure PmuHwEvent.Raw (e : PmuHwEvent) : Prop where
  start : e.startIdx.toNat=SBI_PMU_EVENT_RAW_IDX
  last : e.endIdx.toNat=SBI_PMU_EVENT_RAW_IDX

variable {a b e : PmuHwEvent} {eventIdx : Nat} {data : BitVec 64}

theorem PmuHwEvent.matches_iff (h : e.startIdx.toNat≤e.endIdx.toNat) : e.matches eventIdx data=true ↔
    (e.startIdx.toNat ≤ eventIdx ∧ eventIdx≤e.endIdx.toNat) ∧
      (eventIdx=SBI_PMU_EVENT_RAW_IDX → e.select=data) := by
  simp only [PmuHwEvent.matches,Bool.and_eq_true,Bool.not_eq_true',decide_eq_false_iff_not,ne_eq,not_and,
    not_not]
  constructor
  · exact fun ⟨h1,h2⟩ => ⟨by omega,h2⟩
  · exact fun ⟨h1,h2⟩ => ⟨by omega,h2⟩

theorem PmuHwEvent.Raw.matches_iff (h : e.Raw) :
    e.matches eventIdx data=true ↔ eventIdx=SBI_PMU_EVENT_RAW_IDX ∧ data=e.select := by
  rw [PmuHwEvent.matches_iff (by rw [h.start,h.last]),h.start,h.last]
  constructor
  · exact fun ⟨h1,h2⟩ => ⟨by omega,(h2 (by omega)).symm⟩
  · exact fun ⟨h1,h2⟩ => ⟨by omega,fun _ => h2.symm⟩

theorem PmuHwEvent.Raw.owns_iff (h : e.Raw) : e.matches eventIdx data=true ↔ e.Owns eventIdx data := by
  rw [h.matches_iff,PmuHwEvent.Owns,if_pos h.start]

/-- A range that the raw index is not in matches its own events. -/
theorem PmuHwEvent.Ranged.owns_iff (h : e.Ranged)
    (hplain : ¬(e.startIdx.toNat<SBI_PMU_EVENT_RAW_IDX ∧ SBI_PMU_EVENT_RAW_IDX<e.endIdx.toNat)) :
    e.matches eventIdx data=true ↔ e.Owns eventIdx data := by
  have h1 := h.start
  have h2 := h.last
  rw [PmuHwEvent.matches_iff h.order,PmuHwEvent.Owns,if_neg h1]
  exact ⟨fun hm => hm.1,fun hm => ⟨hm,fun hraw => by omega⟩⟩

/-- No event is matched by both entries. -/
def PmuHwEvent.Apart (a b : PmuHwEvent) : Prop :=
  ∀ eventIdx data,a.matches eventIdx data=true → b.matches eventIdx data=false

theorem PmuHwEvent.Apart.symm (h : a.Apart b) : b.Apart a := fun eventIdx data hb => by
  rw [← Bool.not_eq_true]
  intro ha
  rw [h eventIdx data ha] at hb
  cases hb

/-- A selector that passes the check against the old entry. -/
theorem apart_of_raw (ha : a.Ranged ∨ a.Raw) (hb : b.Raw) (h : pmuEventSelectOverlap a b.select=false) :
    a.Apart b := by
  have hne : a.select≠b.select := by simpa [pmuEventSelectOverlap] using h
  intro eventIdx data hm
  rw [← Bool.not_eq_true,hb.matches_iff]
  rintro ⟨rfl,rfl⟩
  have horder : a.startIdx.toNat≤a.endIdx.toNat := by
    rcases ha with ha | ha
    · exact ha.order
    · rw [ha.start,ha.last]
  exact hne (((PmuHwEvent.matches_iff horder).mp hm).2 rfl)

/-- A range that passes the check. -/
theorem apart_of_ranged (ha : a.Ranged ∨ a.Raw) (hb : b.Ranged)
    (h : pmuEventRangeOverlap a b.startIdx.toNat b.endIdx.toNat=false) : a.Apart b := by
  have horder : a.startIdx.toNat≤a.endIdx.toNat := by
    rcases ha with ha | ha
    · exact ha.order
    · rw [ha.start,ha.last]
  simp only [pmuEventRangeOverlap,Bool.not_eq_false',Bool.or_eq_true,decide_eq_true_eq] at h
  intro eventIdx data hm
  have h1 := ((PmuHwEvent.matches_iff horder).mp hm).1
  rw [← Bool.not_eq_true,PmuHwEvent.matches_iff hb.order]
  rintro ⟨h2,-⟩
  omega

end Entries

/-- What is known of the entries in use: they are apart, and no range has the raw index inside. -/
structure MapInv (map : List PmuHwEvent) : Prop where
  apart : map.Pairwise PmuHwEvent.Apart
  kind : ∀ e∈map,e.Ranged ∨ e.Raw
  owns : ∀ e∈map,∀ eventIdx data,e.matches eventIdx data=true ↔ e.Owns eventIdx data

/-- A call for a range does not have the raw index inside the range. -/
def HwEventCall.Plain : HwEventCall → Prop
  | .counters eidxStart eidxEnd _ =>
    ¬(eidxStart.toNat<SBI_PMU_EVENT_RAW_IDX ∧ SBI_PMU_EVENT_RAW_IDX<eidxEnd.toNat)
  | .raw _ _ => True

section Invariant

variable {map : List PmuHwEvent}

theorem MapInv.snoc (h : MapInv map) {e : PmuHwEvent} (hapart : ∀ a∈map,a.Apart e) (hkind : e.Ranged ∨ e.Raw)
    (howns : ∀ eventIdx data,e.matches eventIdx data=true ↔ e.Owns eventIdx data) : MapInv (map++[e]) where
  apart := List.pairwise_append.mpr ⟨h.apart,List.pairwise_singleton _ _,fun a ha b hb => by
    rw [List.mem_singleton.mp hb]
    exact hapart a ha⟩
  kind a ha := by
    rcases List.mem_append.mp ha with ha | ha
    · exact h.kind a ha
    · rw [List.mem_singleton.mp ha]
      exact hkind
  owns a ha := by
    rcases List.mem_append.mp ha with ha | ha
    · exact h.owns a ha
    · rw [List.mem_singleton.mp ha]
      exact howns

/-- A new entry with the check against each of the old ones passed. -/
theorem pmuAddHwEventMap_cases (map : List PmuHwEvent) (eidxStart eidxEnd cmap : BitVec 32)
    (select : BitVec 64) :
    (pmuAddHwEventMap map eidxStart eidxEnd cmap select).2=map ∨
      (∀ a∈map,pmuEventOverlap eidxStart.toNat eidxEnd.toNat select a=false) ∧
        pmuAddHwEventMap map eidxStart eidxEnd cmap select=(0,map++[⟨cmap,eidxStart,eidxEnd,select⟩]) := by
  unfold pmuAddHwEventMap
  split_ifs with h1 h2 h3
  · exact .inl rfl
  · exact .inl rfl
  · exact .inl rfl
  · exact .inr ⟨fun a ha => by simpa using List.any_eq_false.mp (Bool.eq_false_iff.mpr h3) a ha,rfl⟩

theorem MapInv.call (h : MapInv map) (c : HwEventCall) (hc : c.Plain) : MapInv (c.onList map).2 := by
  cases c with
  | counters eidxStart eidxEnd cmap =>
    rw [HwEventCall.onList,sbiPmuAddHwEventCounterMap]
    split_ifs with hbad
    · exact h
    push Not at hbad
    rcases pmuAddHwEventMap_cases map eidxStart eidxEnd cmap 0 with hsame | ⟨hover,hadd⟩
    · rwa [hsame]
    rw [hadd]
    have hr : PmuHwEvent.Ranged ⟨cmap,eidxStart,eidxEnd,0⟩ := ⟨hbad.1,hbad.2.1,hbad.2.2,rfl⟩
    refine h.snoc (fun a ha => ?_) (.inl hr) fun eventIdx data => hr.owns_iff hc
    have hpass := hover a ha
    rw [pmuEventOverlap,if_neg hbad.2.1] at hpass
    exact apart_of_ranged (h.kind a ha) hr hpass
  | raw select cmap =>
    rw [HwEventCall.onList,sbiPmuAddRawEventCounterMap]
    rcases pmuAddHwEventMap_cases map (BitVec.ofNat 32 SBI_PMU_EVENT_RAW_IDX)
      (BitVec.ofNat 32 SBI_PMU_EVENT_RAW_IDX) cmap select with hsame | ⟨hover,hadd⟩
    · rwa [hsame]
    rw [hadd]
    have hr : PmuHwEvent.Raw ⟨cmap,BitVec.ofNat 32 SBI_PMU_EVENT_RAW_IDX,
      BitVec.ofNat 32 SBI_PMU_EVENT_RAW_IDX,select⟩ := ⟨rfl,rfl⟩
    refine h.snoc (fun a ha => ?_) (.inr hr) fun eventIdx data => hr.owns_iff
    have hpass := hover a ha
    rw [pmuEventOverlap,if_pos (by rfl)] at hpass
    exact apart_of_raw (h.kind a ha) hr hpass

/-- A call that does not report success changes none of the entries in use. -/
theorem hwEventCall_rejected (c : HwEventCall) (h : (c.onList map).1≠0) : (c.onList map).2=map := by
  have hadd : ∀ eidxStart eidxEnd cmap select,(pmuAddHwEventMap map eidxStart eidxEnd cmap select).1≠0 →
      (pmuAddHwEventMap map eidxStart eidxEnd cmap select).2=map := by
    intro eidxStart eidxEnd cmap select hne
    rcases pmuAddHwEventMap_cases map eidxStart eidxEnd cmap select with hsame | ⟨-,hadd⟩
    · exact hsame
    · rw [hadd] at hne
      exact absurd rfl hne
  cases c with
  | counters eidxStart eidxEnd cmap =>
    rw [HwEventCall.onList,sbiPmuAddHwEventCounterMap] at h ⊢
    split_ifs at h ⊢
    · rfl
    · exact hadd _ _ _ _ h
  | raw select cmap => exact hadd _ _ _ _ h

end Invariant

/-- At most one entry matches an event, and every entry matches its own events. -/
structure HwEventTable.Unambiguous (t : HwEventTable) : Prop where
  unique : ∀ eventIdx data,∀ i<t.numHwEvents,∀ j<t.numHwEvents,
    (t.entries i).matches eventIdx data=true → (t.entries j).matches eventIdx data=true → i=j
  own : ∀ i<t.numHwEvents,∀ eventIdx data,
    (t.entries i).matches eventIdx data=true ↔ (t.entries i).Owns eventIdx data

theorem MapInv.unambiguous {t : HwEventTable} (h : MapInv t.used) : t.Unambiguous where
  unique eventIdx data i hi j hj hmi hmj := by
    have hget : ∀ k<t.numHwEvents,t.used[k]?=some (t.entries k) := fun k hk => by
      rw [HwEventTable.used,List.getElem?_map,List.getElem?_range hk]
      rfl
    have hp := List.pairwise_iff_getElem.mp h.apart
    have hlen : t.used.length=t.numHwEvents := by simp [HwEventTable.used]
    have hsep : ∀ k l,k<l → l<t.numHwEvents → (t.entries k).Apart (t.entries l) := by
      intro k l hkl hl
      have hkl' := hp k l (by omega) (by omega) hkl
      rwa [List.getElem_eq_iff _ |>.mpr (hget k (by omega)),List.getElem_eq_iff _ |>.mpr (hget l hl)] at hkl'
    rcases Nat.lt_trichotomy i j with hlt | rfl | hlt
    · rw [hsep i j hlt hj eventIdx data hmi] at hmj
      cases hmj
    · rfl
    · rw [hsep j i hlt hi eventIdx data hmj] at hmi
      cases hmi
  own i hi := h.owns _ (List.mem_map.mpr ⟨i,List.mem_range.mpr hi,rfl⟩)

/-- Over runs that add no range with the raw index inside, the event map stays unambiguous. Every call stays
inside the table and keeps its entries, and one that is rejected keeps their number. -/
theorem hwEventMap_unambiguous (t : HwEventTable) (tr : List Int)
    (run : hwEventMachine.Run (fun _ c _ => c.Plain) .zero tr t) :
    t.Unambiguous ∧ ∀ c,∃ t' ret,t.call c=some (t',ret) ∧ (∀ i<t.numHwEvents,t'.entries i=t.entries i) ∧
      (ret≠0 → t'.numHwEvents=t.numHwEvents) := by
  have hinv : MapInv t.used ∧ t.numHwEvents<SBI_PMU_HW_EVENT_MAX := by
    refine run.invariant (P := fun t : HwEventTable => MapInv t.used ∧ t.numHwEvents<SBI_PMU_HW_EVENT_MAX)
      (fun s c s' ev hs hstep hc => ?_) ⟨⟨.nil,fun e he => (by cases he),fun e he => (by cases he)⟩,by decide⟩
    obtain ⟨⟨t',ret⟩,hcall,heq⟩ := Option.map_eq_some_iff.mp hstep
    obtain ⟨rfl,-⟩ := Prod.mk.inj heq
    obtain ⟨t1,h1,hused,hext⟩ := hwEventCall_table hs.2 c
    rw [h1] at hcall
    cases hcall
    exact ⟨hused ▸ hs.1.call c hc,hext.room⟩
  refine ⟨hinv.1.unambiguous,fun c => ?_⟩
  obtain ⟨t',h1,hused,hext⟩ := hwEventCall_table hinv.2 c
  refine ⟨t',_,h1,hext.entries,fun hne => ?_⟩
  have hlen := congrArg List.length (hused.trans (hwEventCall_rejected c hne))
  simpa [HwEventTable.used] using hlen

/-- A range and a selector. -/
theorem rangeAndSelector_unambiguous : ∃ t tr,t.Unambiguous ∧ t.numHwEvents=2 ∧
    hwEventMachine.Run (fun _ c _ => c.Plain) .zero tr t := by
  have hrange : HwEventCall.Plain (.counters 3 10 0xff8) := fun h => absurd h.2 (by decide)
  have hrun : hwEventMachine.Run (fun _ c _ => c.Plain) .zero _ _ :=
    (Machine.Run.single (a := .counters 3 10 0xff8) rfl hrange).trans
      (.single (a := .raw 5 0xff8) rfl (show HwEventCall.Plain (.raw 5 0xff8) from trivial))
  exact ⟨_,_,(hwEventMap_unambiguous _ _ hrun).1,rfl,hrun⟩

/-- A range around the raw index is accepted, and does not match that index with every selector. -/
theorem spanningRange_accepted :
    ¬∀ (t : HwEventTable) (tr : List Int),hwEventMachine.Run Machine.anyStep .zero tr t →
      t.Unambiguous ∧ ∀ c,∃ t' ret,t.call c=some (t',ret) ∧ (∀ i<t.numHwEvents,t'.entries i=t.entries i) ∧
        (ret≠0 → t'.numHwEvents=t.numHwEvents) := by
  intro h
  have hrun : hwEventMachine.Run Machine.anyStep .zero _ _ :=
    .single (a := .counters 0x1ffff 0x20001 0xff8) rfl trivial
  have hown := ((h _ _ hrun).1.own 0 (by decide) SBI_PMU_EVENT_RAW_IDX 1).mpr
    (by rw [PmuHwEvent.Owns]; decide)
  revert hown
  decide

end OpenSBI
