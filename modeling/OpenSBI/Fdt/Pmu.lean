import OpenSBI.Fdt.Tree
import OpenSBI.Framework.Loop
import OpenSBI.Pmu.EventMap

namespace OpenSBI

def FDT_PMU_HW_EVENT_MAX : Nat := SBI_PMU_HW_EVENT_MAX*2

def PropName.eventToMhpmcounters : PropName := .other (cstr "riscv,event-to-mhpmcounters")
def PropName.eventToMhpmevent : PropName := .other (cstr "riscv,event-to-mhpmevent")
def PropName.rawEventToMhpmcounters : PropName := .other (cstr "riscv,raw-event-to-mhpmcounters")

/-- `struct fdt_pmu_hw_event_select`. -/
structure FdtPmuSelect where
  eidx : BitVec 32
  select : BitVec 64
  deriving DecidableEq

/-- `fdt_pmu_evt_select`, `hw_event_count` and the event map. -/
structure FdtPmuState where
  evtSelect : Nat → FdtPmuSelect
  hwEventCount : Nat
  map : HwEventTable

/-- In front of the setup. -/
def FdtPmuState.initial (map : HwEventTable) : FdtPmuState := ⟨fun _ => ⟨0,0⟩,0,map⟩

/-- `fdt_pmu_get_select_value()`. -/
def fdtPmuGetSelectValue (s : FdtPmuState) (eventIdx : BitVec 32) : BitVec 64 :=
  match (List.range SBI_PMU_HW_EVENT_MAX).find? fun i => (s.evtSelect i).eidx=eventIdx with
  | some i => (s.evtSelect i).select
  | none => 0

/-- Row `i` of `riscv,event-to-mhpmevent`. -/
def selectRow (val : List (BitVec 8)) (i : Nat) : FdtPmuSelect :=
  ⟨fdt32 val (3*i),(fdt32 val (3*i+1)).setWidth 64 <<< 32 ||| (fdt32 val (3*i+2)).setWidth 64⟩

def FdtPmuState.counterRound (val : List (BitVec 8)) (s : FdtPmuState) (i : Nat) : Option FdtPmuState := do
  let (map,_) ← s.map.call (.counters (fdt32 val (3*i)) (fdt32 val (3*i+1)) (fdt32 val (3*i+2)))
  some { s with map := map }

/-- The loop body for a selector; `none` is a write outside the table. -/
def FdtPmuState.selectRound (val : List (BitVec 8)) (s : FdtPmuState) (i : Nat) : Option FdtPmuState :=
  if s.hwEventCount<FDT_PMU_HW_EVENT_MAX then
    some { s with
      evtSelect := Function.update s.evtSelect s.hwEventCount (selectRow val i)
      hwEventCount := s.hwEventCount+1 }
  else none

def FdtPmuState.rawRound (val : List (BitVec 8)) (s : FdtPmuState) (i : Nat) : Option FdtPmuState := do
  let rawSelector := (fdt32 val (3*i)).setWidth 64 <<< 32 ||| (fdt32 val (3*i+1)).setWidth 64
  let (map,result) ← s.map.call (.raw rawSelector (fdt32 val (3*i+2)))
  some { s with map := map,hwEventCount := if result=0 then s.hwEventCount+1 else s.hwEventCount }

/-- A property of rows of three cells, if it passes the test of its length. -/
def pmuRows (t : Fdt) (pmuOffset : Nat) (name : PropName) : Option (List (BitVec 8)) :=
  (t.getprop pmuOffset name).filter fun v => 8≤v.length

/-- `fdt_pmu_setup()`. -/
def fdtPmuSetup (t : Fdt) (s : FdtPmuState) : Option (FdtPmuState×Int) :=
  match t.findIdx? fun n => n.compatible "riscv,pmu" with
  | none => some (s,SBI_EFAIL)
  | some pmuOffset =>
    match pmuRows t pmuOffset .eventToMhpmcounters with
    | none => some (s,SBI_EFAIL)
    | some eventCtrMap => do
      let s ← (List.range (eventCtrMap.length/12)).foldlM (FdtPmuState.counterRound eventCtrMap) s
      match pmuRows t pmuOffset .eventToMhpmevent with
      | none => some (s,SBI_EFAIL)
      | some eventVal => do
        let s ← (List.range (eventVal.length/12)).foldlM (FdtPmuState.selectRound eventVal) s
        match pmuRows t pmuOffset .rawEventToMhpmcounters with
        | none => some (s,SBI_EFAIL)
        | some rawVal => do
          let s ← (List.range (rawVal.length/12)).foldlM (FdtPmuState.rawRound rawVal) s
          some (s,0)

/-- The rows of the selectors. -/
def Fdt.selectRows (t : Fdt) : List FdtPmuSelect :=
  match (t.findIdx? fun n => n.compatible "riscv,pmu").bind fun p => pmuRows t p .eventToMhpmevent with
  | none => []
  | some val => (List.range (val.length/12)).map (selectRow val)

/-- The setup gets to the selectors: there is a counter map in front of them. -/
def Fdt.HasCounterMap (t : Fdt) : Prop :=
  ((t.findIdx? fun n => n.compatible "riscv,pmu").bind fun p => pmuRows t p .eventToMhpmcounters).isSome=true

/-- The setup stays inside its table, each stored row is found by its event, and there is nothing to be found
for other events. -/
def SelectorsRight (rows : List FdtPmuSelect) (result : Option (FdtPmuState×Int)) : Prop :=
  ∃ s ret,result=some (s,ret) ∧
    (∀ row∈rows,(∃ k<FDT_PMU_HW_EVENT_MAX,s.evtSelect k=row) → fdtPmuGetSelectValue s row.eidx=row.select) ∧
    ∀ eventIdx,(∀ row∈rows,row.eidx≠eventIdx) → fdtPmuGetSelectValue s eventIdx=0

/-- The table holds the rows, and nothing behind them. -/
def FdtPmuState.Holds (s : FdtPmuState) (rows : List FdtPmuSelect) : Prop :=
  ∀ k,s.evtSelect k=rows.getD k ⟨0,0⟩

section Setup

variable {t : Fdt} {s : FdtPmuState}

theorem counterRounds_table (val : List (BitVec 8)) (l : List Nat)
    (hroom : s.map.numHwEvents<SBI_PMU_HW_EVENT_MAX) :
    ∃ map,l.foldlM (FdtPmuState.counterRound val) s=some { s with map := map } ∧
      map.numHwEvents<SBI_PMU_HW_EVENT_MAX := by
  induction l generalizing s with
  | nil => exact ⟨s.map,rfl,hroom⟩
  | cons i l ih =>
    obtain ⟨map,hcall,-,hext⟩ := hwEventCall_table hroom
      (.counters (fdt32 val (3*i)) (fdt32 val (3*i+1)) (fdt32 val (3*i+2)))
    have hround : s.counterRound val i=some { s with map := map } := by
      rw [FdtPmuState.counterRound,hcall]
      rfl
    obtain ⟨map',hrest,hroom'⟩ := ih (s := { s with map := map }) hext.room
    exact ⟨map',by rw [List.foldlM_cons,hround]; exact hrest,hroom'⟩

theorem rawRounds_table (val : List (BitVec 8)) (l : List Nat)
    (hroom : s.map.numHwEvents<SBI_PMU_HW_EVENT_MAX) :
    ∃ s',l.foldlM (FdtPmuState.rawRound val) s=some s' ∧ s'.evtSelect=s.evtSelect := by
  induction l generalizing s with
  | nil => exact ⟨s,rfl,rfl⟩
  | cons i l ih =>
    obtain ⟨map,hcall,-,hext⟩ := hwEventCall_table hroom (.raw
      ((fdt32 val (3*i)).setWidth 64 <<< 32 ||| (fdt32 val (3*i+1)).setWidth 64) (fdt32 val (3*i+2)))
    have hround : ∃ s1,s.rawRound val i=some s1 ∧ s1.evtSelect=s.evtSelect ∧ s1.map=map := by
      rw [FdtPmuState.rawRound,hcall]
      exact ⟨_,rfl,rfl,rfl⟩
    obtain ⟨s1,h1,hsel,hmap⟩ := hround
    obtain ⟨s',hrest,hsel'⟩ := ih (s := s1) (hmap ▸ hext.room)
    exact ⟨s',by rw [List.foldlM_cons,h1]; exact hrest,hsel'.trans hsel⟩

/-- The selectors go into the table one behind the other, as long as there is room. -/
theorem selectRounds_table (val : List (BitVec 8)) (n : Nat) (map : HwEventTable) :
    (List.range n).foldlM (FdtPmuState.selectRound val) (.initial map)=
      if n≤FDT_PMU_HW_EVENT_MAX then
        some ⟨fun k => ((List.range n).map (selectRow val)).getD k ⟨0,0⟩,n,map⟩
      else none := by
  induction n with
  | zero => rfl
  | succ n ih =>
    rw [List.range_succ,List.foldlM_append,ih]
    by_cases hn : n+1≤FDT_PMU_HW_EVENT_MAX
    · rw [if_pos (by omega),if_pos hn]
      simp only [Option.bind_eq_bind,Option.bind_some,List.foldlM_cons,List.foldlM_nil,FdtPmuState.selectRound,
        if_pos (show n<FDT_PMU_HW_EVENT_MAX by omega)]
      refine congrArg (fun f => some (FdtPmuState.mk f (n+1) map)) (funext fun k => ?_)
      rw [List.map_append,List.getD_eq_getElem?_getD,List.getElem?_append,List.length_map,List.length_range]
      rcases Nat.lt_trichotomy k n with hk | rfl | hk
      · rw [Function.update_of_ne hk.ne,if_pos hk,List.getD_eq_getElem?_getD]
      · rw [Function.update_self,if_neg (lt_irrefl _),Nat.sub_self]
        rfl
      · rw [Function.update_of_ne hk.ne',if_neg (by omega),List.getD_eq_getElem?_getD,
          List.getElem?_eq_none (by simpa using hk.le),List.getElem?_eq_none (by simp; omega)]
    · rw [if_neg hn]
      split_ifs with hle
      · simp only [Option.bind_eq_bind,Option.bind_some,List.foldlM_cons,List.foldlM_nil,FdtPmuState.selectRound,
          if_neg (show ¬n<FDT_PMU_HW_EVENT_MAX by omega)]
        rfl
      · rfl

/-- The outcome of a setup: it ends in front of the selectors, or stores them all. -/
theorem fdtPmuSetup_cases (t : Fdt) (map : HwEventTable) (hroom : map.numHwEvents<SBI_PMU_HW_EVENT_MAX) :
    (¬t.HasCounterMap ∧ ∃ ret,fdtPmuSetup t (.initial map)=some (.initial map,ret)) ∨
    (t.HasCounterMap ∧ t.selectRows.length≤FDT_PMU_HW_EVENT_MAX ∧
      ∃ s ret,fdtPmuSetup t (.initial map)=some (s,ret) ∧ s.Holds t.selectRows) ∨
    (t.HasCounterMap ∧ FDT_PMU_HW_EVENT_MAX<t.selectRows.length ∧ fdtPmuSetup t (.initial map)=none) := by
  rw [fdtPmuSetup,Fdt.HasCounterMap,Fdt.selectRows]
  cases hp : t.findIdx? fun n => n.compatible "riscv,pmu" with
  | none => exact .inl ⟨by simp,_,rfl⟩
  | some p =>
    simp only [Option.bind_some]
    cases hc : pmuRows t p .eventToMhpmcounters with
    | none => exact .inl ⟨by simp,_,rfl⟩
    | some eventCtrMap =>
      obtain ⟨map1,h1,hroom1⟩ := counterRounds_table (s := .initial map) eventCtrMap
        (List.range (eventCtrMap.length/12)) hroom
      simp only [Option.bind_eq_bind,h1,Option.bind_some,Option.isSome_some,true_and,not_true_eq_false,
        false_and,false_or]
      cases hv : pmuRows t p .eventToMhpmevent with
      | none => exact .inl ⟨by simp,_,_,rfl,fun k => by simp [FdtPmuState.initial]⟩
      | some eventVal =>
        have hrounds := selectRounds_table eventVal (eventVal.length/12) map1
        have hlen : ((List.range (eventVal.length/12)).map (selectRow eventVal)).length=eventVal.length/12 := by
          simp
        simp only [hlen,FdtPmuState.initial] at hrounds ⊢
        rw [hrounds]
        by_cases hfit : eventVal.length/12≤FDT_PMU_HW_EVENT_MAX
        · refine .inl ⟨hfit,?_⟩
          rw [if_pos hfit]
          simp only [Option.bind_some]
          cases hr : pmuRows t p .rawEventToMhpmcounters with
          | none => exact ⟨_,_,rfl,fun k => rfl⟩
          | some rawVal =>
            obtain ⟨s',h2,hsel⟩ := rawRounds_table (s := ⟨fun k =>
              ((List.range (eventVal.length/12)).map (selectRow eventVal)).getD k ⟨0,0⟩,eventVal.length/12,map1⟩)
              rawVal (List.range (rawVal.length/12)) hroom1
            simp only [h2,Option.bind_some]
            exact ⟨s',0,rfl,fun k => congrFun hsel k⟩
        · refine .inr ⟨not_le.mp hfit,?_⟩
          rw [if_neg hfit]
          rfl

/-- The lookup returns the selector of the first matching entry in front of its bound. -/
theorem fdtPmuGetSelectValue_eq {eventIdx : BitVec 32} {v : BitVec 64}
    (hfirst : ∀ i<SBI_PMU_HW_EVENT_MAX,(s.evtSelect i).eidx=eventIdx →
      (∀ j < i,(s.evtSelect j).eidx≠eventIdx) → (s.evtSelect i).select=v)
    (hfound : (∃ i<SBI_PMU_HW_EVENT_MAX,(s.evtSelect i).eidx=eventIdx) ∨ v=0) :
    fdtPmuGetSelectValue s eventIdx=v := by
  rw [fdtPmuGetSelectValue]
  cases hfind : (List.range SBI_PMU_HW_EVENT_MAX).find? fun i => (s.evtSelect i).eidx=eventIdx with
  | some i =>
    obtain ⟨heq,hi,hbefore⟩ := List.find?_range_eq_some.mp hfind
    apply hfirst i (List.mem_range.mp hi) (of_decide_eq_true heq)
    intro j hj
    simpa using hbefore j hj
  | none =>
    rcases hfound with ⟨i,hi,heq⟩ | hv
    · have hnot := List.find?_eq_none.mp hfind i (List.mem_range.mpr hi)
      exact absurd (decide_eq_true heq) hnot
    · exact hv.symm

section Table

variable {rows : List FdtPmuSelect} (hnodup : (rows.map FdtPmuSelect.eidx).Nodup) (hs : s.Holds rows)

include hs in
theorem FdtPmuState.Holds.entry {i : Nat} (hi : i < rows.length) : s.evtSelect i=rows[i] := by
  rw [hs i,List.getD_eq_getElem?_getD,List.getElem?_eq_getElem hi]
  rfl

include hs in
theorem FdtPmuState.Holds.behind {i : Nat} (hi : rows.length ≤ i) : s.evtSelect i=⟨0,0⟩ := by
  rw [hs i,List.getD_eq_getElem?_getD,List.getElem?_eq_none hi]
  rfl

include hnodup in
theorem eidx_inj {i j : Nat} (hi : i < rows.length) (hj : j < rows.length) (h : rows[i].eidx=rows[j].eidx) :
    i=j := by
  have hi' : i<(rows.map FdtPmuSelect.eidx).length := by rwa [List.length_map]
  have hj' : j<(rows.map FdtPmuSelect.eidx).length := by rwa [List.length_map]
  apply (@List.Nodup.getElem_inj_iff _ _ hnodup i hi' j hj').mp
  rw [List.getElem_map,List.getElem_map]
  exact h

include hs in
/-- An event without a row. -/
theorem FdtPmuState.Holds.lookup_absent {eventIdx : BitVec 32}
    (h : ∀ (i : Nat) (hi : i < rows.length),i<SBI_PMU_HW_EVENT_MAX → rows[i].eidx≠eventIdx) :
    fdtPmuGetSelectValue s eventIdx=0 := by
  apply fdtPmuGetSelectValue_eq _ (.inr rfl)
  intro i hi heq _
  by_cases hin : i < rows.length
  · rw [hs.entry hin] at heq
    exact absurd heq (h i hin hi)
  · rw [hs.behind (not_lt.mp hin)]

include hnodup hs in
/-- The lookup finds the row of an event in front of its bound, and nothing for a row behind it. -/
theorem FdtPmuState.Holds.lookup {i : Nat} (hi : i < rows.length) :
    fdtPmuGetSelectValue s rows[i].eidx=if i<SBI_PMU_HW_EVENT_MAX then rows[i].select else 0 := by
  split_ifs with hin
  · apply fdtPmuGetSelectValue_eq _ (.inl ⟨i,hin,by rw [hs.entry hi]⟩)
    intro j hj heq hbefore
    have hji : j ≤ i := not_lt.mp fun hij => hbefore i hij (by rw [hs.entry hi])
    have hjl : j < rows.length := by omega
    rw [hs.entry hjl] at heq ⊢
    have := eidx_inj hnodup hjl hi heq
    subst this
    rfl
  · exact hs.lookup_absent fun j hj hjin heq => hin (eidx_inj hnodup hj hi heq ▸ hjin)

include hnodup hs in
theorem FdtPmuState.Holds.right_iff (ret : Int) (hfit : rows.length≤FDT_PMU_HW_EVENT_MAX) :
    SelectorsRight rows (some (s,ret)) ↔
      ∀ (i : Nat) (hi : i < rows.length),SBI_PMU_HW_EVENT_MAX ≤ i → rows[i].select=0 := by
  constructor
  · rintro ⟨s',ret',heq,hfound,-⟩ i hi hle
    obtain ⟨rfl,-⟩ := Prod.mk.inj (Option.some.inj heq)
    have hrow := hfound rows[i] (List.getElem_mem hi) ⟨i,by omega,hs.entry hi⟩
    rw [hs.lookup hnodup hi,if_neg (by omega)] at hrow
    exact hrow.symm
  · intro hzero
    refine ⟨s,ret,rfl,fun row hrow _ => ?_,fun eventIdx hno => ?_⟩
    · obtain ⟨i,hi,rfl⟩ := List.getElem_of_mem hrow
      rw [hs.lookup hnodup hi]
      split_ifs with hin
      · rfl
      · exact (hzero i hi (not_lt.mp hin)).symm
    · exact hs.lookup_absent fun i hi _ => hno _ (List.getElem_mem hi)

end Table
end Setup

/-- The selectors are right exactly when the setup does not get to them, or they fit the table and those of
the rows behind the bound of the lookup are zero. -/
theorem fdtPmuSetup_selectors_iff (t : Fdt) (map : HwEventTable)
    (hroom : map.numHwEvents<SBI_PMU_HW_EVENT_MAX) (hnodup : (t.selectRows.map FdtPmuSelect.eidx).Nodup) :
    SelectorsRight t.selectRows (fdtPmuSetup t (.initial map)) ↔
      (t.HasCounterMap → t.selectRows.length≤FDT_PMU_HW_EVENT_MAX ∧
        ∀ (i : Nat) (hi : i<t.selectRows.length),SBI_PMU_HW_EVENT_MAX ≤ i → t.selectRows[i].select=0) := by
  rcases fdtPmuSetup_cases t map hroom with ⟨hmap,ret,hcall⟩ | ⟨hmap,hfit,s,ret,hcall,hs⟩ | ⟨hmap,hlong,hcall⟩
  · rw [hcall]
    refine iff_of_true ⟨_,ret,rfl,?_,?_⟩ fun h => absurd h hmap
    · rintro row - ⟨k,-,rfl⟩
      exact fdtPmuGetSelectValue_eq (fun i _ _ _ => rfl) (.inr rfl)
    · intro eventIdx _
      exact fdtPmuGetSelectValue_eq (fun i _ _ _ => rfl) (.inr rfl)
  · rw [hcall,hs.right_iff hnodup ret hfit]
    exact ⟨fun h _ => ⟨hfit,h⟩,fun h => (h hmap).2⟩
  · rw [hcall]
    refine iff_of_false ?_ fun h => absurd (h hmap).1 (by omega)
    rintro ⟨s,ret,heq,-⟩
    cases heq

def selectorBytes (i : Nat) : List (BitVec 8) := [BitVec.ofNat 32 (i+1),0,1].flatMap cellBytes

/-- A PMU with `n` events, each with selector 1. -/
def selectorTree (n : Nat) : Fdt :=
  [⟨0,[],[]⟩,
   ⟨1,cstr "pmu",[.prop .compatible (cstr "riscv,pmu" ++ [0]),
     .prop .eventToMhpmcounters ([1,1,0xff8].flatMap cellBytes),
     .prop .eventToMhpmevent ((List.range n).flatMap selectorBytes)]⟩]

def selectorRow (i : Nat) : FdtPmuSelect := ⟨BitVec.ofNat 32 (i+1),1⟩

theorem length_selectorBytes (n : Nat) : ((List.range n).flatMap selectorBytes).length=12*n := by
  simp [List.length_flatMap,selectorBytes,length_cellBytes,Nat.mul_comm]

theorem selectRow_selectorBytes {n i : Nat} (h : i<n) :
    selectRow ((List.range n).flatMap selectorBytes) i=selectorRow i := by
  obtain ⟨r,rfl⟩ := Nat.exists_eq_add_of_lt h
  have hcell : ∀ k c,[BitVec.ofNat 32 (i+1),0,1][k]?=some c →
      fdt32 ((List.range (i+r+1)).flatMap selectorBytes) (3*i+k)=c := by
    intro k c hc
    rw [Nat.add_assoc,List.range_add,List.flatMap_append,List.range_succ_eq_map,List.map_cons,List.flatMap_cons]
    have hskip := fdt32_append ((List.range i).flatMap selectorBytes)
      (selectorBytes i++((List.range r).map Nat.succ |>.map (i+·)).flatMap selectorBytes) k
      (by rw [length_selectorBytes]; omega)
    rw [length_selectorBytes,show 12*i/4+k=3*i+k by omega] at hskip
    exact hskip.trans (fdt32_flatMap hc _)
  rw [selectRow,selectorRow,hcell 1 0 rfl,hcell 2 1 rfl,← Nat.add_zero (3*i),hcell 0 _ rfl]
  rfl

theorem selectorTree_rows {n : Nat} (h : 0<n) :
    (selectorTree n).selectRows=(List.range n).map selectorRow := by
  have hpmu : ((selectorTree n).findIdx? fun n => n.compatible "riscv,pmu")=some 1 := rfl
  have hrows : pmuRows (selectorTree n) 1 .eventToMhpmevent=some ((List.range n).flatMap selectorBytes) := by
    apply Option.filter_eq_some_iff.mpr
    refine ⟨rfl,decide_eq_true ?_⟩
    rw [length_selectorBytes]
    omega
  rw [Fdt.selectRows,hpmu,Option.bind_some,hrows]
  dsimp only
  rw [length_selectorBytes,Nat.mul_div_cancel_left n (by decide)]
  apply List.map_congr_left
  intro i hi
  exact selectRow_selectorBytes (List.mem_range.mp hi)

theorem selectorRows_nodup {n : Nat} (h : n<2^32) :
    (((List.range n).map selectorRow).map FdtPmuSelect.eidx).Nodup := by
  rw [List.map_map]
  apply List.Nodup.map_on _ List.nodup_range
  intro i hi j hj heq
  have hnat := congrArg BitVec.toNat heq
  simp only [Function.comp_apply,selectorRow,BitVec.toNat_ofNat] at hnat
  rw [List.mem_range] at hi hj
  omega

theorem selectorTree_two : SelectorsRight (selectorTree 2).selectRows (fdtPmuSetup (selectorTree 2)
    (.initial .zero)) := by
  have hrows := selectorTree_rows (n := 2) (by decide)
  refine (fdtPmuSetup_selectors_iff (selectorTree 2) .zero (by decide) ?_).mpr fun _ => ⟨?_,?_⟩
  · rw [hrows]
    exact selectorRows_nodup (by decide)
  · rw [hrows]
    decide
  · intro i hi hle
    rw [hrows,List.length_map,List.length_range] at hi
    exact absurd (hle.trans hi.le) (by decide)

/-- With 65 events the selector of the last one is stored, and never found. -/
theorem lastSelector_lost :
    ¬∀ (t : Fdt) (map : HwEventTable),map.numHwEvents<SBI_PMU_HW_EVENT_MAX →
      (t.selectRows.map FdtPmuSelect.eidx).Nodup → SelectorsRight t.selectRows (fdtPmuSetup t (.initial map)) := by
  intro h
  have hrows := selectorTree_rows (n := 65) (by decide)
  have hnodup : ((selectorTree 65).selectRows.map FdtPmuSelect.eidx).Nodup := by
    rw [hrows]
    exact selectorRows_nodup (by decide)
  have hright := h (selectorTree 65) .zero (by decide) hnodup
  rcases fdtPmuSetup_cases (selectorTree 65) .zero (by decide) with
    ⟨hmap,-⟩ | ⟨-,hfit,s,ret,hcall,hs⟩ | ⟨-,hlong,-⟩
  · exact hmap rfl
  · rw [hcall,hs.right_iff hnodup ret hfit] at hright
    have hzero := hright 64 (by rw [hrows]; decide) (by decide)
    simp only [hrows,List.getElem_map] at hzero
    cases hzero
  · rw [hrows] at hlong
    exact absurd hlong (by decide)

end OpenSBI
