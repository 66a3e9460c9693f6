import OpenSBI.Fdt.Fixup

namespace OpenSBI

/-- A node with its status set. -/
def FdtNode.disable (n : FdtNode) : FdtNode := n.setprop .status disabledValue

section Node

variable {n : FdtNode} {L : FdtLayout} {name : PropName}

theorem map_replaceProp {β : Type} {g : FdtItem → β} {i : FdtItem} {w : List (BitVec 8)} {l : List FdtItem}
    (h : l.findSome? (FdtItem.value name)=some w) (hg : g i=g (.prop name w)) :
    (replaceProp name (fun _ => [i]) l).map g=l.map g := by
  induction l with
  | nil => cases h
  | cons a l ih =>
    rw [replaceProp]
    rw [List.findSome?_cons] at h
    cases ha : a.value name with
    | none =>
      rw [ha] at h
      simp only [List.map_cons,ih h]
    | some v =>
      rw [ha] at h
      cases h
      cases a with
      | nop => cases ha
      | prop n u =>
        rw [FdtItem.value] at ha
        split_ifs at ha with hn
        cases ha
        subst hn
        simp only [List.cons_append,List.nil_append,List.map_cons,hg]

theorem status_disable : n.disable.getprop .status=some disabledValue := by
  unfold FdtNode.disable FdtNode.setprop
  split_ifs with h
  · exact findSome?_replaceProp_self h
  · rfl

theorem core_disable : n.disable.core=n.core := by
  unfold FdtNode.disable FdtNode.setprop FdtNode.core
  split_ifs with h
  · rw [filter_replaceProp (fun _ => rfl)]
    intro _ i hi
    rw [List.mem_singleton.mp hi]
    rfl
  · rfl

theorem disable_disable : n.disable.disable=n.disable := by
  have hs := status_disable (n := n)
  have hmap := map_replaceProp (g := id) (i := .prop .status disabledValue) hs rfl
  rw [FdtNode.disable,FdtNode.setprop,if_pos (by rw [hs]; rfl)]
  simp only [List.map_id] at hmap
  rw [hmap]

/-- A status that takes the place of the new one. -/
def FdtNode.Fitting (n : FdtNode) : Prop := ∃ v,n.getprop .status=some v ∧ (v.length+3)/4=3

theorem parts_disable (h : n.Fitting) :
    (n.disable.parts L).map List.length=(n.parts L).map List.length := by
  obtain ⟨v,hv,hlen⟩ := h
  have hmap := map_replaceProp (g := fun i => (i.cells L).length) (i := .prop .status disabledValue) hv
    (by simp only [FdtItem.cells,valueCells,List.length_cons,List.length_map,List.length_range,hlen]; rfl)
  rw [FdtNode.disable,FdtNode.setprop,if_pos (by rw [hv]; rfl)]
  simp only [FdtNode.parts,List.map_cons,List.map_map]
  exact congrArg _ hmap

theorem propPlace_disable (h : n.Fitting) (hne : name≠.status) :
    n.disable.propPlace L name=n.propPlace L name := by
  obtain ⟨v,hv,-⟩ := id h
  have hmap := map_replaceProp (g := fun i => (i.value name).isSome) (i := .prop .status disabledValue) hv
    (by simp only [FdtItem.value,Ne.symm hne,if_false])
  have hindex : n.disable.propIndex name=n.propIndex name := by
    rw [FdtNode.disable,FdtNode.setprop,if_pos (by rw [hv]; rfl)]
    have hid : ∀ l : List FdtItem,(l.findIdx fun i => (i.value name).isSome)=
        (l.map fun i => (i.value name).isSome).findIdx id := by
      intro l
      rw [List.findIdx_map]
      rfl
    simp only [FdtNode.propIndex,hid,hmap]
  rw [FdtNode.propPlace,FdtNode.propPlace,place,place,parts_disable h,hindex]

end Node

/-! ## The tree with some nodes disabled -/

/-- The nodes of `D` are disabled, the other ones are as they were. -/
structure Disabled (t : Fdt) (D : Nat → Prop) (u : Fdt) : Prop where
  disabled : ∀ j,D j → u[j]?=t[j]?.map FdtNode.disable
  others : ∀ j,¬D j → u[j]?=t[j]?

/-- The status of a node takes another number of cells than the new one. -/
def Fdt.Resizes (t : Fdt) (j : Nat) : Prop := ∀ n,t[j]?=some n → ¬n.Fitting

section Disabled

variable {t u w : Fdt} {D E : Nat → Prop} {L : FdtLayout}

theorem Disabled.refl (t : Fdt) (hD : ∀ j,¬D j) : Disabled t D t :=
  ⟨fun j hj => absurd hj (hD j),fun _ _ => rfl⟩

theorem Disabled.congr (h : Disabled t D u) (hDE : ∀ j,D j ↔ E j) : Disabled t E u :=
  ⟨fun j hj => h.disabled j ((hDE j).mpr hj),fun j hj => h.others j (mt (hDE j).mp hj)⟩

/-- One more node. -/
theorem Disabled.modify (h : Disabled t D u) (c : Nat) :
    Disabled t (fun j => D j ∨ j=c) (u.modify c FdtNode.disable) := by
  refine ⟨fun j hj => ?_,fun j hj => ?_⟩
  · rw [List.getElem?_modify]
    by_cases hD : D j
    · rw [h.disabled j hD]
      cases t[j]? with
      | none => rfl
      | some n => split_ifs <;> simp [disable_disable]
    · obtain rfl := hj.resolve_left hD
      rw [h.others j hD]
      cases t[j]? <;> simp
  · rw [not_or] at hj
    rw [List.getElem?_modify,h.others j hj.1]
    simp only [if_neg (Ne.symm hj.2)]
    cases t[j]? <;> rfl

theorem Disabled.core (h : Disabled t D u) : u.core=t.core := by
  apply List.ext_getElem?
  intro j
  rw [Fdt.core,Fdt.core,List.getElem?_map,List.getElem?_map]
  by_cases hD : D j
  · rw [h.disabled j hD,Option.map_map]
    congr 1
    funext n
    exact core_disable
  · rw [h.others j hD]

theorem Disabled.status (h : Disabled t D u) {j : Nat} (hj : D j) (hlt : j<t.length) :
    u.getprop j .status=some disabledValue := by
  rw [Fdt.getprop,h.disabled j hj,List.getElem?_eq_getElem hlt]
  exact status_disable

theorem place_congr {α : Type} {l l' : List (List α)} {d : Nat}
    (h : ∀ i,i<d → (l[i]?).map List.length=(l'[i]?).map List.length) : place l d=place l' d := by
  rw [place,place]
  congr 1
  apply List.ext_getElem?
  intro i
  rw [List.getElem?_take,List.getElem?_take,List.getElem?_map,List.getElem?_map]
  split_ifs with hi
  · exact h i hi
  · rfl

/-- The value of a property of node `d` does not move while no node in front of it, or itself, gets another
size. -/
theorem position_disabled (hu : Disabled t D u) (hw : Disabled t E w) (hDE : ∀ j,D j → E j) {d : Nat}
    {name : PropName} (hsize : ∀ j,E j → ¬D j → t.Resizes j → d<j) (hne : name≠.status) :
    L.position u d name=L.position w d name := by
  have hnode : ∀ i,i≤d → u[i]?=w[i]? ∨ ∃ n,n.Fitting ∧ u[i]?=some n ∧ w[i]?=some n.disable := by
    intro i hi
    by_cases hE : E i
    · by_cases hD : D i
      · exact .inl ((hu.disabled i hD).trans (hw.disabled i hE).symm)
      · have hfit : ¬t.Resizes i := fun hr => absurd (hsize i hE hD hr) (not_lt.mpr hi)
        unfold Fdt.Resizes at hfit
        push Not at hfit
        obtain ⟨n,hn,hf⟩ := hfit
        refine .inr ⟨n,hf,(hu.others i hD).trans hn,?_⟩
        rw [hw.disabled i hE,hn]
        rfl
    · exact .inl ((hu.others i fun h => hE (hDE i h)).trans (hw.others i hE).symm)
  rw [FdtLayout.position,FdtLayout.position]
  congr 1
  · apply place_congr
    intro i hi
    rw [FdtLayout.segments,FdtLayout.segments,List.getElem?_mapIdx,List.getElem?_mapIdx]
    rcases hnode i hi.le with h | ⟨n,hf,hui,hwi⟩
    · rw [h]
    · rw [hui,hwi]
      simp only [Option.map_some,List.length_append,List.length_flatten,parts_disable hf]
  · rcases hnode d le_rfl with h | ⟨n,hf,hui,hwi⟩
    · rw [h]
    · rw [hui,hwi]
      simp only [Option.map_some,propPlace_disable hf hne]

end Disabled
end OpenSBI
