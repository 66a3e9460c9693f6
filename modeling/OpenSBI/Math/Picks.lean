import Mathlib.Data.List.Perm.Subperm

namespace OpenSBI.Math

variable {α β : Type*} {f : α → Option β}

/-- Distinct members can be picked for the images in `w` exactly when these are among the images of all
members, each as often as in `w`. -/
theorem exists_picks_iff {l : List α} (hl : l.Nodup) (w : List β) :
    (∃ picks : List α,picks.Nodup ∧ (∀ a∈picks,a∈l) ∧ picks.map f=w.map some) ↔ w.Subperm (l.filterMap f) := by
  classical
  constructor
  · rintro ⟨picks,hnodup,hmem,hmap⟩
    have hw : picks.filterMap f=w := by
      have hid := congrArg (List.filterMap id) hmap
      simpa [List.filterMap_map,Function.comp_def] using hid
    obtain ⟨l',hperm,hsub⟩ := hnodup.subperm hmem
    rw [← hw]
    exact ⟨l'.filterMap f,hperm.filterMap f,hsub.filterMap f⟩
  · intro h
    induction w generalizing l with
    | nil => exact ⟨[],List.nodup_nil,List.forall_mem_nil _,rfl⟩
    | cons b w ih =>
      obtain ⟨a,ha,hfa⟩ := List.mem_filterMap.mp (h.subset List.mem_cons_self)
      have hperm := (List.perm_cons_erase ha).filterMap f
      rw [List.filterMap_cons_some hfa] at hperm
      have hrest := (List.subperm_cons b).mp (hperm.subperm_left.mp h)
      obtain ⟨picks,hnodup,hmem,hmap⟩ := ih (hl.erase a) hrest
      refine ⟨a::picks,List.nodup_cons.mpr ⟨fun hmem' => hl.not_mem_erase (hmem a hmem'),hnodup⟩,?_,?_⟩
      · intro c hc
        rcases List.mem_cons.mp hc with rfl | hc
        · exact ha
        · exact List.mem_of_mem_erase (hmem c hc)
      · rw [List.map_cons,List.map_cons,hmap,hfa]

/-- Who is given what he wants has no part in the comparison. -/
theorem subperm_missed_iff (own : α → Option β) (want : α → β) (p : α → Bool)
    (hp : ∀ a,p a=true ↔ own a=some (want a)) (l : List α) (old : List β) :
    (l.map want).Subperm (l.filterMap own++old) ↔
      ((l.filter fun a => !p a).map want).Subperm ((l.filter fun a => !p a).filterMap own++old) := by
  have hperm := List.filter_append_perm p l
  have hown : (l.filter p).filterMap own=(l.filter p).map want := by
    rw [← List.filterMap_eq_map]
    apply List.filterMap_congr
    intro a ha
    exact (hp a).mp (List.mem_filter.mp ha).2
  have hleft := hperm.map want
  have hright := (hperm.filterMap own).append_right old
  rw [List.map_append] at hleft
  rw [List.filterMap_append,hown,List.append_assoc] at hright
  rw [← hleft.subperm_right,← hright.subperm_left]
  exact List.subperm_append_left _

theorem filterMap_single (f : α → Option β) (a : α) : [a].filterMap f=(f a).toList := by
  cases h : f a with
  | none => rw [List.filterMap_cons_none h]; rfl
  | some b => rw [List.filterMap_cons_some h]; rfl

end OpenSBI.Math
