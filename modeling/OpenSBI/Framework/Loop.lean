import Mathlib.Data.List.Basic

namespace OpenSBI.Framework

variable {α σ : Type*}

/-- The rule of loops that can fail: an invariant of the elements done so far that every round
keeps, without failing, holds of the result. -/
theorem foldlM_rule {f : σ → α → Option σ} (I : List α → σ → Prop) {l : List α}
    (hstep : ∀ done a s,a∈l → I done s → ∃ s',f s a=some s' ∧ I (done++[a]) s')
    {s : σ} (h0 : I [] s) : ∃ s',l.foldlM f s=some s' ∧ I l s' := by
  suffices h : ∀ (rest done : List α) (s : σ),(∀ a∈rest,a∈l) → I done s →
      ∃ s',rest.foldlM f s=some s' ∧ I (done++rest) s' by
    exact h l [] s (fun _ => id) h0
  intro rest
  induction rest with
  | nil =>
    intro done s _ hs
    exact ⟨s,rfl,by rwa [List.append_nil]⟩
  | cons a rest ih =>
    intro done s hmem hs
    obtain ⟨s1,h1,hs1⟩ := hstep done a s (hmem a List.mem_cons_self) hs
    obtain ⟨s2,h2,hs2⟩ := ih (done++[a]) s1 (fun b hb => hmem b (List.mem_cons_of_mem a hb)) hs1
    refine ⟨s2,?_,by rwa [List.append_assoc] at hs2⟩
    rw [List.foldlM_cons,h1]
    exact h2

/-- What every round that succeeds keeps holds of the result of a loop that succeeds. -/
theorem foldlM_keeps {f : σ → α → Option σ} {P : σ → Prop} {l : List α}
    (hstep : ∀ a∈l,∀ s s',P s → f s a=some s' → P s') {s s' : σ} (hs : P s)
    (h : l.foldlM f s=some s') : P s' := by
  induction l generalizing s with
  | nil =>
    cases h
    exact hs
  | cons a l ih =>
    rw [List.foldlM_cons] at h
    obtain ⟨s1,h1,h2⟩ := Option.bind_eq_some_iff.mp h
    exact ih (fun b hb => hstep b (List.mem_cons_of_mem a hb)) (hstep a List.mem_cons_self s s1 hs h1) h2

/-- A search whose test never fails is the search of the test's answers. -/
theorem findM?_eq_find? {α : Type} {p : α → Option Bool} {q : α → Bool} {l : List α}
    (h : ∀ a∈l,p a=some (q a)) : l.findM? p=some (l.find? q) := by
  induction l with
  | nil => rfl
  | cons a l ih =>
    have ha := h a List.mem_cons_self
    have hl := ih fun b hb => h b (List.mem_cons_of_mem a hb)
    rw [List.findM?,ha]
    cases hq : q a with
    | true => rw [List.find?_cons_of_pos hq]; rfl
    | false => rw [List.find?_cons_of_neg (by simp [hq])]; exact hl

end OpenSBI.Framework
