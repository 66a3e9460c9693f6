import Mathlib.Data.List.Basic
import Mathlib.Order.WellFounded

namespace OpenSBI.Framework

/-- A guarded, executable transition system: `step s a` is the state after action `a` and the
events it leaves in the trace, `none` when the action is not enabled. -/
structure Machine (σ ι ε : Type*) where
  step : σ → ι → Option (σ × List ε)

namespace Machine

variable {σ ι ε : Type*} {M : Machine σ ι ε} {ok ok' : σ → ι → σ → Prop}

/-- The runs all of whose steps meet the condition `ok`. -/
inductive Run (M : Machine σ ι ε) (ok : σ → ι → σ → Prop) (s : σ) : List ε → σ → Prop where
  | nil : Run M ok s [] s
  | snoc {t : List ε} {s1 s2 : σ} {a : ι} {ev : List ε} :
      Run M ok s t s1 → M.step s1 a=some (s2,ev) → ok s1 a s2 → Run M ok s (t++ev) s2

/-- The condition every step meets. -/
def anyStep (_ : σ) (_ : ι) (_ : σ) : Prop := True

theorem Run.single {s s' : σ} {a : ι} {ev : List ε} (h : M.step s a=some (s',ev))
    (hok : ok s a s') : Run M ok s ev s' :=
  Run.snoc (t := []) .nil h hok

theorem Run.trans {s s1 s2 : σ} {t1 t2 : List ε} (h1 : Run M ok s t1 s1)
    (h2 : Run M ok s1 t2 s2) : Run M ok s (t1++t2) s2 := by
  induction h2 with
  | nil => rwa [List.append_nil]
  | snoc _ hstep hok ih => rw [← List.append_assoc]; exact .snoc ih hstep hok

theorem Run.mono (hmono : ∀ s a s',ok s a s' → ok' s a s') {s s' : σ} {t : List ε}
    (h : Run M ok s t s') : Run M ok' s t s' := by
  induction h with
  | nil => exact .nil
  | snoc _ hstep hok ih => exact .snoc ih hstep (hmono _ _ _ hok)

/-- The rule of invariants: what every step that meets the condition preserves holds after every
run that starts with it. -/
theorem Run.invariant {P : σ → Prop}
    (hstep : ∀ s a s' ev,P s → M.step s a=some (s',ev) → ok s a s' → P s')
    {s s' : σ} {t : List ε} (h : Run M ok s t s') (hs : P s) : P s' := by
  induction h with
  | nil => exact hs
  | snoc _ hst hok ih => exact hstep _ _ _ _ ih hst hok

/-- The rule of traces: a relation between the trace so far and the state that every step keeps
holds along every run. -/
theorem Run.traceInvariant {P : List ε → σ → Prop}
    (hstep : ∀ t s a s' ev,P t s → M.step s a=some (s',ev) → ok s a s' → P (t++ev) s')
    {s s' : σ} {t : List ε} (h : Run M ok s t s') (hs : P [] s) : P t s' := by
  induction h with
  | nil => exact hs
  | snoc _ hst hok ih => exact hstep _ _ _ _ _ ih hst hok

/-- An invariant of the runs can help to weaken the condition of their steps. -/
theorem Run.mono_of_invariant {P : σ → Prop}
    (hstep : ∀ s a s' ev,P s → M.step s a=some (s',ev) → ok s a s' → P s')
    (hmono : ∀ s a s',P s → ok s a s' → ok' s a s') {s s' : σ} {t : List ε}
    (h : Run M ok s t s') (hs : P s) : Run M ok' s t s' := by
  induction h with
  | nil => exact .nil
  | snoc hrun hst hok ih => exact .snoc ih hst (hmono _ _ _ (hrun.invariant hstep hs) hok)

/-- The rule of progress: when from every state with `P` some step leaves the event `e`, or keeps
`P` and lowers the measure, a run to the event exists. -/
theorem exists_event {α : Type*} [Preorder α] [WellFoundedLT α] {P : σ → Prop} {e : ε}
    (μ : σ → α) (h : ∀ s,P s → ∃ a s' ev,M.step s a=some (s',ev) ∧ (e∈ev ∨ P s' ∧ μ s'<μ s))
    {s : σ} (hs : P s) : ∃ t s',Run M anyStep s t s' ∧ e∈t := by
  induction hm : μ s using WellFoundedLT.induction generalizing s with
  | ind m ih =>
    obtain ⟨a,s1,ev,hstep,he | ⟨h1,hlt⟩⟩ := h s hs
    · exact ⟨ev,s1,.single hstep trivial,he⟩
    · obtain ⟨t,s2,hrun,ht⟩ := ih (μ s1) (hm ▸ hlt) h1 rfl
      exact ⟨ev++t,s2,(Run.single hstep trivial).trans hrun,List.mem_append_right ev ht⟩

/-- Replaying a list of actions, as long as every step meets the condition. -/
def replay (M : Machine σ ι ε) (ok : σ → ι → σ → Bool) : σ → List ι → Option (σ × List ε)
  | s,[] => some (s,[])
  | s,a::as =>
      match M.step s a with
      | none => none
      | some (s1,ev) =>
          if ok s a s1 then (M.replay ok s1 as).map (fun r => (r.1,ev++r.2)) else none

theorem run_of_replay {ok : σ → ι → σ → Bool} {s s' : σ} {as : List ι} {t : List ε}
    (h : M.replay ok s as=some (s',t)) : Run M (fun s a s' => ok s a s'=true) s t s' := by
  induction as generalizing s t with
  | nil =>
    obtain ⟨rfl,rfl⟩ := Prod.mk.inj (Option.some.inj h)
    exact .nil
  | cons a as ih =>
    rw [replay] at h
    cases hs : M.step s a with
    | none => simp [hs] at h
    | some r =>
      obtain ⟨s1,ev⟩ := r
      simp only [hs] at h
      split_ifs at h with hok
      obtain ⟨⟨s2,t2⟩,hrep,heq⟩ := Option.map_eq_some_iff.mp h
      obtain ⟨rfl,rfl⟩ := Prod.mk.inj heq
      exact (Run.single hs hok).trans (ih hrep)

/-- What a replay computes of its last state and trace holds of some run. -/
theorem exists_run {ok : σ → ι → σ → Bool} {s : σ} {as : List ι} {p : σ → List ε → Bool}
    (h : (M.replay ok s as).any (fun r => p r.1 r.2)=true) :
    ∃ s' t,Run M (fun s a s' => ok s a s'=true) s t s' ∧ p s' t=true := by
  cases hr : M.replay ok s as with
  | none => rw [hr] at h; cases h
  | some r =>
    rw [hr] at h
    exact ⟨r.1,r.2,run_of_replay hr,h⟩

end Machine
end OpenSBI.Framework
