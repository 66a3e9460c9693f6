import OpenSBI.Framework.Transition

namespace OpenSBI.Framework

/-! ## Two runs of a program that can fail -/

section Programs

variable {α β γ δ : Type*} {r : α → β → Prop} {q : γ → δ → Prop}

/-- Related computations go on to related ones. -/
theorem optionRel_bind {o : Option α} {o' : Option β} {f : α → Option γ} {g : β → Option δ}
    (h : Option.Rel r o o') (hf : ∀ a b,r a b → Option.Rel q (f a) (g b)) :
    Option.Rel q (o.bind f) (o'.bind g) := by
  cases h with
  | none => exact .none
  | some hab => exact hf _ _ hab

/-- One value read on both sides. -/
theorem optionRel_bind_self {o : Option α} {f : α → Option γ} {g : α → Option δ}
    (hf : ∀ a,o=some a → Option.Rel q (f a) (g a)) : Option.Rel q (o.bind f) (o.bind g) := by
  cases o with
  | none => exact .none
  | some a => exact hf a rfl

theorem optionRel_map {o : Option α} {o' : Option β} {f : α → γ} {g : β → δ}
    (h : Option.Rel r o o') (hf : ∀ a b,r a b → q (f a) (g b)) :
    Option.Rel q (o.map f) (o'.map g) := by
  cases h with
  | none => exact .none
  | some hab => exact .some (hf _ _ hab)

/-- A loop over one list keeps the relation that each of its rounds keeps. -/
theorem optionRel_foldlM {ι : Type*} {f : α → ι → Option α} {g : β → ι → Option β} {l : List ι}
    (hf : ∀ i∈l,∀ a b,r a b → Option.Rel r (f a i) (g b i)) {a : α} {b : β} (h : r a b) :
    Option.Rel r (l.foldlM f a) (l.foldlM g b) := by
  induction l generalizing a b with
  | nil => exact .some h
  | cons i l ih =>
    rw [List.foldlM_cons,List.foldlM_cons]
    exact optionRel_bind (hf i List.mem_cons_self a b h) fun a' b' hab =>
      ih (fun j hj => hf j (List.mem_cons_of_mem i hj)) hab

end Programs

/-! ## Two runs of a machine -/

namespace Machine

variable {σ ι ε : Type*} {M : Machine σ ι ε} {R : σ → σ → Prop}

/-- The events of a list of actions, one entry each; an action that is not enabled ends it. -/
def answers (M : Machine σ ι ε) : σ → List ι → List (Option (List ε))
  | _,[] => []
  | s,a::as =>
    match M.step s a with
    | none => [none]
    | some (s',ev) => some ev::M.answers s' as

/-- A relation that every action keeps, with the same events on both sides. -/
def Bisimilar (M : Machine σ ι ε) (R : σ → σ → Prop) : Prop :=
  ∀ s s' a,R s s' → Option.Rel (fun r r' => R r.1 r'.1 ∧ r.2=r'.2) (M.step s a) (M.step s' a)

/-- States that are bisimilar cannot be told apart by what follows. -/
theorem Bisimilar.answers_eq (hR : M.Bisimilar R) {s s' : σ} (h : R s s') (as : List ι) :
    M.answers s as=M.answers s' as := by
  induction as generalizing s s' with
  | nil => rfl
  | cons a as ih =>
    have hstep := hR s s' a h
    rw [answers,answers]
    cases h1 : M.step s a with
    | none =>
      rw [h1] at hstep
      cases h2 : M.step s' a with
      | none => rfl
      | some r' => rw [h2] at hstep; cases hstep
    | some r =>
      rw [h1] at hstep
      cases h2 : M.step s' a with
      | none => rw [h2] at hstep; cases hstep
      | some r' =>
        rw [h2] at hstep
        cases hstep with
        | some hrel =>
          dsimp only
          rw [hrel.2,ih hrel.1]

end Machine
end OpenSBI.Framework
