import OpenSBI.Framework.Transition

namespace OpenSBI.Framework

variable {σ ι ε : Type*}

/-- An infinite execution. Where `act` is `none` nothing happens, so the finite runs are among
them. -/
structure Execution (M : Machine σ ι ε) where
  state : Nat → σ
  act : Nat → Option ι
  ev : Nat → List ε
  stutter : ∀ n,act n=none → state (n+1)=state n ∧ ev n=[]
  step : ∀ n a,act n=some a → M.step (state n) a=some (state (n+1),ev n)

namespace Execution

variable {M : Machine σ ι ε} {E : Execution M} {A : ι → Prop} {P : σ → Prop} {goal : Nat → Prop}

/-- Some action of the class `A` is taken again and again unless all of them are disabled again and
again. -/
def WeaklyFair (E : Execution M) (A : ι → Prop) : Prop :=
  ∀ n,(∀ m,n ≤ m → ∃ a,A a ∧ (M.step (E.state m) a).isSome=true) →
    ∃ m a,n ≤ m ∧ E.act m=some a ∧ A a

/-- What every step preserves holds along an execution that starts with it. -/
theorem invariant (hstep : ∀ s a s' ev,P s → M.step s a=some (s',ev) → P s')
    (h0 : P (E.state 0)) (n : Nat) : P (E.state n) := by
  induction n with
  | zero => exact h0
  | succ n ih =>
    cases ha : E.act n with
    | none => rw [(E.stutter n ha).1]; exact ih
    | some a => exact hstep _ a _ _ ih (E.step n a ha)

/-- The rule of weak fairness: what keeps an action of the class enabled until the goal leads to the
goal, when these actions reach it. -/
theorem WeaklyFair.leads (hfair : E.WeaklyFair A)
    (hkeep : ∀ n,P (E.state n) → goal n ∨ P (E.state (n+1)))
    (hen : ∀ s,P s → ∃ a,A a ∧ (M.step s a).isSome=true)
    (hact : ∀ n a,P (E.state n) → E.act n=some a → A a → goal n) {n : Nat}
    (hn : P (E.state n)) : ∃ m,n ≤ m ∧ goal m := by
  by_contra hnone
  push Not at hnone
  have hall : ∀ m,n ≤ m → P (E.state m) := by
    intro m hm
    induction m,hm using Nat.le_induction with
    | base => exact hn
    | succ m hm ih => exact (hkeep m ih).resolve_left (hnone m hm)
  obtain ⟨m,a,hm,ha,hA⟩ := hfair n fun m hm => hen _ (hall m hm)
  exact hnone m hm (hact m a (hall m hm) ha hA)

/-- The rule of weak fairness with a rank: what keeps an action of the class enabled and the rank
from growing leads to the goal, when these actions reach it or lower the rank. -/
theorem WeaklyFair.leads_of_rank (hfair : E.WeaklyFair A) {Q : Nat → Prop} (rank : Nat → Nat)
    (hen : ∀ n,Q n → ∃ a,A a ∧ (M.step (E.state n) a).isSome=true)
    (hkeep : ∀ n,Q n → goal n ∨ Q (n+1) ∧ rank (n+1)≤rank n)
    (hact : ∀ n a,Q n → E.act n=some a → A a → goal n ∨ Q (n+1) ∧ rank (n+1)<rank n) {n : Nat}
    (hn : Q n) : ∃ m,n ≤ m ∧ goal m := by
  induction hr : rank n using Nat.strong_induction_on generalizing n with
  | h r ih =>
    by_contra hnone
    push Not at hnone
    have hall : ∀ m,n ≤ m → Q m ∧ rank m≤rank n := by
      intro m hm
      induction m,hm using Nat.le_induction with
      | base => exact ⟨hn,Nat.le_refl _⟩
      | succ m hm ihm =>
        obtain ⟨hq,hle⟩ := (hkeep m ihm.1).resolve_left (hnone m hm)
        exact ⟨hq,hle.trans ihm.2⟩
    obtain ⟨m,a,hm,ha,hA⟩ := hfair n fun m hm => hen m (hall m hm).1
    obtain ⟨hq,hlt⟩ := (hact m a (hall m hm).1 ha hA).resolve_left (hnone m hm)
    obtain ⟨m',hm',hg⟩ := ih _ (hr ▸ hlt.trans_le (hall m hm).2) hq rfl
    exact hnone m' (by omega) hg

/-- The rule of ranks: what leads to the goal or to itself with a smaller rank leads to the goal. -/
theorem leads_of_rank (rank : σ → Nat)
    (h : ∀ n,P (E.state n) → ∃ m,n ≤ m ∧
      (goal m ∨ P (E.state (m+1)) ∧ rank (E.state (m+1))<rank (E.state n)))
    {n : Nat} (hn : P (E.state n)) : ∃ m,n ≤ m ∧ goal m := by
  induction hr : rank (E.state n) using Nat.strong_induction_on generalizing n with
  | h r ih =>
    obtain ⟨m,hm,hg | ⟨hp,hlt⟩⟩ := h n hn
    · exact ⟨m,hm,hg⟩
    · obtain ⟨m',hm',hg⟩ := ih _ (hr ▸ hlt) hp rfl
      exact ⟨m',by omega,hg⟩

end Execution

/-! ## Finite beginnings -/

namespace Execution

variable {M : Machine σ ι ε} {E : Execution M} {ok : σ → ι → σ → Prop}

/-- The trace of the first `n` steps. -/
def trace (E : Execution M) (n : Nat) : List ε := (List.range n).flatMap E.ev

theorem trace_succ (E : Execution M) (n : Nat) : E.trace (n+1)=E.trace n++E.ev n := by
  simp [trace,List.range_succ]

/-- The first steps of an execution are a run. -/
theorem run (hok : ∀ n a,E.act n=some a → ok (E.state n) a (E.state (n+1))) (n : Nat) :
    M.Run ok (E.state 0) (E.trace n) (E.state n) := by
  induction n with
  | zero => exact .nil
  | succ n ih =>
    rw [trace_succ]
    cases ha : E.act n with
    | none =>
      obtain ⟨hs,hev⟩ := E.stutter n ha
      rwa [hs,hev,List.append_nil]
    | some a => exact .snoc ih (E.step n a ha) (hok n a ha)

end Execution

/-! ## Executions that come to rest -/

namespace Execution

variable {M : Machine σ ι ε} {E : Execution M} {A : ι → Prop}

/-- The execution in which nothing happens. -/
def rest (M : Machine σ ι ε) (s : σ) : Execution M where
  state _ := s
  act _ := none
  ev _ := []
  stutter _ _ := ⟨rfl,rfl⟩
  step _ _ ha := by cases ha

/-- An execution with one step in front of it. -/
def cons (E : Execution M) {s : σ} {a : ι} {ev : List ε}
    (h : M.step s a=some (E.state 0,ev)) : Execution M where
  state n := n.casesOn s E.state
  act n := n.casesOn (some a) E.act
  ev n := n.casesOn ev E.ev
  stutter n hn := by
    cases n with
    | zero => cases hn
    | succ n => exact E.stutter n hn
  step n b hb := by
    cases n with
    | zero => cases hb; exact h
    | succ n => exact E.step n b hb

/-- The execution replays the actions, leaves their trace and stays in the last state. -/
structure Replays (E : Execution M) (s s' : σ) (as : List ι) (t : List ε) : Prop where
  first : E.state 0=s
  last : ∀ n,as.length≤n → E.state n=s'
  trace : ∀ e,e∈t ↔ ∃ n,e∈E.ev n

theorem exists_of_replay {ok : σ → ι → σ → Bool} {s s' : σ} {as : List ι} {t : List ε}
    (h : M.replay ok s as=some (s',t)) : ∃ E : Execution M,E.Replays s s' as t ∧
      ∀ n a,E.act n=some a → ok (E.state n) a (E.state (n+1))=true := by
  induction as generalizing s t with
  | nil =>
    obtain ⟨rfl,rfl⟩ := Prod.mk.inj (Option.some.inj h)
    exact ⟨rest M s,⟨rfl,fun _ _ => rfl,fun e => by simp [rest]⟩,fun n a ha => by cases ha⟩
  | cons a as ih =>
    rw [Machine.replay] at h
    cases hs : M.step s a with
    | none => simp [hs] at h
    | some r =>
      obtain ⟨s1,ev⟩ := r
      simp only [hs] at h
      split_ifs at h with hok
      obtain ⟨⟨s2,t2⟩,hrep,heq⟩ := Option.map_eq_some_iff.mp h
      obtain ⟨rfl,rfl⟩ := Prod.mk.inj heq
      obtain ⟨E,hE,hact⟩ := ih hrep
      have hcons : M.step s a=some (E.state 0,ev) := by rw [hE.first]; exact hs
      refine ⟨E.cons hcons,⟨rfl,?_,?_⟩,fun n b hb => ?_⟩
      · intro n hn
        cases n with
        | zero => exact absurd hn (Nat.not_succ_le_zero _)
        | succ n => exact hE.last n (Nat.le_of_succ_le_succ hn)
      · intro e
        rw [List.mem_append,hE.trace e]
        constructor
        · rintro (he | ⟨n,he⟩)
          · exact ⟨0,he⟩
          · exact ⟨n+1,he⟩
        · rintro ⟨n,he⟩
          cases n with
          | zero => exact .inl he
          | succ n => exact .inr ⟨n,he⟩
      · cases n with
        | zero =>
          cases hb
          rw [← hE.first] at hok
          exact hok
        | succ n => exact hact n b hb

/-- An execution that comes to rest is fair to the actions its last state disables. -/
theorem Replays.weaklyFair {s s' : σ} {as : List ι} {t : List ε} (hE : E.Replays s s' as t)
    (h : ∀ a,A a → M.step s' a=none) : E.WeaklyFair A := by
  intro n hen
  obtain ⟨a,ha,hs⟩ := hen (n+as.length) (Nat.le_add_right _ _)
  rw [hE.last _ (Nat.le_add_left _ _),h a ha] at hs
  cases hs

end Execution

end OpenSBI.Framework
