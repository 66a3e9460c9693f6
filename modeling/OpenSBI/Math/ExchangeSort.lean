import Mathlib.Data.List.Chain
import Mathlib.Tactic.Common

namespace OpenSBI.Math

variable {α : Type*}

/-- One round of an exchange sort that also checks each pair it compares. `m` is the content of
the slot being settled; the round ends early, with `true`, at the first pair `stop` accepts. -/
def sweep (stop before : α → α → Bool) (m : α) : List α → Bool × α × List α
  | [] => (false,m,[])
  | r::rest =>
      if stop r m then (true,m,r::rest)
      else if before r m then
        let s := sweep stop before r rest
        (s.1,s.2.1,m::s.2.2)
      else
        let s := sweep stop before m rest
        (s.1,s.2.1,r::s.2.2)

def exchangeRounds (stop before : α → α → Bool) : Nat → List α → Bool × List α
  | 0,l => (false,l)
  | _+1,[] => (false,[])
  | n+1,m::rest =>
      let s := sweep stop before m rest
      if s.1 then (true,s.2.1::s.2.2)
      else
        let t := exchangeRounds stop before n s.2.2
        (t.1,s.2.1::t.2)

/-- Exchange sort in place. The list is returned as it stands also when a pair was refused. -/
def exchangeSort (stop before : α → α → Bool) (l : List α) : Bool × List α :=
  exchangeRounds stop before l.length l

variable (stop before : α → α → Bool)

theorem sweep_perm (m : α) (l : List α) :
    ((sweep stop before m l).2.1::(sweep stop before m l).2.2).Perm (m::l) := by
  induction l generalizing m with
  | nil => exact List.Perm.refl _
  | cons r rest ih =>
    simp only [sweep]
    split_ifs with hs hb
    · exact List.Perm.refl _
    · exact (List.Perm.swap _ _ _).trans ((ih r).cons m)
    · exact (List.Perm.swap _ _ _).trans (((ih m).cons r).trans (List.Perm.swap _ _ _))

theorem sweep_length (m : α) (l : List α) : (sweep stop before m l).2.2.length=l.length := by
  have h := (sweep_perm stop before m l).length_eq
  simpa using h

theorem exchangeRounds_perm (n : Nat) (l : List α) :
    (exchangeRounds stop before n l).2.Perm l := by
  induction n generalizing l with
  | zero => exact List.Perm.refl _
  | succ n ih =>
    cases l with
    | nil => exact List.Perm.refl _
    | cons m rest =>
      have hs := sweep_perm stop before m rest
      simp only [exchangeRounds]
      split_ifs
      · exact hs
      · exact ((ih _).cons _).trans hs

/-- Sorting only rearranges, whether or not a pair was refused. -/
theorem exchangeSort_perm (l : List α) : (exchangeSort stop before l).2.Perm l :=
  exchangeRounds_perm stop before l.length l

variable {stop before}

/-- The comparison is a strict weak order. -/
structure StrictWeak (before : α → α → Bool) : Prop where
  asymm : ∀ a b,before a b=true → before b a=false
  split : ∀ a b c,before a c=true → before a b=true ∨ before b c=true

theorem StrictWeak.irrefl (h : StrictWeak before) (a : α) : before a a=false := by
  cases ha : before a a with
  | false => rfl
  | true => rw [← ha]; exact h.asymm a a ha

/-- "Not after" is transitive. -/
theorem StrictWeak.trans (h : StrictWeak before) {a b c : α} (hab : before b a=false)
    (hbc : before c b=false) : before c a=false := by
  cases hca : before c a with
  | false => rfl
  | true =>
    rcases h.split c b a hca with hb | ha
    · rw [hbc] at hb; exact hb.symm
    · rw [hab] at ha; exact ha.symm

/-- After a completed round nothing goes before the settled element. -/
theorem sweep_settles (hw : StrictWeak before) (m : α) (l : List α)
    (hs : (sweep stop before m l).1=false) :
    before m (sweep stop before m l).2.1=false ∧
      ∀ y∈(sweep stop before m l).2.2,before y (sweep stop before m l).2.1=false := by
  induction l generalizing m with
  | nil => exact ⟨hw.irrefl m,by simp [sweep]⟩
  | cons r rest ih =>
    simp only [sweep] at hs ⊢
    split_ifs at hs ⊢ with h1 h2
    · obtain ⟨hr,hl⟩ := ih r hs
      have hm : before m (sweep stop before r rest).2.1=false :=
        hw.trans hr (hw.asymm r m h2)
      refine ⟨hm,?_⟩
      intro y hy
      rcases List.mem_cons.mp hy with rfl | hy
      · exact hm
      · exact hl y hy
    · obtain ⟨hm,hl⟩ := ih m hs
      refine ⟨hm,?_⟩
      intro y hy
      rcases List.mem_cons.mp hy with rfl | hy
      · exact hw.trans hm (Bool.eq_false_iff.mpr h2)
      · exact hl y hy

theorem exchangeRounds_sorted (hw : StrictWeak before) (n : Nat) (l : List α)
    (hn : l.length≤n) (hs : (exchangeRounds stop before n l).1=false) :
    (exchangeRounds stop before n l).2.Pairwise (fun a b => before b a=false) := by
  induction n generalizing l with
  | zero =>
    have hl : l=[] := List.eq_nil_of_length_eq_zero (Nat.le_zero.mp hn)
    subst l
    exact List.Pairwise.nil
  | succ n ih =>
    cases l with
    | nil => exact List.Pairwise.nil
    | cons m rest =>
      simp only [exchangeRounds] at hs ⊢
      split_ifs at hs ⊢ with hc
      have hlen : (sweep stop before m rest).2.2.length≤n := by
        rw [sweep_length]
        simpa using hn
      refine List.Pairwise.cons ?_ (ih _ hlen hs)
      intro y hy
      have hmem := (exchangeRounds_perm stop before n _).mem_iff.mp hy
      exact (sweep_settles hw m rest (Bool.eq_false_iff.mpr hc)).2 y hmem

/-- When no pair is refused the result is sorted. -/
theorem exchangeSort_sorted (hw : StrictWeak before) (l : List α)
    (hs : (exchangeSort stop before l).1=false) :
    (exchangeSort stop before l).2.Pairwise (fun a b => before b a=false) :=
  exchangeRounds_sorted hw l.length l (Nat.le_refl _) hs

/-! ## Which pairs the sort compares -/

/-- An element that loses the slot ends up behind a smaller one. -/
theorem sweep_slot (hw : StrictWeak before) (m : α) (l : List α)
    (hs : (sweep stop before m l).1=false) :
    (sweep stop before m l).2.1=m ∨
      m∈(sweep stop before m l).2.2 ∧ before (sweep stop before m l).2.1 m=true := by
  induction l generalizing m with
  | nil => exact .inl rfl
  | cons r rest ih =>
    simp only [sweep] at hs ⊢
    split_ifs at hs ⊢ with h1 h2
    · refine .inr ⟨by simp,?_⟩
      rcases ih r hs with he | ⟨_,hb⟩
      · rw [he]; exact h2
      · exact (hw.split _ m _ hb).resolve_right (by rw [hw.asymm r m h2]; decide)
    · rcases ih m hs with he | ⟨hm,hb⟩
      · exact .inl he
      · exact .inr ⟨List.mem_cons_of_mem _ hm,hb⟩

/-- A completed round has compared the settled element with every other one, but for those that
have a third element between them and it. -/
theorem sweep_compared (hw : StrictWeak before) (hsym : ∀ a b,stop a b=stop b a) (m : α)
    (l : List α) (hs : (sweep stop before m l).1=false) {y : α} {rest : List α}
    (hp : (sweep stop before m l).2.2.Perm (y::rest)) :
    stop (sweep stop before m l).2.1 y=false ∨
      ∃ z∈rest,before (sweep stop before m l).2.1 z=true ∧ before y z=false := by
  classical
  induction l generalizing m rest with
  | nil => exact absurd hp (List.nil_perm.not.mpr (by simp))
  | cons r l ih =>
    simp only [sweep] at hs hp ⊢
    split_ifs at hs hp ⊢ with h1 h2
    · by_cases hym : y=m
      · subst hym
        have hl : (sweep stop before r l).2.2.Perm rest := (List.perm_cons y).mp hp
        rcases sweep_slot hw r l hs with he | ⟨hr,hb⟩
        · rw [he]
          exact .inl (Bool.eq_false_iff.mpr h1)
        · exact .inr ⟨r,hl.mem_iff.mp hr,hb,hw.asymm r y h2⟩
      · have hmr : m∈rest :=
          (List.mem_cons.mp (hp.mem_iff.mp List.mem_cons_self)).resolve_left (Ne.symm hym)
        have hl : (sweep stop before r l).2.2.Perm (y::rest.erase m) :=
          (List.perm_cons m).mp (hp.trans (((List.perm_cons_erase hmr).cons y).trans (.swap _ _ _)))
        exact (ih r hs hl).imp_right fun ⟨z,hz,hb⟩ => ⟨z,List.mem_of_mem_erase hz,hb⟩
    · by_cases hyr : y=r
      · subst hyr
        have hl : (sweep stop before m l).2.2.Perm rest := (List.perm_cons y).mp hp
        rcases sweep_slot hw m l hs with he | ⟨hm,hb⟩
        · rw [he,hsym]
          exact .inl (Bool.eq_false_iff.mpr h1)
        · exact .inr ⟨m,hl.mem_iff.mp hm,hb,Bool.eq_false_iff.mpr h2⟩
      · have hrr : r∈rest :=
          (List.mem_cons.mp (hp.mem_iff.mp List.mem_cons_self)).resolve_left (Ne.symm hyr)
        have hl : (sweep stop before m l).2.2.Perm (y::rest.erase r) :=
          (List.perm_cons r).mp (hp.trans (((List.perm_cons_erase hrr).cons y).trans (.swap _ _ _)))
        exact (ih m hs hl).imp_right fun ⟨z,hz,hb⟩ => ⟨z,List.mem_of_mem_erase hz,hb⟩

/-- No third element stands between `x` and `y`. -/
def Neighbours (before : α → α → Bool) (x y : α) (rest : List α) : Prop :=
  before y x=false ∧ ∀ z∈rest,before x z=true → before y z=true

theorem exchangeRounds_refused (hw : StrictWeak before) (hsym : ∀ a b,stop a b=stop b a) {n : Nat}
    {l rest : List α} {x y : α} (hn : l.length≤n) (hp : l.Perm (x::y::rest)) (hst : stop x y=true)
    (hnb : Neighbours before x y rest) : (exchangeRounds stop before n l).1=true := by
  classical
  induction n generalizing l rest with
  | zero =>
    have hlen := hp.length_eq
    simp only [List.length_cons] at hlen
    omega
  | succ n ih =>
    cases l with
    | nil => exact absurd hp (List.nil_perm.not.mpr (by simp))
    | cons m l =>
      simp only [exchangeRounds]
      split_ifs with hs
      · rfl
      have hs' := Bool.eq_false_iff.mpr hs
      have hperm : ((sweep stop before m l).2.1::(sweep stop before m l).2.2).Perm (x::y::rest) :=
        (sweep_perm stop before m l).trans hp
      have hset := (sweep_settles hw m l hs').2
      have hcmp : ∀ {u rest'},(sweep stop before m l).2.2.Perm (u::rest') →
          stop (sweep stop before m l).2.1 u=false ∨
            ∃ z∈rest',before (sweep stop before m l).2.1 z=true ∧ before u z=false :=
        fun h => sweep_compared hw hsym m l hs' h
      generalize he : (sweep stop before m l).2.1=e at hperm hset hcmp
      by_cases hex : e=x
      · subst hex
        rcases hcmp ((List.perm_cons e).mp hperm) with hc | ⟨z,hz,h1,h2⟩
        · rw [hst] at hc; cases hc
        · rw [hnb.2 z hz h1] at h2; cases h2
      by_cases hey : e=y
      · subst hey
        have hl := (List.perm_cons e).mp (hperm.trans (.swap _ _ _))
        have hxe : before x e=false := hset x (hl.mem_iff.mpr List.mem_cons_self)
        rcases hcmp hl with hc | ⟨z,hz,h1,h2⟩
        · rw [hsym,hst] at hc; cases hc
        · have hxz := (hw.split _ x _ h1).resolve_left (by rw [hnb.1]; decide)
          rw [hxz] at h2; cases h2
      have her : e∈rest := by
        have hm := hperm.mem_iff.mp List.mem_cons_self
        simp only [List.mem_cons,hex,hey,false_or] at hm
        exact hm
      have hlen : (sweep stop before m l).2.2.length≤n := by
        rw [sweep_length]
        simpa using hn
      have hrest : (sweep stop before m l).2.2.Perm (x::y::rest.erase e) := by
        have h1 := ((List.perm_cons_erase her).cons y).trans (.swap _ _ _)
        exact (List.perm_cons e).mp (hperm.trans ((h1.cons x).trans (.swap _ _ _)))
      exact ih hlen hrest ⟨hnb.1,fun z hz => hnb.2 z (List.mem_of_mem_erase hz)⟩

/-- A refused pair without a third element between is found, whatever the order of the list. -/
theorem exchangeSort_refused (hw : StrictWeak before) (hsym : ∀ a b,stop a b=stop b a)
    {l rest : List α} {x y : α} (hp : l.Perm (x::y::rest)) (hst : stop x y=true)
    (hnb : Neighbours before x y rest) : (exchangeSort stop before l).1=true :=
  exchangeRounds_refused hw hsym (Nat.le_refl _) hp hst hnb

theorem sweep_accepts (hsym : ∀ a b,stop a b=stop b a) (m : α) (l : List α)
    (h : (m::l).Pairwise (fun a b => stop a b=false)) : (sweep stop before m l).1=false := by
  induction l generalizing m with
  | nil => rfl
  | cons r l ih =>
    obtain ⟨hm,hl⟩ := List.pairwise_cons.mp h
    have hrm : ¬stop r m=true := by rw [hsym,hm r (by simp)]; decide
    simp only [sweep]
    rw [if_neg hrm]
    split_ifs
    · exact ih r hl
    · refine ih m (List.pairwise_cons.mpr ⟨fun a ha => ?_,(List.pairwise_cons.mp hl).2⟩)
      exact hm a (List.mem_cons_of_mem r ha)

theorem exchangeRounds_accepts (hsym : ∀ a b,stop a b=stop b a) (n : Nat) (l : List α)
    (h : l.Pairwise (fun a b => stop a b=false)) : (exchangeRounds stop before n l).1=false := by
  induction n generalizing l with
  | zero => rfl
  | succ n ih =>
    cases l with
    | nil => rfl
    | cons m l =>
      have hs : ¬(sweep stop before m l).1=true := by rw [sweep_accepts hsym m l h]; decide
      have hp := (sweep_perm stop before m l).symm.pairwise h
        fun {a b} hab => by rw [hsym]; exact hab
      simp only [exchangeRounds]
      rw [if_neg hs]
      exact ih _ (List.pairwise_cons.mp hp).2

/-- Where no pair is refused, no order of the list is. -/
theorem exchangeSort_accepts (hsym : ∀ a b,stop a b=stop b a) (l : List α)
    (h : l.Pairwise (fun a b => stop a b=false)) : (exchangeSort stop before l).1=false :=
  exchangeRounds_accepts hsym _ l h

theorem sweep_sorted (m : α) (l : List α) (h : ∀ r∈l,before r m=false)
    (hs : (sweep stop before m l).1=false) :
    sweep stop before m l=(false,m,l) ∧ ∀ r∈l,stop r m=false := by
  induction l with
  | nil => exact ⟨rfl,by simp⟩
  | cons r l ih =>
    have hr : ¬before r m=true := by rw [h r (by simp)]; decide
    simp only [sweep] at hs ⊢
    rw [if_neg hr] at hs ⊢
    split_ifs at hs ⊢ with h1
    obtain ⟨heq,hall⟩ := ih (fun q hq => h q (List.mem_cons_of_mem _ hq)) hs
    refine ⟨by rw [heq],?_⟩
    intro q hq
    rcases List.mem_cons.mp hq with rfl | hq
    · exact Bool.eq_false_iff.mpr h1
    · exact hall q hq

theorem exchangeRounds_sortedInput {n : Nat} {l : List α} (hn : l.length≤n)
    (hl : l.Pairwise (fun a b => before b a=false)) (hs : (exchangeRounds stop before n l).1=false) :
    (exchangeRounds stop before n l).2=l ∧ l.Pairwise (fun a b => stop b a=false) := by
  induction n generalizing l with
  | zero =>
    obtain rfl := List.eq_nil_of_length_eq_zero (Nat.le_zero.mp hn)
    exact ⟨rfl,List.Pairwise.nil⟩
  | succ n ih =>
    cases l with
    | nil => exact ⟨rfl,List.Pairwise.nil⟩
    | cons m l =>
      obtain ⟨hm,hl⟩ := List.pairwise_cons.mp hl
      simp only [exchangeRounds] at hs ⊢
      split_ifs at hs ⊢ with hc
      obtain ⟨heq,hall⟩ := sweep_sorted m l hm (Bool.eq_false_iff.mpr hc)
      rw [heq] at hs ⊢
      obtain ⟨h2,hp⟩ := ih (by simpa using hn) hl hs
      exact ⟨by rw [h2],List.pairwise_cons.mpr ⟨hall,hp⟩⟩

/-- A sorted list stays as it is, and all its pairs are compared. -/
theorem exchangeSort_sortedInput {l : List α} (hl : l.Pairwise (fun a b => before b a=false))
    (hs : (exchangeSort stop before l).1=false) :
    (exchangeSort stop before l).2=l ∧ l.Pairwise (fun a b => stop b a=false) :=
  exchangeRounds_sortedInput (Nat.le_refl _) hl hs

/-- On a falling list a round compares neighbours only and moves the last element to the front. -/
theorem sweep_falling (m : α) (l : List α)
    (h : (m::l).IsChain (fun a b => before b a=true ∧ stop b a=false)) :
    sweep stop before m l=(false,(m::l).getLast (by simp),(m::l).dropLast) := by
  induction l generalizing m with
  | nil => rfl
  | cons r l ih =>
    obtain ⟨⟨hb,hs⟩,hl⟩ := List.isChain_cons_cons.mp h
    simp only [sweep,hs,hb,if_true,Bool.false_eq_true,if_false,ih r hl]
    simp

/-- A falling list in which no neighbours are refused is sorted without finding any other pair. -/
theorem exchangeRounds_falling (n : Nat) (l : List α)
    (h : l.IsChain (fun a b => before b a=true ∧ stop b a=false)) :
    (exchangeRounds stop before n l).1=false := by
  induction n generalizing l with
  | zero => rfl
  | succ n ih =>
    cases l with
    | nil => rfl
    | cons m l =>
      simp only [exchangeRounds,sweep_falling m l h,Bool.false_eq_true,if_false]
      have hne : m::l≠[] := by simp
      rw [← List.dropLast_append_getLast hne] at h
      exact ih _ h.left_of_append

/-- Turned round, a strictly sorted list hides every refused pair with a third element between. -/
theorem exchangeSort_hides (hw : StrictWeak before) {l : List α}
    (hl : l.Pairwise (fun a b => before a b=true))
    (h : ∀ a b rest,l.Perm (a::b::rest) → Neighbours before a b rest → stop a b=false) :
    (exchangeSort stop before l.reverse).1=false := by
  refine exchangeRounds_falling _ _ (List.isChain_reverse.mpr ?_)
  refine List.isChain_iff_forall_rel_of_append_cons_cons.mpr fun a b pre post he => ?_
  subst he
  obtain ⟨-,htail,hpre⟩ := List.pairwise_append.mp hl
  obtain ⟨ha,hb⟩ := List.pairwise_cons.mp htail
  have hab := ha b (by simp)
  refine ⟨hab,h a b (pre++post) ?_ ⟨hw.asymm a b hab,fun z hz haz => ?_⟩⟩
  · exact List.perm_middle.trans ((List.perm_middle (a := b)).cons a)
  · rcases List.mem_append.mp hz with hz | hz
    · have hza := hpre z hz a (by simp)
      rw [hw.asymm z a hza] at haz
      cases haz
    · exact (List.pairwise_cons.mp hb).1 z hz

end OpenSBI.Math
