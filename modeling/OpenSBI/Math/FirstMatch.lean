import Mathlib.Data.List.Basic

namespace OpenSBI.Math

variable {α β : Type*}

/-- The verdict of a rule table: the first rule that applies decides, and without one the answer
is no. -/
def firstMatch (l : List α) (applies verdict : α → Bool) : Bool :=
  match l.find? applies with
  | none => false
  | some r => verdict r

section

variable {applies verdict : α → Bool}

@[simp] theorem firstMatch_nil : firstMatch [] applies verdict=false := rfl

theorem firstMatch_cons (r : α) (l : List α) :
    firstMatch (r::l) applies verdict=
      if applies r then verdict r else firstMatch l applies verdict := by
  cases h : applies r <;> simp [firstMatch,h]

theorem firstMatch_of_find {l : List α} {r : α} (h : l.find? applies=some r) :
    firstMatch l applies verdict=verdict r := by
  rw [firstMatch,h]

theorem firstMatch_eq_true_iff {l : List α} :
    firstMatch l applies verdict=true ↔
      ∃ pre r post,l=pre++r::post ∧ (∀ q∈pre,applies q=false) ∧ applies r=true ∧
        verdict r=true := by
  unfold firstMatch
  constructor
  · intro h
    cases hf : l.find? applies with
    | none => simp [hf] at h
    | some r =>
      obtain ⟨hr,pre,post,hl,hpre⟩ := List.find?_eq_some_iff_append.mp hf
      exact ⟨pre,r,post,hl,by simpa using hpre,hr,by simpa [hf] using h⟩
  · rintro ⟨pre,r,post,rfl,hpre,hr,hv⟩
    have hf : (pre++r::post).find? applies=some r :=
      List.find?_eq_some_iff_append.mpr ⟨hr,pre,post,rfl,by simpa using hpre⟩
    simpa [hf] using hv

/-- Rules that do not apply can be put in front. -/
theorem firstMatch_append_of_false {pre : List α} (h : ∀ q∈pre,applies q=false) (l : List α) :
    firstMatch (pre++l) applies verdict=firstMatch l applies verdict := by
  induction pre with
  | nil => rfl
  | cons q pre ih =>
    rw [List.cons_append,firstMatch_cons,h q List.mem_cons_self,if_neg (by decide),
      ih (fun r hr => h r (List.mem_cons_of_mem q hr))]

theorem firstMatch_of_false {l : List α} (h : ∀ q∈l,applies q=false) :
    firstMatch l applies verdict=false := by
  rw [← List.append_nil l,firstMatch_append_of_false h,firstMatch_nil]

/-- Only the answers about the rules of the table matter. -/
theorem firstMatch_congr {l : List α} {applies' verdict' : α → Bool}
    (h : ∀ r∈l,applies r=applies' r ∧ verdict r=verdict' r) :
    firstMatch l applies verdict=firstMatch l applies' verdict' := by
  induction l with
  | nil => rfl
  | cons r l ih =>
    obtain ⟨ha,hv⟩ := h r List.mem_cons_self
    rw [firstMatch_cons,firstMatch_cons,ha,hv,ih (fun q hq => h q (List.mem_cons_of_mem r hq))]

theorem firstMatch_map (f : β → α) (l : List β) :
    firstMatch (l.map f) applies verdict=
      firstMatch l (fun b => applies (f b)) (fun b => verdict (f b)) := by
  induction l with
  | nil => rfl
  | cons b l ih => rw [List.map_cons,firstMatch_cons,firstMatch_cons,ih]

end

/-- In a sorted table a rule with nothing before it among those that apply decides. -/
theorem firstMatch_sorted {before : α → α → Bool} {applies verdict : α → Bool} {l : List α}
    (hl : l.Pairwise (fun a b => before b a=false)) (hirr : ∀ a,before a a=false) :
    (∃ r∈l,applies r=true ∧ (∀ s∈l,applies s=true → before s r=false) ∧
        firstMatch l applies verdict=verdict r) ∨
      (∀ r∈l,applies r=false) ∧ firstMatch l applies verdict=false := by
  cases hf : l.find? applies with
  | none =>
    have hnone : ∀ r∈l,applies r=false := by simpa using List.find?_eq_none.mp hf
    exact .inr ⟨hnone,firstMatch_of_false hnone⟩
  | some r =>
    obtain ⟨hr,pre,post,rfl,hpre⟩ := List.find?_eq_some_iff_append.mp hf
    have hpost := (List.pairwise_cons.mp (List.pairwise_append.mp hl).2.1).1
    refine .inl ⟨r,by simp,hr,fun s hs happ => ?_,firstMatch_of_find hf⟩
    rcases List.mem_append.mp hs with hs | hs
    · have := hpre s hs
      simp [happ] at this
    · rcases List.mem_cons.mp hs with rfl | hs
      · exact hirr s
      · exact hpost s hs

/-- A numbered table whose first rules are those of a list and whose others never apply decides
as the list does. -/
theorem firstMatch_range {applies verdict : α → Bool} {m v : Nat → Bool} (l : List α) {n : Nat}
    (hl : l.length≤n)
    (h : ∀ i (hi : i<l.length),m i=applies l[i] ∧ v i=verdict l[i])
    (hout : ∀ i,l.length ≤ i → i<n → m i=false) :
    firstMatch (List.range n) m v=firstMatch l applies verdict := by
  induction l generalizing m v n with
  | nil =>
    refine firstMatch_of_false fun i hi => hout i (Nat.zero_le i) (List.mem_range.mp hi)
  | cons r l ih =>
    obtain ⟨n,rfl⟩ : ∃ k,n=k+1 := ⟨n-1,by simp only [List.length_cons] at hl; omega⟩
    have h0 := h 0 (by simp)
    have hrest := ih (m := fun i => m (i+1)) (v := fun i => v (i+1)) (n := n)
      (by simpa using hl) (fun i hi => h (i+1) (Nat.succ_lt_succ hi))
      (fun i h1 h2 => hout (i+1) (by simpa using h1) (by omega))
    rw [List.range_succ_eq_map,firstMatch_cons,firstMatch_cons,firstMatch_map]
    simp only [List.getElem_cons_zero] at h0
    rw [h0.1,h0.2,hrest]

end OpenSBI.Math
