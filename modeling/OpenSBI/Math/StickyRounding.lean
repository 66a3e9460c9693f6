import OpenSBI.Math.RoundDiv

namespace OpenSBI.Math

/-- Two numbers on the same side of every multiple of `u`. -/
def SameCut (u q s : ℚ) : Prop := ∀ n : ℤ,(q < n*u ↔ s < n*u) ∧ (q=n*u ↔ s=n*u)

namespace SameCut

variable {u q s t : ℚ}

theorem refl (u q : ℚ) : SameCut u q q := fun _ => ⟨Iff.rfl,Iff.rfl⟩

theorem symm (h : SameCut u q s) : SameCut u s q := fun n => ⟨(h n).1.symm,(h n).2.symm⟩

theorem trans (h : SameCut u q s) (h' : SameCut u s t) : SameCut u q t :=
  fun n => ⟨(h n).1.trans (h' n).1,(h n).2.trans (h' n).2⟩

theorem le_iff (h : SameCut u q s) (n : ℤ) : n*u ≤ q ↔ n*u ≤ s := by
  rw [← not_lt,← not_lt,(h n).1]

/-- The scale may be changed. -/
theorem scale (h : SameCut u q s) {c : ℚ} (hc : 0<c) : SameCut (c*u) (c*q) (c*s) := by
  intro n
  have hn : (n : ℚ)*(c*u)=c*(n*u) := by ring
  rw [hn,mul_lt_mul_iff_right₀ hc,mul_lt_mul_iff_right₀ hc,mul_right_inj' hc.ne',mul_right_inj' hc.ne']
  exact h n

/-- A coarser grid has fewer multiples. -/
theorem widen (h : SameCut u q s) (k : ℤ) : SameCut (k*u) q s := by
  intro n
  have hn : (n : ℚ)*(k*u)=((n*k : ℤ) : ℚ)*u := by
    push_cast
    ring
  rw [hn]
  exact h (n*k)

theorem widen_pow {i j : ℤ} (h : SameCut (2^i) q s) (hij : i ≤ j) : SameCut (2^j) q s := by
  obtain ⟨k,rfl⟩ := Int.le.dest hij
  have hp : (2 : ℚ)^(i+k)=((2^k : ℤ) : ℚ)*2^i := by
    rw [zpow_add₀ two_ne_zero,zpow_natCast]
    push_cast
    ring
  rw [hp]
  exact h.widen _

/-- Both may be moved along the grid. -/
theorem add_mul (h : SameCut u q s) (k : ℤ) : SameCut u (k*u+q) (k*u+s) := by
  intro n
  obtain ⟨hlt,heq⟩ := h (n-k)
  push_cast at hlt heq
  constructor
  · constructor
    · intro hq
      linarith [hlt.mp (by linarith)]
    · intro hs
      linarith [hlt.mpr (by linarith)]
  · constructor
    · intro hq
      linarith [heq.mp (by linarith)]
    · intro hs
      linarith [heq.mpr (by linarith)]

theorem neg (h : SameCut u q s) : SameCut u (-q) (-s) := by
  intro n
  obtain ⟨hlt,heq⟩ := h (-n)
  push_cast at hlt heq
  have heq' : -q=n*u ↔ -s=n*u := by
    rw [neg_eq_iff_eq_neg,neg_eq_iff_eq_neg,← neg_mul]
    exact heq
  refine ⟨?_,heq'⟩
  have hle : -n*u<q ↔ -n*u<s := by
    rw [← not_le,← not_le,le_iff_lt_or_eq,le_iff_lt_or_eq,hlt,heq]
  rw [neg_lt,neg_lt (a := s),← neg_mul]
  exact hle

/-- A number between two neighbours of an odd one lies where the odd one does. -/
theorem of_odd {n : ℤ} (hodd : n%2=1) (hlo : ((n-1 : ℤ) : ℚ)<q) (hhi : q < ((n+1 : ℤ) : ℚ)) :
    SameCut 2 q n := by
  intro k
  have hk : (k : ℚ)*2=((2*k : ℤ) : ℚ) := by
    push_cast
    ring
  rw [hk]
  obtain h | h : n+1 ≤ 2*k ∨ 2*k ≤ n-1 := by omega
  · have hle : ((n+1 : ℤ) : ℚ) ≤ ((2*k : ℤ) : ℚ) := by exact_mod_cast h
    have hn : (n : ℚ) < ((2*k : ℤ) : ℚ) := by exact_mod_cast (by omega : n<2*k)
    exact ⟨iff_of_true (hhi.trans_le hle) hn,iff_of_false (hhi.trans_le hle).ne hn.ne⟩
  · have hle : ((2*k : ℤ) : ℚ) ≤ ((n-1 : ℤ) : ℚ) := by exact_mod_cast h
    have hn : ((2*k : ℤ) : ℚ)<n := by exact_mod_cast (by omega : 2*k<n)
    exact ⟨iff_of_false (hle.trans_lt hlo).not_gt hn.not_gt,iff_of_false (hle.trans_lt hlo).ne' hn.ne'⟩

section Round

variable (hu : 0<u) (h : SameCut u q s) (mode : RoundingMode)
include hu h

theorem floor_div : ⌊q/u⌋=⌊s/u⌋ := by
  rw [Int.floor_eq_iff,le_div_iff₀ hu,div_lt_iff₀ hu,h.le_iff]
  have hlt := (h (⌊s/u⌋+1)).1
  push_cast at hlt
  rw [hlt,← le_div_iff₀ hu,← div_lt_iff₀ hu]
  exact ⟨Int.floor_le _,Int.lt_floor_add_one _⟩

theorem ceil_div : ⌈q/u⌉=⌈s/u⌉ := by
  have hn := h.neg.floor_div hu
  rw [neg_div,neg_div,Int.floor_neg,Int.floor_neg] at hn
  exact neg_inj.mp hn

/-- What is cut alike at the halves is rounded alike. -/
theorem round : mode.round (q/(2*u))=mode.round (s/(2*u)) := by
  have h2u : 0<2*u := by linarith
  have hw : SameCut (2*u) q s := by exact_mod_cast h.widen 2
  have hf := hw.floor_div h2u
  have hc := hw.ceil_div h2u
  have hfrac : ∀ v : ℚ,2*(v/(2*u)-⌊q/(2*u)⌋)=v/u-((2*⌊q/(2*u)⌋ : ℤ) : ℚ) := by
    intro v
    push_cast
    field_simp
  have hhalf : 2*(q/(2*u)-⌊q/(2*u)⌋)<1 ↔ 2*(s/(2*u)-⌊q/(2*u)⌋)<1 := by
    rw [hfrac q,hfrac s,sub_lt_iff_lt_add,sub_lt_iff_lt_add,div_lt_iff₀ hu,div_lt_iff₀ hu]
    have := (h (1+2*⌊q/(2*u)⌋)).1
    push_cast at this ⊢
    exact this
  have htie : 2*(q/(2*u)-⌊q/(2*u)⌋)=1 ↔ 2*(s/(2*u)-⌊q/(2*u)⌋)=1 := by
    rw [hfrac q,hfrac s,sub_eq_iff_eq_add,sub_eq_iff_eq_add,div_eq_iff hu.ne',div_eq_iff hu.ne']
    have := (h (1+2*⌊q/(2*u)⌋)).2
    push_cast at this ⊢
    exact this
  have hneg : q/(2*u)<0 ↔ s/(2*u)<0 := by
    rw [div_lt_iff₀ h2u,div_lt_iff₀ h2u]
    simpa using (hw 0).1
  have hnonneg : 0 ≤ q/(2*u) ↔ 0 ≤ s/(2*u) := by rw [← not_lt,← not_lt,hneg]
  cases mode <;> simp only [RoundingMode.round,← hf,← hc,hhalf,htie,hneg,hnonneg]

/-- They are on the grid together. -/
theorem eq_floor_iff : q/u=⌊q/u⌋ ↔ s/u=⌊s/u⌋ := by
  rw [← h.floor_div hu,div_eq_iff hu.ne',div_eq_iff hu.ne']
  exact (h ⌊q/u⌋).2

end Round
end SameCut

/-- A quotient whose remainder is jammed into its lowest bit. -/
def jam (m d : Nat) : Nat := m/d ||| if m%d=0 then 0 else 1

theorem or_one_odd (n : Nat) : (n ||| 1)%2=1 ∧ n ≤ n ||| 1 ∧ n ||| 1 ≤ n+1 := by
  have h : n ||| 1=2*(n/2)+1 := by
    apply Nat.eq_of_testBit_eq
    intro i
    cases i with
    | zero => simp
    | succ i =>
      rw [Nat.testBit_or,Nat.testBit_succ,Nat.testBit_succ,Nat.testBit_succ,show (2*(n/2)+1)/2=n/2 by omega]
      simp
  rw [h]
  omega

theorem jam_exact {m d : Nat} (h : m%d=0) : jam m d=m/d := by rw [jam,if_pos h,Nat.or_zero]

theorem le_jam (m d : Nat) : m/d ≤ jam m d ∧ jam m d ≤ m/d+1 := by
  unfold jam
  split
  · rw [Nat.or_zero]
    omega
  · exact (or_one_odd _).2

theorem jam_eq_zero {m d : Nat} : jam m d=0 ↔ m=0 := by
  have hm := Nat.div_add_mod m d
  constructor
  · intro h
    obtain ⟨hdiv,hmod⟩ := Nat.or_eq_zero_iff.mp h
    rw [hdiv,Nat.mul_zero,Nat.zero_add] at hm
    split at hmod <;> omega
  · rintro rfl
    simp [jam]

/-- The bits below a first shift are jammed with those that the second one loses. -/
theorem jam_mul {l a h b : Nat} (hl : l<a) : jam (l+a*h) (a*b)=if l=0 then jam h b else jam h b ||| 1 := by
  have hdiv : (l+a*h)/(a*b)=h/b := by
    rw [← Nat.div_div_eq_div_mul,Nat.add_mul_div_left _ _ (by omega),Nat.div_eq_of_lt hl,Nat.zero_add]
  have hmod : (l+a*h)%(a*b)=l+a*(h%b) := by
    rw [Nat.mod_mul,Nat.add_mul_mod_self_left,Nat.mod_eq_of_lt hl,Nat.add_mul_div_left _ _ (by omega),
      Nat.div_eq_of_lt hl,Nat.zero_add]
  have hzero : l+a*(h%b)=0 ↔ l=0 ∧ h%b=0 := by
    rw [Nat.add_eq_zero_iff,Nat.mul_eq_zero]
    constructor
    · rintro ⟨h0,h1 | h1⟩
      · omega
      · exact ⟨h0,h1⟩
    · rintro ⟨h0,h1⟩
      exact ⟨h0,.inr h1⟩
  rw [jam,jam,hdiv,hmod]
  simp only [hzero]
  by_cases h0 : l=0
  · simp only [h0,true_and,if_true]
  · rw [if_neg (by tauto),if_neg h0,Nat.or_assoc]
    split <;> rfl

/-- An even number over the quotient stays out of the way. -/
theorem jam_add_mul (m n : Nat) {d : Nat} (hd : 0<d) (hn : n%2=0) : jam (n*d+m) d=n+jam m d := by
  have hdiv : (n*d+m)/d=n+m/d := by rw [Nat.add_comm,Nat.add_mul_div_right _ _ hd,Nat.add_comm]
  have hmod : (n*d+m)%d=m%d := Nat.mul_add_mod' n d m
  have hor : ∀ x : ℕ,n+x ||| 1=n+(x ||| 1) := fun x => by
    have h1 := or_one_odd x
    have h2 := or_one_odd (n+x)
    omega
  rw [jam,jam,hdiv,hmod]
  split
  · rw [Nat.or_zero,Nat.or_zero]
  · exact hor _

theorem jam_lt {sig p d : ℕ} (hp : 1 ≤ p) (h : sig<2^(p+d)) : jam sig (2^d)<2^p := by
  have hs : sig/2^d<2^p := by rwa [Nat.div_lt_iff_lt_mul (Nat.two_pow_pos d),← pow_add]
  apply Nat.or_lt_two_pow hs
  split
  · exact Nat.two_pow_pos p
  · exact Nat.one_lt_two_pow (by omega)

/-- The jammed bit keeps what the shift would lose. -/
theorem sameCut_jam (m : Nat) {d : Nat} (hd : 0<d) : SameCut 2 ((m : ℚ)/d) (jam m d : ℕ) := by
  by_cases h : m%d=0
  · rw [jam_exact h,RoundingMode.div_eq_add hd,h,Nat.cast_zero,zero_div,add_zero]
    exact SameCut.refl _ _
  · have hd' : (0 : ℚ)<d := by exact_mod_cast hd
    have hpos : (0 : ℚ) < ((m%d : ℕ) : ℚ)/d := by
      have hm : (0 : ℚ) < ((m%d : ℕ) : ℚ) := by exact_mod_cast Nat.pos_of_ne_zero h
      positivity
    have hlt : ((m%d : ℕ) : ℚ)/d<1 := by
      rw [div_lt_one hd']
      exact_mod_cast Nat.mod_lt m hd
    have hj : jam m d=m/d ||| 1 := by rw [jam,if_neg h]
    obtain ⟨hodd,hlo,hhi⟩ := or_one_odd (m/d)
    have hlo' : (((m/d ||| 1 : ℕ) : ℤ) : ℚ)-1 ≤ ((m/d : ℕ) : ℚ) := by
      have : ((m/d ||| 1 : ℕ) : ℚ) ≤ ((m/d+1 : ℕ) : ℚ) := by exact_mod_cast hhi
      push_cast at this ⊢
      linarith
    have hhi' : ((m/d : ℕ) : ℚ) ≤ (((m/d ||| 1 : ℕ) : ℤ) : ℚ) := by
      rw [Int.cast_natCast]
      exact Nat.cast_le.mpr hlo
    rw [hj,RoundingMode.div_eq_add hd]
    have key := SameCut.of_odd (q := ((m/d : ℕ) : ℚ)+((m%d : ℕ) : ℚ)/d) (n := ((m/d ||| 1 : ℕ) : ℤ))
      (by omega) (by push_cast at hlo' ⊢; linarith) (by push_cast at hhi' ⊢; linarith)
    exact_mod_cast key

namespace RoundingMode

/-- What is added below the grid of `u` before the rest is cut off. -/
def increment (mode : RoundingMode) (u : Nat) : Nat :=
  match mode with
  | .rne => u/2
  | .rmm => u/2
  | .rup => u-1
  | _ => 0

theorem add_div_eq {m u h : Nat} (hu : 0<u) (hh : h<u) :
    (m+h)/u=if m%u+h<u then m/u else m/u+1 := by
  have hm := Nat.mod_lt m hu
  have hd : (m+h)/u=m/u+(m%u+h)/u := by
    conv_lhs => rw [← Nat.div_add_mod m u,Nat.add_assoc]
    exact Nat.mul_add_div hu _ _
  split
  · rename_i hlt
    have h0 : (m%u+h)/u=0 := Nat.div_eq_of_lt hlt
    omega
  · have h1 : (m%u+h)/u=1 := Nat.div_eq_of_lt_le (by omega) (by omega)
    omega

/-- The increment rounds; in a tie the lowest bit is cleared as well. -/
theorem increment_div (mode : RoundingMode) (m : Nat) {h : Nat} (hh : 0<h) :
    (if m%(2*h)=h ∧ mode=.rne then (m+mode.increment (2*h))/(2*h)/2*2
      else (m+mode.increment (2*h))/(2*h))=mode.roundDiv m (2*h) := by
  have hhalf : 2*h/2=h := Nat.mul_div_cancel_left h Nat.two_pos
  have hm := Nat.mod_lt m (show 0<2*h by omega)
  cases mode with
  | rne =>
    simp only [increment,roundDiv,hhalf,add_div_eq (show 0<2*h by omega) (show h<2*h by omega),and_true]
    split_ifs <;> omega
  | rmm =>
    simp only [increment,roundDiv,hhalf,add_div_eq (show 0<2*h by omega) (show h<2*h by omega),
      reduceCtorEq,and_false,if_false]
    split_ifs <;> omega
  | rup =>
    simp only [increment,roundDiv,add_div_eq (show 0<2*h by omega) (show 2*h-1<2*h by omega),
      reduceCtorEq,and_false,if_false]
    split_ifs <;> omega
  | rtz => simp [increment,roundDiv]
  | rdn => simp [increment,roundDiv]

/-- The increment reaches a multiple of the grid when the rounding does. -/
theorem le_add_increment_iff (mode : RoundingMode) {m h n : Nat} (hh : 0<h) (hn : n%2=0)
    (hlt : m<n*(2*h)) : n*(2*h) ≤ m+mode.increment (2*h) ↔ mode.roundDiv m (2*h)=n := by
  have hu : 0<2*h := by omega
  have hq : m/(2*h)<n := (Nat.div_lt_iff_lt_mul hu).mpr hlt
  rw [← Nat.le_div_iff_mul_le hu,← increment_div mode m hh]
  have hle : (m+mode.increment (2*h))/(2*h) ≤ m/(2*h)+1 := by
    rw [← Nat.add_div_right _ hu]
    apply Nat.div_le_div_right
    cases mode <;> simp only [increment] <;> omega
  split <;> omega

end RoundingMode
end OpenSBI.Math
