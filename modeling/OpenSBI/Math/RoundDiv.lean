import OpenSBI.Math.Rounding
import Mathlib.Tactic.FieldSimp
import Mathlib.Tactic.Ring

namespace OpenSBI.Math

variable {mode : RoundingMode}

/-- `m/u` rounded, on natural numbers. -/
def RoundingMode.roundDiv (mode : RoundingMode) (m u : Nat) : Nat :=
  match mode with
  | .rne => if 2*(m%u)<u ∨ 2*(m%u)=u ∧ m/u%2=0 then m/u else m/u+1
  | .rtz => m/u
  | .rdn => m/u
  | .rup => if m%u=0 then m/u else m/u+1
  | .rmm => if 2*(m%u)<u then m/u else m/u+1

namespace RoundingMode

variable {m u : Nat}

section Division

variable (hu : 0<u)
include hu

theorem div_eq_add : (m : ℚ)/u=((m/u : ℕ) : ℚ)+((m%u : ℕ) : ℚ)/u := by
  have h : (u : ℚ)≠0 := by exact_mod_cast hu.ne'
  have hm : (m : ℚ)=u*((m/u : ℕ) : ℚ)+((m%u : ℕ) : ℚ) := by exact_mod_cast (Nat.div_add_mod m u).symm
  rw [eq_comm,eq_div_iff h,add_mul,div_mul_cancel₀ _ h,mul_comm,← hm]

theorem floor_div : ⌊(m : ℚ)/u⌋=((m/u : ℕ) : ℤ) := by
  have h : (0 : ℚ)<u := by exact_mod_cast hu
  have hlt : ((m%u : ℕ) : ℚ)<u := by exact_mod_cast Nat.mod_lt m hu
  rw [Int.floor_eq_iff,div_eq_add hu]
  constructor
  · have : (0 : ℚ) ≤ ((m%u : ℕ) : ℚ)/u := by positivity
    rw [Int.cast_natCast]
    linarith
  · have : ((m%u : ℕ) : ℚ)/u<1 := by rwa [div_lt_one h]
    rw [Int.cast_natCast]
    linarith

theorem ceil_div : ⌈(m : ℚ)/u⌉=if m%u=0 then ((m/u : ℕ) : ℤ) else ((m/u : ℕ) : ℤ)+1 := by
  split
  · rename_i h
    rw [div_eq_add hu,h,Nat.cast_zero,zero_div,add_zero]
    exact Int.ceil_natCast _
  · rename_i h
    have hf := floor_div (m := m) hu
    have hne : (m : ℚ)/u≠⌊(m : ℚ)/u⌋ := by
      rw [hf,div_eq_add hu,Int.cast_natCast]
      have : (0 : ℚ)<((m%u : ℕ) : ℚ)/u := by
        have hu' : (0 : ℚ)<u := by exact_mod_cast hu
        have hm : (0 : ℚ)<((m%u : ℕ) : ℚ) := by exact_mod_cast Nat.pos_of_ne_zero h
        positivity
      linarith
    rw [ceil_of_not_int hne,hf]

/-- The distance from the lower neighbour, compared with a half. -/
theorem twice_frac_lt : 2*((m : ℚ)/u-((m/u : ℕ) : ℤ))<1 ↔ 2*(m%u)<u := by
  have h : (0 : ℚ)<u := by exact_mod_cast hu
  rw [div_eq_add hu,Int.cast_natCast,add_sub_cancel_left,← mul_div_assoc,div_lt_one h]
  exact_mod_cast Iff.rfl

theorem twice_frac_eq : 2*((m : ℚ)/u-((m/u : ℕ) : ℤ))=1 ↔ 2*(m%u)=u := by
  have h : (u : ℚ)≠0 := by exact_mod_cast hu.ne'
  rw [div_eq_add hu,Int.cast_natCast,add_sub_cancel_left,← mul_div_assoc,div_eq_one_iff_eq h]
  exact_mod_cast Iff.rfl

theorem round_div : mode.round ((m : ℚ)/u)=mode.roundDiv m u := by
  have h0 : (0 : ℚ) ≤ (m : ℚ)/u := by positivity
  have hlt : 2*(m%u)<u ∨ m%u≠0 := by omega
  cases mode with
  | rtz => rw [round,if_pos h0,floor_div hu,roundDiv]
  | rdn => rw [round,floor_div hu,roundDiv]
  | rup =>
    rw [round,ceil_div hu,roundDiv]
    push_cast
    rfl
  | rne =>
    simp only [round,roundDiv,twice_frac_lt hu,twice_frac_eq hu,floor_div hu,ceil_div hu]
    norm_cast
    split
    · rfl
    · rename_i h
      rw [if_neg (hlt.resolve_left fun hl => h (.inl hl))]
  | rmm =>
    simp only [round,roundDiv,twice_frac_lt hu,twice_frac_eq hu,floor_div hu,ceil_div hu,not_lt.mpr h0,
      and_false,or_false]
    norm_cast
    split
    · rfl
    · rename_i h
      rw [if_neg (hlt.resolve_left h)]

end Division

/-- The mode for a magnitude whose number has the sign. -/
def signed (mode : RoundingMode) (negative : Bool) : RoundingMode := if negative then mode.flip else mode

/-- Rounding magnitudes to multiples of `a` without regard to the sign, and the result to multiples of
`N*a`, is rounding once: what the first step loses does not lie at a boundary of the second. -/
def RoundsThrough (mode : RoundingMode) (negative : Bool) (m a N : Nat) : Prop :=
  match mode with
  | .rne => ¬(2*(m/a%N)+2=N ∧ a ≤ 2*(m%a) ∧ m/a/N%2=1) ∧
      ¬(2*(m/a%N)=N ∧ 0 < m%a ∧ 2*(m%a) ≤ a ∧ m/a/N%2=0)
  | .rtz => True
  | .rdn => negative=true → m/a%N≠0 ∨ m%a=0
  | .rup => negative=true → m/a%N+1<N ∨ m%a=0
  | .rmm => ¬(2*(m/a%N)+2=N ∧ a ≤ 2*(m%a))

section Twice

variable {a N : Nat}

theorem roundDiv_mul_right (ha : 0<a) (m N : Nat) :
    mode.roundDiv (m*a) (N*a)=mode.roundDiv m N := by
  have hd : m*a/(N*a)=m/N := Nat.mul_div_mul_right m N ha
  have hm : m*a%(N*a)=m%N*a := Nat.mul_mod_mul_right a m N
  have hlt : 2*(m%N*a)<N*a ↔ 2*(m%N)<N := by
    rw [← Nat.mul_assoc]
    exact Nat.mul_lt_mul_right ha
  have heq : 2*(m%N*a)=N*a ↔ 2*(m%N)=N := by
    rw [← Nat.mul_assoc]
    exact Nat.mul_left_inj ha.ne'
  have hz : m%N*a=0 ↔ m%N=0 := by
    rw [Nat.mul_eq_zero]
    omega
  cases mode <;> simp only [roundDiv,hd,hm,hlt,heq,hz]

/-- A digit in front decides a comparison with a multiple. -/
theorem digit_lt {k r n : Nat} (hr : r<a) : r+a*k<a*n ↔ k<n := by
  constructor
  · intro h
    apply Nat.lt_of_mul_lt_mul_left (a := a)
    omega
  · intro h
    have hle : a*(k+1) ≤ a*n := Nat.mul_le_mul_left a h
    rw [Nat.mul_add,Nat.mul_one] at hle
    omega

theorem digit_eq {k r n : Nat} (hr : r<a) : r+a*k=a*n ↔ k=n ∧ r=0 := by
  constructor
  · intro h
    have hlo : ¬k<n := fun hk => by
      have := (digit_lt hr).mpr hk
      omega
    have hhi : ¬n<k := fun hk => by
      have := (digit_lt (Nat.pos_of_ne_zero (by omega) : 0<a)).mpr hk
      omega
    have hk : k=n := by omega
    rw [hk] at h
    exact ⟨hk,by omega⟩
  · intro h
    rw [h.1,h.2,Nat.zero_add]

theorem succ_div_mod (m : Nat) (h : 0<N) : (m%N+1<N ∧ (m+1)/N=m/N ∧ (m+1)%N=m%N+1) ∨
    (m%N+1=N ∧ (m+1)/N=m/N+1 ∧ (m+1)%N=0) := by
  have hlt := Nat.mod_lt m h
  by_cases hk : m%N+1<N
  · have hd : ¬N ∣ m+1 := by
      intro hd
      have hz := Nat.mod_eq_zero_of_dvd hd
      rw [Nat.add_mod,Nat.mod_eq_of_lt (show 1<N by omega),Nat.mod_eq_of_lt hk] at hz
      omega
    have hm : (m+1)%N=m%N+1 := by
      rw [Nat.add_mod,Nat.mod_eq_of_lt (show 1<N by omega),Nat.mod_eq_of_lt hk]
    exact .inl ⟨hk,Nat.succ_div_of_not_dvd hd,hm⟩
  · have hk' : m%N+1=N := by omega
    have hs : m+1=N*(m/N+1) := by
      have := Nat.div_add_mod m N
      rw [Nat.mul_add,Nat.mul_one]
      omega
    refine .inr ⟨hk',?_,?_⟩
    · rw [hs,Nat.mul_div_cancel_left _ h]
    · rw [hs,Nat.mul_mod_right]

/-- A mode to nearest. -/
def Nearest (mode : RoundingMode) : Prop := mode=.rne ∨ mode=.rmm

theorem Nearest.below (h : mode.Nearest) (hm : 2*(m%u)<u) : mode.roundDiv m u=m/u := by
  obtain rfl | rfl := h
  · exact if_pos (.inl hm)
  · exact if_pos hm

theorem Nearest.above (h : mode.Nearest) (hm : u<2*(m%u)) : mode.roundDiv m u=m/u+1 := by
  obtain rfl | rfl := h
  · exact if_neg (by omega)
  · exact if_neg (by omega)

/-- Where a tie goes. -/
def tie (mode : RoundingMode) (n : Nat) : Nat := if mode=.rne ∧ n%2=0 then n else n+1

theorem Nearest.tie (h : mode.Nearest) (hm : 2*(m%u)=u) : mode.roundDiv m u=mode.tie (m/u) := by
  obtain rfl | rfl := h
  · simp [roundDiv,RoundingMode.tie,hm]
  · simp [roundDiv,RoundingMode.tie,hm]

theorem Nearest.signed (h : mode.Nearest) (negative : Bool) : mode.signed negative=mode := by
  obtain rfl | rfl := h <;> cases negative <;> rfl

theorem div_mul (m N : Nat) : m/(N*a)=m/a/N := by rw [Nat.mul_comm,Nat.div_div_eq_div_mul]

theorem mod_mul (m N : Nat) : m%(N*a)=m%a+a*(m/a%N) := by rw [Nat.mul_comm,Nat.mod_mul]

theorem roundDiv_down (m u : Nat) : RoundingMode.rdn.roundDiv m u=m/u := rfl

theorem roundDiv_up (m u : Nat) : RoundingMode.rup.roundDiv m u=if m%u=0 then m/u else m/u+1 := rfl

theorem roundDiv_even (m u : Nat) : (RoundingMode.rne.roundDiv m u=m/u ↔
      2*(m%u)<u ∨ 2*(m%u)=u ∧ m/u%2=0) ∧
    (RoundingMode.rne.roundDiv m u=m/u+1 ↔ ¬(2*(m%u)<u ∨ 2*(m%u)=u ∧ m/u%2=0)) := by
  unfold roundDiv
  dsimp only
  split_ifs with h <;> simp [h]

theorem roundDiv_away (m u : Nat) : (RoundingMode.rmm.roundDiv m u=m/u ↔ 2*(m%u)<u) ∧
    (RoundingMode.rmm.roundDiv m u=m/u+1 ↔ ¬2*(m%u)<u) := by
  unfold roundDiv
  dsimp only
  split_ifs with h <;> simp [h]

theorem tie_even (n : Nat) : (RoundingMode.rne.tie n=n ↔ n%2=0) ∧
    (RoundingMode.rne.tie n=n+1 ↔ n%2=1) := by
  simp only [tie,true_and]
  split_ifs <;> omega

theorem tie_away (n : Nat) : RoundingMode.rmm.tie n=n+1 := if_neg (fun h => by cases h.1)

theorem up_down (m : Nat) {N : Nat} (hN : 0<N) :
    RoundingMode.rdn.roundDiv (RoundingMode.rup.roundDiv m a) N=RoundingMode.rdn.roundDiv m (N*a) ↔
      m/a%N+1<N ∨ m%a=0 := by
  have hsucc := succ_div_mod (m/a) hN
  rw [roundDiv_down m (N*a),div_mul,roundDiv_down,roundDiv_up]
  split_ifs <;> omega

section Digits

variable (ha : 0<a) (m : Nat)
include ha

theorem mod_mul_eq_zero (N : Nat) : m%(N*a)=0 ↔ m/a%N=0 ∧ m%a=0 := by
  rw [mod_mul,← digit_eq (Nat.mod_lt m ha),Nat.mul_zero]

theorem twice_mod_lt (n : Nat) : 2*(m%(2*n*a))<2*n*a ↔ m/a%(2*n)<n := by
  rw [mod_mul,Nat.mul_assoc,Nat.mul_lt_mul_left Nat.two_pos,Nat.mul_comm n a]
  exact digit_lt (Nat.mod_lt m ha)

theorem twice_mod_eq (n : Nat) : 2*(m%(2*n*a))=2*n*a ↔ m/a%(2*n)=n ∧ m%a=0 := by
  rw [mod_mul,Nat.mul_assoc,Nat.mul_right_inj two_ne_zero,Nat.mul_comm n a]
  exact digit_eq (Nat.mod_lt m ha)

/-- To nearest the second step errs where the first one ends on a tie that was none. -/
theorem Nearest.twice (hm : mode.Nearest) {n : Nat} (hn : 1<n) :
    mode.roundDiv (mode.roundDiv m a) (2*n)=mode.roundDiv m (2*n*a) ↔
      ¬(m/a%(2*n)+1=n ∧ mode.roundDiv m a=m/a+1 ∧ mode.tie (m/a/(2*n))=m/a/(2*n)+1) ∧
      ¬(m/a%(2*n)=n ∧ m%a≠0 ∧ mode.roundDiv m a=m/a ∧ mode.tie (m/a/(2*n))=m/a/(2*n)) := by
  have hsucc := succ_div_mod (m/a) (show 0<2*n by omega)
  have hdiv := div_mul (a := a) m (2*n)
  have hlt := twice_mod_lt ha m n
  have heq := twice_mod_eq ha m n
  have hX : mode.roundDiv m a=m/a ∨ mode.roundDiv m a=m/a+1 ∧ m%a≠0 := by
    by_cases h : 2*(m%a)<a
    · exact .inl (hm.below h)
    · by_cases h0 : m%a=0
      · omega
      · have := hm.above (m := m) (u := a)
        have ht := hm.tie (m := m) (u := a)
        unfold RoundingMode.tie at ht
        split at ht <;> omega
  have htie : mode.tie (m/a/(2*n))=m/a/(2*n) ∨ mode.tie (m/a/(2*n))=m/a/(2*n)+1 := by
    unfold RoundingMode.tie
    split <;> simp
  obtain hk | hk | hk | hk : m/a%(2*n)+1<n ∨ m/a%(2*n)+1=n ∨ m/a%(2*n)=n ∨ n < m/a%(2*n) := by omega
  · rw [hm.below (hlt.mpr (by omega)),hdiv]
    refine iff_of_true ?_ ⟨by omega,by omega⟩
    obtain hx | hx := hX
    · rw [hx,hm.below (by omega)]
    · rw [hx.1,hm.below (by omega)]
      omega
  · rw [hm.below (hlt.mpr (by omega)),hdiv]
    obtain hx | hx := hX
    · rw [hx,hm.below (by omega)]
      exact iff_of_true rfl ⟨by omega,by omega⟩
    · rw [hx.1,hm.tie (by omega),show (m/a+1)/(2*n)=m/a/(2*n) by omega]
      omega
  · obtain hx | hx := hX
    · rw [hx,hm.tie (by omega)]
      by_cases h0 : m%a=0
      · rw [hm.tie (heq.mpr ⟨hk,h0⟩),hdiv]
        exact iff_of_true rfl ⟨by omega,by omega⟩
      · rw [hm.above (by omega),hdiv]
        omega
    · rw [hx.1,hm.above (by omega),hm.above (by omega),hdiv]
      exact iff_of_true (by omega) ⟨by omega,by omega⟩
  · rw [hm.above (u := 2*n*a) (by omega),hdiv]
    refine iff_of_true ?_ ⟨by omega,by omega⟩
    obtain hx | hx := hX
    · rw [hx,hm.above (by omega)]
    · rw [hx.1]
      obtain ⟨-,hd,hr⟩ | ⟨-,hd,hr⟩ := hsucc
      · rw [hm.above (by rw [hr]; omega),hd]
      · rw [hm.below (by rw [hr]; omega),hd]

theorem up_twice {N : Nat} (hN : 0<N) :
    RoundingMode.rup.roundDiv (RoundingMode.rup.roundDiv m a) N=RoundingMode.rup.roundDiv m (N*a) := by
  have hsucc := succ_div_mod (m/a) hN
  have hz := mod_mul_eq_zero ha m N
  rw [roundDiv_up m (N*a),div_mul]
  by_cases hr : m%a=0
  · rw [roundDiv_up m a,if_pos hr,roundDiv_up]
    split_ifs <;> omega
  · rw [roundDiv_up m a,if_neg hr,roundDiv_up]
    split_ifs <;> omega

/-- Down to `a`, then up. -/
theorem down_up (N : Nat) :
    RoundingMode.rup.roundDiv (RoundingMode.rdn.roundDiv m a) N=RoundingMode.rup.roundDiv m (N*a) ↔
      m/a%N≠0 ∨ m%a=0 := by
  have hz := mod_mul_eq_zero ha m N
  rw [roundDiv_up m (N*a),div_mul,roundDiv_down,roundDiv_up]
  split_ifs <;> omega

/-- Exactly when rounding twice is rounding once. -/
theorem roundDiv_twice {n : Nat} (hn : 1<n) (h2 : n%2=0) (negative : Bool) :
    (mode.signed negative).roundDiv (mode.roundDiv m a) (2*n)=(mode.signed negative).roundDiv m (2*n*a) ↔
      mode.RoundsThrough negative m a (2*n) := by
  have hN : 0<2*n := by omega
  have hpar : m/a%2=m/a%(2*n)%2 := (Nat.mod_mod_of_dvd _ ⟨n,rfl⟩).symm
  cases mode with
  | rtz =>
    have hs : signed .rtz negative=.rtz := by cases negative <;> rfl
    rw [hs]
    exact iff_of_true (div_mul m (2*n)).symm trivial
  | rdn =>
    cases negative with
    | false => exact iff_of_true (div_mul m (2*n)).symm nofun
    | true => exact (down_up ha m (2*n)).trans (imp_iff_right rfl).symm
  | rup =>
    cases negative with
    | false => exact iff_of_true (up_twice ha m hN) nofun
    | true => exact (up_down m hN).trans (imp_iff_right rfl).symm
  | rne =>
    have hm : Nearest .rne := .inl rfl
    rw [hm.signed,hm.twice ha m hn,(roundDiv_even m a).1,(roundDiv_even m a).2,
      (tie_even (m/a/(2*n))).1,(tie_even (m/a/(2*n))).2]
    simp only [RoundsThrough]
    omega
  | rmm =>
    have hm : Nearest .rmm := .inr rfl
    rw [hm.signed,hm.twice ha m hn,(roundDiv_away m a).1,(roundDiv_away m a).2,tie_away]
    simp only [RoundsThrough,and_true]
    omega

end Digits
end Twice
end RoundingMode
end OpenSBI.Math
