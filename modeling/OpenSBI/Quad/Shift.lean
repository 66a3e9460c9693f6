import OpenSBI.Quad.Round

namespace OpenSBI

open Math

section Shifts

variable {a us : Digits} {p u m n d sh k i x : ℕ} {b c : Digit}

/-- The two parts of a shifted digit, which have no bits in common. -/
theorem toNat_or_parts (h : sh ≤ 16) {y : ℕ} (hy : y<2^sh) (b : ℕ) :
    (b*2^sh)%2^16 ||| y=(b*2^sh)%2^16+y := by
  have hpow : 2^16=2^(16-sh)*2^sh := by rw [← pow_add,Nat.sub_add_cancel h]
  rw [hpow,Nat.mul_mod_mul_right,← Nat.shiftLeft_eq,Nat.shiftLeft_add_eq_or_of_lt hy]

theorem shifted_div (h : sh ≤ 16) (b : ℕ) : b/2^(16-sh)=b*2^sh/2^16 := by
  have hpow : 2^16=2^(16-sh)*2^sh := by rw [← pow_add,Nat.sub_add_cancel h]
  rw [hpow,Nat.mul_div_mul_right _ _ (Nat.two_pow_pos sh)]

theorem toNat_LHALF_shl (h : sh ≤ 16) : (LHALF (b.up <<< sh)).toNat=b.toNat*2^sh%2^16 := by
  have hlt : b.toNat*2^sh<2^16*2^16 :=
    Nat.mul_lt_mul_of_lt_of_le b.isLt (Nat.pow_le_pow_right (by decide) h) (Nat.two_pow_pos 16)
  change b.toNat*2^sh<2^32 at hlt
  rw [toNat_LHALF,BitVec.toNat_shiftLeft,toNat_up,Nat.shiftLeft_eq,Nat.mod_eq_of_lt hlt]

/-- A digit shifted to the left, with what comes in from the one below it. -/
theorem toNat_shlDigit (h : sh ≤ 16) :
    (digit (LHALF (b.up <<< sh) ||| c.up >>> (HALF_BITS-sh))).toNat=b.toNat*2^sh%2^16+c.toNat*2^sh/2^16 := by
  have hc := c.isLt
  have hy : c.toNat/2^(16-sh)<2^sh := by
    rw [Nat.div_lt_iff_lt_mul (Nat.two_pow_pos _),← pow_add,Nat.add_sub_of_le h]
    exact hc
  have hor : (LHALF (b.up <<< sh) ||| c.up >>> (HALF_BITS-sh)).toNat=b.toNat*2^sh%2^16+c.toNat*2^sh/2^16 := by
    rw [BitVec.toNat_or,toNat_LHALF_shl h,BitVec.toNat_ushiftRight,toNat_up,Nat.shiftRight_eq_div_pow,HALF_BITS,
      toNat_or_parts h hy,shifted_div h]
  have hlt := (digit (LHALF (b.up <<< sh) ||| c.up >>> (HALF_BITS-sh))).isLt
  rw [toNat_digit,hor,Nat.mod_eq_of_lt]
  rw [← hor,BitVec.toNat_or,toNat_LHALF_shl h,BitVec.toNat_ushiftRight,toNat_up]
  exact Nat.or_lt_two_pow (Nat.mod_lt _ (by decide)) ((Nat.shiftRight_le _ _).trans_lt hc)

/-- A digit shifted to the right, with what comes in from the one above it. -/
theorem toNat_shrDigit (h : d ≤ 16) :
    (digit (c.up >>> d ||| LHALF (b.up <<< (HALF_BITS-d)))).toNat=c.toNat/2^d+b.toNat%2^d*2^(16-d) := by
  have hpow : 2^16=2^d*2^(16-d) := by rw [← pow_add,Nat.add_sub_of_le h]
  have hs := @toNat_shlDigit (16-d) b c (Nat.sub_le _ _)
  rw [HALF_BITS,show 16-(16-d)=d by omega] at hs
  rw [BitVec.or_comm,HALF_BITS,hs,← shifted_div (Nat.sub_le 16 d),show 16-(16-d)=d by omega,Nat.add_comm]
  congr 1
  rw [hpow,Nat.mul_mod_mul_right]

/-- What the loop of `shl()` leaves in each digit. -/
theorem shlLoop_digit : shlLoop p sh k i a x=
    if p+i ≤ x ∧ x<p+i+k then digit (LHALF ((a x).up <<< sh) ||| (a (x+1)).up >>> (HALF_BITS-sh))
    else if x=p+i+k then digit (LHALF ((a x).up <<< sh)) else a x := by
  induction k generalizing i a with
  | zero =>
    rw [shlLoop,if_neg (by omega),Nat.add_zero]
    by_cases hx : x=p+i
    · rw [if_pos hx,hx,Function.update_self]
    · rw [if_neg hx,Function.update_of_ne hx]
  | succ k ih =>
    rw [shlLoop,ih]
    obtain hx | rfl | hx := Nat.lt_trichotomy x (p+i)
    · rw [if_neg (by omega),if_neg (by omega),if_neg (by omega),if_neg (by omega),Function.update_of_ne (by omega)]
    · rw [if_neg (by omega),if_neg (by omega),if_pos (by omega),Function.update_self,Nat.add_assoc]
    · rw [Function.update_of_ne (by omega),Function.update_of_ne (by omega)]
      by_cases h1 : x<p+(i+1)+k
      · rw [if_pos (by omega),if_pos (by omega)]
      · rw [if_neg (by omega),if_neg (show ¬(p+i ≤ x ∧ x<p+i+(k+1)) by omega)]
        by_cases h2 : x=p+(i+1)+k
        · rw [if_pos h2,if_pos (by omega)]
        · rw [if_neg h2,if_neg (by omega)]

theorem shl_frame (h : x<p ∨ p+k<x) : shl a p k sh x=a x := by
  rw [shl,shlLoop_digit,if_neg (by omega),if_neg (by omega)]

theorem toNat_shl (hs : sh ≤ 16) (hi : i ≤ k) : (shl a p k sh (p+i)).toNat=
    (a (p+i)).toNat*2^sh%2^16+if i<k then (a (p+(i+1))).toNat*2^sh/2^16 else 0 := by
  rw [shl,shlLoop_digit]
  by_cases h : i<k
  · rw [if_pos (by omega),if_pos h,toNat_shlDigit hs,Nat.add_assoc]
  · rw [if_neg (by omega),if_pos (by omega),if_neg h,toNat_digit,toNat_LHALF_shl hs,Nat.mod_mod,Nat.add_zero]

/-- `shl()` multiplies where nothing falls out on the left. -/
theorem number_shl (hs : sh ≤ 16) (h : (a p).toNat*2^sh<2^16) :
    number (shl a p k sh) p (k+1)=number a p (k+1)*2^sh := by
  have hc := @place_carry ℤ _ (2^16) (2^sh) (fun i => ((a i).toNat : ℤ)) (fun i => ((shl a p k sh i).toNat : ℤ))
    (fun i => if i ≤ k then (((a (p+i)).toNat*2^sh/2^16 : ℕ) : ℤ) else 0) p (k+1) (by
      intro i hi
      have hd : ∀ y c : ℕ,y%2^16+c+2^16*(y/2^16)=y+c := fun y c => by omega
      rw [toNat_shl hs (Nat.le_of_lt_succ hi),if_pos (Nat.le_of_lt_succ hi)]
      by_cases hk : i<k
      · rw [if_pos hk,if_pos (show i+1 ≤ k by omega)]
        exact_mod_cast hd _ _
      · rw [if_neg hk,if_neg (show ¬i+1 ≤ k by omega)]
        exact_mod_cast hd _ _)
  have h0 : (a (p+0)).toNat*2^sh/2^16=0 := Nat.div_eq_of_lt h
  rw [if_pos (Nat.zero_le _),if_neg (by omega),h0,← cast_number,← cast_number] at hc
  zify
  linear_combination hc

/-- What the loop that shifts the remainder back leaves in each digit. -/
theorem shrLoop_digit : shrLoop u m d k us x=
    if u+m<x ∧ x ≤ u+m+k then digit ((us x).up >>> d ||| LHALF ((us (x-1)).up <<< (HALF_BITS-d))) else us x := by
  induction k generalizing us with
  | zero => rw [shrLoop,if_neg (by omega)]
  | succ k ih =>
    rw [shrLoop,ih]
    by_cases hx : x=u+(m+(k+1))
    · rw [if_neg (by omega),if_pos (by omega),hx,Function.update_self]
      rfl
    · by_cases hin : u+m<x ∧ x ≤ u+m+k
      · rw [if_pos hin,if_pos (by omega),Function.update_of_ne hx,Function.update_of_ne (by omega)]
      · rw [if_neg hin,if_neg (by omega),Function.update_of_ne hx]

/-- The shift back divides, where the digit above is zero. -/
theorem number_shr (hd : d ≤ 16) (h : us (u+m)=0) :
    number (shrLoop u m d n us) (u+m+1) n=number us (u+m+1) n/2^d := by
  have hpow : 2^16=2^(16-d)*2^d := by rw [← pow_add,Nat.sub_add_cancel hd]
  have hr := @place_divide ℤ _ (2^16) (2^d) (fun i => ((us i).toNat : ℤ))
    (fun i => ((shrLoop u m d n us i).toNat : ℤ)) (fun i => (((us (u+m+i)).toNat%2^d : ℕ) : ℤ)) (u+m+1) n (by
      intro i hi
      have hdm : ∀ y r : ℕ,(y/2^d+r*2^(16-d))*2^d+y%2^d=r*2^16+y := by
        intro y r
        have := Nat.div_add_mod y (2^d)
        rw [hpow]
        linarith
      rw [shrLoop_digit,if_pos (by omega),toNat_shrDigit hd,show u+m+1+i-1=u+m+i by omega,
        show u+m+(i+1)=u+m+1+i by omega]
      exact_mod_cast hdm _ _)
  have h0 : us (u+m+0)=0 := h
  rw [← cast_number,← cast_number,h0] at hr
  have hlt := Nat.mod_lt (us (u+m+n)).toNat (Nat.two_pow_pos d)
  have hr' : number (shrLoop u m d n us) (u+m+1) n*2^d+(us (u+m+n)).toNat%2^d=number us (u+m+1) n := by
    zify
    simpa using hr
  rw [← hr',Nat.mul_comm,Nat.mul_add_div (Nat.two_pow_pos d),Nat.div_eq_of_lt hlt]
  rfl

end Shifts
end OpenSBI
