import OpenSBI.Quad.QDivRem
import Mathlib.Tactic.Linarith

namespace OpenSBI

open Math

section Words

variable {a b t : ULong}

theorem toNat_HHALF (t : ULong) : (HHALF t).toNat=t.toNat/2^16 := by
  rw [HHALF,BitVec.toNat_ushiftRight,Nat.shiftRight_eq_div_pow]
  rfl

theorem toNat_LHALF (t : ULong) : (LHALF t).toNat=t.toNat%2^16 := by
  rw [LHALF,BitVec.toNat_and,show (quadB-1).toNat=2^16-1 by decide,Nat.and_two_pow_sub_one_eq_mod]

theorem toNat_COMBINE (ha : a.toNat<2^16) (hb : b.toNat<2^16) : (COMBINE a b).toNat=a.toNat*2^16+b.toNat := by
  have hor := Nat.shiftLeft_add_eq_or_of_lt hb a.toNat
  rw [Nat.shiftLeft_eq] at hor
  rw [COMBINE,HALF_BITS,BitVec.toNat_or,BitVec.toNat_shiftLeft,Nat.shiftLeft_eq,Nat.mod_eq_of_lt (by omega),hor]

@[simp]
theorem toNat_up (d : Digit) : d.up.toNat=d.toNat :=
  BitVec.toNat_setWidth_of_le (by decide)

theorem toNat_digit (t : ULong) : (digit t).toNat=t.toNat%2^16 :=
  BitVec.toNat_setWidth 16 t

theorem toNat_quadB : quadB.toNat=2^16 := by
  decide

end Words

/-- The number that `n` digits of an array make up, from index `a` on. -/
def number (u : Digits) (a n : ℕ) : ℕ := place (2^16) (fun i => (u i).toNat) a n

section Number

variable {u w : Digits} {a k n : ℕ}

theorem number_lt : number u a n<(2^16)^n :=
  place_lt fun i => (u i).isLt

theorem number_congr (h : ∀ i,i<n → u (a+i)=w (a+i)) : number u a n=number w a n :=
  place_congr fun i hi => congrArg BitVec.toNat (h i hi)

theorem number_append (k n : ℕ) : number u a (k+n)=number u a k*(2^16)^n+number u (a+k) n :=
  place_append k n

theorem number_head (n : ℕ) : number u a (n+1)=(u a).toNat*(2^16)^n+number u (a+1) n :=
  place_head n

theorem number_one : number u a 1=(u a).toNat :=
  place_one

theorem number_eq_zero (h : ∀ i,i<n → u (a+i)=0) : number u a n=0 :=
  place_eq_zero fun i hi => congrArg BitVec.toNat (h i hi)

theorem cast_number : ((number u a n : ℕ) : ℤ)=place (2^16 : ℤ) (fun i => ((u i).toNat : ℤ)) a n := by
  rw [number,cast_place]
  rfl

/-- The digits above those that a small number fills are zero. -/
theorem digit_high {i : ℕ} (h : number u a (k+n)<(2^16)^n) (hi : i<k) : u (a+i)=0 := by
  have hk : number u a (i+(1+(k-(i+1))))=0 := by
    rw [show i+(1+(k-(i+1)))=k by omega]
    exact place_high h
  rw [number_append,number_append,number_one] at hk
  have hpos := Nat.two_pow_pos 16
  have hz : (u (a+i)).toNat=0 := by
    by_contra hne
    have := Nat.mul_pos (Nat.pos_of_ne_zero hne) (pow_pos hpos (k-(i+1)))
    omega
  exact BitVec.eq_of_toNat_eq hz

end Number

section Estimate

variable {v1 v2 uj0 uj1 uj2 qhat rhat : ULong}

/-- The quotient of three digits by two, as a digit. -/
def threeByTwo (v1 v2 u0 u1 u2 : ℕ) : ℕ :=
  min (2^16-1) (((u0*2^16+u1)*2^16+u2)/(v1*2^16+v2))

theorem le_threeByTwo {v1 v2 u0 u1 u2 q : ℕ} (hv : 0<v1) :
    q ≤ threeByTwo v1 v2 u0 u1 u2 ↔ q<2^16 ∧ q*(v1*2^16+v2) ≤ (u0*2^16+u1)*2^16+u2 := by
  rw [threeByTwo,Nat.le_min,Nat.le_div_iff_mul_le (by omega)]
  omega

/-- The test of D3 tells whether the estimate is too large. -/
theorem tooLarge_iff {u0 u1 : ℕ} (hv : 0<v1.toNat) (hv2 : v2.toNat<2^16) (h2 : uj2.toNat<2^16)
    (hq : qhat.toNat<2^16) (hr : rhat.toNat<2^16) (hinv : qhat.toNat*v1.toNat+rhat.toNat=u0*2^16+u1) :
    COMBINE rhat uj2<v2*qhat ↔ threeByTwo v1.toNat v2.toNat u0 u1 uj2.toNat<qhat.toNat := by
  have hmul : v2.toNat*qhat.toNat ≤ (2^16-1)*(2^16-1) := Nat.mul_le_mul (by omega) (by omega)
  have hsplit : qhat.toNat*(v1.toNat*2^16+v2.toNat)=qhat.toNat*v1.toNat*2^16+v2.toNat*qhat.toNat := by ring
  rw [BitVec.lt_def,toNat_COMBINE hr h2,BitVec.toNat_mul,Nat.mod_eq_of_lt (by omega),← not_le,← not_le,
    le_threeByTwo hv,hsplit,← hinv]
  omega

/-- An estimate that is too large is corrected: each correction adds at least half the base to the
remainder, so that two of them are enough. -/
theorem qhatTooBig_spec (hv : 2^15 ≤ v1.toNat ∧ v1.toNat<2^16) (hv2 : v2.toNat<2^16) (h2 : uj2.toNat<2^16)
    {u0 u1 k : ℕ} (hk : 2^16 ≤ rhat.toNat+k*v1.toNat) (hr : rhat.toNat<2^16) (hq : qhat.toNat ≤ 2^16)
    (hinv : qhat.toNat*v1.toNat+rhat.toNat=u0*2^16+u1)
    (hbig : threeByTwo v1.toNat v2.toNat u0 u1 uj2.toNat<qhat.toNat) :
    ∃ q,qhatTooBig v1 v2 uj2 k qhat rhat=some q ∧ q.toNat=threeByTwo v1.toNat v2.toNat u0 u1 uj2.toNat := by
  induction k generalizing qhat rhat with
  | zero => omega
  | succ k ih =>
    have hq' : (qhat-1).toNat=qhat.toNat-1 := by
      rw [BitVec.toNat_sub_of_le (by rw [BitVec.le_def]; exact Nat.one_le_of_lt hbig)]
      rfl
    have hr' : (rhat+v1).toNat=rhat.toNat+v1.toNat := by
      rw [BitVec.toNat_add,Nat.mod_eq_of_lt (by omega)]
    have hinv' : (qhat-1).toNat*v1.toNat+(rhat+v1).toNat=u0*2^16+u1 := by
      obtain ⟨p,hp⟩ := Nat.exists_eq_add_of_le (Nat.one_le_of_lt hbig)
      rw [hq',hr',hp,Nat.add_sub_cancel_left,← hinv,hp]
      ring
    rw [qhatTooBig]
    by_cases hB : quadB ≤ rhat+v1
    · -- A remainder beyond the base ends the loop: the second digit of the divisor cannot use it up.
      rw [if_pos hB]
      rw [BitVec.le_def,toNat_quadB] at hB
      have hmul : v2.toNat*(qhat-1).toNat ≤ (2^16-1)*(2^16-1) := Nat.mul_le_mul (by omega) (by omega)
      have hsplit : (qhat-1).toNat*(v1.toNat*2^16+v2.toNat)=
          (qhat-1).toNat*v1.toNat*2^16+v2.toNat*(qhat-1).toNat := by ring
      have hle := (le_threeByTwo (by omega)).mpr ⟨show (qhat-1).toNat<2^16 by omega,
        show (qhat-1).toNat*(v1.toNat*2^16+v2.toNat) ≤ (u0*2^16+u1)*2^16+uj2.toNat by omega⟩
      exact ⟨_,rfl,by omega⟩
    · rw [if_neg hB]
      rw [BitVec.le_def,toNat_quadB,not_le] at hB
      have htest := tooLarge_iff (by omega) hv2 h2 (by omega) hB hinv'
      split
      · rename_i ht
        exact ih (by rw [hr']; linarith) hB (by omega) hinv' (htest.mp ht)
      · rename_i ht
        have hle := mt htest.mpr ht
        exact ⟨_,rfl,by omega⟩

/-- D3 gives the quotient of the three leading digits by two of the divisor. -/
theorem chooseQhat_spec (hv : 2^15 ≤ v1.toNat ∧ v1.toNat<2^16) (hv2 : v2.toNat<2^16) (h0 : uj0.toNat ≤ v1.toNat)
    (h1 : uj1.toNat<2^16) (h2 : uj2.toNat<2^16) : ∃ q,chooseQhat v1 v2 uj0 uj1 uj2=some q ∧
      q.toNat=threeByTwo v1.toNat v2.toNat uj0.toNat uj1.toNat uj2.toNat := by
  have hpos : 0<v1.toNat := by omega
  have hself := (le_threeByTwo hpos).mp (le_refl (threeByTwo v1.toNat v2.toNat uj0.toNat uj1.toNat uj2.toNat))
  rw [chooseQhat]
  by_cases he : uj0=v1
  · rw [if_pos he]
    exact qhatTooBig_spec hv hv2 h2 (by omega) h1 toNat_quadB.le (by rw [toNat_quadB,he,Nat.mul_comm])
      (by rw [toNat_quadB]; exact hself.1)
  · have hlt : uj0.toNat<v1.toNat := lt_of_le_of_ne h0 fun h => he (BitVec.eq_of_toNat_eq h)
    have hn := toNat_COMBINE (show uj0.toNat<2^16 by omega) h1
    have hq : (COMBINE uj0 uj1/v1).toNat=(uj0.toNat*2^16+uj1.toNat)/v1.toNat := by rw [BitVec.toNat_udiv,hn]
    have hr : (COMBINE uj0 uj1%v1).toNat=(uj0.toNat*2^16+uj1.toNat)%v1.toNat := by rw [BitVec.toNat_umod,hn]
    have hqlt : (COMBINE uj0 uj1/v1).toNat<2^16 := by
      rw [hq,Nat.div_lt_iff_lt_mul hpos]
      nlinarith
    have hrlt : (COMBINE uj0 uj1%v1).toNat<v1.toNat := hr ▸ Nat.mod_lt _ hpos
    have hinv : (COMBINE uj0 uj1/v1).toNat*v1.toNat+(COMBINE uj0 uj1%v1).toNat=uj0.toNat*2^16+uj1.toNat := by
      rw [hq,hr,Nat.mul_comm]
      exact Nat.div_add_mod _ _
    have htest := tooLarge_iff hpos hv2 h2 hqlt (hrlt.trans hv.2) hinv
    rw [if_neg he]
    dsimp only
    split
    · rename_i ht
      exact qhatTooBig_spec hv hv2 h2 (by omega) (by omega) hqlt.le hinv (htest.mp ht)
    · rename_i ht
      refine ⟨_,rfl,le_antisymm (not_lt.mp (mt htest.mpr ht)) ?_⟩
      rw [hq,Nat.le_div_iff_mul_le hpos]
      nlinarith

end Estimate
end OpenSBI
