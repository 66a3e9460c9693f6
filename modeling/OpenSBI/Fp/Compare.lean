import OpenSBI.Fp.MinMax
import OpenSBI.Fp.Operands

namespace OpenSBI

open Math

/-- The body shared by `f32_eq()` and `f64_eq()`; `nonzero` tests the bits below the sign. -/
def eqUI {w : Nat} (isNaN isSigNaN nonzero : BitVec w → Bool) (a b : BitVec w) : Bool×Flags :=
  if isNaN a || isNaN b then (false,if isSigNaN a || isSigNaN b then softfloat_flag_invalid else 0)
  else (a==b || !nonzero (a ||| b),0)

/-- The body shared by `f32_lt()` and `f64_lt()`. -/
def ltUI {w : Nat} (isNaN nonzero : BitVec w → Bool) (a b : BitVec w) : Bool×Flags :=
  if isNaN a || isNaN b then (false,softfloat_flag_invalid)
  else (if a.msb != b.msb then a.msb && nonzero (a ||| b) else a != b && (a.msb ^^ decide (a<b)),0)

def f32Eq : BitVec 32 → BitVec 32 → Bool×Flags :=
  eqUI isNaNF32UI softfloat_isSigNaNF32UI fun u => u <<< 1!=0
def f64Eq : BitVec 64 → BitVec 64 → Bool×Flags :=
  eqUI isNaNF64UI softfloat_isSigNaNF64UI fun u => u &&& 0x7FFFFFFFFFFFFFFF!=0
def f32Lt : BitVec 32 → BitVec 32 → Bool×Flags := ltUI isNaNF32UI fun u => u <<< 1!=0
def f64Lt : BitVec 64 → BitVec 64 → Bool×Flags := ltUI isNaNF64UI fun u => u &&& 0x7FFFFFFFFFFFFFFF!=0

/-- The body shared by `f32_classify()` and `f64_classify()`. -/
def classifyUI (f : Fmt) (isNaN isSigNaN : BitVec f.width → Bool) (a : BitVec f.width) : BitVec 16 :=
  let infOrNaN := decide (f.expUI a=f.expMax)
  let subnormalOrZero := decide (f.expUI a=0)
  let sign := a.msb
  let zeroFrac := decide (f.fracUI a=0)
  let bit (b : Bool) (i : Nat) : BitVec 16 := (if b then 1 else 0) <<< i
  bit (sign && infOrNaN && zeroFrac) 0 ||| bit (sign && !infOrNaN && !subnormalOrZero) 1 |||
    bit (sign && subnormalOrZero && !zeroFrac) 2 ||| bit (sign && subnormalOrZero && zeroFrac) 3 |||
    bit (!sign && infOrNaN && zeroFrac) 7 ||| bit (!sign && !infOrNaN && !subnormalOrZero) 6 |||
    bit (!sign && subnormalOrZero && !zeroFrac) 5 ||| bit (!sign && subnormalOrZero && zeroFrac) 4 |||
    bit (isNaN a && isSigNaN a) 8 ||| bit (isNaN a && !isSigNaN a) 9

def f32Classify : BitVec 32 → BitVec 16 := classifyUI .S isNaNF32UI softfloat_isSigNaNF32UI
def f64Classify : BitVec 64 → BitVec 16 := classifyUI .D isNaNF64UI softfloat_isSigNaNF64UI

/-- The class of a value of the format, as the bit that FCLASS sets. -/
def Fmt.classBit (f : Fmt) : FloatValue → Nat
  | .nan _ signaling => if signaling then 8 else 9
  | .inf negative => if negative then 0 else 7
  | .finite negative m =>
    if m=0 then if negative then 3 else 4
    else if m<2^(1-f.format.bias : ℤ) then if negative then 2 else 5
    else if negative then 1 else 6

section Compare

variable {f : Fmt} {isNaN isSigNaN nonzero : BitVec f.width → Bool} {a b : BitVec f.width}

theorem value_nonneg (a : BitVec f.width) : (f.value a).Nonneg := by
  rw [Fmt.value_fields]
  split_ifs
  · trivial
  · trivial
  · exact Fmt.magOf_nonneg a

/-- The zeros of the values are those of the bits. -/
theorem value_zero_iff (negative : Bool) : f.value a=.finite negative 0 ↔ a=f.zero negative := by
  constructor
  · intro h
    rw [Fmt.value_fields] at h
    split_ifs at h
    injection h with hs hm
    obtain ⟨he,hf⟩ := Fmt.magOf_eq_zero.mp hm
    obtain ⟨he',hf'⟩ := Fmt.fields_low a
    have hd := Nat.div_add_mod (f.low a) (2^f.format.fracBits)
    rw [show f.low a/2^f.format.fracBits=0 from he'.trans he,
      show f.low a%2^f.format.fracBits=0 from hf'.trans hf] at hd
    exact (f.eq_zero_iff a negative).mpr ⟨hs,by omega⟩
  · rintro rfl
    cases f <;> cases negative <;> decide +kernel

theorem ltUI_fst : (ltUI isNaN nonzero a b).1=(ltQuiet isNaN isSigNaN nonzero a b).1 := by
  rw [ltUI,ltQuiet]
  split <;> rfl

/-- The comparison is the one of the numbers, and no NaN is quiet to it. -/
theorem ltUI_eq (hnan : ∀ c,isNaN c=true ↔ (f.value c).IsNaN) (hzero : ∀ c,nonzero c=true ↔ f.low c≠0) :
    ((ltUI isNaN nonzero a b).1=true ↔ (f.value a).Less (f.value b)) ∧
      (ltUI isNaN nonzero a b).2=
        if (f.value a).IsNaN ∨ (f.value b).IsNaN then softfloat_flag_invalid else 0 := by
  constructor
  · rw [@ltUI_fst f isNaN isNaN,ltQuiet_fst hnan hzero,FloatValue.less_iff (value_nonneg a) (value_nonneg b),
      value_zero_iff,value_zero_iff]
    constructor
    · exact fun h => h.2
    · intro h
      exact ⟨FloatValue.not_isNaN_of_less ((FloatValue.less_iff (value_nonneg a) (value_nonneg b)).mpr
        (by rwa [value_zero_iff,value_zero_iff])),h⟩
  · have hor : (isNaN a || isNaN b)=true ↔ (f.value a).IsNaN ∨ (f.value b).IsNaN := by
      rw [Bool.or_eq_true,hnan,hnan]
    rw [ltUI]
    simp only [← hor]
    split <;> rfl

theorem ltQuietUI_eq (hnan : ∀ c,isNaN c=true ↔ (f.value c).IsNaN)
    (hsig : ∀ c,isSigNaN c=true ↔ (f.value c).IsSignaling) (hzero : ∀ c,nonzero c=true ↔ f.low c≠0) :
    ((ltQuiet isNaN isSigNaN nonzero a b).1=true ↔ (f.value a).Less (f.value b)) ∧
      (ltQuiet isNaN isSigNaN nonzero a b).2=
        if (f.value a).IsSignaling ∨ (f.value b).IsSignaling then softfloat_flag_invalid else 0 := by
  refine ⟨?_,ltQuiet_snd hnan hsig⟩
  rw [← ltUI_fst]
  exact (ltUI_eq hnan hzero).1

/-- Bits that are neither below nor above each other are equal or zeros. -/
theorem eq_bits (hzero : ∀ c,nonzero c=true ↔ f.low c≠0) : (a==b || !nonzero (a ||| b))=true ↔
    ¬(if a.msb != b.msb then a.msb && nonzero (a ||| b) else a != b && (a.msb ^^ decide (a<b)))=true ∧
      ¬(if b.msb != a.msb then b.msb && nonzero (b ||| a) else b != a && (b.msb ^^ decide (b<a)))=true := by
  have hor : nonzero (a ||| b)=false ↔ f.low a=0 ∧ f.low b=0 := by
    rw [← Bool.not_eq_true,hzero,not_not,Fmt.low,BitVec.toNat_or,Nat.or_mod_two_pow,Nat.or_eq_zero_iff]
    rfl
  rw [BitVec.or_comm b a]
  by_cases hs : a.msb=b.msb
  · rw [if_neg (by simp [hs]),if_neg (by simp [hs])]
    by_cases hab : a=b
    · simp [hab]
    · have hne : nonzero (a ||| b)=true := by
        by_contra hz
        obtain ⟨h,h'⟩ := hor.mp (Bool.not_eq_true _ ▸ hz)
        exact hab ((f.eq_iff_low a b).mpr ⟨hs,h.trans h'.symm⟩)
      have hlt : a<b ↔ ¬b<a := by
        have := mt BitVec.eq_of_toNat_eq hab
        rw [BitVec.lt_def,BitVec.lt_def]
        omega
      simp only [hne,hs,hlt,beq_eq_false_iff_ne.mpr hab]
      cases b.msb <;> simp [hab,Ne.symm hab]
  · have hab : a≠b := fun h => hs (h ▸ rfl)
    rw [if_pos (by simpa using hs),if_pos (by simpa using Ne.symm hs),beq_eq_false_iff_ne.mpr hab]
    generalize nonzero (a ||| b)=n
    revert hs
    cases a.msb <;> cases b.msb <;> cases n <;> simp

theorem eqUI_eq (hnan : ∀ c,isNaN c=true ↔ (f.value c).IsNaN)
    (hsig : ∀ c,isSigNaN c=true ↔ (f.value c).IsSignaling) (hzero : ∀ c,nonzero c=true ↔ f.low c≠0) :
    ((eqUI isNaN isSigNaN nonzero a b).1=true ↔ (f.value a).Equal (f.value b)) ∧
      (eqUI isNaN isSigNaN nonzero a b).2=
        if (f.value a).IsSignaling ∨ (f.value b).IsSignaling then softfloat_flag_invalid else 0 := by
  have hflags := @ltQuiet_snd f isNaN isSigNaN nonzero a b hnan hsig
  have hlt := (ltUI_eq (a := a) (b := b) hnan hzero).1
  have hgt := (ltUI_eq (a := b) (b := a) hnan hzero).1
  have hnum : (isNaN a || isNaN b)=true ↔ (f.value a).IsNaN ∨ (f.value b).IsNaN := by
    rw [Bool.or_eq_true,hnan,hnan]
  constructor
  · by_cases hn : (isNaN a || isNaN b)=true
    · rw [eqUI,if_pos hn]
      refine iff_of_false Bool.false_ne_true fun he => ?_
      obtain ⟨ha,hb⟩ := FloatValue.not_isNaN_of_equal he
      exact (hnum.mp hn).elim ha hb
    · have hn' : ¬(isNaN b || isNaN a)=true := by rwa [Bool.or_comm]
      obtain ⟨ha,hb⟩ := not_or.mp (mt hnum.mpr hn)
      rw [FloatValue.equal_iff ha hb,← hlt,← hgt,eqUI,ltUI,ltUI,if_neg hn,if_neg hn,if_neg hn']
      exact eq_bits hzero
  · rw [← hflags,eqUI,ltQuiet]
    split <;> rfl

/-- The subnormal numbers are those below the first normal one. -/
theorem magOf_lt_iff (a : BitVec f.width) : f.magOf a<2^(1-f.format.bias : ℤ) ↔ f.expUI a=0 := by
  have hfrac := Fmt.fracUI_lt a
  have hz : (2 : ℚ)^(1-f.format.bias : ℤ)=2^(f.format.fracBits+1)/2^(f.format.bias+f.format.fracBits) := by
    rw [← zpow_natCast,← zpow_natCast,← zpow_sub₀ two_ne_zero]
    congr 1
    push_cast
    ring
  rw [Fmt.magOf,hz,div_lt_div_iff_of_pos_right (by positivity)]
  norm_cast
  rw [Fmt.sigOf]
  by_cases h0 : f.expUI a=0
  · rw [if_pos h0,h0,Nat.zero_max,Nat.add_zero,pow_succ]
    exact iff_of_true (by omega) rfl
  · rw [if_neg h0,Nat.max_eq_left (by omega),pow_succ]
    refine iff_of_false (not_lt.mpr (Nat.mul_le_mul (Nat.le_add_left _ _) ?_)) h0
    calc 2=2^1 := rfl
      _ ≤ 2^f.expUI a := Nat.pow_le_pow_right (by decide) (by omega)

/-- One bit is set, that of the class. -/
theorem classifyUI_eq (hnan : ∀ c,isNaN c=true ↔ (f.value c).IsNaN)
    (hsig : ∀ c,isSigNaN c=true ↔ (f.value c).IsSignaling) :
    classifyUI f isNaN isSigNaN a=BitVec.twoPow 16 (f.classBit (f.value a)) := by
  have hpos := f.expMax_gt
  have hn : isNaN a=decide (f.expUI a=f.expMax ∧ f.fracUI a≠0) := by
    rw [Bool.eq_iff_iff,hnan,Fmt.isNaN_iff,decide_eq_true_eq]
  have hs : isSigNaN a=decide ((f.value a).IsSignaling) := by
    rw [Bool.eq_iff_iff,hsig,decide_eq_true_eq]
  unfold classifyUI
  rw [hn,hs,Fmt.value_fields]
  by_cases he : f.expUI a=f.expMax
  · have h0 : ¬f.expUI a=0 := by omega
    by_cases hf : f.fracUI a=0
    · simp only [he,hf,if_true,ne_eq,not_true_eq_false,and_false,Fmt.classBit,FloatValue.IsSignaling,decide_true,
        decide_false,show decide (f.expMax=0)=false from decide_eq_false (by omega)]
      cases a.msb <;> decide
    · simp only [he,hf,if_true,if_false,ne_eq,not_false_eq_true,and_self,Fmt.classBit,FloatValue.IsSignaling,
        decide_true,decide_false,show decide (f.expMax=0)=false from decide_eq_false (by omega)]
      generalize decide (f.fracUI a<2^(f.format.fracBits-1))=q
      cases a.msb <;> cases q <;> decide
  · have hm : (f.magOf a=0 ↔ f.expUI a=0 ∧ f.fracUI a=0) := Fmt.magOf_eq_zero
    have hsub := magOf_lt_iff a
    simp only [he,if_false,false_and,Fmt.classBit,FloatValue.IsSignaling,decide_false,hm,hsub]
    by_cases h0 : f.expUI a=0
    · by_cases hf : f.fracUI a=0
      · simp only [h0,hf,and_self,if_true,decide_true]
        cases a.msb <;> decide
      · simp only [h0,hf,and_false,if_true,if_false,decide_true,decide_false]
        cases a.msb <;> decide
    · simp only [h0,false_and,if_false,decide_false]
      generalize decide (f.fracUI a=0)=z
      cases a.msb <;> cases z <;> decide

end Compare
end OpenSBI
