import OpenSBI.Math.Rounding
import Mathlib.Data.Nat.Log
import Mathlib.Tactic.FieldSimp
import Mathlib.Tactic.Ring

namespace OpenSBI.Math

/-- A binary interchange format, by the widths of its exponent and fraction fields. -/
structure BinaryFormat where
  expBits : Nat
  fracBits : Nat

/-- What a bit pattern stands for; a zero keeps its sign. -/
inductive FloatValue where
  | nan (negative signaling : Bool)
  | inf (negative : Bool)
  | finite (negative : Bool) (magnitude : ℚ)
  deriving DecidableEq,Repr

/-- The value without its sign. -/
def FloatValue.abs : FloatValue → FloatValue
  | .nan _ signaling => .nan false signaling
  | .inf _ => .inf false
  | .finite _ m => .finite false m

namespace BinaryFormat

variable (F : BinaryFormat)

def bias : Nat := 2^(F.expBits-1)-1

def expField (m : Nat) : Nat := m/2^F.fracBits
def fracField (m : Nat) : Nat := m%2^F.fracBits

/-- The significand, with the hidden bit of a normal number. -/
def significand (m : Nat) : Nat := F.fracField m+if F.expField m=0 then 0 else 2^F.fracBits

/-- The rational in the bits below the sign. -/
def magnitude (m : Nat) : ℚ :=
  F.significand m*2^max (F.expField m) 1/2^(F.bias+F.fracBits)

/-- The value of the sign and the bits below it. -/
def value (negative : Bool) (m : Nat) : FloatValue :=
  if F.expField m=2^F.expBits-1 then
    if F.fracField m=0 then .inf negative
    else .nan negative (decide (F.fracField m<2^(F.fracBits-1)))
  else .finite negative (F.magnitude m)

theorem value_abs (negative : Bool) (m : Nat) : F.value false m=(F.value negative m).abs := by
  unfold value
  split
  · split <;> rfl
  · rfl

/-- The sign of a number is the sign bit. -/
theorem value_not {negative negative' : Bool} {m : Nat} {q : ℚ} (h : F.value negative m=.finite negative' q) :
    F.value (!negative) m=.finite (!negative') q := by
  unfold value at h ⊢
  split at h
  · split at h <;> cases h
  · rename_i he
    rw [if_neg he]
    cases h
    rfl

theorem value_cases (negative : Bool) (m : Nat) :
    (∃ signaling,F.value negative m=.nan negative signaling) ∨ F.value negative m=.inf negative ∨
      F.value negative m=.finite negative (F.magnitude m) := by
  unfold value
  split
  · split
    · exact .inr (.inl rfl)
    · exact .inl ⟨_,rfl⟩
  · exact .inr (.inr rfl)

theorem magnitude_nonneg (m : Nat) : 0 ≤ F.magnitude m := by
  unfold magnitude
  positivity

theorem significand_lt (m : Nat) : F.significand m<2^(F.fracBits+1) := by
  have h : F.fracField m<2^F.fracBits := Nat.mod_lt _ (Nat.two_pow_pos _)
  have hp : 2^(F.fracBits+1)=2*2^F.fracBits := by rw [pow_succ,Nat.mul_comm]
  rw [significand,hp]
  split <;> omega

/-- A number that is not an integer lies below the first number whose neighbours are integers. -/
theorem magnitude_lt_of_not_int {m : Nat} (h : F.magnitude m≠⌊F.magnitude m⌋) :
    F.magnitude m<2^(F.fracBits+1) := by
  have hs : (F.significand m : ℚ)<2^(F.fracBits+1) := by exact_mod_cast F.significand_lt m
  by_cases he : max (F.expField m) 1<F.bias+F.fracBits
  · have hp : (0 : ℚ)<2^(F.bias+F.fracBits) := by positivity
    have hle : (2 : ℚ)^max (F.expField m) 1 ≤ 2^(F.bias+F.fracBits) :=
      pow_le_pow_right₀ (by norm_num) he.le
    have hm : F.magnitude m ≤ F.significand m := by
      rw [magnitude,div_le_iff₀ hp]
      exact mul_le_mul_of_nonneg_left hle (by positivity)
    exact hm.trans_lt hs
  · exfalso
    apply h
    obtain ⟨k,hk⟩ := Nat.exists_eq_add_of_le (not_lt.mp he)
    have hi : F.magnitude m=((F.significand m*2^k : ℕ) : ℤ) := by
      rw [magnitude,hk,pow_add]
      field_simp
      push_cast
      ring
    rw [hi,Int.floor_intCast]

/-- The bits of the normal number `n/2^k`. -/
def pack (n k : Nat) : Nat :=
  if n=0 then 0
  else (Nat.log2 n+F.bias-k)*2^F.fracBits+(n*2^F.fracBits/2^Nat.log2 n-2^F.fracBits)

/-- `n` has at most `fracBits+1` significant bits. -/
def Represents (n : Nat) : Prop := 2^Nat.log2 n ∣ n*2^F.fracBits

theorem two_bias (h : 2 ≤ F.expBits) : F.bias+F.bias+1=2^F.expBits-1 ∧ 1 ≤ F.bias := by
  obtain ⟨k,hk⟩ := Nat.exists_eq_add_of_le h
  have h2 : 2^(2+k)=4*2^k := by rw [pow_add]; norm_num
  have h1 : 2^(2+k-1)=2*2^k := by rw [show 2+k-1=k+1 by omega,pow_succ,Nat.mul_comm]
  have h0 := Nat.two_pow_pos k
  rw [bias,hk,h1,h2]
  omega

theorem value_zero (negative : Bool) (h : 2 ≤ F.expBits) : F.value negative 0=.finite negative 0 := by
  have hb := F.two_bias h
  have hz : F.expField 0=0 ∧ F.fracField 0=0 := by simp [expField,fracField]
  rw [value,hz.1,if_neg (by omega),magnitude,significand,hz.1,hz.2]
  simp

/-- The significand of a number with few enough bits. -/
theorem exists_significand {n : Nat} (h0 : n≠0) (hr : F.Represents n) :
    ∃ q,n*2^F.fracBits=2^Nat.log2 n*q ∧ 2^F.fracBits ≤ q ∧ q<2*2^F.fracBits := by
  obtain ⟨q,hq⟩ := hr
  have hlo : 2^Nat.log2 n ≤ n := Nat.log2_self_le h0
  have hhi : n<2*2^Nat.log2 n := by
    have h := Nat.lt_log2_self (n := n)
    rw [pow_succ] at h
    omega
  have hfb := Nat.two_pow_pos F.fracBits
  refine ⟨q,hq,?_,?_⟩
  · apply Nat.le_of_mul_le_mul_left _ (Nat.two_pow_pos (Nat.log2 n))
    rw [← hq]
    exact Nat.mul_le_mul_right _ hlo
  · apply Nat.lt_of_mul_lt_mul_left (a := 2^Nat.log2 n)
    rw [← hq]
    calc n*2^F.fracBits<2*2^Nat.log2 n*2^F.fracBits := Nat.mul_lt_mul_of_pos_right hhi hfb
      _=2^Nat.log2 n*(2*2^F.fracBits) := by ring

/-- Packing and reading back. -/
theorem value_pack (negative : Bool) {n k : Nat} (hr : F.Represents n) (hk : k<Nat.log2 n+F.bias)
    (he : Nat.log2 n ≤ F.bias+k) (hb : 2 ≤ F.expBits) :
    F.value negative (F.pack n k)=.finite negative (n/2^k) := by
  by_cases h0 : n=0
  · rw [pack,if_pos h0,F.value_zero negative hb,h0]
    simp
  · have hbias := F.two_bias hb
    have hfb := Nat.two_pow_pos F.fracBits
    obtain ⟨q,hq,hqlo,hqhi⟩ := F.exists_significand h0 hr
    have hdiv : n*2^F.fracBits/2^Nat.log2 n=q := by
      rw [hq,Nat.mul_div_cancel_left _ (Nat.two_pow_pos _)]
    have hpack : F.pack n k=(q-2^F.fracBits)+2^F.fracBits*(Nat.log2 n+F.bias-k) := by
      rw [pack,if_neg h0,hdiv,Nat.mul_comm,Nat.add_comm]
    have hexp : F.expField (F.pack n k)=Nat.log2 n+F.bias-k := by
      rw [expField,hpack,Nat.add_mul_div_left _ _ hfb,Nat.div_eq_of_lt (by omega),Nat.zero_add]
    have hfrac : F.fracField (F.pack n k)=q-2^F.fracBits := by
      rw [fracField,hpack,Nat.add_mul_mod_self_left,Nat.mod_eq_of_lt (by omega)]
    have hsig : F.significand (F.pack n k)=q := by
      rw [significand,hexp,hfrac,if_neg (by omega),Nat.sub_add_cancel hqlo]
    have hv : (q : ℚ)*2^Nat.log2 n=n*2^F.fracBits := by
      rw [mul_comm]
      exact_mod_cast hq.symm
    have hp : (2 : ℚ)^(Nat.log2 n+F.bias-k)*2^k=2^Nat.log2 n*2^F.bias := by
      rw [← pow_add,← pow_add,Nat.sub_add_cancel hk.le]
    rw [value,hexp,if_neg (by omega),magnitude,hsig,hexp,Nat.max_eq_left (by omega)]
    congr 1
    rw [div_eq_div_iff (by positivity) (by positivity),pow_add,mul_assoc,hp,← mul_assoc,hv]
    ring

theorem pack_lt {n k : Nat} (hr : F.Represents n) (hk : k<Nat.log2 n+F.bias)
    (he : Nat.log2 n ≤ F.bias+k) (hb : 2 ≤ F.expBits) : F.pack n k<2^(F.expBits+F.fracBits) := by
  have hbias := F.two_bias hb
  have hfb := Nat.two_pow_pos F.fracBits
  have hp : 2^(F.expBits+F.fracBits)=2^F.expBits*2^F.fracBits := pow_add 2 _ _
  by_cases h0 : n=0
  · rw [pack,if_pos h0]
    exact Nat.two_pow_pos _
  · obtain ⟨q,hq,hqlo,hqhi⟩ := F.exists_significand h0 hr
    have hdiv : n*2^F.fracBits/2^Nat.log2 n=q := by
      rw [hq,Nat.mul_div_cancel_left _ (Nat.two_pow_pos _)]
    have hle : (Nat.log2 n+F.bias-k+1)*2^F.fracBits ≤ 2^F.expBits*2^F.fracBits :=
      Nat.mul_le_mul_right _ (by omega)
    rw [pack,if_neg h0,hdiv,hp]
    rw [Nat.add_mul,Nat.one_mul] at hle
    omega

end BinaryFormat
end OpenSBI.Math
