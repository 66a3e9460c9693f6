import Mathlib.Data.BitVec
import Mathlib.Tactic.Ring
import Mathlib.Tactic.Common

namespace OpenSBI

/-- The two widths the firmware is built for (`__riscv_xlen`). -/
inductive Xlen where
  | rv32
  | rv64
  deriving DecidableEq,Repr

def Xlen.bits : Xlen → Nat
  | .rv32 => 32
  | .rv64 => 64

/-- An `unsigned long`; `BITS_PER_LONG` is `__riscv_xlen`. -/
abbrev Word (x : Xlen) := BitVec x.bits

/-- An `unsigned long` passed as a `u32`. -/
def toU32 {x : Xlen} (a : Word x) : BitVec 32 := a.setWidth 32

theorem Xlen.bits_pos (x : Xlen) : 0<x.bits := by cases x <;> decide

theorem Xlen.bits_ge (x : Xlen) : 32≤x.bits := by cases x <;> decide

theorem Xlen.bits_le (x : Xlen) : x.bits≤64 := by cases x <;> decide

/-! ## 64-bit values in halves -/

theorem toNat_halves (hi lo : BitVec 32) : (hi++lo).toNat=2^32*hi.toNat+lo.toNat := by
  rw [BitVec.toNat_append,← Nat.shiftLeft_add_eq_or_of_lt lo.isLt,Nat.shiftLeft_eq,Nat.mul_comm]

theorem halves_inj {a b c d : BitVec 32} : a++c=b++d ↔ a=b ∧ c=d := by
  have hc := c.isLt
  have hd := d.isLt
  rw [← BitVec.toNat_inj,← BitVec.toNat_inj,← BitVec.toNat_inj,toNat_halves,toNat_halves]
  omega

theorem extractLsb'_append (hi lo : BitVec 32) :
    (hi++lo).extractLsb' 32 32=hi ∧ (hi++lo).extractLsb' 0 32=lo := by
  have hh := hi.isLt
  have hl := lo.isLt
  constructor
  · apply BitVec.eq_of_toNat_eq
    rw [BitVec.extractLsb'_toNat,toNat_halves,Nat.shiftRight_eq_div_pow]
    omega
  · apply BitVec.eq_of_toNat_eq
    rw [BitVec.extractLsb'_toNat,toNat_halves,Nat.shiftRight_eq_div_pow]
    omega

theorem append_extractLsb' (v : BitVec 64) : v.extractLsb' 32 32++v.extractLsb' 0 32=v := by
  apply BitVec.eq_of_toNat_eq
  have hlt := v.isLt
  rw [toNat_halves,BitVec.extractLsb'_toNat,BitVec.extractLsb'_toNat,Nat.shiftRight_eq_div_pow,
    Nat.shiftRight_eq_div_pow]
  omega

namespace Word

variable {x : Xlen}

/-- `a << n` of the RISC-V shift instructions: the amount is taken modulo the width. -/
def shl (a : Word x) (n : Nat) : Word x := a <<< (n%x.bits)

/-- `a >> n` of the RISC-V shift instructions. -/
def shr (a : Word x) (n : Nat) : Word x := a >>> (n%x.bits)

/-- `BIT(nr)`, that is `1UL << nr`. -/
def bit (n : Nat) : Word x := shl 1 n

/-- `-1UL`. -/
def max : Word x := BitVec.allOnes x.bits

theorem toNat_max : (max : Word x).toNat=2^x.bits-1 := BitVec.toNat_allOnes

theorem le_max (a : Word x) : a ≤ max := by
  rw [BitVec.le_def,toNat_max]
  have := a.isLt
  omega

theorem toNat_bit {n : Nat} (h : n<x.bits) : (bit n : Word x).toNat=2^n := by
  have hp : 2^n<2^x.bits := Nat.pow_lt_pow_right (by decide) h
  have h1 : (1 : Word x).toNat=1 := by cases x <;> rfl
  rw [bit,shl,Nat.mod_eq_of_lt h,BitVec.toNat_shiftLeft,h1,Nat.one_shiftLeft,Nat.mod_eq_of_lt hp]

/-- At the full width the amount wraps to zero, so `BIT(__riscv_xlen)` is one. -/
theorem bit_bits : (bit x.bits : Word x)=1 := by
  rw [bit,shl,Nat.mod_self,BitVec.shiftLeft_zero]

theorem toNat_bit_sub_one {n : Nat} (h : n<x.bits) :
    (bit n-1 : Word x).toNat=2^n-1 := by
  have h1 : (1 : Word x).toNat=1 := by cases x <;> rfl
  have hle : (1 : Word x)≤bit n := by
    rw [BitVec.le_def,toNat_bit h,h1]
    exact Nat.one_le_two_pow
  rw [BitVec.toNat_sub_of_le hle,toNat_bit h,h1]

theorem toNat_shr {n : Nat} (a : Word x) (h : n<x.bits) : (shr a n).toNat=a.toNat/2^n := by
  rw [shr,Nat.mod_eq_of_lt h,BitVec.toNat_ushiftRight,Nat.shiftRight_eq_div_pow]

theorem getLsbD_bit {n : Nat} (h : n<x.bits) (i : Nat) :
    (bit n : Word x).getLsbD i=decide (n=i) := by
  rw [BitVec.getLsbD,toNat_bit h,Nat.testBit_two_pow]

theorem getLsbD_bit_sub_one {n : Nat} (h : n<x.bits) (i : Nat) :
    (bit n-1 : Word x).getLsbD i=decide (i<n) := by
  rw [BitVec.getLsbD,toNat_bit_sub_one h,Nat.testBit_two_pow_sub_one]

/-- `a & ~((1UL << k) - 1)` rounds down. -/
theorem toNat_clearLow (a : Word x) {k : Nat} (hk : k<x.bits) :
    (a &&& ~~~(bit k-1)).toNat=a.toNat/2^k*2^k := by
  apply Nat.eq_of_testBit_eq
  intro i
  rw [← Nat.shiftRight_eq_div_pow,← Nat.shiftLeft_eq,Nat.testBit_shiftLeft,Nat.testBit_shiftRight]
  have hb := getLsbD_bit_sub_one hk i
  show (a &&& ~~~(bit k-1)).getLsbD i=_
  rw [BitVec.getLsbD_and,BitVec.getLsbD_not,hb]
  by_cases hik : i<k
  · simp [hik]
  · have hki : k ≤ i := Nat.le_of_not_lt hik
    by_cases hi : i<x.bits
    · simp [hik,hki,hi,BitVec.getLsbD,Nat.add_sub_cancel' hki]
    · have hout := BitVec.getLsbD_of_ge a i (by omega)
      rw [BitVec.getLsbD] at hout
      simp [hki,hi,Nat.add_sub_cancel' hki,hout]

/-- The two ways the source tests a flag. -/
theorem and_bit_ne_zero {n : Nat} (h : n<x.bits) (a : Word x) :
    a &&& bit n≠0 ↔ a.getLsbD n=true := by
  constructor
  · intro hne
    by_contra hoff
    refine hne (BitVec.eq_of_getLsbD_eq fun i hi => ?_)
    rw [BitVec.getLsbD_and,getLsbD_bit h]
    by_cases hin : n=i
    · subst hin; simpa using hoff
    · simp [hin]
  · intro hon hz
    have hb := congrArg (fun w => w.getLsbD n) hz
    simp [getLsbD_bit h,hon] at hb

theorem and_bit_eq_bit {n : Nat} (h : n<x.bits) (a : Word x) :
    a &&& bit n=bit n ↔ a.getLsbD n=true := by
  constructor
  · intro he
    have hb := congrArg (fun w => w.getLsbD n) he
    simpa [getLsbD_bit h] using hb
  · intro hon
    refine BitVec.eq_of_getLsbD_eq fun i hi => ?_
    rw [BitVec.getLsbD_and,getLsbD_bit h]
    by_cases hin : n=i
    · subst hin; simpa using hon
    · simp [hin]

end Word
end OpenSBI
