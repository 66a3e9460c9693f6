import OpenSBI.Math.BinaryFormat
import OpenSBI.Fp.Encoding

namespace OpenSBI

open Math

variable {x : Xlen}

def binary32 : BinaryFormat := ⟨8,23⟩
def binary64 : BinaryFormat := ⟨11,52⟩

/-- The values of the bit patterns of the two formats. -/
def f32Value (a : BitVec 32) : FloatValue := binary32.value a.msb (a.toNat%2^31)
def f64Value (a : BitVec 64) : FloatValue := binary64.value a.msb (a.toNat%2^63)

/-- `softfloat_round_near_even`, `_minMag`, `_min`, `_max` and `_near_maxMag`. -/
def roundingCode : RoundingMode → BitVec 32
  | .rne => 0
  | .rtz => 1
  | .rdn => 2
  | .rup => 3
  | .rmm => 4

def Fmt.value : (f : Fmt) → BitVec f.width → FloatValue
  | .S,a => f32Value a
  | .D,a => f64Value a

theorem precision_of_ofCode {n : Nat} {f : Fmt} (h : Fmt.ofCode n=some f) :
    n=match f with | .S => PRECISION_S | .D => PRECISION_D := by
  unfold Fmt.ofCode at h
  split at h <;> cases h <;> rfl

/-- A `tp` that selects the mode and holds no flags. -/
def modeTp (x : Xlen) (mode : RoundingMode) : Word x := (roundingCode mode).setWidth x.bits <<< 13

theorem softfloatRoundingMode_modeTp (mode : RoundingMode) :
    softfloatRoundingMode (modeTp x mode)=roundingCode mode := by
  cases x <;> cases mode <;> decide

theorem modeTp_flags (mode : RoundingMode) (flags : Flags) :
    (modeTp x mode ||| flags.setWidth x.bits).setWidth 5=flags := by
  have hb : 5 ≤ x.bits := le_trans (by decide) x.bits_ge
  have h0 : (modeTp x mode).setWidth 5=0#5 := by cases x <;> cases mode <;> decide
  rw [BitVec.setWidth_or,h0,BitVec.zero_or,BitVec.setWidth_setWidth_of_le _ hb,BitVec.setWidth_eq]

/-- The range of the kinds W, WU, L and LU. -/
def kindMin : Nat → ℤ
  | 0 => -2^31
  | 1 => 0
  | 2 => -2^63
  | _ => 0

def kindMax : Nat → ℤ
  | 0 => 2^31-1
  | 1 => 2^32-1
  | 2 => 2^63-1
  | _ => 2^64-1

/-- The conversion to an integer of the F and D extensions: the value and the flags it raises. -/
def toInteger (mode : RoundingMode) (kind : Nat) : FloatValue → ℤ×Flags
  | .nan _ _ => (kindMax kind,softfloat_flag_invalid)
  | .inf negative => (if negative then kindMin kind else kindMax kind,softfloat_flag_invalid)
  | .finite negative m =>
    let q := if negative then -m else m
    if mode.round q<kindMin kind then (kindMin kind,softfloat_flag_invalid)
    else if kindMax kind < mode.round q then (kindMax kind,softfloat_flag_invalid)
    else (mode.round q,if (mode.round q : ℚ)=q then 0 else softfloat_flag_inexact)

/-- The register of an integer result; those of 32 bits are sign-extended. -/
def intWord (x : Xlen) (kind : Nat) (n : ℤ) : Word x :=
  if kind<2 then (BitVec.ofInt 32 n).signExtend x.bits else BitVec.ofInt x.bits n

/-- `float64` without its sign, as `emulate_fcvt_if()` hands it on. -/
def f64Abs (a : BitVec 64) : BitVec 64 := if a.msb then a ^^^ BitVec.intMin 64 else a

theorem low_xor_intMin (a : BitVec 64) : (a ^^^ BitVec.intMin 64).toNat%2^63=a.toNat%2^63 := by
  have h : (a ^^^ BitVec.intMin 64).setWidth 63=a.setWidth 63 := by
    rw [BitVec.setWidth_xor]
    have hz : (BitVec.intMin 64).setWidth 63=0#63 := by decide
    rw [hz,BitVec.xor_zero]
  have ht := congrArg BitVec.toNat h
  rwa [BitVec.toNat_setWidth,BitVec.toNat_setWidth] at ht

theorem msb_xor_intMin (a : BitVec 64) : (a ^^^ BitVec.intMin 64).msb= !a.msb := by
  rw [BitVec.msb_xor]
  have h : (BitVec.intMin 64).msb=true := by decide
  rw [h,Bool.xor_true]

theorem f64Abs_msb (a : BitVec 64) : (f64Abs a).msb=false := by
  unfold f64Abs
  cases h : a.msb with
  | false => simp [h]
  | true => rw [if_pos rfl,msb_xor_intMin,h]; rfl

theorem f64Abs_value (a : BitVec 64) : f64Value (f64Abs a)=(f64Value a).abs := by
  have hl : (f64Abs a).toNat%2^63=a.toNat%2^63 := by
    unfold f64Abs
    split
    · exact low_xor_intMin a
    · rfl
  rw [f64Value,f64Abs_msb,hl]
  exact binary64.value_abs a.msb _

/-- The sign bit is the sign of the value. -/
theorem f64Value_flip (a : BitVec 64) : f64Value (a ^^^ BitVec.intMin 64)=
    binary64.value (!a.msb) (a.toNat%2^63) := by
  rw [f64Value,msb_xor_intMin,low_xor_intMin]

end OpenSBI
