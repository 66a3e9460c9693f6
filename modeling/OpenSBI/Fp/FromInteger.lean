import OpenSBI.Fp.Value
import OpenSBI.Math.IntegerRounding
import Mathlib.Tactic.IntervalCases

namespace OpenSBI

open Math

variable {x : Xlen} {mode : RoundingMode}

def Fmt.format : Fmt → BinaryFormat
  | .S => binary32
  | .D => binary64

/-- The conversion from an integer of the F and D extensions: rounded once, NX where that changes it. -/
def fromInteger (mode : RoundingMode) (f : Fmt) (z : ℤ) : FloatValue×Flags :=
  (.finite (decide (z<0)) (f.format.roundInt mode z).natAbs,
    if f.format.roundInt mode z=z then 0 else softfloat_flag_inexact)

/-- The integer in the register, by the kind. -/
def intSource (kind : Nat) (a : Word x) : ℤ :=
  match kind with
  | 0 => (a.setWidth 32).toInt
  | 1 => (a.setWidth 32).toNat
  | 2 => a.toInt
  | _ => a.toNat

/-- The conversions of softfloat the emulator builds on: `ui64_to_f64()` rounds once, and so does
`f64_to_f32()` on doubles that are integers of up to 64 bits. -/
structure Softfloat.FromIntegersCorrect (sf : Softfloat) : Prop where
  ofUi64 : ∀ (mode : RoundingMode) (a : BitVec 64),
    f64Value (sf.ui64ToF64 (roundingCode mode) a).1=(fromInteger mode .D a.toNat).1 ∧
      (sf.ui64ToF64 (roundingCode mode) a).2=(fromInteger mode .D a.toNat).2
  narrow : ∀ (mode : RoundingMode) {a : BitVec 64} {negative : Bool} {m : Nat},
    f64Value a=.finite negative m → m ≤ 2^64 →
    f32Value (sf.f64ToF32 (roundingCode mode) a).1=
        .finite negative (binary32.roundNat (mode.signed negative) m : ℕ) ∧
      (sf.f64ToF32 (roundingCode mode) a).2=
        if binary32.roundNat (mode.signed negative) m=m then 0 else softfloat_flag_inexact

section Source

theorem natAbs_toInt {w : Nat} (v : BitVec w) : v.toInt.natAbs=(if v.msb then -v else v).toNat := by
  have h := v.isLt
  show v.toInt.natAbs=v.abs.toNat
  rw [BitVec.toNat_abs,BitVec.toInt_eq_msb_cond]
  split <;> omega

theorem negative_toInt {w : Nat} (v : BitVec w) : decide (v.toInt<0)=v.msb := BitVec.msb_eq_toInt.symm

theorem toNat_setWidth_up (v : BitVec 32) : (v.setWidth 64).toNat=v.toNat := by
  rw [BitVec.toNat_setWidth]
  exact Nat.mod_eq_of_lt (v.isLt.trans (by decide))

/-- The sign and the magnitude the emulator takes are those of the integer. -/
theorem fcvtFiArg_eq {kind : Nat} (hk : kind < intKinds x) (a : Word x) :
    ∃ v : BitVec 64,fcvtFiArg x kind (a.setWidth 64)=some (decide (intSource kind a<0),v) ∧
      v.toNat=(intSource kind a).natAbs := by
  have hw : (a.setWidth 64).setWidth 32=a.setWidth 32 := BitVec.setWidth_setWidth_of_le a (by decide)
  have hlow : kind<2 ∨ x=.rv64 ∧ (kind=2 ∨ kind=3) := by
    cases x with
    | rv32 => exact .inl hk
    | rv64 =>
      have h4 : kind<4 := hk
      simp only [true_and]
      omega
  obtain h2 | ⟨rfl,rfl | rfl⟩ := hlow
  · interval_cases kind
    · let v := a.setWidth 32
      have hv : ((if v.msb then -a.setWidth 64 else a.setWidth 64).setWidth 32)=if v.msb then -v else v := by
        split
        · rw [BitVec.setWidth_neg_of_le (by decide),hw]
        · exact hw
      refine ⟨(if v.msb then -v else v).setWidth 64,?_,?_⟩
      · rw [intSource,negative_toInt,← hv,fcvtFiArg,hw]
      · rw [toNat_setWidth_up,intSource,natAbs_toInt]
    · refine ⟨(a.setWidth 32).setWidth 64,?_,?_⟩
      · rw [intSource,fcvtFiArg,hw,decide_eq_false (by omega)]
      · rw [toNat_setWidth_up,intSource,Int.natAbs_natCast]
  · have ha : a.setWidth 64=a := BitVec.setWidth_eq a
    refine ⟨if a.msb then -a else a,?_,?_⟩
    · rw [intSource,negative_toInt,ha]
      rfl
    · exact (natAbs_toInt a).symm
  · have ha : a.setWidth 64=a := BitVec.setWidth_eq a
    have hi : intSource 3 a=(a.toNat : ℤ) := rfl
    refine ⟨a,?_,?_⟩
    · rw [hi,ha,decide_eq_false (by omega)]
      rfl
    · exact (Int.natAbs_natCast a.toNat).symm

end Source

section Rounding

/-- The sign is put on after the rounding. -/
theorem fcvtFiDouble_value {sf : Softfloat} (hsf : sf.FromIntegersCorrect) (mode : RoundingMode)
    (negative : Bool) (v : BitVec 64) :
    f64Value (fcvtFiDouble sf (roundingCode mode) (negative,v)).1=
        .finite negative (binary64.roundNat mode v.toNat : ℕ) ∧
      (fcvtFiDouble sf (roundingCode mode) (negative,v)).2=
        if binary64.roundNat mode v.toNat=v.toNat then 0 else softfloat_flag_inexact := by
  obtain ⟨hv,hf⟩ := hsf.ofUi64 mode v
  have hr : binary64.roundInt mode (v.toNat : ℤ)=binary64.roundNat mode v.toNat :=
    binary64.roundInt_natCast mode v.toNat
  have hneg : decide ((v.toNat : ℤ)<0)=false := decide_eq_false (by omega)
  simp only [fromInteger,Fmt.format,hr,hneg,Int.natAbs_natCast,Int.natCast_inj] at hv hf
  refine ⟨?_,hf⟩
  cases negative with
  | false => exact hv
  | true =>
    show f64Value (_ ^^^ BitVec.intMin 64)=_
    rw [f64Value_flip]
    exact binary64.value_not hv

/-- What the integer must be like for the two steps to round once, as the specification does. A double
of a negative number is rounded as its magnitude; a single is rounded a second time, with its sign. -/
def RoundedOnce (mode : RoundingMode) (f : Fmt) (z : ℤ) : Prop :=
  match f with
  | .S => mode.RoundsThrough (decide (z<0)) z.natAbs (binary64.ulp z.natAbs) (2^29)
  | .D => 0 ≤ z ∨ mode.Undirected ∨ binary64.ulp z.natAbs ∣ z.natAbs

theorem signed_nonneg {z : ℤ} (h : 0 ≤ z) : mode.signed (decide (z<0))=mode := by
  rw [decide_eq_false (by omega)]
  rfl

theorem signed_neg {z : ℤ} (h : z<0) : mode.signed (decide (z<0))=mode.flip := by
  rw [decide_eq_true h]
  rfl

theorem roundedOnce_double (z : ℤ) : binary64.roundNat mode z.natAbs=
    binary64.roundNat (mode.signed (decide (z<0))) z.natAbs ↔ RoundedOnce mode .D z := by
  by_cases h : 0 ≤ z
  · rw [signed_nonneg h]
    exact iff_of_true rfl (.inl h)
  · rw [signed_neg (not_le.mp h),eq_comm,binary64.roundNat_flip]
    exact ⟨fun hg => .inr hg,fun hg => hg.resolve_left h⟩

theorem roundedOnce_single (z : ℤ) :
    binary32.roundNat (mode.signed (decide (z<0))) (binary64.roundNat mode z.natAbs)=
      binary32.roundNat (mode.signed (decide (z<0))) z.natAbs ↔ RoundedOnce mode .S z :=
  BinaryFormat.roundNat_twice (by decide) _ _

end Rounding
end OpenSBI
