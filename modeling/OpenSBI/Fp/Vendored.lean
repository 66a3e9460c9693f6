import OpenSBI.Fp.Accept
import OpenSBI.Fp.Add
import OpenSBI.Fp.Compare
import OpenSBI.Fp.Convert
import OpenSBI.Fp.FcvtIf
import OpenSBI.Fp.Mul
import OpenSBI.Fp.ToUi64

namespace OpenSBI

open Math

/-- The vendored routines in their places; the others are those of `rest`. -/
def Softfloat.vendored (rest : Softfloat) : Softfloat :=
  { rest with
    f32Add := OpenSBI.f32Add
    f32Mul := OpenSBI.f32Mul
    f32Eq := OpenSBI.f32Eq
    f32Lt := OpenSBI.f32Lt
    f32LtQuiet := OpenSBI.f32LtQuiet
    f32Classify := OpenSBI.f32Classify
    f64Add := OpenSBI.f64Add
    f64Mul := OpenSBI.f64Mul
    f64Eq := OpenSBI.f64Eq
    f64Lt := OpenSBI.f64Lt
    f64LtQuiet := OpenSBI.f64LtQuiet
    f64Classify := OpenSBI.f64Classify
    f32ToF64 := OpenSBI.f32ToF64
    f64ToF32 := OpenSBI.f64ToF32
    ui64ToF64 := OpenSBI.ui64ToF64
    f64ToUi64 := fun rm a => OpenSBI.f64ToUi64 a rm true }

section Integers

variable (rest : Softfloat)

theorem roundedFlags_integer (v : FloatValue) (p : Prop) [Decidable p] :
    roundedFlags ⟨v,false,false,decide p⟩=if p then softfloat_flag_inexact else 0 := by
  by_cases h : p <;> simp [roundedFlags,h]

/-- What the conversions from integers rest on. -/
theorem vendored_fromIntegers : rest.vendored.FromIntegersCorrect where
  ofUi64 := by
    intro mode a
    have hsigned : mode.signed false=mode := rfl
    have hneg : decide ((a.toNat : ℤ)<0)=false := decide_eq_false (by omega)
    obtain ⟨hv,hf⟩ := ui64ToF64_shows mode a
    rw [binary64.roundTo_natCast (by decide) mode false
      (a.isLt.trans (Nat.pow_lt_pow_right (by decide) (by decide))),hsigned] at hv hf
    rw [fromInteger,hneg,Fmt.format,BinaryFormat.roundInt_natCast,Int.natAbs_natCast]
    refine ⟨hv,hf.trans ?_⟩
    rw [roundedFlags_integer]
    simp only [ne_eq,ite_not,Int.natCast_inj]
  narrow := by
    intro mode a negative m h hm
    obtain ⟨hv,hf,-⟩ := f64ToF32_gives mode a
    rw [h,BinaryFormat.convert,binary32.roundTo_natCast (by decide) mode negative (hm.trans_lt (by decide))] at hv hf
    refine ⟨hv,hf.trans ?_⟩
    rw [outcomeFlags,FloatOutcome.rounded,roundedFlags_integer]
    simp

theorem vendored_toIntegers : rest.vendored.ToIntegersCorrect where
  widenNaN := by
    intro a negative signaling h
    obtain ⟨-,hf,hn⟩ := f32ToF64_gives .rne a
    rw [h] at hf hn
    refine Prod.ext (hn rfl) (hf.trans ?_)
    cases signaling <;>
      simp [outcomeFlags,BinaryFormat.convert,FloatOutcome.ofNaN,roundedFlags,FloatValue.IsSignaling]
  widen := by
    intro a h
    have hn : ¬(f32Value a).IsNaN := by
      intro hn
      cases hv : f32Value a with
      | nan negative signaling => exact h _ _ hv
      | _ => simp [hv,FloatValue.IsNaN] at hn
    obtain ⟨hv,hf,-⟩ := f32ToF64_exact .rne hn
    exact ⟨hv,hf⟩
  toUi64 := fun mode a _ => f64ToUi64_eq mode a

/-- What the emulation of the conversions rests on holds of the vendored routines. -/
theorem integerConversions_correct (rest : Softfloat) :
    rest.vendored.ToIntegersCorrect ∧ rest.vendored.FromIntegersCorrect :=
  ⟨vendored_toIntegers rest,vendored_fromIntegers rest⟩

end Integers

namespace FpInsn

variable {x : Xlen}

/-- What the standard has an instruction give whose result is a number, where its routine is modelled. -/
def outcome (i : FpInsn) (mode : RoundingMode) (s : TrapState x) : Option FloatOutcome :=
  let v := i.fmt.value (s.getF i.rs1 i.fmt)
  let w := i.fmt.value (s.getF i.rs2 i.fmt)
  match i.op with
  | .float .add => some (i.fmt.format.add mode v w)
  | .float .sub => some (i.fmt.format.sub mode v w)
  | .float .mul => some (i.fmt.format.mul mode v w)
  | .cvtFF => match i.fmt with
    | .S => some (binary32.convert mode (f64Value (s.getF64Reg i.rs1)))
    | .D => some (binary64.convert mode (f32Value (s.getF32Reg i.rs1)))
  | _ => none

end FpInsn

section Perform

variable {x : Xlen} (rest : Softfloat) {i : FpInsn} {s : TrapState x} {f : Fmt}

theorem eq_spec (a b : BitVec f.width) :
    (((rest.vendored.ops f).eq a b).1=true ↔ (f.value a).Equal (f.value b)) ∧ ((rest.vendored.ops f).eq a b).2=
      if (f.value a).IsSignaling ∨ (f.value b).IsSignaling then softfloat_flag_invalid else 0 := by
  cases f with
  | S => exact eqUI_eq (f := .S) isNaNF32UI_iff softfloat_isSigNaNF32UI_iff shiftLeft_ne_zero_iff
  | D => exact eqUI_eq (f := .D) isNaNF64UI_iff softfloat_isSigNaNF64UI_iff and_ne_zero_iff

theorem lt_spec (a b : BitVec f.width) :
    (((rest.vendored.ops f).lt a b).1=true ↔ (f.value a).Less (f.value b)) ∧ ((rest.vendored.ops f).lt a b).2=
      if (f.value a).IsNaN ∨ (f.value b).IsNaN then softfloat_flag_invalid else 0 := by
  cases f with
  | S => exact ltUI_eq (f := .S) isNaNF32UI_iff shiftLeft_ne_zero_iff
  | D => exact ltUI_eq (f := .D) isNaNF64UI_iff and_ne_zero_iff

theorem classify_spec (a : BitVec f.width) :
    (rest.vendored.ops f).classify a=BitVec.twoPow 16 (f.classBit (f.value a)) := by
  cases f with
  | S => exact classifyUI_eq (f := .S) isNaNF32UI_iff softfloat_isSigNaNF32UI_iff
  | D => exact classifyUI_eq (f := .D) isNaNF64UI_iff softfloat_isSigNaNF64UI_iff

theorem ltQuiet_spec (a b : BitVec f.width) :
    (((rest.vendored.ops f).ltQuiet a b).1=true ↔ (f.value a).Less (f.value b)) ∧
      ((rest.vendored.ops f).ltQuiet a b).2=
        if (f.value a).IsSignaling ∨ (f.value b).IsSignaling then softfloat_flag_invalid else 0 := by
  cases f with
  | S => exact ltQuietUI_eq (f := .S) isNaNF32UI_iff softfloat_isSigNaNF32UI_iff shiftLeft_ne_zero_iff
  | D => exact ltQuietUI_eq (f := .D) isNaNF64UI_iff softfloat_isSigNaNF64UI_iff and_ne_zero_iff

/-- The comparisons are those of the numbers, with -0 equal to +0; `lt` alone raises its flag for a quiet
NaN. The classification is the one of the ISA. -/
theorem comparison_standard (rest : Softfloat) (f : Fmt) (a b : BitVec f.width) :
    ((((rest.vendored.ops f).eq a b).1=true ↔ (f.value a).Equal (f.value b)) ∧ ((rest.vendored.ops f).eq a b).2=
      if (f.value a).IsSignaling ∨ (f.value b).IsSignaling then softfloat_flag_invalid else 0) ∧
    ((((rest.vendored.ops f).lt a b).1=true ↔ (f.value a).Less (f.value b)) ∧ ((rest.vendored.ops f).lt a b).2=
      if (f.value a).IsNaN ∨ (f.value b).IsNaN then softfloat_flag_invalid else 0) ∧
    ((((rest.vendored.ops f).ltQuiet a b).1=true ↔ (f.value a).Less (f.value b)) ∧
      ((rest.vendored.ops f).ltQuiet a b).2=
        if (f.value a).IsSignaling ∨ (f.value b).IsSignaling then softfloat_flag_invalid else 0) ∧
    (rest.vendored.ops f).classify a=BitVec.twoPow 16 (f.classBit (f.value a)) :=
  ⟨eq_spec rest a b,lt_spec rest a b,ltQuiet_spec rest a b,classify_spec rest a⟩

end Perform

section Handler

variable {rest : Softfloat} {env : TrapEnv .rv64} {s : TrapState .rv64} {mtval word : Word .rv64} {i : FpInsn}
  {mode : RoundingMode}

end Handler
end OpenSBI
