import OpenSBI.Math.FloatOrder
import OpenSBI.Fp.FcvtFi
import OpenSBI.Fp.Boxing

namespace OpenSBI

open Math

variable {x : Xlen}

def softfloat_isSigNaNF32UI (a : BitVec 32) : Bool :=
  a &&& 0x7FC00000==0x7F800000 && a &&& 0x003FFFFF!=0
def softfloat_isSigNaNF64UI (a : BitVec 64) : Bool :=
  a &&& 0x7FF8000000000000==0x7FF0000000000000 && a &&& 0x0007FFFFFFFFFFFF!=0

/-- The body shared by the quiet comparisons; `nonzero` tests the bits below the sign. -/
def ltQuiet {w : Nat} (isNaN isSigNaN nonzero : BitVec w → Bool) (a b : BitVec w) : Bool×Flags :=
  if isNaN a || isNaN b then (false,if isSigNaN a || isSigNaN b then softfloat_flag_invalid else 0)
  else (if a.msb != b.msb then a.msb && nonzero (a ||| b) else a != b && (a.msb ^^ decide (a<b)),0)

def f32LtQuiet : BitVec 32 → BitVec 32 → Bool×Flags :=
  ltQuiet isNaNF32UI softfloat_isSigNaNF32UI fun u => u <<< 1!=0
def f64LtQuiet : BitVec 64 → BitVec 64 → Bool×Flags :=
  ltQuiet isNaNF64UI softfloat_isSigNaNF64UI fun u => u &&& 0x7FFFFFFFFFFFFFFF!=0

/-- The routines with the vendored comparisons in their places. -/
def Softfloat.comparing (sf : Softfloat) : Softfloat :=
  { sf with f32LtQuiet := OpenSBI.f32LtQuiet, f64LtQuiet := OpenSBI.f64LtQuiet }

namespace Fmt

def binary : Fmt → BinaryFormat
  | .S => binary32
  | .D => binary64

def canonicalNaN : (f : Fmt) → BitVec f.width
  | .S => OpenSBI.canonicalNaN
  | .D => 0x7ff8000000000000

def zero (f : Fmt) (negative : Bool) : BitVec f.width := if negative then BitVec.intMin f.width else 0

/-- The number `a` comes before the number `b` as the minimum, for `max` as the maximum. -/
def First (f : Fmt) (max : Bool) (a b : BitVec f.width) : Prop :=
  if max then (f.value b).Lt (f.value a) else (f.value a).Lt (f.value b)

instance (f : Fmt) (max : Bool) (a b : BitVec f.width) : Decidable (f.First max a b) := by
  unfold First
  infer_instance

/-- FMIN and, for `max`, FMAX of the F and D extensions: the result and the flags they raise. -/
def minMax (f : Fmt) (max : Bool) (a b : BitVec f.width) : BitVec f.width×Flags :=
  (if (f.value a).IsNaN then if (f.value b).IsNaN then f.canonicalNaN else b
    else if (f.value b).IsNaN then a
    else if f.First max a b then a else b,
   if (f.value a).IsSignaling ∨ (f.value b).IsSignaling then softfloat_flag_invalid else 0)

end Fmt

section Fields

variable {w : Nat} {a v mask : BitVec w}

/-- A mask of `k` bits from bit `lo` on compares a field. -/
theorem and_mask_eq_iff (lo k : Nat) (hmask : ∀ i<w,mask.getLsbD i=decide (lo ≤ i ∧ i<lo+k)) (hk : lo+k≤w)
    (hv : v &&& mask=v) : a &&& mask=v ↔ a.toNat/2^lo%2^k=v.toNat/2^lo%2^k := by
  have hf : a.extractLsb' lo k=v.extractLsb' lo k ↔ a.toNat/2^lo%2^k=v.toNat/2^lo%2^k := by
    rw [← BitVec.toNat_inj,BitVec.extractLsb'_toNat,BitVec.extractLsb'_toNat,
      Nat.shiftRight_eq_div_pow,Nat.shiftRight_eq_div_pow]
  rw [← hf]
  constructor
  · rintro rfl
    apply BitVec.eq_of_getLsbD_eq
    intro i hi
    simp [hmask (lo+i) (by omega),hi]
  · intro h
    rw [← hv]
    apply BitVec.eq_of_getLsbD_eq
    intro i hi
    by_cases hin : lo ≤ i ∧ i<lo+k
    · have hb := congrArg (fun u : BitVec k => u.getLsbD (i-lo)) h
      simp only [BitVec.getLsbD_extractLsb',show i-lo<k by omega,decide_true,Bool.true_and,
        show lo+(i-lo)=i by omega] at hb
      simp [hb]
    · simp [hmask i hi,hin]

theorem not_and_eq_zero_iff : ~~~a &&& mask=0 ↔ a &&& mask=mask := by
  constructor
  all_goals
    intro h
    apply BitVec.eq_of_getLsbD_eq
    intro i hi
    have hb := congrArg (fun u : BitVec w => u.getLsbD i) h
    revert hb
    simp only [BitVec.getLsbD_and,BitVec.getLsbD_not,hi]
    cases a.getLsbD i <;> simp

end Fields

section Classes

theorem isNaNF32UI_iff (a : BitVec 32) : isNaNF32UI a=true ↔ (f32Value a).IsNaN := by
  rw [isNaNF32UI,f32Value,BinaryFormat.value_isNaN_iff,Bool.and_eq_true,beq_iff_eq,bne_iff_ne,
    not_and_eq_zero_iff,and_mask_eq_iff 23 8 (by decide) (by decide) (by decide),
    Ne,and_mask_eq_iff 0 23 (by decide) (by decide) (by decide)]
  simp [BinaryFormat.expField,BinaryFormat.fracField,binary32]
  omega

theorem isNaNF64UI_iff (a : BitVec 64) : isNaNF64UI a=true ↔ (f64Value a).IsNaN := by
  rw [isNaNF64UI,f64Value,BinaryFormat.value_isNaN_iff,Bool.and_eq_true,beq_iff_eq,bne_iff_ne,
    not_and_eq_zero_iff,and_mask_eq_iff 52 11 (by decide) (by decide) (by decide),
    Ne,and_mask_eq_iff 0 52 (by decide) (by decide) (by decide)]
  simp [BinaryFormat.expField,BinaryFormat.fracField,binary64]
  omega

theorem softfloat_isSigNaNF32UI_iff (a : BitVec 32) :
    softfloat_isSigNaNF32UI a=true ↔ (f32Value a).IsSignaling := by
  rw [softfloat_isSigNaNF32UI,f32Value,BinaryFormat.value_isSignaling_iff,Bool.and_eq_true,beq_iff_eq,
    bne_iff_ne,and_mask_eq_iff 22 9 (by decide) (by decide) (by decide),
    Ne,and_mask_eq_iff 0 22 (by decide) (by decide) (by decide)]
  simp [BinaryFormat.expField,BinaryFormat.fracField,binary32]
  omega

theorem softfloat_isSigNaNF64UI_iff (a : BitVec 64) :
    softfloat_isSigNaNF64UI a=true ↔ (f64Value a).IsSignaling := by
  rw [softfloat_isSigNaNF64UI,f64Value,BinaryFormat.value_isSignaling_iff,Bool.and_eq_true,beq_iff_eq,
    bne_iff_ne,and_mask_eq_iff 51 12 (by decide) (by decide) (by decide),
    Ne,and_mask_eq_iff 0 51 (by decide) (by decide) (by decide)]
  simp [BinaryFormat.expField,BinaryFormat.fracField,binary64]
  omega

/-- The bits below the sign, as each comparison tests them. -/
theorem shiftLeft_ne_zero_iff (c : BitVec 32) : (c <<< 1 != 0)=true ↔ c.toNat%2^31≠0 := by
  rw [bne_iff_ne,Ne,← BitVec.toNat_inj,BitVec.toNat_shiftLeft,Nat.shiftLeft_eq]
  show ¬c.toNat*2^1%2^32=0 ↔ ¬c.toNat%2^31=0
  omega

theorem and_ne_zero_iff (c : BitVec 64) : (c &&& 0x7FFFFFFFFFFFFFFF != 0)=true ↔ c.toNat%2^63≠0 := by
  rw [bne_iff_ne,Ne,and_mask_eq_iff 0 63 (by decide) (by decide) (by decide)]
  show ¬c.toNat/2^0%2^63=0 ↔ ¬c.toNat%2^63=0
  rw [pow_zero,Nat.div_one]

end Classes

namespace Fmt

/-- The bits below the sign. -/
def low (f : Fmt) (a : BitVec f.width) : Nat := a.toNat%2^(f.width-1)

variable (f : Fmt) (a b : BitVec f.width)

theorem toNat_eq : a.toNat=(if a.msb=true then 2^(f.width-1) else 0)+f.low a := by
  have hw : 2^f.width=2*2^(f.width-1) := by cases f <;> rfl
  have hlt := a.isLt
  rw [low,BitVec.msb_eq_decide]
  simp only [decide_eq_true_eq]
  split_ifs with h
  · rw [Nat.mod_eq_sub_mod h,Nat.mod_eq_of_lt (by omega)]
    omega
  · rw [Nat.mod_eq_of_lt (by omega),Nat.zero_add]

theorem eq_iff_low : a=b ↔ a.msb=b.msb ∧ f.low a=f.low b := by
  constructor
  · rintro rfl
    exact ⟨rfl,rfl⟩
  · intro h
    apply BitVec.eq_of_toNat_eq
    rw [f.toNat_eq a,f.toNat_eq b,h.1,h.2]

theorem eq_zero_iff (negative : Bool) : a=f.zero negative ↔ a.msb=negative ∧ f.low a=0 := by
  have hm : (f.zero negative).msb=negative := by cases f <;> cases negative <;> decide
  have hl : f.low (f.zero negative)=0 := by cases f <;> cases negative <;> decide
  rw [f.eq_iff_low,hm,hl]

theorem value_eq : f.value a=f.binary.value a.msb (f.low a) := by cases f <;> rfl

/-- What is no NaN has the bits of a number. -/
theorem numeral (hn : ¬(f.value a).IsNaN) : f.binary.Numeral (f.low a) := by
  have hlt : f.low a<2^(f.width-1) := Nat.mod_lt _ (Nat.two_pow_pos _)
  have hw : 2^(f.width-1)=2^f.binary.fracBits*2^f.binary.expBits := by cases f <;> rfl
  have he : f.binary.expField (f.low a)<2^f.binary.expBits := Nat.div_lt_of_lt_mul (hw ▸ hlt)
  rw [f.value_eq,BinaryFormat.value_isNaN_iff] at hn
  by_cases hz : f.binary.fracField (f.low a)=0
  · rcases Nat.lt_or_ge (f.binary.expField (f.low a)) (2^f.binary.expBits-1) with h | h
    · exact .inl h
    · exact .inr ⟨by omega,hz⟩
  · exact .inl (by have := not_and.mp hn; omega)

theorem value_lt_iff (hn : ¬(f.value a).IsNaN) (hn' : ¬(f.value b).IsNaN) :
    (f.value a).Lt (f.value b) ↔ if a.msb=b.msb then
      (if a.msb=true then f.low b<f.low a else f.low a<f.low b) else a.msb=true := by
  rw [f.value_eq,f.value_eq]
  exact f.binary.value_lt_iff (f.numeral a hn) (f.numeral b hn')

end Fmt

/-- Neither operand is a NaN. -/
def Fmt.Numbers (f : Fmt) (a b : BitVec f.width) : Prop := ¬(f.value a).IsNaN ∧ ¬(f.value b).IsNaN

section Compare

variable {f : Fmt} {isNaN isSigNaN nonzero : BitVec f.width → Bool} {a b : BitVec f.width}

/-- The comparison is that of the numbers, except that the two zeros are equal to it. -/
theorem ltQuiet_fst (hnan : ∀ c,isNaN c=true ↔ (f.value c).IsNaN)
    (hzero : ∀ c,nonzero c=true ↔ f.low c≠0) : (ltQuiet isNaN isSigNaN nonzero a b).1=true ↔
      f.Numbers a b ∧ (f.value a).Lt (f.value b) ∧ ¬(a=f.zero true ∧ b=f.zero false) := by
  unfold ltQuiet
  by_cases hn : f.Numbers a b
  · have hf : (isNaN a || isNaN b)=false := by
      rw [Bool.or_eq_false_iff,← Bool.not_eq_true,← Bool.not_eq_true,hnan,hnan]
      exact hn
    have hor : f.low (a ||| b)=0 ↔ f.low a=0 ∧ f.low b=0 := by
      rw [Fmt.low,BitVec.toNat_or,Nat.or_mod_two_pow,Nat.or_eq_zero_iff]
      rfl
    rw [hf,f.value_lt_iff a b hn.1 hn.2,f.eq_zero_iff,f.eq_zero_iff]
    simp only [Bool.false_eq_true,if_false,hn,true_and]
    by_cases hs : a.msb=b.msb
    · have hlt : a<b ↔ f.low a<f.low b := by
        rw [BitVec.lt_def,f.toNat_eq a,f.toNat_eq b,hs]
        omega
      have hne : (a != b)=true ↔ f.low a≠f.low b := by
        rw [bne_iff_ne,Ne,f.eq_iff_low]
        simp [hs]
      rw [if_neg (by simp [hs]),if_pos hs,Bool.and_eq_true,hne]
      cases hb : b.msb with
      | false => simp [hs,hb,hlt]; omega
      | true => simp [hs,hb,hlt]; omega
    · rw [if_pos (by simpa using hs),if_neg hs,Bool.and_eq_true,hzero,Ne,hor]
      cases ha : a.msb <;> cases hb : b.msb <;> simp_all
  · have ht : (isNaN a || isNaN b)=true := by
      rw [Bool.or_eq_true,hnan,hnan]
      by_contra hc
      exact hn (not_or.mp hc)
    rw [ht]
    simp [hn]

theorem ltQuiet_snd (hnan : ∀ c,isNaN c=true ↔ (f.value c).IsNaN)
    (hsig : ∀ c,isSigNaN c=true ↔ (f.value c).IsSignaling) : (ltQuiet isNaN isSigNaN nonzero a b).2=
      if (f.value a).IsSignaling ∨ (f.value b).IsSignaling then softfloat_flag_invalid else 0 := by
  have hany : (isSigNaN a || isSigNaN b)=true ↔ (f.value a).IsSignaling ∨ (f.value b).IsSignaling := by
    rw [Bool.or_eq_true,hsig,hsig]
  rw [ltQuiet]
  simp only [hany]
  by_cases hn : (isNaN a || isNaN b)=true
  · rw [if_pos hn]
  · rw [if_neg hn]
    rw [Bool.or_eq_true,hnan,hnan] at hn
    have hquiet : ¬((f.value a).IsSignaling ∨ (f.value b).IsSignaling) := by
      intro hs
      exact hn (hs.imp FloatValue.IsSignaling.isNaN FloatValue.IsSignaling.isNaN)
    rw [if_neg hquiet]

end Compare

section Choice

variable (sf : Softfloat) (f : Fmt)

theorem comparing_isNaN (a : BitVec f.width) :
    (sf.comparing.ops f).isNaN a=true ↔ (f.value a).IsNaN := by
  cases f with
  | S => exact isNaNF32UI_iff a
  | D => exact isNaNF64UI_iff a

theorem comparing_ltQuiet (a b : BitVec f.width) : ((sf.comparing.ops f).ltQuiet a b).1=true ↔
    f.Numbers a b ∧ (f.value a).Lt (f.value b) ∧ ¬(a=f.zero true ∧ b=f.zero false) := by
  cases f with
  | S => exact ltQuiet_fst (f := .S) isNaNF32UI_iff shiftLeft_ne_zero_iff
  | D => exact ltQuiet_fst (f := .D) isNaNF64UI_iff and_ne_zero_iff

theorem comparing_flags (a b : BitVec f.width) : ((sf.comparing.ops f).ltQuiet a b).2=
    if (f.value a).IsSignaling ∨ (f.value b).IsSignaling then softfloat_flag_invalid else 0 := by
  cases f with
  | S => exact ltQuiet_snd (f := .S) isNaNF32UI_iff softfloat_isSigNaNF32UI_iff
  | D => exact ltQuiet_snd (f := .D) isNaNF64UI_iff softfloat_isSigNaNF64UI_iff

/-- Two NaNs of which the first is not the canonical one, or two zeros of which the first is the
result. -/
def Fmt.Misplaced (f : Fmt) (max : Bool) (a b : BitVec f.width) : Prop :=
  ((f.value a).IsNaN ∧ (f.value b).IsNaN ∧ a≠f.canonicalNaN) ∨ (a=f.zero (!max) ∧ b=f.zero max)

/-- The comparison on the operands turned round for the maximum. -/
theorem turned_fst (k : Nat) (a b : BitVec f.width) :
    (if k≠0 then (sf.comparing.ops f).ltQuiet b a else (sf.comparing.ops f).ltQuiet a b).1=true ↔
      f.Numbers a b ∧ f.First (decide (k≠0)) a b ∧
        ¬(a=f.zero (!decide (k≠0)) ∧ b=f.zero (decide (k≠0))) := by
  by_cases hk : k≠0
  · rw [if_pos hk,comparing_ltQuiet,decide_eq_true hk,Fmt.Numbers,Fmt.Numbers,and_comm (a := ¬_),
      and_comm (a := b=_)]
    rfl
  · rw [if_neg hk,comparing_ltQuiet,decide_eq_false hk]
    rfl

theorem turned_snd (k : Nat) (a b : BitVec f.width) :
    (if k≠0 then (sf.comparing.ops f).ltQuiet b a else (sf.comparing.ops f).ltQuiet a b).2=
      if (f.value a).IsSignaling ∨ (f.value b).IsSignaling then softfloat_flag_invalid else 0 := by
  by_cases hk : k≠0
  · rw [if_pos hk,comparing_flags]
    simp only [or_comm]
  · rw [if_neg hk,comparing_flags]

/-- Of two zeros of different sign the one that has to come first is another bit pattern. -/
theorem zero_first {max : Bool} {a b : BitVec f.width} (ha : a=f.zero (!max)) (hb : b=f.zero max) :
    f.Numbers a b ∧ f.First max a b ∧ a≠b := by
  subst ha hb
  rw [Fmt.Numbers,Fmt.First]
  cases f <;> cases max <;> exact ⟨⟨by decide +kernel,by decide +kernel⟩,by decide +kernel,by decide⟩

/-- The choice is the minimum or the maximum except on those operands; the flags always are. -/
theorem pickMin_minMax_iff (k : Nat) (a b : BitVec f.width) :
    pickMin (sf.comparing.ops f).ltQuiet (sf.comparing.ops f).isNaN k a b=
      f.minMax (decide (k≠0)) a b ↔ ¬f.Misplaced (decide (k≠0)) a b := by
  have hfirst := turned_fst sf f k a b
  have huse := comparing_isNaN sf f b
  unfold pickMin Fmt.minMax
  dsimp only
  rw [Prod.mk.injEq,turned_snd,and_iff_left rfl]
  generalize decide (k≠0)=max at *
  generalize (if k≠0 then (sf.comparing.ops f).ltQuiet b a else (sf.comparing.ops f).ltQuiet a b).1=lt at *
  generalize (sf.comparing.ops f).isNaN b=nan at *
  by_cases hz : a=f.zero (!max) ∧ b=f.zero max
  · -- the comparison takes the two zeros for equal
    obtain ⟨hn,hf,hne⟩ := zero_first f hz.1 hz.2
    have hlt : (lt || nan)=false := by
      rw [Bool.or_eq_false_iff,← Bool.not_eq_true,← Bool.not_eq_true,hfirst,huse]
      exact ⟨fun h => h.2.2 hz,hn.2⟩
    rw [hlt,if_neg Bool.false_ne_true,if_neg hn.1,if_neg hn.2,if_pos hf]
    exact iff_of_false hne.symm (not_not.mpr (.inr hz))
  · have hlt : (lt || nan)=true ↔ (f.Numbers a b ∧ f.First max a b) ∨ (f.value b).IsNaN := by
      rw [Bool.or_eq_true,hfirst,huse,and_iff_left hz]
    rw [Fmt.Misplaced,or_iff_left hz]
    by_cases hb : (f.value b).IsNaN
    · rw [if_pos (hlt.mpr (.inr hb)),if_pos hb,if_pos hb]
      by_cases ha : (f.value a).IsNaN
      · rw [if_pos ha]
        simp only [ha,hb,true_and,not_not]
      · rw [if_neg ha]
        exact iff_of_true rfl fun h => ha h.1
    · rw [if_neg hb,if_neg hb]
      by_cases ha : (f.value a).IsNaN
      · rw [if_neg (fun h => (hlt.mp h).elim (fun h => h.1.1 ha) hb),if_pos ha]
        exact iff_of_true rfl fun h => hb h.2.1
      · have hif : (lt || nan)=true ↔ f.First max a b := by
          rw [hlt,or_iff_left hb,and_iff_right ⟨ha,hb⟩]
        rw [if_neg ha]
        simp only [hif,true_iff]
        exact fun h => ha h.1

end Choice

section Instruction

variable {insn : Word x} {f : Fmt}

theorem emulateFmin_eq (sf : Softfloat) (env : TrapEnv x) (s : TrapState x) (hrm : getRm insn<2)
    (hf : Fmt.ofCode (getPrecision insn)=some f) : emulateFmin sf env insn s=
      (SBI_OK,s.setF (rdOf insn) f (pickMin (sf.ops f).ltQuiet (sf.ops f).isNaN (getRm insn)
        (s.getF (rs1Of insn) f) (s.getF (rs2Of insn) f))) := by
  rw [emulateFmin_serve,serve,show Fmt.ofCode (rvX insn 25 2)=some f from hf,if_pos hrm]
  rfl

/-- `emulate_fmin()` writes and raises what the instruction does. -/
def EmulatesMinMax (sf : Softfloat) (env : TrapEnv x) (insn : Word x) (s : TrapState x) (f : Fmt) : Prop :=
  emulateFmin sf env insn s=(SBI_OK,s.setF (rdOf insn) f
    (f.minMax (decide (getRm insn≠0)) (s.getF (rs1Of insn) f) (s.getF (rs2Of insn) f)))

/-- The minimum and the maximum are right except on the operands `Misplaced` says. -/
theorem emulateFmin_minMax_iff (sf : Softfloat) (env : TrapEnv x) (s : TrapState x)
    (hrm : getRm insn<2) (hf : Fmt.ofCode (getPrecision insn)=some f) :
    EmulatesMinMax sf.comparing env insn s f ↔
      ¬f.Misplaced (decide (getRm insn≠0)) (s.getF (rs1Of insn) f) (s.getF (rs2Of insn) f) := by
  rw [EmulatesMinMax,emulateFmin_eq sf.comparing env s hrm hf,← pickMin_minMax_iff sf]
  constructor
  · intro h
    have hv := congrArg (fun p : Int×TrapState x => p.2.getF (rdOf insn) f) h
    simp only [getF_setF] at hv
    exact Prod.ext hv (turned_snd sf f _ _ _)
  · intro h
    rw [h]

/-- `fmin.s f5, f1, f2` of 1 and a signaling NaN. -/
theorem fmin_s_minMax : EmulatesMinMax Softfloat.zeros.comparing (.quiet .rv64) 0x282082d3
    (((TrapState.idle 0x6000 fun _ => 0).setF64Reg 1 0x3f800000).setF64Reg 2 0x7fa00000) .S := by
  apply (emulateFmin_minMax_iff .zeros _ _ (by decide) (by decide)).mpr
  show ¬Fmt.S.Misplaced false (0x3f800000#32) (0x7fa00000#32)
  rintro (h | h)
  · exact absurd h.1 (by decide +kernel)
  · have hne : 0x3f800000#32≠BitVec.intMin 32 := by decide
    exact hne h.1

/-- The same instruction on the two zeros: the positive one is written. -/
theorem fmin_s_zeros : ¬EmulatesMinMax Softfloat.zeros.comparing (.quiet .rv64) 0x282082d3
    (((TrapState.idle 0x6000 fun _ => 0).setF64Reg 1 0x80000000).setF64Reg 2 0) .S := by
  intro h
  have hv := congrArg (fun p : Int×TrapState .rv64 => p.2.getF32Reg 5) h
  revert hv
  decide +kernel

end Instruction
end OpenSBI
