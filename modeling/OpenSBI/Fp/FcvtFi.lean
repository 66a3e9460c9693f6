import OpenSBI.Fp.Reference

namespace OpenSBI

open Math

variable {x : Xlen} {sf : Softfloat} {env : TrapEnv x} {mode : RoundingMode} {insn : Word x}
  {s : TrapState x} {fmt : Fmt}

/-- The number and the flags that `emulate_fcvt_fi()` makes of a sign and a magnitude. -/
def toFloat (sf : Softfloat) (rm : BitVec 32) (arg : Bool×BitVec 64) (f : Fmt) : BitVec f.width×Flags :=
  ((sf.ofDouble rm f (fcvtFiDouble sf rm arg).1).1,
    (fcvtFiDouble sf rm arg).2 ||| (sf.ofDouble rm f (fcvtFiDouble sf rm arg).1).2)

section Value

variable {z : ℤ} {v : BitVec 64}

theorem toFloat_double (hsf : sf.FromIntegersCorrect) (mode : RoundingMode) (hv : v.toNat=z.natAbs) :
    f64Value (toFloat sf (roundingCode mode) (decide (z<0),v) .D).1=(fromInteger mode .D z).1 ↔
      RoundedOnce mode .D z := by
  have hd := (fcvtFiDouble_value hsf mode (decide (z<0)) v).1
  show f64Value (fcvtFiDouble sf (roundingCode mode) (decide (z<0),v)).1=_ ↔ _
  rw [hd,hv,fromInteger,Fmt.format,BinaryFormat.natAbs_roundInt,← roundedOnce_double,
    FloatValue.finite.injEq]
  simp only [true_and]
  exact_mod_cast Iff.rfl

theorem toFloat_single (hsf : sf.FromIntegersCorrect) (mode : RoundingMode) (hv : v.toNat=z.natAbs) :
    f32Value (toFloat sf (roundingCode mode) (decide (z<0),v) .S).1=(fromInteger mode .S z).1 ↔
      RoundedOnce mode .S z := by
  have hd := (fcvtFiDouble_value hsf mode (decide (z<0)) v).1
  have hn := (hsf.narrow mode hd (BinaryFormat.roundNat_le_pow v.isLt)).1
  show f32Value (sf.f64ToF32 (roundingCode mode) (fcvtFiDouble sf (roundingCode mode) _).1).1=_ ↔ _
  rw [hn,hv,fromInteger,Fmt.format,BinaryFormat.natAbs_roundInt,← roundedOnce_single,
    FloatValue.finite.injEq]
  simp only [true_and]
  exact_mod_cast Iff.rfl

/-- NX is raised when the number is not exact, whichever of the steps loses something. -/
theorem toFloat_flags (hsf : sf.FromIntegersCorrect) (mode : RoundingMode) (hv : v.toNat=z.natAbs)
    (f : Fmt) : (toFloat sf (roundingCode mode) (decide (z<0),v) f).2=(fromInteger mode f z).2 := by
  obtain ⟨hd,hf⟩ := fcvtFiDouble_value hsf mode (decide (z<0)) v
  cases f with
  | D =>
    have hi : binary64.roundNat mode v.toNat=v.toNat ↔ binary64.roundInt mode z=z := by
      rw [BinaryFormat.roundNat_eq_iff,BinaryFormat.roundInt_eq_iff,hv]
    show _ ||| 0=if binary64.roundInt mode z=z then 0 else softfloat_flag_inexact
    rw [hf]
    simp only [hi]
    exact BitVec.or_zero
  | S =>
    have hn := (hsf.narrow mode hd (BinaryFormat.roundNat_le_pow v.isLt)).2
    show _ ||| (sf.f64ToF32 (roundingCode mode) _).2=
      if binary32.roundInt mode z=z then 0 else softfloat_flag_inexact
    rw [hf,hn]
    simp only [BinaryFormat.roundInt_eq_iff,← hv]
    by_cases hD : binary64.roundNat mode v.toNat=v.toNat
    · rw [if_pos hD,hD]
      simp only [BinaryFormat.roundNat_eq_iff]
      exact BitVec.zero_or
    · have hS : ¬binary32.ulp v.toNat ∣ v.toNat := fun h =>
        hD ((BinaryFormat.roundNat_eq_iff _).mpr ((BinaryFormat.ulp_dvd (by decide) _).trans h))
      rw [if_neg hD,if_neg hS]
      split <;> decide

end Value

section Emulation

theorem fmt_value_iff (hsf : sf.FromIntegersCorrect) (mode : RoundingMode) {z : ℤ} {v : BitVec 64}
    (hv : v.toNat=z.natAbs) (f : Fmt) :
    f.value (toFloat sf (roundingCode mode) (decide (z<0),v) f).1=(fromInteger mode f z).1 ↔
      RoundedOnce mode f z := by
  cases f with
  | S => exact toFloat_single hsf mode hv
  | D => exact toFloat_double hsf mode hv

theorem emulateFcvtFi_writes {arg : Bool×BitVec 64}
    (ha : fcvtFiArg x (rs2Num insn) ((s.getReg (rs1Of insn)).setWidth 64)=some arg)
    (hf : Fmt.ofCode (getPrecision insn)=some fmt) : emulateFcvtFi sf env insn s=
      (SBI_OK,s.setF (rdOf insn) fmt (toFloat sf s.roundingMode arg fmt)) := by
  cases fmt with
  | S =>
    have hp : getPrecision insn=PRECISION_S := precision_of_ofCode hf
    rw [emulateFcvtFi,if_neg (fun h => h.1 hp),ha]
    dsimp only
    rw [if_pos hp]
    rfl
  | D =>
    have hp : getPrecision insn=PRECISION_D := precision_of_ofCode hf
    have hn : getPrecision insn≠PRECISION_S := by
      rw [hp]
      decide
    have hz : toFloat sf s.roundingMode arg .D=fcvtFiDouble sf s.roundingMode arg :=
      Prod.ext rfl BitVec.or_zero
    rw [emulateFcvtFi,if_neg (fun h => h.2 hp),ha,hz]
    dsimp only
    rw [if_neg hn]
    rfl

theorem getF32_setF32 (s : TrapState x) (rd : Fin 32) (v : BitVec 32) :
    (s.setF32Reg rd v).getF32Reg rd=v := by
  show (Function.update s.fpr rd ((s.fpr rd).extractLsb' 32 32++v) rd).setWidth 32=v
  rw [Function.update_self,BitVec.setWidth_append,dif_pos le_rfl,BitVec.setWidth_eq]

theorem getF_setF (s : TrapState x) (rd : Fin 32) (f : Fmt) (r : BitVec f.width×Flags) :
    (s.setF rd f r).getF rd f=r.1 := by
  cases f with
  | S => exact getF32_setF32 (s.raiseFlags r.2) rd r.1
  | D => exact Function.update_self ..

/-- With no flags set, the step shows what was written and raised. -/
theorem setF_inj {rd : Fin 32} {f : Fmt} {r r' : BitVec f.width×Flags}
    (h : (s.setTp (modeTp x mode)).setF rd f r=(s.setTp (modeTp x mode)).setF rd f r') : r=r' := by
  have hv : ((s.setTp (modeTp x mode)).setF rd f r).getF rd f=
      ((s.setTp (modeTp x mode)).setF rd f r').getF rd f := congrArg (fun t => t.getF rd f) h
  have ht : modeTp x mode ||| r.2.setWidth x.bits=modeTp x mode ||| r'.2.setWidth x.bits := by
    cases f <;> exact congrArg (fun t : TrapState x => t.tp) h
  have hl := congrArg (BitVec.setWidth 5) ht
  rw [modeTp_flags,modeTp_flags] at hl
  rw [getF_setF,getF_setF] at hv
  exact Prod.ext hv hl

/-- `emulate_fcvt_fi()` writes the integer rounded once and raises NX exactly when that changes it,
whatever flags are set already. -/
def ConvertsFromInteger (sf : Softfloat) (env : TrapEnv x) (insn : Word x) (s : TrapState x)
    (mode : RoundingMode) (fmt : Fmt) : Prop :=
  ∀ tp,softfloatRoundingMode tp=roundingCode mode →
    ∃ r : BitVec fmt.width×Flags,
      emulateFcvtFi sf env insn (s.setTp tp)=(SBI_OK,(s.setTp tp).setF (rdOf insn) fmt r) ∧
      (fmt.value r.1,r.2)=fromInteger mode fmt (intSource (rs2Num insn) (s.getReg (rs1Of insn)))

theorem convertsFromInteger_iff (hsf : sf.FromIntegersCorrect) (env : TrapEnv x) (mode : RoundingMode)
    {v : BitVec 64} (hf : Fmt.ofCode (getPrecision insn)=some fmt)
    (ha : fcvtFiArg x (rs2Num insn) ((s.getReg (rs1Of insn)).setWidth 64)=
      some (decide (intSource (rs2Num insn) (s.getReg (rs1Of insn))<0),v))
    (hv : v.toNat=(intSource (rs2Num insn) (s.getReg (rs1Of insn))).natAbs) :
    ConvertsFromInteger sf env insn s mode fmt ↔
      RoundedOnce mode fmt (intSource (rs2Num insn) (s.getReg (rs1Of insn))) := by
  have hw : ∀ tp,softfloatRoundingMode tp=roundingCode mode → emulateFcvtFi sf env insn (s.setTp tp)=
      (SBI_OK,(s.setTp tp).setF (rdOf insn) fmt (toFloat sf (roundingCode mode)
        (decide (intSource (rs2Num insn) (s.getReg (rs1Of insn))<0),v) fmt)) := by
    intro tp htp
    have hm : (s.setTp tp).roundingMode=roundingCode mode := htp
    have ha' : fcvtFiArg x (rs2Num insn) (((s.setTp tp).getReg (rs1Of insn)).setWidth 64)=_ := ha
    rw [emulateFcvtFi_writes ha' hf,hm]
  rw [← fmt_value_iff hsf mode hv]
  constructor
  · intro h
    obtain ⟨r,he,hr⟩ := h _ (softfloatRoundingMode_modeTp mode)
    rw [hw _ (softfloatRoundingMode_modeTp mode)] at he
    rw [setF_inj (congrArg Prod.snd he)]
    exact congrArg Prod.fst hr
  · intro h tp htp
    exact ⟨_,hw tp htp,Prod.ext h (toFloat_flags hsf mode hv fmt)⟩

/-- From an integer the conversion is right on what `RoundedOnce` says, and on nothing else. -/
theorem emulateFcvtFi_exact (hsf : sf.FromIntegersCorrect) (env : TrapEnv x) (s : TrapState x)
    (mode : RoundingMode) (hk : rs2Num insn < intKinds x) (hf : Fmt.ofCode (getPrecision insn)=some fmt) :
    ConvertsFromInteger sf env insn s mode fmt ↔
      RoundedOnce mode fmt (intSource (rs2Num insn) (s.getReg (rs1Of insn))) := by
  obtain ⟨v,ha,hv⟩ := fcvtFiArg_eq hk (s.getReg (rs1Of insn))
  exact convertsFromInteger_iff hsf env mode hf ha hv

/-- `fcvt.s.l f5, x1` of a number three above the middle of two singles. -/
theorem fcvt_s_l_exact : ConvertsFromInteger .reference (.quiet .rv64) 0xd02082d3
    ((TrapState.idle 0x6000 fun _ => 0).setReg 1 0x40000040000003) .rne .S := by
  apply (emulateFcvtFi_exact reference_fromIntegers _ _ _ (by decide) (by decide)).mpr
  show RoundedOnce .rne .S (intSource 2 (0x40000040000003 : Word .rv64))
  exact ⟨by decide,by decide⟩

/-- One above the middle: the double is the middle, which goes to the even neighbour below. -/
theorem fcvt_s_l_twice : ¬ConvertsFromInteger .reference (.quiet .rv64) 0xd02082d3
    ((TrapState.idle 0x6000 fun _ => 0).setReg 1 0x40000040000001) .rne .S := by
  rw [convertsFromInteger_iff (v := 0x40000040000001) reference_fromIntegers _ _ (by decide) (by decide)
    (by decide)]
  show ¬RoundedOnce .rne .S (intSource 2 (0x40000040000001 : Word .rv64))
  exact fun h => h.2 (by decide)

end Emulation
end OpenSBI
