import OpenSBI.Fp.Reference

namespace OpenSBI

open Math

variable {x : Xlen} {sf : Softfloat} {mode : RoundingMode}

/-- `emulate_fcvt_if()` from the double on. -/
def fromDouble (sf : Softfloat) (x : Xlen) (rm : BitVec 32) (kind : Nat) (a : BitVec 64) : Word x×Flags :=
  ((fcvtIfValue sf rm kind a).1.setWidth x.bits,(fcvtIfValue sf rm kind a).2)

/-- The value and flags the ISA requires, in the register. -/
def isaInteger (x : Xlen) (mode : RoundingMode) (kind : Nat) (v : FloatValue) : Word x×Flags :=
  (intWord x kind (toInteger mode kind v).1,(toInteger mode kind v).2)

section Double

theorem toInteger_magnitude {m : ℚ} (h0 : 0 ≤ m) : toInteger mode 3 (.finite false m)=
    ((magnitudeOf mode m : ℤ),magnitudeFlags mode m) := by
  have hr := mode.round_nonneg m h0
  rw [toInteger_pos 3 hr]
  by_cases h : mode.round m<2^64
  · rw [if_neg (by simp only [kindMax]; omega),magnitudeOf_eq h0 h,magnitudeFlags_small h]
  · rw [if_pos (by simp only [kindMax]; omega),magnitudeOf_ge (not_lt.mp h),magnitudeFlags,
      if_pos (not_lt.mp h)]
    rfl

/-- The limits are put on what `f64_to_ui64()` makes of the magnitude. -/
theorem fromDouble_eq (hsf : sf.ToIntegersCorrect) (kind : Nat) (a : BitVec 64) {u : Nat} {fl : Flags}
    (h : toInteger mode 3 (f64Value a).abs=((u : ℤ),fl)) :
    fromDouble sf x (roundingCode mode) kind a=limited x kind a.msb u fl := by
  have hr : sf.f64ToUi64 (roundingCode mode) (f64Abs a)=(BitVec.ofNat 64 u,fl) := by
    rw [hsf.toUi64 mode (f64Abs_msb a),f64Abs_value,h,BitVec.ofInt_natCast]
  have hv : fcvtIfValue sf (roundingCode mode) kind a=
      (let l := fcvtIfLimits kind a.msb (BitVec.ofNat 64 u)
       if l.2.1<BitVec.ofNat 64 u then (l.2.2,fl ||| softfloat_flag_invalid) else (l.1,fl)) := by
    have hr' := hr
    rw [f64Abs] at hr'
    rw [fcvtIfValue]
    dsimp only
    rw [hr']
  rw [fromDouble,hv,limited]
  dsimp only
  split <;> rfl

/-- From a double the conversion is the ISA's on the values it handles. -/
theorem fromDouble_iff (hsf : sf.ToIntegersCorrect) {kind : Nat} (hk : kind<fcvtIfKinds x) (a : BitVec 64) :
    fromDouble sf x (roundingCode mode) kind a=isaInteger x mode kind (f64Value a) ↔
      ConvertedRight x mode .D kind (f64Value a) := by
  obtain ⟨sig,hv⟩ | hv | hv := binary64.value_cases a.msb (a.toNat%2^63)
  · have hv' : f64Value a=.nan a.msb sig := hv
    have hu : toInteger mode 3 (f64Value a).abs=(((2^64-1 : ℕ) : ℤ),softfloat_flag_invalid) := by
      rw [hv']
      rfl
    rw [fromDouble_eq hsf kind a hu,hv']
    exact outOfRange_nan hk mode a.msb sig
  · have hv' : f64Value a=.inf a.msb := hv
    have hu : toInteger mode 3 (f64Value a).abs=(((2^64-1 : ℕ) : ℤ),softfloat_flag_invalid) := by
      rw [hv']
      rfl
    rw [fromDouble_eq hsf kind a hu,hv']
    exact outOfRange_inf hk mode .D a.msb
  · have hv' : f64Value a=.finite a.msb (binary64.magnitude (a.toNat%2^63)) := hv
    have h0 := binary64.magnitude_nonneg (a.toNat%2^63)
    have hu : toInteger mode 3 (f64Value a).abs=
        ((magnitudeOf mode (binary64.magnitude (a.toNat%2^63)) : ℤ),
          magnitudeFlags mode (binary64.magnitude (a.toNat%2^63))) := by
      rw [hv']
      exact toInteger_magnitude h0
    rw [fromDouble_eq hsf kind a hu,hv']
    exact sameResult_iff .D h0 (fun h => by exact_mod_cast binary64.magnitude_lt_of_not_int h) hk a.msb

end Double

section Single

/-- `emulate_fcvt_if()` from the single on. -/
def fromSingle (sf : Softfloat) (x : Xlen) (rm : BitVec 32) (kind : Nat) (a : BitVec 32) : Word x×Flags :=
  ((fromDouble sf x rm kind (sf.f32ToF64 a).1).1,
    (sf.f32ToF64 a).2 ||| (fromDouble sf x rm kind (sf.f32ToF64 a).1).2)

theorem outOfRange_flags (kind : Nat) (negative : Bool) :
    (outOfRange x kind negative).2=softfloat_flag_invalid := by
  unfold outOfRange limited
  dsimp only
  split
  · show softfloat_flag_invalid ||| softfloat_flag_invalid=_
    decide
  · rfl

theorem fcvtIfKinds_le (x : Xlen) : fcvtIfKinds x ≤ 4 := by cases x <;> decide

/-- Only a NaN tells the precisions apart: its sign is lost on the way to the double. -/
theorem convertedRight_nan {kind : Nat} (hk : kind<fcvtIfKinds x) (negative signaling : Bool) :
    ConvertedRight x mode .D kind (.nan false signaling) ↔
      ConvertedRight x mode .S kind (.nan negative signaling) := by
  have h4 := lt_of_lt_of_le hk (fcvtIfKinds_le x)
  interval_cases kind <;> simp [ConvertedRight]

theorem convertedRight_fmt {kind : Nat} {v : FloatValue} (hk : kind<fcvtIfKinds x)
    (h : ∀ negative signaling,v≠.nan negative signaling) :
    ConvertedRight x mode .D kind v ↔ ConvertedRight x mode .S kind v := by
  have h4 := lt_of_lt_of_le hk (fcvtIfKinds_le x)
  cases v with
  | nan negative signaling => exact absurd rfl (h negative signaling)
  | inf negative => interval_cases kind <;> exact Iff.rfl
  | finite negative m => cases negative <;> interval_cases kind <;> exact Iff.rfl

theorem fromSingle_iff (hsf : sf.ToIntegersCorrect) {kind : Nat} (hk : kind<fcvtIfKinds x) (a : BitVec 32) :
    fromSingle sf x (roundingCode mode) kind a=isaInteger x mode kind (f32Value a) ↔
      ConvertedRight x mode .S kind (f32Value a) := by
  by_cases hn : ∃ negative signaling,f32Value a=.nan negative signaling
  · obtain ⟨negative,signaling,hv⟩ := hn
    have hd := hsf.widenNaN hv
    have hq : f64Value 0x7ff8000000000000=.nan false false := by decide
    have hu : toInteger mode 3 (f64Value 0x7ff8000000000000).abs=
        (((2^64-1 : ℕ) : ℤ),softfloat_flag_invalid) := by
      rw [hq]
      rfl
    have hf : fromDouble sf x (roundingCode mode) kind 0x7ff8000000000000=outOfRange x kind false :=
      fromDouble_eq hsf kind _ hu
    have hs : fromSingle sf x (roundingCode mode) kind a=outOfRange x kind false := by
      rw [fromSingle,hd,hf]
      refine Prod.ext rfl ?_
      show (if signaling then softfloat_flag_invalid else 0) ||| (outOfRange x kind false).2=_
      rw [outOfRange_flags]
      cases signaling <;> rfl
    rw [hs,hv,← convertedRight_nan hk negative signaling]
    exact outOfRange_nan hk mode false signaling
  · have hn' : ∀ negative signaling,f32Value a≠.nan negative signaling :=
      fun negative signaling h => hn ⟨negative,signaling,h⟩
    obtain ⟨hv,h0⟩ := hsf.widen hn'
    have hs : fromSingle sf x (roundingCode mode) kind a=
        fromDouble sf x (roundingCode mode) kind (sf.f32ToF64 a).1 := by
      rw [fromSingle,h0]
      exact Prod.ext rfl (BitVec.zero_or)
    rw [hs,← hv,fromDouble_iff hsf hk,convertedRight_fmt hk]
    rw [hv]
    exact hn'

end Single

section Emulation

variable {env : TrapEnv x} {insn : Word x} {s : TrapState x} {fmt : Fmt}

/-- The integer and the flags that `emulate_fcvt_if()` makes of a number. -/
def fromFloat (sf : Softfloat) (x : Xlen) (rm : BitVec 32) (kind : Nat) :
    (f : Fmt) → BitVec f.width → Word x×Flags
  | .S,a => fromSingle sf x rm kind a
  | .D,a => fromDouble sf x rm kind a

theorem fromFloat_iff (hsf : sf.ToIntegersCorrect) {kind : Nat} (hk : kind<fcvtIfKinds x) (fmt : Fmt)
    (a : BitVec fmt.width) :
    fromFloat sf x (roundingCode mode) kind fmt a=isaInteger x mode kind (fmt.value a) ↔
      ConvertedRight x mode fmt kind (fmt.value a) := by
  cases fmt with
  | S => exact fromSingle_iff hsf hk a
  | D => exact fromDouble_iff hsf hk a

theorem emulateFcvtIf_writes (hk : rs2Num insn<fcvtIfKinds x)
    (hf : Fmt.ofCode (getPrecision insn)=some fmt) : emulateFcvtIf sf env insn s=
      s.writeInt insn (fromFloat sf x s.roundingMode (rs2Num insn) fmt (s.getF (rs1Of insn) fmt)) := by
  rw [emulateFcvtIf,if_neg (not_le.mpr hk)]
  cases fmt with
  | S =>
    have hp : getPrecision insn=PRECISION_S := precision_of_ofCode hf
    rw [if_pos hp]
    rfl
  | D =>
    have hp : getPrecision insn=PRECISION_D := precision_of_ofCode hf
    rw [if_neg (by rw [hp]; decide),if_pos hp]
    rfl

/-- With no flags set, the step shows what was written and raised. -/
theorem writeInt_inj {r r' : Word x×Flags} (h : (s.setTp (modeTp x mode)).writeInt insn r=
    (s.setTp (modeTp x mode)).writeInt insn r') : r=r' := by
  have hv : (Function.update s.regs.gpr (rdOf insn) r.1) (rdOf insn)=
      (Function.update s.regs.gpr (rdOf insn) r'.1) (rdOf insn) :=
    congrArg (fun p => p.2.regs.gpr (rdOf insn)) h
  have ht : modeTp x mode ||| r.2.setWidth x.bits=modeTp x mode ||| r'.2.setWidth x.bits :=
    congrArg (fun p => p.2.tp) h
  rw [Function.update_self,Function.update_self] at hv
  have hl := congrArg (BitVec.setWidth 5) ht
  rw [modeTp_flags,modeTp_flags] at hl
  exact Prod.ext hv hl

/-- `emulate_fcvt_if()` writes and raises what the ISA requires, whatever flags are set already. -/
def ConvertsToInteger (sf : Softfloat) (env : TrapEnv x) (insn : Word x) (s : TrapState x)
    (mode : RoundingMode) (fmt : Fmt) : Prop :=
  ∀ tp,softfloatRoundingMode tp=roundingCode mode →
    emulateFcvtIf sf env insn (s.setTp tp)=(s.setTp tp).writeInt insn
      (isaInteger x mode (rs2Num insn) (fmt.value (s.getF (rs1Of insn) fmt)))

theorem convertsToInteger_iff (env : TrapEnv x) (s : TrapState x) (mode : RoundingMode)
    (hk : rs2Num insn<fcvtIfKinds x) (hf : Fmt.ofCode (getPrecision insn)=some fmt) :
    ConvertsToInteger sf env insn s mode fmt ↔
      fromFloat sf x (roundingCode mode) (rs2Num insn) fmt (s.getF (rs1Of insn) fmt)=
        isaInteger x mode (rs2Num insn) (fmt.value (s.getF (rs1Of insn) fmt)) := by
  have hw : ∀ tp,softfloatRoundingMode tp=roundingCode mode → emulateFcvtIf sf env insn (s.setTp tp)=
      (s.setTp tp).writeInt insn (fromFloat sf x (roundingCode mode) (rs2Num insn) fmt
        (s.getF (rs1Of insn) fmt)) := by
    intro tp htp
    have hm : (s.setTp tp).roundingMode=roundingCode mode := htp
    have hg : (s.setTp tp).getF (rs1Of insn) fmt=s.getF (rs1Of insn) fmt := by cases fmt <;> rfl
    rw [emulateFcvtIf_writes hk hf,hg,hm]
  constructor
  · intro h
    have h0 := h _ (softfloatRoundingMode_modeTp mode)
    rw [hw _ (softfloatRoundingMode_modeTp mode)] at h0
    exact writeInt_inj h0
  · intro h tp htp
    rw [hw tp htp,h]

/-- From a number the conversion is right on what `ConvertedRight` says, and on nothing else. -/
theorem emulateFcvtIf_exact (hsf : sf.ToIntegersCorrect) (env : TrapEnv x) (s : TrapState x)
    (mode : RoundingMode) (hk : rs2Num insn < intKinds x) (hf : Fmt.ofCode (getPrecision insn)=some fmt) :
    ConvertsToInteger sf env insn s mode fmt ↔
      ConvertedRight x mode fmt (rs2Num insn) (fmt.value (s.getF (rs1Of insn) fmt)) := by
  have hk' : rs2Num insn<fcvtIfKinds x := by rwa [fcvtIfKinds_eq]
  rw [convertsToInteger_iff env s mode hk' hf]
  exact fromFloat_iff hsf hk' fmt _

theorem f64Value_two_and_half : f64Value 0xc004000000000000=.finite true (5/2) := by decide +kernel

/-- `fcvt.w.d x5, f1` of -2.5, to the even neighbour. -/
theorem fcvt_w_d_exact : ConvertsToInteger .reference (.quiet .rv64) 0xc20082d3
    ((TrapState.idle 0x6000 fun _ => 0).setF64Reg 1 0xc004000000000000) .rne .D := by
  apply (emulateFcvtIf_exact reference_toIntegers _ _ _ (by decide) (by decide)).mpr
  show ConvertedRight .rv64 .rne .D 0 (f64Value 0xc004000000000000)
  rw [f64Value_two_and_half]
  exact .inr ⟨by decide +kernel,rfl,by decide +kernel⟩

/-- The same number rounded down: -3 is required, and -2 written. -/
theorem fcvt_w_d_down : ¬ConvertsToInteger .reference (.quiet .rv64) 0xc20082d3
    ((TrapState.idle 0x6000 fun _ => 0).setF64Reg 1 0xc004000000000000) .rdn .D := by
  rw [convertsToInteger_iff _ _ _ (by decide) (by decide),fromFloat_iff reference_toIntegers (by decide)]
  show ¬ConvertedRight .rv64 .rdn .D 0 (f64Value 0xc004000000000000)
  rw [f64Value_two_and_half]
  intro h
  obtain h | h := h
  · exact absurd h.1 (by decide +kernel)
  · exact absurd h.2.1 (by decide)

end Emulation
end OpenSBI
