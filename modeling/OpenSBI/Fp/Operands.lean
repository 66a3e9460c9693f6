import OpenSBI.Fp.MinMax
import OpenSBI.Fp.RoundPack
import OpenSBI.Math.FloatArithmetic

namespace OpenSBI

open Math

/-- The flags of the exceptions that an operation signals. -/
def outcomeFlags (o : FloatOutcome) : Flags :=
  roundedFlags o.toRounded ||| (if o.invalid then softfloat_flag_invalid else 0) |||
    (if o.divByZero then softfloat_flag_infinite else 0)

namespace Fmt

/-- A result and its flags are those of the outcome, and a NaN is the canonical one. -/
def Gives (f : Fmt) (r : BitVec f.width×Flags) (o : FloatOutcome) : Prop :=
  f.value r.1=o.value ∧ r.2=outcomeFlags o ∧ (o.value=.nan false false → r.1=f.canonicalNaN)

def isSigNaNUI : (f : Fmt) → BitVec f.width → Bool
  | .S => softfloat_isSigNaNF32UI
  | .D => softfloat_isSigNaNF64UI

/-- `softfloat_propagateNaNF32UI()` and `softfloat_propagateNaNF64UI()`. -/
def propagateNaN (f : Fmt) (a b : BitVec f.width) : BitVec f.width×Flags :=
  (f.canonicalNaN,if f.isSigNaNUI a || f.isSigNaNUI b then softfloat_flag_invalid else 0)

def countLeadingZeros : Fmt → Nat → Nat
  | .S => softfloatCountLeadingZeros32
  | .D => softfloatCountLeadingZeros64

/-- `softfloat_normSubnormalF32Sig()` and `softfloat_normSubnormalF64Sig()`. -/
def normSubnormalSig (f : Fmt) (sig : Nat) : ℤ×Nat :=
  let shiftDist : ℤ := f.countLeadingZeros sig-(f.guardBits+1)
  (1-shiftDist,sig <<< shiftDist.toNat)

/-- The exponent and the significand of a number that is not zero, a subnormal one normalized. -/
def normOperand (f : Fmt) (a : BitVec f.width) : ℤ×Nat :=
  if f.expUI a=0 then f.normSubnormalSig (f.fracUI a) else (f.expUI a,f.fracUI a)

/-- `softfloat_normRoundPackToF32()` and `softfloat_normRoundPackToF64()`. -/
def normRoundPack (f : Fmt) (rm : BitVec 32) (sign : Bool) (exp : ℤ) (sig : Nat) : BitVec f.width×Flags :=
  let shiftDist : ℤ := f.countLeadingZeros sig-1
  let exp := exp-shiftDist
  if f.guardBits ≤ shiftDist ∧ exp%2^32<f.expMax-2 then
    (f.packToUI sign (if sig≠0 then exp else 0) (sig <<< (shiftDist-f.guardBits).toNat),0)
  else f.roundPack rm sign exp (sig <<< shiftDist.toNat)

end Fmt

def softfloatPropagateNaNF32UI : BitVec 32 → BitVec 32 → BitVec 32×Flags := Fmt.S.propagateNaN
def softfloatPropagateNaNF64UI : BitVec 64 → BitVec 64 → BitVec 64×Flags := Fmt.D.propagateNaN
def softfloatNormSubnormalF32Sig : Nat → ℤ×Nat := Fmt.S.normSubnormalSig
def softfloatNormSubnormalF64Sig : Nat → ℤ×Nat := Fmt.D.normSubnormalSig
def softfloatNormRoundPackToF32 : BitVec 32 → Bool → ℤ → Nat → BitVec 32×Flags := Fmt.S.normRoundPack
def softfloatNormRoundPackToF64 : BitVec 32 → Bool → ℤ → Nat → BitVec 64×Flags := Fmt.D.normRoundPack

namespace Fmt

section Values

variable {f : Fmt} {a b : BitVec f.width}

theorem format_eq (f : Fmt) : f.binary=f.format := by cases f <;> rfl

/-- The significand with its hidden bit. -/
def sigOf (f : Fmt) (a : BitVec f.width) : Nat := f.fracUI a+if f.expUI a=0 then 0 else 2^f.format.fracBits

/-- The magnitude of a number. -/
def magOf (f : Fmt) (a : BitVec f.width) : ℚ :=
  f.sigOf a*2^max (f.expUI a) 1/2^(f.format.bias+f.format.fracBits)

theorem magOf_nonneg (a : BitVec f.width) : 0 ≤ f.magOf a := by
  unfold magOf
  positivity

theorem fields_low (a : BitVec f.width) :
    f.format.expField (f.low a)=f.expUI a ∧ f.format.fracField (f.low a)=f.fracUI a := by
  have hw := f.width_pred
  constructor
  · rw [BinaryFormat.expField,low,hw,expUI,Nat.add_comm,pow_add]
    exact Nat.mod_mul_right_div_self _ _ _
  · rw [BinaryFormat.fracField,low,hw,fracUI]
    exact Nat.mod_mod_of_dvd _ (Nat.pow_dvd_pow 2 (by omega))

theorem fracUI_lt (a : BitVec f.width) : f.fracUI a<2^f.format.fracBits := Nat.mod_lt _ (Nat.two_pow_pos _)

theorem expUI_le (a : BitVec f.width) : f.expUI a ≤ f.expMax := by
  have h : f.expUI a<2^f.format.expBits := Nat.mod_lt _ (Nat.two_pow_pos _)
  rw [expMax]
  omega

theorem magOf_eq_zero {a : BitVec f.width} : f.magOf a=0 ↔ f.expUI a=0 ∧ f.fracUI a=0 := by
  have hp : (2 : ℚ)^max (f.expUI a) 1≠0 := by positivity
  have hd : (2 : ℚ)^(f.format.bias+f.format.fracBits)≠0 := by positivity
  have hb := Nat.two_pow_pos f.format.fracBits
  rw [magOf,div_eq_zero_iff,or_iff_left hd,mul_eq_zero,or_iff_left hp,Nat.cast_eq_zero,sigOf]
  split <;> omega

theorem value_fields (a : BitVec f.width) : f.value a=
    if f.expUI a=f.expMax then
      if f.fracUI a=0 then .inf a.msb else .nan a.msb (decide (f.fracUI a<2^(f.format.fracBits-1)))
    else .finite a.msb (f.magOf a) := by
  obtain ⟨he,hf⟩ := fields_low a
  rw [value_eq,format_eq,BinaryFormat.value,BinaryFormat.magnitude,BinaryFormat.significand,he,hf]
  rfl

theorem value_inf (he : f.expUI a=f.expMax) (hf : f.fracUI a=0) : f.value a=.inf a.msb := by
  rw [value_fields,if_pos he,if_pos hf]

theorem value_finite (he : f.expUI a≠f.expMax) : f.value a=.finite a.msb (f.magOf a) := by
  rw [value_fields,if_neg he]

theorem value_packZero (sign : Bool) : f.value (f.packToUI sign 0 0)=.finite sign 0 := by
  simpa using @value_pack_normal 0 0 f sign (.inl rfl) (Nat.zero_le _)
    (.inl f.expMax_gt)

theorem value_packInf (sign : Bool) : f.value (f.packToUI sign f.expMax 0)=.inf sign := by
  have h := packToUI_natCast (f := f) sign f.expMax 0
  rw [Nat.add_zero] at h
  rw [h,value_signBits f sign f.expMax_lt]
  exact BinaryFormat.value_inf sign

theorem isNaN_iff : (f.value a).IsNaN ↔ f.expUI a=f.expMax ∧ f.fracUI a≠0 := by
  rw [value_fields]
  split_ifs <;> simp_all [FloatValue.IsNaN]

theorem isSigNaNUI_iff : f.isSigNaNUI a=true ↔ (f.value a).IsSignaling := by
  cases f with
  | S => exact softfloat_isSigNaNF32UI_iff a
  | D => exact softfloat_isSigNaNF64UI_iff a

theorem sigOf_lt (a : BitVec f.width) : f.sigOf a<2^(f.format.fracBits+1) := by
  have h := fracUI_lt a
  rw [sigOf,pow_succ]
  split <;> omega

theorem value_canonicalNaN (f : Fmt) : f.value f.canonicalNaN=.nan false false := by cases f <;> decide +kernel

theorem propagateNaN_gives (a b : BitVec f.width) :
    f.Gives (f.propagateNaN a b) (.ofNaN (f.value a) (f.value b)) := by
  refine ⟨f.value_canonicalNaN,?_,fun _ => rfl⟩
  simp only [propagateNaN,Bool.or_eq_true,isSigNaNUI_iff,outcomeFlags,FloatOutcome.ofNaN,roundedFlags]
  split_ifs <;> simp_all

theorem invalid_gives (f : Fmt) : f.Gives (f.canonicalNaN,softfloat_flag_invalid) .invalidOperation :=
  ⟨f.value_canonicalNaN,show softfloat_flag_invalid=outcomeFlags .invalidOperation by decide,fun _ => rfl⟩

theorem Shows.gives {r : BitVec f.width×Flags} {mode : RoundingMode} {sign : Bool} {q : ℚ}
    (h : f.Shows r (f.format.roundTo mode sign q)) : f.Gives r (.rounded (f.format.roundTo mode sign q)) := by
  refine ⟨h.1,?_,fun hn => ?_⟩
  · rw [h.2]
    simp [outcomeFlags,FloatOutcome.rounded]
  · exfalso
    revert hn
    simp only [FloatOutcome.rounded,BinaryFormat.roundTo]
    split_ifs <;> simp

theorem exact_gives {r : BitVec f.width} {v : FloatValue} (h : f.value r=v) (hn : ¬v.IsNaN) :
    f.Gives (r,0) (.exact v) := by
  refine ⟨h,by simp [outcomeFlags,FloatOutcome.exact,roundedFlags],fun hc => ?_⟩
  rw [show (FloatOutcome.exact v).value=v from rfl] at hc
  exact absurd (by rw [hc]; trivial) hn

end Values

section Normalize

variable {f : Fmt}

theorem countLeadingZeros_eq {a : ℕ} (h0 : a≠0) (ha : a<2^f.width) :
    (f.countLeadingZeros a : ℤ)=f.width-1-Nat.log2 a := by
  have hl : Nat.log2 a<f.width := (Nat.log2_lt h0).mpr ha
  cases f with
  | S =>
    have h := countLeadingZeros32_eq h0 ha
    simp only [countLeadingZeros,width] at *
    omega
  | D =>
    have h := countLeadingZeros64_eq h0 ha
    simp only [countLeadingZeros,width] at *
    omega

/-- A significand whose leading one may be one lower, as those of products and quotients. -/
theorem roundPack_below_shows {mode : RoundingMode} {sign : Bool} {exp k : ℤ} {sig : ℕ} {q : ℚ}
    (hexp : -2^14 ≤ exp ∧ exp<2^14) (hk : k+f.format.fracBits+f.guardBits=exp+1-f.format.bias)
    (hlo : 2^(f.width-3) ≤ sig) (hhi : sig<2^(f.width-1)) (hcut : SameCut (2^(k+1)) q (sig*2^k)) :
    f.Shows (if sig<2^(f.width-2) then f.roundPack (roundingCode mode) sign (exp-1) (sig <<< 1)
      else f.roundPack (roundingCode mode) sign exp sig) (f.format.roundTo mode sign q) := by
  have hw := f.width_eq
  have hg3 : 3 ≤ f.guardBits := by cases f <;> decide
  split
  · rename_i hlt
    have hval : ((sig <<< 1 : ℕ) : ℚ)*2^(k-1)=sig*2^k := by
      rw [Nat.shiftLeft_eq,zpow_sub_one₀ two_ne_zero]
      push_cast
      ring
    have hp : 2^(f.width-2)=2^(f.width-3)*2 := by
      rw [← pow_succ]
      congr 1
      omega
    have hp' : 2^(f.width-1)=2^(f.width-2)*2 := by
      rw [← pow_succ]
      congr 1
      omega
    rw [← hval] at hcut
    exact roundPack_shows (k := k-1) (by omega) (by omega) (by rw [Nat.shiftLeft_eq]; omega)
      (by rw [Nat.shiftLeft_eq]; omega) (hcut.widen_pow (by omega))
  · rename_i hge
    exact roundPack_shows (k := k) (by omega) (by omega) (not_lt.mp hge) hhi (hcut.widen_pow (by omega))

theorem shl_log2 {sig p : ℕ} (h0 : sig≠0) (hlt : sig<2^(p+1)) :
    2^p ≤ sig <<< (p-Nat.log2 sig) ∧ sig <<< (p-Nat.log2 sig)<2^(p+1) := by
  have hl : Nat.log2 sig<p+1 := (Nat.log2_lt h0).mpr hlt
  rw [Nat.shiftLeft_eq]
  constructor
  · calc 2^p=2^Nat.log2 sig*2^(p-Nat.log2 sig) := by rw [← pow_add,Nat.add_sub_cancel' (by omega)]
      _ ≤ sig*2^(p-Nat.log2 sig) := Nat.mul_le_mul_right _ (Nat.log2_self_le h0)
  · calc sig*2^(p-Nat.log2 sig)<2^(Nat.log2 sig+1)*2^(p-Nat.log2 sig) :=
          Nat.mul_lt_mul_of_pos_right Nat.lt_log2_self (Nat.two_pow_pos _)
      _=2^(p+1) := by
        rw [← pow_add]
        congr 1
        omega

theorem or_hidden {s p : ℕ} (h : 2^p ≤ s) (hlt : s<2^(p+1)) : s ||| 2^p=s := by
  obtain ⟨t,ht⟩ := Nat.exists_eq_add_of_le h
  have htlt : t<2^p := by
    rw [pow_succ] at hlt
    omega
  have hor : 2^p+t=2^p ||| t := by simpa using Nat.two_pow_add_eq_or_of_lt htlt 1
  rw [ht,hor,Nat.or_comm,← Nat.or_assoc,Nat.or_self]

theorem or_hidden_lt {s p : ℕ} (h : s<2^p) : s ||| 2^p=2^p+s := by
  have hor : 2^p+s=2^p ||| s := by simpa using Nat.two_pow_add_eq_or_of_lt h 1
  rw [hor,Nat.or_comm]

theorem normSubnormalSig_eq {sig : ℕ} (h0 : sig≠0) (hlt : sig<2^f.format.fracBits) :
    ∃ d : ℕ,d<f.format.fracBits ∧ f.normSubnormalSig sig=(-(d : ℤ),sig <<< (d+1)) ∧
      2^f.format.fracBits ≤ sig <<< (d+1) ∧ sig <<< (d+1)<2^(f.format.fracBits+1) := by
  have hw := f.width_eq
  have hclz := countLeadingZeros_eq (f := f) h0 (hlt.trans_le (Nat.pow_le_pow_right (by decide) (by omega)))
  have hl : Nat.log2 sig<f.format.fracBits := (Nat.log2_lt h0).mpr hlt
  obtain ⟨d,hd⟩ := Nat.exists_eq_add_of_lt hl
  have hshift : (f.countLeadingZeros sig : ℤ)-(f.guardBits+1)=(d+1 : ℕ) := by omega
  have hb := shl_log2 h0 (hlt.trans (Nat.pow_lt_pow_right (by decide) (Nat.lt_succ_self f.format.fracBits)))
  rw [show f.format.fracBits-Nat.log2 sig=d+1 by omega] at hb
  refine ⟨d,by omega,?_,hb⟩
  rw [normSubnormalSig,hshift]
  simp only [Int.toNat_natCast,Prod.mk.injEq,and_true]
  push_cast
  ring

/-- The operand is its significand with the hidden bit, at its exponent. -/
theorem normOperand_spec {a : BitVec f.width} (h : ¬(f.expUI a=0 ∧ f.fracUI a=0)) :
    2^f.format.fracBits ≤ (f.normOperand a).2 ||| 2^f.format.fracBits ∧
      (f.normOperand a).2 ||| 2^f.format.fracBits<2^(f.format.fracBits+1) ∧
      -52 < (f.normOperand a).1 ∧ (f.normOperand a).1 ≤ f.expMax ∧
      f.magOf a=((f.normOperand a).2 ||| 2^f.format.fracBits : ℕ)*
        2^((f.normOperand a).1-f.format.bias-f.format.fracBits) := by
  have hfrac := fracUI_lt a
  have hexp := expUI_le a
  have hsmall : f.format.fracBits ≤ 52 ∧ 2 ≤ f.expMax := by cases f <;> decide
  have hp : 2^(f.format.fracBits+1)=2^f.format.fracBits+2^f.format.fracBits := by rw [pow_succ,mul_two]
  rw [normOperand]
  by_cases he : f.expUI a=0
  · obtain ⟨d,hd,hn,hlo,hhi⟩ := normSubnormalSig_eq (f := f) (fun hz => h ⟨he,hz⟩) hfrac
    rw [if_pos he,hn,or_hidden hlo hhi]
    refine ⟨hlo,hhi,by omega,by omega,?_⟩
    have hz : (2 : ℚ)^(-(d : ℤ)-f.format.bias-f.format.fracBits)=
        2/2^(d+1)/2^(f.format.bias+f.format.fracBits) := by
      rw [sub_sub,← Nat.cast_add,zpow_sub₀ two_ne_zero,zpow_neg,zpow_natCast,zpow_natCast,pow_succ]
      field_simp
    rw [magOf,sigOf,if_pos he,he,Nat.shiftLeft_eq,hz]
    push_cast
    field_simp
    simp
  · rw [if_neg he,or_hidden_lt hfrac]
    refine ⟨Nat.le_add_right _ _,by omega,by omega,by omega,?_⟩
    have hz : (2 : ℚ)^((f.expUI a : ℤ)-f.format.bias-f.format.fracBits)=
        2^f.expUI a/2^(f.format.bias+f.format.fracBits) := by
      rw [sub_sub,← Nat.cast_add,zpow_sub₀ two_ne_zero,zpow_natCast,zpow_natCast]
    rw [magOf,sigOf,if_neg he,Nat.max_eq_left (by omega),Nat.add_comm,hz,mul_div_assoc]

/-- A significand that is jammed no deeper than its normalization reaches, rounded. -/
theorem normRoundPack_shows {mode : RoundingMode} {sign : Bool} {exp k : ℤ} {sig : ℕ} {q : ℚ}
    (hexp : -2^14 ≤ exp ∧ exp<2^14) (hk : k+f.format.fracBits+f.guardBits=exp+1-f.format.bias)
    (h0 : sig≠0) (hlt : sig<2^(f.width-1)) (hcut : SameCut (2^(k+1)) q (sig*2^k))
    (hx : q=sig*2^k ∨ 2^(f.width-3) ≤ sig) :
    f.Shows (f.normRoundPack (roundingCode mode) sign exp sig) (f.format.roundTo mode sign q) := by
  have hw := f.width_eq
  have hg := f.guardBits_ge
  have hsmall : 3 ≤ f.guardBits ∧ f.width ≤ 64 ∧ f.expMax ≤ 2047 := by cases f <;> decide
  have hl : Nat.log2 sig<f.width-1 := (Nat.log2_lt h0).mpr hlt
  obtain ⟨s,hs⟩ : ∃ s,s+Nat.log2 sig=f.width-2 := ⟨f.width-2-Nat.log2 sig,by omega⟩
  have hclz := countLeadingZeros_eq h0 (hlt.trans_le (Nat.pow_le_pow_right (by decide) (Nat.sub_le _ 1)))
  have hshift : (f.countLeadingZeros sig : ℤ)-1=s := by omega
  obtain ⟨hlo,hhi⟩ := shl_log2 h0 (show sig<2^(f.width-2+1) by rwa [show f.width-2+1=f.width-1 by omega])
  rw [show f.width-2-Nat.log2 sig=s by omega] at hlo hhi
  have hval : ((sig <<< s : ℕ) : ℚ)*2^(k-s)=sig*2^k := by
    rw [Nat.shiftLeft_eq,zpow_sub₀ two_ne_zero,zpow_natCast]
    push_cast
    field_simp
  have hexact : q=sig*2^k ∨ s ≤ 1 := by
    refine hx.imp_right fun h => ?_
    have := (Nat.le_log2 h0).mpr h
    omega
  have hcut' : SameCut (2^(k-s+f.guardBits-1)) q ((sig <<< s : ℕ)*2^(k-s)) := by
    rw [hval]
    obtain h | h := hexact
    · rw [h]
      exact SameCut.refl _ _
    · exact hcut.widen_pow (by omega)
  rw [normRoundPack]
  simp only [hshift,Int.toNat_natCast]
  split
  · rename_i h
    obtain ⟨hgs,hexp'⟩ := h
    obtain ⟨e,he⟩ := Int.eq_ofNat_of_zero_le (show 0 ≤ exp-s by omega)
    rw [he] at hexp'
    have he2 : e+2<f.expMax := by omega
    obtain ⟨c,hc⟩ := Nat.exists_eq_add_of_le (show f.guardBits ≤ s by omega)
    have hc' : ((s : ℤ)-f.guardBits).toNat=c := by omega
    have hsig : sig <<< s=sig <<< c*2^f.guardBits := by
      rw [hc,Nat.add_comm,Nat.shiftLeft_add,Nat.shiftLeft_eq]
    have hp : 2^(f.width-2)=2^f.format.fracBits*2^f.guardBits := by
      rw [← pow_add]
      congr 1
      omega
    have hclo : 2^f.format.fracBits ≤ sig <<< c := by
      rw [hsig,hp] at hlo
      exact Nat.le_of_mul_le_mul_right hlo (Nat.two_pow_pos _)
    have hchi : sig <<< c<2^(f.format.fracBits+1) := by
      rw [hsig,pow_succ,hp,Nat.mul_right_comm,← pow_succ] at hhi
      exact Nat.lt_of_mul_lt_mul_right hhi
    have hq : q=(sig <<< c : ℕ)*2^(e+1)/2^(f.format.bias+f.format.fracBits) := by
      rw [hexact.resolve_right (by omega),← hval,hsig,Nat.cast_mul,mul_assoc,mul_div_assoc]
      congr 1
      rw [Nat.cast_pow,Nat.cast_ofNat,← zpow_natCast,← zpow_natCast,← zpow_natCast,← zpow_add₀ two_ne_zero,
        ← zpow_sub₀ two_ne_zero]
      congr 1
      push_cast
      omega
    rw [hc',he,hq,BinaryFormat.roundTo_add f.expBits_ge mode sign hchi (by rw [expMax] at he2; omega)]
    exact ⟨value_pack_normal (.inr hclo) hchi.le (.inl he2),by simp [roundedFlags]⟩
  · apply roundPack_shows (k := k-s) (by omega) (by omega) hlo _ hcut'
    rwa [show f.width-1=f.width-2+1 by omega]

end Normalize
end Fmt
end OpenSBI
