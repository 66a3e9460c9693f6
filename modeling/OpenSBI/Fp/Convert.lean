import OpenSBI.Fp.Operands

namespace OpenSBI

open Math

/-- `softfloat_f32UIToCommonNaN()` and `softfloat_f64UIToCommonNaN()`. -/
def Fmt.toCommonNaN (f : Fmt) (a : BitVec f.width) : Flags :=
  if a.toNat/2^(f.format.fracBits-1)%2=0 then softfloat_flag_invalid else 0

def f32ToF64 (a : BitVec 32) : BitVec 64×Flags :=
  let sign := signF32UI a
  let exp := Fmt.S.expUI a
  let frac := Fmt.S.fracUI a
  if exp=0xFF then
    if frac≠0 then (Fmt.D.canonicalNaN,Fmt.S.toCommonNaN a) else (Fmt.D.packToUI sign 0x7FF 0,0)
  else if exp=0 ∧ frac=0 then (Fmt.D.packToUI sign 0 0,0)
  else
    let normExpSig := Fmt.S.normSubnormalSig frac
    let expFrac : ℤ×Nat := if exp=0 then (normExpSig.1-1,normExpSig.2) else (exp,frac)
    (Fmt.D.packToUI sign (expFrac.1+0x380) (expFrac.2 <<< 29),0)

def f64ToF32 (rm : BitVec 32) (a : BitVec 64) : BitVec 32×Flags :=
  let sign := signF64UI a
  let exp := Fmt.D.expUI a
  let frac := Fmt.D.fracUI a
  if exp=0x7FF then
    if frac≠0 then (Fmt.S.canonicalNaN,Fmt.D.toCommonNaN a) else (Fmt.S.packToUI sign 0xFF 0,0)
  else
    let frac32 := softfloatShortShiftRightJam64 frac 22
    if exp ||| frac32=0 then (Fmt.S.packToUI sign 0 0,0)
    else softfloatRoundPackToF32 rm sign (exp-0x381) (frac32 ||| 0x40000000)

def ui64ToF64 (rm : BitVec 32) (a : BitVec 64) : BitVec 64×Flags :=
  if a=0 then (0,0)
  else if a &&& 0x8000000000000000≠0 then
    softfloatRoundPackToF64 rm false 0x43D (softfloatShortShiftRightJam64 a.toNat 1)
  else softfloatNormRoundPackToF64 rm false 0x43C a.toNat

section Convert

variable {mode : RoundingMode}

theorem toCommonNaN_gives {f g : Fmt} {a : BitVec f.width} (h : (f.value a).IsNaN) (mode : RoundingMode) :
    g.Gives (g.canonicalNaN,f.toCommonNaN a) (g.format.convert mode (f.value a)) := by
  obtain ⟨he,hf⟩ := Fmt.isNaN_iff.mp h
  have hfb : 1 ≤ f.format.fracBits := by cases f <;> decide
  have hq : f.fracUI a<2^(f.format.fracBits-1) ↔ a.toNat/2^(f.format.fracBits-1)%2=0 := by
    have hp : 2^f.format.fracBits=2^(f.format.fracBits-1)*2 := by
      rw [← pow_succ,Nat.sub_add_cancel hfb]
    have hlt := Nat.mod_lt a.toNat (Nat.two_pow_pos (f.format.fracBits-1))
    rw [Fmt.fracUI,hp,Nat.mod_mul]
    obtain h | h := Nat.mod_two_eq_zero_or_one (a.toNat/2^(f.format.fracBits-1))
    · rw [h]
      omega
    · rw [h]
      omega
  rw [Fmt.value_fields,if_pos he,if_neg hf]
  refine ⟨g.value_canonicalNaN,?_,fun _ => rfl⟩
  simp only [Fmt.toCommonNaN,BinaryFormat.convert,outcomeFlags,FloatOutcome.ofNaN,roundedFlags,
    FloatValue.IsSignaling,hq]
  split_ifs <;> simp_all

/-- A significand with the hidden bit set over it, in the exponent before. -/
theorem packToUI_hidden {f : Fmt} (sign : Bool) (e : ℤ) (s : ℕ) :
    f.packToUI sign (e+1) s=f.packToUI sign e (2^f.format.fracBits+s) := by
  unfold Fmt.packToUI
  congr 1
  push_cast
  ring

/-- The exponent and the fraction that a number that is not zero is packed with. -/
theorem f32ToF64_finite {a : BitVec 32} (he : Fmt.S.expUI a≠0xFF) (h0 : ¬(Fmt.S.expUI a=0 ∧ Fmt.S.fracUI a=0)) :
    f32ToF64 a=(Fmt.D.packToUI a.msb ((Fmt.S.normOperand a).1+0x37F)
      (((Fmt.S.normOperand a).2 ||| 2^23) <<< 29 : ℕ),0) := by
  have hfrac : Fmt.S.fracUI a<2^23 := Fmt.fracUI_lt (f := .S) a
  have hn : Fmt.S.normOperand a=
      if Fmt.S.expUI a=0 then Fmt.S.normSubnormalSig (Fmt.S.fracUI a) else (Fmt.S.expUI a,Fmt.S.fracUI a) := rfl
  unfold f32ToF64
  simp only [if_neg he,if_neg h0,hn]
  by_cases hz : Fmt.S.expUI a=0
  · obtain ⟨d,hd,hs,hlo,hhi⟩ := Fmt.normSubnormalSig_eq (f := .S) (fun h => h0 ⟨hz,h⟩) hfrac
    have hor : Fmt.S.fracUI a <<< (d+1) ||| 2^23=Fmt.S.fracUI a <<< (d+1) := Fmt.or_hidden hlo hhi
    rw [if_pos hz,if_pos hz,hs,hor,show -(d : ℤ)-1+0x380=-(d : ℤ)+0x37F by ring]
    rfl
  · have hshl : (2^23+Fmt.S.fracUI a) <<< 29=2^52+Fmt.S.fracUI a <<< 29 := by
      rw [Nat.shiftLeft_eq,Nat.shiftLeft_eq]
      ring
    rw [if_neg hz,if_neg hz,Fmt.or_hidden_lt hfrac,hshl]
    exact congrArg (·,0) (packToUI_hidden (f := .D) a.msb ((Fmt.S.expUI a : ℤ)+0x37F) (Fmt.S.fracUI a <<< 29))

/-- A normalized significand of a narrow format is exact in a wide one. -/
theorem widened_exact {f g : Fmt} {sign : Bool} {n c d : ℕ} {e : ℤ} (hc : g.format.fracBits=f.format.fracBits+c)
    (hd : g.format.bias=f.format.bias+d) (hlo : 2^f.format.fracBits ≤ n) (hhi : n<2^(f.format.fracBits+1))
    (he : 0<e+d ∧ e+d+1<g.expMax) :
    g.value (g.packToUI sign (e+d-1) (n <<< c))=.finite sign (n*2^(e-f.format.bias-f.format.fracBits)) ∧
      g.format.roundTo mode sign (n*2^(e-f.format.bias-f.format.fracBits))=
        ⟨.finite sign (n*2^(e-f.format.bias-f.format.fracBits)),false,false,false⟩ := by
  obtain ⟨E,hE⟩ := Int.eq_ofNat_of_zero_le (show 0 ≤ e+d-1 by omega)
  have hs : n <<< c=n*2^c := Nat.shiftLeft_eq n c
  have hlo' : 2^g.format.fracBits ≤ n <<< c := by
    rw [hs,hc,pow_add]
    exact Nat.mul_le_mul_right _ hlo
  have hhi' : n <<< c<2^(g.format.fracBits+1) := by
    rw [hs,hc,Nat.add_right_comm,pow_add]
    exact Nat.mul_lt_mul_of_pos_right hhi (Nat.two_pow_pos c)
  have hval : (n : ℚ)*2^(e-f.format.bias-f.format.fracBits)=
      (n <<< c : ℕ)*2^(E+1)/2^(g.format.bias+g.format.fracBits) := by
    have hz : (2 : ℚ)^(e-f.format.bias-f.format.fracBits)=2^c*2^(E+1)/2^(g.format.bias+g.format.fracBits) := by
      rw [← zpow_natCast,← zpow_natCast,← zpow_natCast,← zpow_add₀ two_ne_zero,← zpow_sub₀ two_ne_zero]
      congr 1
      push_cast
      omega
    rw [hz,hs]
    push_cast
    ring
  rw [hE,hval]
  exact ⟨Fmt.value_pack_normal (.inr hlo') hhi'.le (.inl (by omega)),
    BinaryFormat.roundTo_add g.expBits_ge mode sign hhi' (by rw [Fmt.expMax] at he; omega)⟩

/-- Every number of the narrow format is one of the wide format. -/
theorem f32ToF64_exact (mode : RoundingMode) {a : BitVec 32} (hn : ¬(f32Value a).IsNaN) :
    f64Value (f32ToF64 a).1=f32Value a ∧ (f32ToF64 a).2=0 ∧
      binary64.convert mode (f32Value a)=.exact (f32Value a) := by
  by_cases he : Fmt.S.expUI a=0xFF
  · have hf : Fmt.S.fracUI a=0 := by
      by_contra hf
      exact hn ((Fmt.isNaN_iff (f := .S)).mpr ⟨he,hf⟩)
    unfold f32ToF64
    rw [if_pos he,if_neg (not_not.mpr hf),show f32Value a=_ from Fmt.value_inf (f := .S) he hf]
    exact ⟨Fmt.value_packInf (f := .D) _,rfl,rfl⟩
  have hv : f32Value a=_ := Fmt.value_finite (f := .S) he
  by_cases h0 : Fmt.S.expUI a=0 ∧ Fmt.S.fracUI a=0
  · unfold f32ToF64
    rw [if_neg he,if_pos h0,hv,Fmt.magOf_eq_zero.mpr h0,BinaryFormat.convert,BinaryFormat.roundTo_zero]
    exact ⟨Fmt.value_packZero (f := .D) _,rfl,rfl⟩
  obtain ⟨hlo,hhi,hA,hA',hmag⟩ := Fmt.normOperand_spec h0
  have hA'' : (Fmt.S.normOperand a).1 ≤ 255 := hA'
  obtain ⟨hval,hround⟩ := @widened_exact mode .S .D a.msb _ 29 0x380 _ rfl
    (by decide) hlo hhi ⟨by omega,show (Fmt.S.normOperand a).1+_+1<2047 by omega⟩
  rw [add_sub_assoc] at hval
  rw [f32ToF64_finite he h0,hv,hmag,BinaryFormat.convert]
  exact ⟨hval,rfl,congrArg FloatOutcome.rounded hround⟩

theorem f32ToF64_gives (mode : RoundingMode) (a : BitVec 32) :
    Fmt.D.Gives (f32ToF64 a) (binary64.convert mode (f32Value a)) := by
  by_cases hn : (f32Value a).IsNaN
  · obtain ⟨he,hf⟩ := (Fmt.isNaN_iff (f := .S)).mp hn
    unfold f32ToF64
    rw [if_pos (show Fmt.S.expUI a=0xFF from he),if_pos hf]
    exact toCommonNaN_gives (f := .S) (g := .D) hn mode
  · obtain ⟨hv,hf,hc⟩ := f32ToF64_exact mode hn
    rw [hc,show f32ToF64 a=((f32ToF64 a).1,0) from Prod.ext rfl hf]
    exact Fmt.exact_gives hv hn

/-- The fraction with the hidden bit, jammed. -/
theorem or_jam {frac : ℕ} (h : frac<2^52) :
    softfloatShortShiftRightJam64 frac 22 ||| 0x40000000=jam (2^52+frac) (2^22) := by
  have hlt : jam frac (2^22)<2^30 := jam_lt (by decide) h
  rw [shortShiftRightJam64_eq,show 2^52=2^30*2^22 by norm_num,jam_add_mul _ _ (by decide) (by decide)]
  exact Fmt.or_hidden_lt hlt

section Narrow

variable {sign : Bool} {exp frac : ℕ} {q : ℚ}

/-- A number with the hidden bit is rounded once. -/
theorem narrowed_shows (hexp : exp ≤ 2047) (hfrac : frac<2^52)
    (hq : SameCut (2^((exp : ℤ)-1047)) q ((jam (2^52+frac) (2^22) : ℕ)*2^((exp : ℤ)-1053))) :
    Fmt.S.Shows (Fmt.S.roundPack (roundingCode mode) sign (exp-0x381)
      (softfloatShortShiftRightJam64 frac 22 ||| 0x40000000)) (binary32.roundTo mode sign q) := by
  rw [or_jam hfrac]
  have hlo : 2^30 ≤ jam (2^52+frac) (2^22) :=
    ((Nat.le_div_iff_mul_le (by decide)).mpr (by omega)).trans (le_jam _ _).1
  have hhi : jam (2^52+frac) (2^22)<2^31 := jam_lt (by decide) (by omega)
  exact Fmt.roundPack_shows (f := .S) (k := (exp : ℤ)-1053) (by omega)
    (show (exp : ℤ)-1053+23+7=exp-0x381+1-127 by ring) hlo hhi
    (show SameCut (2^((exp : ℤ)-1053+7-1)) _ _ by rwa [show (exp : ℤ)-1053+7-1=exp-1047 by ring])

theorem narrow_normal (hexp : exp ≤ 2047) (hfrac : frac<2^52) :
    Fmt.S.Shows (Fmt.S.roundPack (roundingCode mode) sign (exp-0x381)
      (softfloatShortShiftRightJam64 frac 22 ||| 0x40000000))
      (binary32.roundTo mode sign ((2^52+frac : ℕ)*2^((exp : ℤ)-1075))) := by
  apply narrowed_shows hexp hfrac
  have hcut := (sameCut_jam (2^52+frac) (show 0<2^22 by decide)).scale
    (show (0 : ℚ)<2^((exp : ℤ)-1053) by positivity)
  have hval : (2 : ℚ)^((exp : ℤ)-1053)*((2^52+frac : ℕ)/(2^22 : ℕ))=(2^52+frac : ℕ)*2^((exp : ℤ)-1075) := by
    have hz : (2 : ℚ)^((exp : ℤ)-1075)=2^((exp : ℤ)-1053)/2^22 := by
      rw [show (exp : ℤ)-1075=exp-1053-(22 : ℕ) by push_cast; ring,zpow_sub₀ two_ne_zero ((exp : ℤ)-1053),
        zpow_natCast]
    rw [hz,Nat.cast_pow,Nat.cast_ofNat,mul_div_left_comm]
  rw [hval,← zpow_add_one₀ two_ne_zero,mul_comm _ ((jam (2^52+frac) (2^22) : ℕ) : ℚ)] at hcut
  exact hcut.widen_pow (by omega)

/-- The hidden bit that a subnormal number gets here does not show. -/
theorem narrow_subnormal (hfrac : frac<2^52) (h0 : frac≠0) :
    Fmt.S.Shows (Fmt.S.roundPack (roundingCode mode) sign ((0 : ℕ)-0x381)
      (softfloatShortShiftRightJam64 frac 22 ||| 0x40000000))
      (binary32.roundTo mode sign (frac*2/2^1075)) := by
  have hsmall : ∀ {q : ℚ},0<q → q<2^(-1000 : ℤ) → 0<q ∧ q<2^(-binary32.bias-binary32.fracBits : ℤ) := by
    intro q h h'
    refine ⟨h,h'.trans (zpow_lt_zpow_right₀ (by norm_num) ?_)⟩
    decide
  have hjam : jam (2^52+frac) (2^22)<2^31 := jam_lt (by decide) (by omega)
  have hjam0 : 0<jam (2^52+frac) (2^22) := Nat.pos_of_ne_zero (mt jam_eq_zero.mp (by omega))
  have hq : (frac : ℚ)*2/2^1075<2^(-1000 : ℤ) := by
    calc (frac : ℚ)*2/2^1075<2^52*2/2^1075 := by
          gcongr
          exact_mod_cast hfrac
      _=2^((52 : ℕ)+1-(1075 : ℕ) : ℤ) := by
        rw [zpow_sub₀ two_ne_zero,zpow_add_one₀ two_ne_zero,zpow_natCast,zpow_natCast]
      _<2^(-1000 : ℤ) := zpow_lt_zpow_right₀ (by norm_num) (by norm_num)
  have hq' : ((jam (2^52+frac) (2^22) : ℕ) : ℚ)*2^(((0 : ℕ) : ℤ)-1053)<2^(-1000 : ℤ) := by
    calc ((jam (2^52+frac) (2^22) : ℕ) : ℚ)*2^(((0 : ℕ) : ℤ)-1053)<2^31*2^(((0 : ℕ) : ℤ)-1053) := by
          gcongr
          exact_mod_cast hjam
      _=2^((31 : ℕ)+(((0 : ℕ) : ℤ)-1053)) := by rw [zpow_add₀ two_ne_zero,zpow_natCast]
      _<2^(-1000 : ℤ) := zpow_lt_zpow_right₀ (by norm_num) (by norm_num)
  rw [BinaryFormat.roundTo_between (by decide) sign (hsmall (by positivity) hq) (hsmall (by positivity) hq')]
  exact narrowed_shows (Nat.zero_le _) hfrac (SameCut.refl _ _)

theorem narrow_gives (hexp : exp ≤ 2047) (hfrac : frac<2^52) :
    Fmt.S.Gives (if exp ||| softfloatShortShiftRightJam64 frac 22=0 then (Fmt.S.packToUI sign 0 0,0)
      else Fmt.S.roundPack (roundingCode mode) sign (exp-0x381)
        (softfloatShortShiftRightJam64 frac 22 ||| 0x40000000))
      (.rounded (binary32.roundTo mode sign ((frac+if exp=0 then 0 else 2^52 : ℕ)*2^max exp 1/
        2^(Fmt.D.format.bias+Fmt.D.format.fracBits)))) := by
  rw [show Fmt.D.format.bias+Fmt.D.format.fracBits=1075 by decide]
  have hjam : exp ||| softfloatShortShiftRightJam64 frac 22=0 ↔ exp=0 ∧ frac=0 := by
    rw [Nat.or_eq_zero_iff,shortShiftRightJam64_eq,jam_eq_zero]
  by_cases h0 : exp=0 ∧ frac=0
  · rw [if_pos (hjam.mpr h0),if_pos h0.1,h0.2,Nat.cast_zero,zero_mul,zero_div,BinaryFormat.roundTo_zero]
    exact Fmt.exact_gives (Fmt.value_packZero _) (by simp [FloatValue.IsNaN])
  rw [if_neg (mt hjam.mp h0)]
  apply Fmt.Shows.gives
  obtain rfl | hz := Nat.eq_zero_or_pos exp
  · have h := @narrow_subnormal mode sign _ hfrac (fun h => h0 ⟨rfl,h⟩)
    rwa [if_pos rfl,Nat.add_zero,Nat.zero_max,pow_one]
  · have h := @narrow_normal mode sign _ _ hexp hfrac
    rw [if_neg hz.ne',Nat.max_eq_left hz,Nat.add_comm,mul_div_assoc]
    rwa [show (exp : ℤ)-1075=exp-(1075 : ℕ) from rfl,zpow_sub₀ two_ne_zero,zpow_natCast,zpow_natCast] at h

end Narrow

theorem f64ToF32_gives (mode : RoundingMode) (a : BitVec 64) :
    Fmt.S.Gives (f64ToF32 (roundingCode mode) a) (binary32.convert mode (f64Value a)) := by
  unfold f64ToF32
  dsimp only
  by_cases he : Fmt.D.expUI a=0x7FF
  · rw [if_pos he]
    by_cases hf : Fmt.D.fracUI a=0
    · rw [if_neg (not_not.mpr hf),show f64Value a=_ from Fmt.value_inf (f := .D) he hf]
      exact Fmt.exact_gives (Fmt.value_packInf _) (by simp [FloatValue.IsNaN])
    · rw [if_pos hf]
      exact toCommonNaN_gives (f := .D) (g := .S) (Fmt.isNaN_iff.mpr ⟨he,hf⟩) mode
  rw [if_neg he,show f64Value a=_ from Fmt.value_finite (f := .D) he]
  exact narrow_gives (Fmt.expUI_le (f := .D) a) (Fmt.fracUI_lt (f := .D) a)

theorem ui64ToF64_shows (mode : RoundingMode) (a : BitVec 64) :
    Fmt.D.Shows (ui64ToF64 (roundingCode mode) a) (binary64.roundTo mode false a.toNat) := by
  have ha := a.isLt
  have hmsb : a &&& 0x8000000000000000=0 ↔ a.toNat<2^63 := by
    have hmsb : a.msb=a.getLsbD 63 := BitVec.msb_eq_getLsbD_last a
    rw [show (0x8000000000000000 : BitVec 64)=BitVec.twoPow 64 63 by decide,BitVec.and_twoPow,← hmsb,
      BitVec.msb_eq_decide]
    split
    · rename_i h
      exact iff_of_false (by decide) (not_lt.mpr (of_decide_eq_true h))
    · rename_i h
      exact iff_of_true rfl (not_le.mp (fun hc => h (decide_eq_true hc)))
  rw [ui64ToF64]
  by_cases h0 : a=0
  · rw [if_pos h0,h0,show ((0 : BitVec 64).toNat : ℚ)=0 from Nat.cast_zero,BinaryFormat.roundTo_zero]
    exact ⟨Fmt.value_packZero (f := .D) false,by simp [roundedFlags]⟩
  have hne : a.toNat≠0 := fun h => h0 (BitVec.eq_of_toNat_eq h)
  rw [if_neg h0]
  by_cases hm : a.toNat<2^63
  · rw [if_neg (not_not.mpr (hmsb.mpr hm))]
    exact Fmt.normRoundPack_shows (f := .D) (k := 0) (by omega) (by decide) hne hm
      (by rw [zpow_zero,mul_one]; exact SameCut.refl _ _) (.inl (by simp))
  · have hcut := (sameCut_jam a.toNat (show 0<2 by decide)).scale (show (0 : ℚ)<2^(1 : ℤ) by norm_num)
    rw [← zpow_add_one₀ two_ne_zero,mul_comm _ ((jam a.toNat 2 : ℕ) : ℚ),zpow_one,
      show (2 : ℚ)*(a.toNat/(2 : ℕ))=a.toNat by push_cast; ring] at hcut
    rw [if_pos (fun h => hm (hmsb.mp h)),shortShiftRightJam64_eq]
    have hlo : 2^62 ≤ jam a.toNat (2^1) := ((Nat.le_div_iff_mul_le (by decide)).mpr (by omega)).trans (le_jam _ _).1
    exact Fmt.roundPack_shows (f := .D) (k := 1) (by omega) (by decide) hlo
      (jam_lt (by decide) ha) (by rw [zpow_one]; exact hcut.widen_pow (by decide))

/-- The three conversions that give a number are those of the standard, in every rounding mode. -/
theorem conversion_standard (mode : RoundingMode) :
    (∀ a,Fmt.S.Gives (f64ToF32 (roundingCode mode) a) (binary32.convert mode (f64Value a))) ∧
      (∀ a,Fmt.D.Gives (f32ToF64 a) (binary64.convert mode (f32Value a))) ∧
        ∀ a,Fmt.D.Shows (ui64ToF64 (roundingCode mode) a) (binary64.roundTo mode false a.toNat) :=
  ⟨f64ToF32_gives mode,f32ToF64_gives mode,ui64ToF64_shows mode⟩

end Convert
end OpenSBI
