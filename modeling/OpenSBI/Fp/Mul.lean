import OpenSBI.Fp.MultiWord
import OpenSBI.Fp.Operands

namespace OpenSBI

open Math

namespace Fmt

/-- The word above the significands' product, with a sticky bit for the rest. -/
def mulSig : Fmt → Nat → Nat → Nat
  | .S,sigA,sigB => softfloatShortShiftRightJam64 (sigA*sigB) 32
  | .D,sigA,sigB =>
    let sig128Z := softfloatMul64To128M (BitVec.ofNat 64 sigA) (BitVec.ofNat 64 sigB)
    let sigZ := (sig128Z.getD 3 0).toNat <<< 32 ||| (sig128Z.getD 2 0).toNat
    if sig128Z.getD 1 0≠0 ∨ sig128Z.getD 0 0≠0 then sigZ ||| 1 else sigZ

/-- The label `infArg` of `f32_mul()` and `f64_mul()`. -/
def mulInf (f : Fmt) (signZ : Bool) (magBits : Nat) : BitVec f.width×Flags :=
  if magBits=0 then (f.canonicalNaN,softfloat_flag_invalid) else (f.packToUI signZ f.expMax 0,0)

/-- The body shared by `f32_mul()` and `f64_mul()`. -/
def mulUI (f : Fmt) (rm : BitVec 32) (uiA uiB : BitVec f.width) : BitVec f.width×Flags :=
  let expA := f.expUI uiA
  let sigA := f.fracUI uiA
  let expB := f.expUI uiB
  let sigB := f.fracUI uiB
  let signZ := uiA.msb ^^ uiB.msb
  if expA=f.expMax then
    if sigA≠0 ∨ expB=f.expMax ∧ sigB≠0 then f.propagateNaN uiA uiB else f.mulInf signZ (expB ||| sigB)
  else if expB=f.expMax then
    if sigB≠0 then f.propagateNaN uiA uiB else f.mulInf signZ (expA ||| sigA)
  else if expA=0 ∧ sigA=0 then (f.packToUI signZ 0 0,0)
  else if expB=0 ∧ sigB=0 then (f.packToUI signZ 0 0,0)
  else
    let normA := f.normOperand uiA
    let normB := f.normOperand uiB
    let expZ := normA.1+normB.1-f.format.bias
    let sigA := (normA.2 ||| 2^f.format.fracBits) <<< f.guardBits
    let sigB := (normB.2 ||| 2^f.format.fracBits) <<< (f.guardBits+1)
    let sigZ := f.mulSig sigA sigB
    if sigZ<2^(f.width-2) then f.roundPack rm signZ (expZ-1) (sigZ <<< 1) else f.roundPack rm signZ expZ sigZ

theorem mulSig_eq {f : Fmt} {a b : ℕ} (ha : a<2^f.width) (hb : b<2^f.width) :
    f.mulSig a b=jam (a*b) (2^f.width) := by
  cases f with
  | S => exact shortShiftRightJam64_eq _ _
  | D =>
    have hw := mul64To128_words (BitVec.ofNat 64 a) (BitVec.ofNat 64 b)
    rw [BitVec.toNat_ofNat,BitVec.toNat_ofNat,Nat.mod_eq_of_lt (show a<2^64 from ha),
      Nat.mod_eq_of_lt (show b<2^64 from hb)] at hw
    obtain ⟨w0,w1,w2,w3,hz⟩ : ∃ w0 w1 w2 w3,
        softfloatMul64To128M (BitVec.ofNat 64 a) (BitVec.ofNat 64 b)=[w0,w1,w2,w3] := ⟨_,_,_,_,rfl⟩
    have h0 := w0.isLt
    have h1 := w1.isLt
    have h2 := w2.isLt
    have hor : w3.toNat <<< 32 ||| w2.toNat=w3.toNat*2^32+w2.toNat := by
      rw [Nat.shiftLeft_eq,Nat.mul_comm]
      exact (Nat.two_pow_add_eq_or_of_lt h2 _).symm
    rw [hz] at hw
    simp only [ofWords] at hw
    have hdiv : a*b/2^64=w3.toNat*2^32+w2.toNat := by omega
    have hmod : a*b%2^64=0 ↔ w1=0 ∧ w0=0 := by
      have hzero : ∀ w : BitVec 32,w=0 ↔ w.toNat=0 := fun _ => BitVec.toNat_eq
      rw [hzero,hzero]
      omega
    rw [mulSig,hz]
    simp only [List.getD_cons_zero,List.getD_cons_succ,hor]
    rw [jam,width,hdiv]
    by_cases h : w1=0 ∧ w0=0
    · rw [if_pos (hmod.mpr h),if_neg (by tauto),Nat.or_zero]
    · rw [if_neg (mt hmod.mp h),if_pos (by tauto)]

section Mul

variable {f : Fmt} {a b : BitVec f.width} {mode : RoundingMode}

theorem mul_ofNaN (F : BinaryFormat) {v w : FloatValue} (h : v.IsNaN ∨ w.IsNaN) : F.mul mode v w=.ofNaN v w := by
  cases v <;> cases w <;> simp_all [FloatValue.IsNaN,BinaryFormat.mul]

theorem propagateNaN_mul (h : (f.value a).IsNaN ∨ (f.value b).IsNaN) :
    f.Gives (f.propagateNaN a b) (f.format.mul mode (f.value a) (f.value b)) := by
  rw [mul_ofNaN _ h]
  exact propagateNaN_gives a b

theorem mulInf_gives (sign : Bool) (e s : ℕ) :
    f.Gives (f.mulInf sign (e ||| s)) (if e=0 ∧ s=0 then .invalidOperation else .exact (.inf sign)) := by
  rw [mulInf]
  simp only [Nat.or_eq_zero_iff]
  split
  · exact invalid_gives f
  · exact exact_gives (value_packInf sign) (by simp [FloatValue.IsNaN])

/-- The product of the significands, on the scale on which it is rounded. -/
theorem mulSig_shows {sign : Bool} {eA eB : ℤ} {m n : ℕ} (hA : -52 < eA ∧ eA ≤ f.expMax)
    (hB : -52 < eB ∧ eB ≤ f.expMax) (hm : 2^f.format.fracBits ≤ m) (hm' : m<2^(f.format.fracBits+1))
    (hn : 2^f.format.fracBits ≤ n) (hn' : n<2^(f.format.fracBits+1)) :
    f.Shows (if f.mulSig (m <<< f.guardBits) (n <<< (f.guardBits+1))<2^(f.width-2) then
        f.roundPack (roundingCode mode) sign (eA+eB-f.format.bias-1)
          (f.mulSig (m <<< f.guardBits) (n <<< (f.guardBits+1)) <<< 1)
      else f.roundPack (roundingCode mode) sign (eA+eB-f.format.bias)
        (f.mulSig (m <<< f.guardBits) (n <<< (f.guardBits+1))))
      (f.format.roundTo mode sign (m*2^(eA-f.format.bias-f.format.fracBits)*
        (n*2^(eB-f.format.bias-f.format.fracBits)))) := by
  have hw := f.width_eq
  obtain ⟨hg3,hw64,hmax,hbias⟩ : 3 ≤ f.guardBits ∧ f.width ≤ 64 ∧ f.expMax ≤ 2047 ∧ f.format.bias ≤ 1023 := by
    cases f <;> decide
  obtain ⟨p,hp⟩ : ∃ p,m <<< f.guardBits*n <<< (f.guardBits+1)=p := ⟨_,rfl⟩
  have hpmn : p=m*n*2^(2*f.guardBits+1) := by
    rw [← hp,Nat.shiftLeft_eq,Nat.shiftLeft_eq,two_mul,add_assoc,pow_add]
    ring
  have hlo : 2^(f.width-3)*2^f.width ≤ p := by
    rw [hpmn,← pow_add,show f.width-3+f.width=f.format.fracBits+f.format.fracBits+(2*f.guardBits+1) by omega,
      pow_add,pow_add]
    exact Nat.mul_le_mul_right _ (Nat.mul_le_mul hm hn)
  have hhi : p<2^(f.width-1+f.width) := by
    rw [hpmn,show f.width-1+f.width=f.format.fracBits+1+(f.format.fracBits+1)+(2*f.guardBits+1) by omega,
      pow_add _ (f.format.fracBits+1+(f.format.fracBits+1)),pow_add _ (f.format.fracBits+1)]
    exact Nat.mul_lt_mul_of_pos_right (Nat.mul_lt_mul'' hm' hn') (Nat.two_pow_pos _)
  rw [mulSig_eq (by
      rw [Nat.shiftLeft_eq]
      calc m*2^f.guardBits<2^(f.format.fracBits+1)*2^f.guardBits :=
            Nat.mul_lt_mul_of_pos_right hm' (Nat.two_pow_pos _)
        _ ≤ 2^f.width := by
          rw [← pow_add]
          exact Nat.pow_le_pow_right (by decide) (by omega)) (by
      rw [Nat.shiftLeft_eq]
      calc n*2^(f.guardBits+1)<2^(f.format.fracBits+1)*2^(f.guardBits+1) :=
            Nat.mul_lt_mul_of_pos_right hn' (Nat.two_pow_pos _)
        _=2^f.width := by
          rw [← pow_add]
          congr 1
          omega),hp]
  have hjlo : 2^(f.width-3) ≤ jam p (2^f.width) :=
    ((Nat.le_div_iff_mul_le (Nat.two_pow_pos _)).mpr hlo).trans (le_jam _ _).1
  have hjhi : jam p (2^f.width)<2^(f.width-1) := jam_lt (by omega) hhi
  have hq : (m : ℚ)*2^(eA-f.format.bias-f.format.fracBits)*(n*2^(eB-f.format.bias-f.format.fracBits))=
      2^(eA+eB+1-f.guardBits-2*f.format.bias-f.format.fracBits)*(p/(2^f.width : ℕ)) := by
    have hz : (2 : ℚ)^(eA+eB+1-f.guardBits-2*f.format.bias-f.format.fracBits)*2^(2*f.guardBits+1)/2^f.width=
        2^(eA-f.format.bias-f.format.fracBits)*2^(eB-f.format.bias-f.format.fracBits) := by
      rw [← zpow_natCast,← zpow_natCast,← zpow_add₀ two_ne_zero,← zpow_sub₀ two_ne_zero,← zpow_add₀ two_ne_zero]
      congr 1
      push_cast
      omega
    rw [hpmn]
    push_cast
    rw [mul_mul_mul_comm,← hz]
    ring
  have hcut := (sameCut_jam p (Nat.two_pow_pos f.width)).scale
    (show (0 : ℚ)<2^(eA+eB+1-f.guardBits-2*f.format.bias-f.format.fracBits) by positivity)
  rw [← hq,← zpow_add_one₀ two_ne_zero,mul_comm _ ((jam p (2^f.width) : ℕ) : ℚ)] at hcut
  exact roundPack_below_shows (by omega) (by omega) hjlo hjhi hcut

theorem mulUI_gives : f.Gives (f.mulUI (roundingCode mode) a b) (f.format.mul mode (f.value a) (f.value b)) := by
  have hpos := f.expMax_gt
  unfold mulUI
  dsimp only
  by_cases ha : f.expUI a=f.expMax
  · rw [if_pos ha]
    by_cases hz : f.fracUI a=0
    · rw [value_inf ha hz]
      by_cases hb : f.expUI b=f.expMax
      · by_cases hzb : f.fracUI b=0
        · rw [if_neg (by tauto),value_inf hb hzb,BinaryFormat.mul]
          have h := mulInf_gives (f := f) (a.msb ^^ b.msb) (f.expUI b) (f.fracUI b)
          rwa [if_neg (by omega)] at h
        · rw [if_pos (.inr ⟨hb,hzb⟩),← value_inf ha hz]
          exact propagateNaN_mul (.inr (isNaN_iff.mpr ⟨hb,hzb⟩))
      · rw [if_neg (by tauto),value_finite hb,BinaryFormat.mul]
        simp only [magOf_eq_zero]
        exact mulInf_gives _ _ _
    · rw [if_pos (.inl hz)]
      exact propagateNaN_mul (.inl (isNaN_iff.mpr ⟨ha,hz⟩))
  rw [if_neg ha]
  by_cases hb : f.expUI b=f.expMax
  · rw [if_pos hb]
    by_cases hzb : f.fracUI b=0
    · rw [if_neg (not_not.mpr hzb),value_inf hb hzb,value_finite ha,BinaryFormat.mul]
      simp only [magOf_eq_zero]
      exact mulInf_gives _ _ _
    · rw [if_pos hzb]
      exact propagateNaN_mul (.inr (isNaN_iff.mpr ⟨hb,hzb⟩))
  rw [if_neg hb,value_finite ha,value_finite hb,BinaryFormat.mul]
  by_cases h0 : f.expUI a=0 ∧ f.fracUI a=0
  · rw [if_pos h0,magOf_eq_zero.mpr h0,zero_mul,BinaryFormat.roundTo_zero]
    exact exact_gives (value_packZero _) (by simp [FloatValue.IsNaN])
  by_cases h0' : f.expUI b=0 ∧ f.fracUI b=0
  · rw [if_neg h0,if_pos h0',magOf_eq_zero.mpr h0',mul_zero,BinaryFormat.roundTo_zero]
    exact exact_gives (value_packZero _) (by simp [FloatValue.IsNaN])
  obtain ⟨hm,hm',hA,hA',hvA⟩ := normOperand_spec h0
  obtain ⟨hn,hn',hB,hB',hvB⟩ := normOperand_spec h0'
  rw [if_neg h0,if_neg h0',hvA,hvB]
  exact (mulSig_shows ⟨hA,hA'⟩ ⟨hB,hB'⟩ hm hm' hn hn').gives

end Mul
end Fmt

def f32Mul : BitVec 32 → BitVec 32 → BitVec 32 → BitVec 32×Flags := Fmt.S.mulUI
def f64Mul : BitVec 32 → BitVec 64 → BitVec 64 → BitVec 64×Flags := Fmt.D.mulUI

theorem f32Mul_gives (mode : RoundingMode) (a b : BitVec 32) :
    Fmt.S.Gives (f32Mul (roundingCode mode) a b) (binary32.mul mode (f32Value a) (f32Value b)) :=
  Fmt.mulUI_gives (f := .S)

theorem f64Mul_gives (mode : RoundingMode) (a b : BitVec 64) :
    Fmt.D.Gives (f64Mul (roundingCode mode) a b) (binary64.mul mode (f64Value a) (f64Value b)) :=
  Fmt.mulUI_gives (f := .D)

/-- `f32_mul()` and `f64_mul()` are the multiplication of the standard, in every rounding mode. -/
theorem multiplication_standard (mode : RoundingMode) :
    (∀ a b,Fmt.S.Gives (f32Mul (roundingCode mode) a b) (binary32.mul mode (f32Value a) (f32Value b))) ∧
      ∀ a b,Fmt.D.Gives (f64Mul (roundingCode mode) a b) (binary64.mul mode (f64Value a) (f64Value b)) :=
  ⟨f32Mul_gives mode,f64Mul_gives mode⟩

end OpenSBI
