import OpenSBI.Fp.ToInteger
import OpenSBI.Fp.FromInteger

namespace OpenSBI

open Math

variable {mode : RoundingMode}

/-- The mode that a code of softfloat stands for. -/
def modeOf (rm : BitVec 32) : RoundingMode :=
  if rm=0 then .rne else if rm=1 then .rtz else if rm=2 then .rdn else if rm=3 then .rup else .rmm

theorem modeOf_roundingCode (mode : RoundingMode) : modeOf (roundingCode mode)=mode := by
  cases mode <;> decide

/-- A sign over the bits of a magnitude. -/
def signBits (w : Nat) (negative : Bool) (m : Nat) : BitVec w :=
  BitVec.ofNat w ((if negative then 2^(w-1) else 0)+m)

theorem signBits_fields {w m : Nat} (hw : 0<w) (negative : Bool) (h : m<2^(w-1)) :
    (signBits w negative m).msb=negative ∧ (signBits w negative m).toNat%2^(w-1)=m := by
  have hp : 2^w=2*2^(w-1) := by rw [← pow_succ',Nat.sub_add_cancel hw]
  have ht : (signBits w negative m).toNat=(if negative then 2^(w-1) else 0)+m := by
    rw [signBits,BitVec.toNat_ofNat,Nat.mod_eq_of_lt]
    split <;> omega
  constructor
  · rw [BitVec.msb_eq_decide,ht]
    cases negative with
    | false => exact decide_eq_false (by simp only [Bool.false_eq_true,if_false]; omega)
    | true => exact decide_eq_true (by simp only [if_true]; omega)
  · rw [ht]
    cases negative with
    | false => rw [if_neg (by decide),Nat.zero_add,Nat.mod_eq_of_lt h]
    | true => rw [if_pos rfl,Nat.add_mod_left,Nat.mod_eq_of_lt h]

theorem value_signBits (f : Fmt) (negative : Bool) {m : Nat} (h : m<2^(f.width-1)) :
    f.value (signBits f.width negative m)=f.format.value negative m := by
  cases f with
  | S =>
    obtain ⟨hm,ht⟩ := signBits_fields (w := 32) (by decide) negative h
    show binary32.value (signBits 32 negative m).msb ((signBits 32 negative m).toNat%2^31)=_
    rw [hm,ht]
    rfl
  | D =>
    obtain ⟨hm,ht⟩ := signBits_fields (w := 64) (by decide) negative h
    show binary64.value (signBits 64 negative m).msb ((signBits 64 negative m).toNat%2^63)=_
    rw [hm,ht]
    rfl

/-- An integer in the format is read back. -/
theorem value_pack (f : Fmt) {n : Nat} (hr : f.format.Represents n) (hn : n ≤ 2^65) (negative : Bool) :
    f.value (signBits f.width negative (f.format.pack n 0))=.finite negative n := by
  have hl : Nat.log2 n<66 := by
    obtain rfl | h0 := Nat.eq_zero_or_pos n
    · decide
    · exact (Nat.log2_lt h0.ne').mpr (by omega)
  have hb : 127 ≤ f.format.bias := by cases f <;> decide
  have he : 2 ≤ f.format.expBits := by cases f <;> decide
  have hw : f.width-1=f.format.expBits+f.format.fracBits := by cases f <;> rfl
  have hp := f.format.pack_lt (k := 0) hr (by omega) (by omega) he
  rw [value_signBits f negative (by rw [hw]; exact hp),
    f.format.value_pack negative hr (by omega) (by omega) he,pow_zero,div_one]

/-- The magnitude of a single in units of its smallest number. -/
def singleUnits (a : BitVec 32) : Nat :=
  binary32.significand (a.toNat%2^31)*2^max (binary32.expField (a.toNat%2^31)) 1

/-- The conversions as the specification has them, on what the emulator converts. -/
def Softfloat.reference : Softfloat :=
  { Softfloat.zeros with
    f32ToF64 := fun a => match f32Value a with
      | .nan _ signaling => (0x7ff8000000000000,if signaling then softfloat_flag_invalid else 0)
      | .inf negative => (signBits 64 negative 0x7ff0000000000000,0)
      | .finite negative _ => (signBits 64 negative (binary64.pack (singleUnits a) 150),0)
    f64ToUi64 := fun rm a =>
      let r := toInteger (modeOf rm) 3 (f64Value a)
      (BitVec.ofInt 64 r.1,r.2)
    ui64ToF64 := fun rm a =>
      let n := binary64.roundNat (modeOf rm) a.toNat
      (signBits 64 false (binary64.pack n 0),if n=a.toNat then 0 else softfloat_flag_inexact)
    f64ToF32 := fun rm a => match f64Value a with
      | .finite negative q =>
        let n := binary32.roundNat ((modeOf rm).signed negative) q.num.natAbs
        (signBits 32 negative (binary32.pack n 0),if n=q.num.natAbs then 0 else softfloat_flag_inexact)
      | _ => (0,0) }

section Reference

/-- A single fits a double. -/
theorem f64Value_singleUnits (a : BitVec 32) (negative : Bool) :
    f64Value (signBits 64 negative (binary64.pack (singleUnits a) 150))=
      .finite negative (binary32.magnitude (a.toNat%2^31)) := by
  have hs := binary32.significand_lt (a.toNat%2^31)
  have he : max (binary32.expField (a.toNat%2^31)) 1 ≤ 255 := by
    have hd : (a.toNat%2^31)/2^23<2^8 := by
      rw [Nat.div_lt_iff_lt_mul (by decide)]
      exact Nat.mod_lt _ (by decide)
    simp only [BinaryFormat.expField,binary32]
    omega
  have hr : binary64.Represents (singleUnits a) :=
    BinaryFormat.represents_of_mul (hs.le.trans (by decide)) _
  have hl : Nat.log2 (singleUnits a)<280 := by
    obtain h0 | h0 := Nat.eq_zero_or_pos (binary32.significand (a.toNat%2^31))
    · rw [singleUnits,h0,Nat.zero_mul]
      decide
    · have hlt : Nat.log2 (binary32.significand (a.toNat%2^31))<24 := (Nat.log2_lt h0.ne').mpr hs
      rw [singleUnits,BinaryFormat.log2_mul_pow h0.ne']
      omega
  have hb : binary64.bias=1023 := by decide
  have hp := binary64.pack_lt (k := 150) hr (by omega) (by omega) (by decide)
  refine (value_signBits .D negative hp).trans ?_
  show binary64.value negative _=_
  rw [binary64.value_pack negative hr (by omega) (by omega) (by decide)]
  have hq : binary32.bias+binary32.fracBits=150 := by decide
  rw [BinaryFormat.magnitude,hq,singleUnits]
  push_cast
  rfl

theorem reference_toIntegers : Softfloat.reference.ToIntegersCorrect where
  widenNaN := by
    intro a negative signaling h
    simp only [Softfloat.reference,h]
  widen := by
    intro a h
    obtain ⟨signaling,hv⟩ | hv | hv := binary32.value_cases a.msb (a.toNat%2^31)
    · exact absurd hv (h _ _)
    · have hv' : f32Value a=.inf a.msb := hv
      simp only [Softfloat.reference,hv',and_true]
      refine (value_signBits .D a.msb (by decide)).trans ?_
      show binary64.value a.msb 0x7ff0000000000000=_
      cases a.msb <;> decide
    · have hv' : f32Value a=.finite a.msb (binary32.magnitude (a.toNat%2^31)) := hv
      simp only [Softfloat.reference,hv',and_true]
      exact f64Value_singleUnits a a.msb
  toUi64 := by
    intro mode a h
    simp only [Softfloat.reference,modeOf_roundingCode]

theorem reference_fromIntegers : Softfloat.reference.FromIntegersCorrect where
  ofUi64 := by
    intro mode a
    have hr : binary64.roundInt mode (a.toNat : ℤ)=binary64.roundNat mode a.toNat :=
      binary64.roundInt_natCast mode a.toNat
    have hneg : decide ((a.toNat : ℤ)<0)=false := decide_eq_false (by omega)
    have hle : binary64.roundNat mode a.toNat ≤ 2^65 :=
      BinaryFormat.roundNat_le_pow (a.isLt.trans (by decide))
    simp only [Softfloat.reference,modeOf_roundingCode,fromInteger,Fmt.format,hr,hneg,Int.natAbs_natCast,
      Int.natCast_inj,and_true]
    exact value_pack .D (BinaryFormat.represents_roundNat a.toNat) hle false
  narrow := by
    intro mode a negative m h hm
    have hn : ((m : ℕ) : ℚ).num.natAbs=m := by simp
    simp only [Softfloat.reference,modeOf_roundingCode,h,hn,and_true]
    exact value_pack .S (BinaryFormat.represents_roundNat m)
      (BinaryFormat.roundNat_le_pow (hm.trans_lt (by decide))) negative

end Reference
end OpenSBI
