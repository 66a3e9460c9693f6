import OpenSBI.Fp.Reference
import OpenSBI.Math.FloatRounding

namespace OpenSBI

open Math

def softfloat_flag_underflow : Flags := 2
def softfloat_flag_overflow : Flags := 4
def softfloat_flag_infinite : Flags := 8

def softfloat_round_near_even : BitVec 32 := 0
def softfloat_round_minMag : BitVec 32 := 1
def softfloat_round_min : BitVec 32 := 2
def softfloat_round_max : BitVec 32 := 3
def softfloat_round_near_maxMag : BitVec 32 := 4

/-- `softfloat_shiftRightJam32()` and `softfloat_shiftRightJam64()`, by the width of a word. -/
def shiftRightJam (w a dist : Nat) : Nat :=
  if dist<w-1 then a >>> dist ||| (if a <<< ((w-dist%w)%w)%2^w≠0 then 1 else 0)
  else if a≠0 then 1 else 0

def softfloatShiftRightJam32 : Nat → Nat → Nat := shiftRightJam 32
def softfloatShiftRightJam64 : Nat → Nat → Nat := shiftRightJam 64

def softfloatShortShiftRightJam64 (a dist : Nat) : Nat :=
  a >>> dist ||| (if a &&& (1 <<< dist-1)≠0 then 1 else 0)

/-- The table `softfloat_countLeadingZeros8`. -/
def softfloatCountLeadingZeros8 : List Nat :=
  [8,7] ++ List.replicate 2 6 ++ List.replicate 4 5 ++ List.replicate 8 4 ++ List.replicate 16 3 ++
    List.replicate 32 2 ++ List.replicate 64 1 ++ List.replicate 128 0

def softfloatCountLeadingZeros32 (a : Nat) : Nat :=
  let r := if a<0x10000 then (16,a <<< 16) else (0,a)
  let r := if r.2<0x1000000 then (r.1+8,r.2 <<< 8) else r
  r.1+softfloatCountLeadingZeros8.getD (r.2 >>> 24) 0

def softfloatCountLeadingZeros64 (a : Nat) : Nat :=
  if a >>> 32=0 then 32+softfloatCountLeadingZeros32 (a%2^32) else softfloatCountLeadingZeros32 (a >>> 32)

def signF32UI (a : BitVec 32) : Bool := a.msb
def signF64UI (a : BitVec 64) : Bool := a.msb

namespace Fmt

/-- The bits of a significand below those of the format, when its leading one is two below the top. -/
def guardBits : Fmt → Nat
  | .S => 7
  | .D => 10

def expUI (f : Fmt) (a : BitVec f.width) : Nat := a.toNat/2^f.format.fracBits%2^f.format.expBits
def fracUI (f : Fmt) (a : BitVec f.width) : Nat := a.toNat%2^f.format.fracBits

/-- `0xFF` and `0x7FF`. -/
def expMax (f : Fmt) : Nat := 2^f.format.expBits-1

/-- `packToF32UI()` and `packToF64UI()`. -/
def packToUI (f : Fmt) (sign : Bool) (exp : ℤ) (sig : Nat) : BitVec f.width :=
  BitVec.ofInt f.width ((if sign then 2^(f.width-1) else 0)+exp*2^f.format.fracBits+sig)

/-- The type that `exp` is compared in, `unsigned int` and `uint16_t`. -/
def expCast : Fmt → ℤ → ℤ
  | .S,exp => exp%2^32
  | .D,exp => exp%2^16

/-- `0x40`, `0x7F` or zero, in double precision `0x200`, `0x3FF` or zero. -/
def roundIncrement (f : Fmt) (rm : BitVec 32) (sign : Bool) : Nat :=
  if rm≠softfloat_round_near_even ∧ rm≠softfloat_round_near_maxMag then
    if rm=(if sign then softfloat_round_min else softfloat_round_max) then 2^f.guardBits-1 else 0
  else 2^(f.guardBits-1)

/-- The end of `softfloat_roundPackToF32()` and `softfloat_roundPackToF64()`. -/
def roundPackEnd (f : Fmt) (rm : BitVec 32) (sign : Bool) (exp : ℤ) (sig : Nat) (flags : Flags) :
    BitVec f.width×Flags :=
  let roundBits := sig%2^f.guardBits
  let sig := (sig+f.roundIncrement rm sign) >>> f.guardBits
  let flags := if roundBits≠0 then flags ||| softfloat_flag_inexact else flags
  let sig := if roundBits=2^(f.guardBits-1) ∧ rm=softfloat_round_near_even then sig/2*2 else sig
  let exp := if sig=0 then 0 else exp
  (f.packToUI sign exp sig,flags)

/-- The body shared by the two. `0xFD` and `0x7FD` are two below `expMax`, and `0x80000000` and
`0x8000000000000000` the top bits of the words. -/
def roundPack (f : Fmt) (rm : BitVec 32) (sign : Bool) (exp : ℤ) (sig : Nat) : BitVec f.width×Flags :=
  if f.expMax-2 ≤ f.expCast exp then
    if exp<0 then
      let isTiny := exp < -1 ∨ sig+f.roundIncrement rm sign<2^(f.width-1)
      let sig := shiftRightJam f.width sig (-exp).toNat
      f.roundPackEnd rm sign 0 sig
        (if isTiny ∧ sig%2^f.guardBits≠0 then softfloat_flag_underflow else 0)
    else if f.expMax-2<exp ∨ 2^(f.width-1) ≤ sig+f.roundIncrement rm sign then
      (f.packToUI sign f.expMax 0-(if f.roundIncrement rm sign=0 then 1 else 0),
        softfloat_flag_overflow ||| softfloat_flag_inexact)
    else f.roundPackEnd rm sign exp sig 0
  else f.roundPackEnd rm sign exp sig 0

end Fmt

def packToF32UI : Bool → ℤ → Nat → BitVec 32 := Fmt.S.packToUI
def packToF64UI : Bool → ℤ → Nat → BitVec 64 := Fmt.D.packToUI
def softfloatRoundPackToF32 : BitVec 32 → Bool → ℤ → Nat → BitVec 32×Flags := Fmt.S.roundPack
def softfloatRoundPackToF64 : BitVec 32 → Bool → ℤ → Nat → BitVec 64×Flags := Fmt.D.roundPack

/-- The flags of the exceptions that a rounding signals. -/
def roundedFlags (r : Rounded) : Flags :=
  (if r.overflow then softfloat_flag_overflow else 0) |||
    (if r.underflow then softfloat_flag_underflow else 0) |||
    (if r.inexact then softfloat_flag_inexact else 0)

section Words

theorem shiftRightJam_eq {w a dist : ℕ} (hw : 1<w) (hd : 1 ≤ dist) (ha : a<2^w) :
    shiftRightJam w a dist=jam a (2^dist) := by
  have hp := Nat.two_pow_pos dist
  unfold shiftRightJam
  split
  · rename_i h
    have hn : (w-dist%w)%w=w-dist := by
      rw [Nat.mod_eq_of_lt (show dist<w by omega),Nat.mod_eq_of_lt (by omega)]
    have hm : a*2^(w-dist)%2^w=a%2^dist*2^(w-dist) := by
      have hs : 2^w=2^dist*2^(w-dist) := by
        rw [← pow_add]
        congr 1
        omega
      rw [hs,Nat.mul_mod_mul_right]
    have hz : a%2^dist*2^(w-dist)=0 ↔ a%2^dist=0 := by
      rw [Nat.mul_eq_zero]
      exact or_iff_left (Nat.two_pow_pos _).ne'
    rw [hn,Nat.shiftLeft_eq,hm,Nat.shiftRight_eq_div_pow,jam]
    simp only [ne_eq,hz,ite_not]
  · rename_i h
    have hlt : a/2^dist<2 := by
      rw [Nat.div_lt_iff_lt_mul hp,← pow_succ']
      exact ha.trans_le (Nat.pow_le_pow_right (by decide) (by omega))
    have hdm := Nat.div_add_mod a (2^dist)
    obtain h0 | h1 : a/2^dist=0 ∨ a/2^dist=1 := Nat.le_one_iff_eq_zero_or_eq_one.mp (Nat.le_of_lt_succ hlt)
    · rw [h0,Nat.mul_zero,Nat.zero_add] at hdm
      rw [jam,h0,Nat.zero_or,hdm]
      split_ifs <;> omega
    · have hne : a≠0 := by
        rintro rfl
        simp at h1
      rw [jam,h1,if_pos hne]
      split <;> rfl

theorem shortShiftRightJam64_eq (a dist : ℕ) : softfloatShortShiftRightJam64 a dist=jam a (2^dist) := by
  rw [softfloatShortShiftRightJam64,jam,Nat.shiftRight_eq_div_pow,Nat.one_shiftLeft,
    Nat.and_two_pow_sub_one_eq_mod]
  simp only [ne_eq,ite_not]

theorem countLeadingZeros8_eq : ∀ a<256,a≠0 → softfloatCountLeadingZeros8.getD a 0=7-Nat.log2 a := by
  decide +kernel

theorem log2_div_pow {a k : ℕ} (h : 2^k ≤ a) : Nat.log2 (a/2^k)+k=Nat.log2 a := by
  have ha : a≠0 := by
    have := Nat.two_pow_pos k
    omega
  have hk : k ≤ Nat.log2 a := (Nat.le_log2 ha).mpr h
  have hq : a/2^k≠0 := by
    have := Nat.div_pos h (Nat.two_pow_pos k)
    omega
  have hlog : Nat.log2 (a/2^k)=Nat.log2 a-k := by
    rw [Nat.log2_eq_iff hq]
    constructor
    · rw [Nat.le_div_iff_mul_le (Nat.two_pow_pos k),← pow_add,Nat.sub_add_cancel hk]
      exact Nat.log2_self_le ha
    · rw [Nat.div_lt_iff_lt_mul (Nat.two_pow_pos k),← pow_add,
        show Nat.log2 a-k+1+k=Nat.log2 a+1 by omega]
      exact Nat.lt_log2_self
  omega

theorem countLeadingZeros32_eq {a : ℕ} (h0 : a≠0) (ha : a<2^32) :
    softfloatCountLeadingZeros32 a=31-Nat.log2 a := by
  have hl : Nat.log2 a<32 := (Nat.log2_lt h0).mpr ha
  unfold softfloatCountLeadingZeros32
  simp only [Nat.shiftLeft_eq,Nat.shiftRight_eq_div_pow]
  by_cases h16 : a<0x10000
  · by_cases h8 : a<0x100
    · have hq : a*2^16*2^8/2^24=a := by omega
      have hl8 : Nat.log2 a<8 := (Nat.log2_lt h0).mpr h8
      rw [if_pos h16,if_pos (by dsimp only; omega)]
      dsimp only
      rw [hq,countLeadingZeros8_eq a h8 h0]
      omega
    · have hq : a*2^16/2^24=a/2^8 := by omega
      have hlog := log2_div_pow (a := a) (k := 8) (by omega)
      have hl16 : Nat.log2 a<16 := (Nat.log2_lt h0).mpr h16
      rw [if_pos h16,if_neg (by dsimp only; omega)]
      dsimp only
      rw [hq,countLeadingZeros8_eq (a/2^8) (by omega) (by omega)]
      omega
  · by_cases h24 : a<0x1000000
    · have hq : a*2^8/2^24=a/2^16 := by omega
      have hlog := log2_div_pow (a := a) (k := 16) (by omega)
      have hl24 : Nat.log2 a<24 := (Nat.log2_lt h0).mpr h24
      rw [if_neg h16,if_pos h24]
      dsimp only
      rw [hq,countLeadingZeros8_eq (a/2^16) (by omega) (by omega)]
      omega
    · have hlog := log2_div_pow (a := a) (k := 24) (by omega)
      rw [if_neg h16,if_neg h24]
      dsimp only
      rw [countLeadingZeros8_eq (a/2^24) (by omega) (by omega)]
      omega

theorem countLeadingZeros64_eq {a : ℕ} (h0 : a≠0) (ha : a<2^64) :
    softfloatCountLeadingZeros64 a=63-Nat.log2 a := by
  unfold softfloatCountLeadingZeros64
  rw [Nat.shiftRight_eq_div_pow]
  split
  · rename_i h
    have hlt : a<2^32 := by
      have := Nat.div_eq_zero_iff.mp h
      omega
    have hl : Nat.log2 a<32 := (Nat.log2_lt h0).mpr hlt
    rw [Nat.mod_eq_of_lt hlt,countLeadingZeros32_eq h0 hlt]
    omega
  · rename_i h
    have hge : 2^32 ≤ a := by
      by_contra hc
      exact h (Nat.div_eq_of_lt (by omega))
    have hl := log2_div_pow hge
    have hlt : a/2^32<2^32 := by
      rw [Nat.div_lt_iff_lt_mul (by decide)]
      exact ha
    have hl' : Nat.log2 (a/2^32)<32 := (Nat.log2_lt h).mpr hlt
    rw [countLeadingZeros32_eq h hlt]
    omega

end Words

namespace Fmt

section Facts

variable (f : Fmt)

theorem width_eq : f.width=f.format.fracBits+f.guardBits+2 := by cases f <;> rfl

theorem width_pred : f.width-1=f.format.expBits+f.format.fracBits := by cases f <;> rfl

theorem guardBits_ge : 2 ≤ f.guardBits := by cases f <;> decide

theorem expBits_ge : 2 ≤ f.format.expBits := by cases f <;> decide

end Facts

section Pack

variable {f : Fmt} {e s : ℕ}

theorem packToUI_natCast (sign : Bool) (e s : ℕ) :
    f.packToUI sign e s=signBits f.width sign (e*2^f.format.fracBits+s) := by
  rw [packToUI,signBits,← BitVec.ofInt_natCast]
  congr 1
  split <;> push_cast <;> ring

end Pack

section Increment

variable (f : Fmt) (mode : RoundingMode) (sign : Bool)

theorem roundIncrement_eq : f.roundIncrement (roundingCode mode) sign=
    (mode.signed sign).increment (2*2^(f.guardBits-1)) := by
  cases f <;> cases mode <;> cases sign <;> decide

theorem two_half : 2^f.guardBits=2*2^(f.guardBits-1) := by
  have := f.guardBits_ge
  rw [← pow_succ']
  congr 1
  omega

end Increment

/-- A result and its flags are the rounded number. -/
def Shows (f : Fmt) (r : BitVec f.width×Flags) (o : Rounded) : Prop :=
  f.value r.1=o.value ∧ r.2=roundedFlags o

section RoundPack

variable {e s : ℕ} {f : Fmt} {mode : RoundingMode} {sign : Bool}

theorem value_packToUI (h : e*2^f.format.fracBits+s<2^(f.width-1)) :
    f.value (f.packToUI sign e s)=f.format.value sign (e*2^f.format.fracBits+s) := by
  rw [packToUI_natCast,value_signBits f sign h]

theorem expMax_lt (f : Fmt) : f.expMax*2^f.format.fracBits<2^(f.width-1) := by
  rw [width_pred,pow_add]
  exact Nat.mul_lt_mul_of_pos_right (Nat.sub_lt (Nat.two_pow_pos _) Nat.one_pos) (Nat.two_pow_pos _)

theorem expMax_gt (f : Fmt) : 2<f.expMax := by cases f <;> decide

theorem value_pack_normal (he : e=0 ∨ 2^f.format.fracBits ≤ s) (hs : s ≤ 2^(f.format.fracBits+1))
    (hlt : e+2<f.expMax ∨ e+2=f.expMax ∧ s<2^(f.format.fracBits+1)) :
    f.value (f.packToUI sign e s)=.finite sign (s*2^(e+1)/2^(f.format.bias+f.format.fracBits)) := by
  rw [value_packToUI,BinaryFormat.value_add sign he hs hlt]
  apply lt_of_lt_of_le _ f.expMax_lt.le
  have hp : 2^(f.format.fracBits+1)=2*2^f.format.fracBits := pow_succ' ..
  have hfb := Nat.two_pow_pos f.format.fracBits
  obtain h | ⟨h,hs'⟩ := hlt
  · calc e*2^f.format.fracBits+s<(e+3)*2^f.format.fracBits := by rw [Nat.add_mul]; omega
      _ ≤ f.expMax*2^f.format.fracBits := Nat.mul_le_mul_right _ (by omega)
  · rw [← h,Nat.add_mul]
    omega

theorem jammed_flags (v : FloatValue) (tiny inexact : Prop) [Decidable tiny] [Decidable inexact] :
    (if inexact then (if tiny ∧ inexact then softfloat_flag_underflow else 0) ||| softfloat_flag_inexact
      else if tiny ∧ inexact then softfloat_flag_underflow else 0)=
      roundedFlags ⟨v,false,decide (tiny ∧ inexact),decide inexact⟩ := by
  by_cases ht : tiny <;> by_cases hi : inexact <;> simp [roundedFlags,ht,hi]

theorem near_even_iff (sign : Bool) :
    roundingCode mode=softfloat_round_near_even ↔ mode.signed sign=.rne := by
  cases mode <;> cases sign <;> decide

theorem roundPackEnd_eq (e sig : ℕ) (flags : Flags) :
    f.roundPackEnd (roundingCode mode) sign e sig flags=
      let n := (mode.signed sign).roundDiv sig (2^f.guardBits)
      (f.packToUI sign ((if n=0 then 0 else e : ℕ) : ℤ) n,
        if sig%2^f.guardBits≠0 then flags ||| softfloat_flag_inexact else flags) := by
  have h := (mode.signed sign).increment_div sig (Nat.two_pow_pos (f.guardBits-1))
  rw [← roundIncrement_eq,← two_half] at h
  simp only [roundPackEnd,near_even_iff sign,Nat.shiftRight_eq_div_pow,h]
  split <;> rfl

theorem expCast_neg {exp : ℤ} (hlo : -2^15 ≤ exp) (h : exp<0) : f.expMax-2 ≤ f.expCast exp := by
  cases f with
  | S =>
    show ((2^8-1 : ℕ) : ℤ)-2 ≤ exp%2^32
    omega
  | D =>
    show ((2^11-1 : ℕ) : ℤ)-2 ≤ exp%2^16
    omega

theorem expCast_nonneg {exp : ℤ} (h : 0 ≤ exp) (hhi : exp<2^15) : f.expCast exp=exp := by
  cases f with
  | S => exact Int.emod_eq_of_lt h (by omega)
  | D => exact Int.emod_eq_of_lt h (by omega)

/-- The increment carries into the top bit when the significand is rounded up to the next power. -/
theorem carry_iff {sig : ℕ} (hhi : sig<2^(f.width-1)) :
    2^(f.width-1) ≤ sig+f.roundIncrement (roundingCode mode) sign ↔
    (mode.signed sign).roundDiv sig (2^f.guardBits)=2^(f.format.fracBits+1) := by
  have hp : 2^(f.width-1)=2^(f.format.fracBits+1)*(2*2^(f.guardBits-1)) := by
    rw [← two_half,← pow_add,width_eq]
    congr 1
    omega
  rw [hp] at hhi ⊢
  rw [roundIncrement_eq,(mode.signed sign).le_add_increment_iff (Nat.two_pow_pos _)
    (by rw [pow_succ]; omega) hhi,← two_half]

theorem signBits_sub_one {w m : ℕ} (hm : 1 ≤ m) : signBits w sign m-1=signBits w sign (m-1) := by
  obtain ⟨n,rfl⟩ := Nat.exists_eq_add_of_le' hm
  rw [signBits,signBits,← Nat.add_assoc,BitVec.ofNat_add _ 1,Nat.add_sub_cancel]
  exact BitVec.add_sub_cancel _ _

theorem stops_iff : f.roundIncrement (roundingCode mode) sign=0 ↔ (mode.signed sign).Stops := by
  cases f <;> cases mode <;> cases sign <;> decide

/-- An overflow gives the infinity or the greatest number. -/
theorem overflow_value : f.value (f.packToUI sign f.expMax 0-
      (if f.roundIncrement (roundingCode mode) sign=0 then 1 else 0))=
    if (mode.signed sign).Stops then .finite sign f.format.maxFinite else .inf sign := by
  have hlt := f.expMax_lt
  have hpos : 1 ≤ f.expMax*2^f.format.fracBits :=
    Nat.mul_pos (by have := f.expMax_gt; omega) (Nat.two_pow_pos _)
  have hpack := packToUI_natCast (f := f) sign f.expMax 0
  rw [Nat.add_zero] at hpack
  rw [hpack]
  simp only [stops_iff]
  split
  · rw [signBits_sub_one hpos,value_signBits f sign (by omega)]
    exact BinaryFormat.value_maxFinite sign f.expBits_ge
  · rw [show signBits f.width sign (f.expMax*2^f.format.fracBits)-0=_ from BitVec.sub_zero _,
      value_signBits f sign hlt]
    exact BinaryFormat.value_inf sign

/-- A significand with guard bits, cut as `q` is, is rounded as `q`. -/
theorem roundPack_shows {exp : ℤ} {sig : ℕ} {q : ℚ} {k : ℤ} (hexp : -2^15 ≤ exp ∧ exp<2^15)
    (hk : k+f.format.fracBits+f.guardBits=exp+1-f.format.bias) (hlo : 2^(f.width-2) ≤ sig)
    (hhi : sig<2^(f.width-1)) (hcut : SameCut (2^(k+f.guardBits-1)) q (sig*2^k)) :
    f.Shows (f.roundPack (roundingCode mode) sign exp sig) (f.format.roundTo mode sign q) := by
  have hw := f.width_eq
  have hg := f.guardBits_ge
  have hlo' : 2^(f.format.fracBits+f.guardBits) ≤ sig := by
    rwa [show f.format.fracBits+f.guardBits=f.width-2 by omega]
  have hhi' : sig<2^(f.format.fracBits+f.guardBits+1) := by
    rwa [show f.format.fracBits+f.guardBits+1=f.width-1 by omega]
  have hcarry := @carry_iff f mode sign _ hhi
  have hn := BinaryFormat.roundDiv_le_pow (p := f.format.fracBits+1) (g := f.guardBits)
    (by rwa [Nat.add_right_comm]) (mode.signed sign)
  by_cases h0 : exp<0
  · obtain ⟨d,hd⟩ := Int.eq_ofNat_of_zero_le (show 0 ≤ -exp by omega)
    have hd1 : 1 ≤ d := by omega
    have hjam : shiftRightJam f.width sig (-exp).toNat=jam sig (2^d) := by
      rw [hd,Int.toNat_natCast]
      exact shiftRightJam_eq (by omega) hd1 (hhi.trans_le (Nat.pow_le_pow_right (by decide) (by omega)))
    have hlt : sig+f.roundIncrement (roundingCode mode) sign<2^(f.width-1) ↔
        (mode.signed sign).roundDiv sig (2^f.guardBits)<2^(f.format.fracBits+1) := by
      rw [← not_le,hcarry]
      omega
    have hd2 : exp < -1 ↔ 1<d := by omega
    rw [roundPack,if_pos (expCast_neg hexp.1 h0),if_pos h0]
    simp only [hjam,hlt,hd2]
    rw [show (0 : ℤ)=((0 : ℕ) : ℤ) from rfl,roundPackEnd_eq,BinaryFormat.roundTo_subnormal sign f.expBits_ge
      hg hd1 (by omega) hlo' hhi' hcut]
    have hjlt : jam sig (2^d)<2^(f.format.fracBits+f.guardBits) :=
      jam_lt (by omega) (hhi'.trans_le (Nat.pow_le_pow_right (by decide) (by omega)))
    have hn' := BinaryFormat.roundDiv_le_pow hjlt (mode.signed sign)
    simp only [ite_self]
    refine ⟨?_,?_⟩
    · exact value_pack_normal (.inl rfl) (by omega) (.inl f.expMax_gt)
    · exact jammed_flags _ _ _
  · obtain ⟨e,rfl⟩ := Int.eq_ofNat_of_zero_le (not_lt.mp h0)
    have hn' := BinaryFormat.pow_le_roundDiv hlo' (mode.signed sign)
    have h4 := f.expMax_gt
    have hexp' : f.expMax=2^f.format.expBits-1 := rfl
    have hover : f.expMax-2 ≤ (e : ℤ) ∧ (f.expMax-2<(e : ℤ) ∨
        2^(f.width-1) ≤ sig+f.roundIncrement (roundingCode mode) sign) ↔ 2^f.format.expBits-3<e ∨
        e=2^f.format.expBits-3 ∧ (mode.signed sign).roundDiv sig (2^f.guardBits)=2^(f.format.fracBits+1) := by
      rw [hcarry]
      omega
    rw [BinaryFormat.roundTo_normal sign f.expBits_ge (by omega) hlo' hhi' hcut]
    by_cases ho : 2^f.format.expBits-3<e ∨
        e=2^f.format.expBits-3 ∧ (mode.signed sign).roundDiv sig (2^f.guardBits)=2^(f.format.fracBits+1)
    · obtain ⟨h1,h2⟩ := hover.mpr ho
      rw [roundPack,expCast_nonneg (Int.natCast_nonneg e) hexp.2,if_pos h1,if_neg h0,if_pos h2]
      simp only [if_pos ho]
      exact ⟨overflow_value,by simp [roundedFlags]⟩
    · have hend : f.roundPack (roundingCode mode) sign e sig=f.roundPackEnd (roundingCode mode) sign e sig 0 := by
        rw [roundPack,expCast_nonneg (Int.natCast_nonneg e) hexp.2]
        by_cases h1 : f.expMax-2 ≤ (e : ℤ)
        · rw [if_pos h1,if_neg h0,if_neg fun h2 => ho (hover.mp ⟨h1,h2⟩)]
        · rw [if_neg h1]
      have hne : (mode.signed sign).roundDiv sig (2^f.guardBits)≠0 := by
        have := Nat.two_pow_pos f.format.fracBits
        omega
      rw [hend,roundPackEnd_eq]
      simp only [if_neg ho,if_neg hne]
      refine ⟨value_pack_normal (.inr hn') hn (by omega),?_⟩
      unfold roundedFlags
      split <;> rename_i hi <;> simp [hi]

end RoundPack
end Fmt
end OpenSBI
