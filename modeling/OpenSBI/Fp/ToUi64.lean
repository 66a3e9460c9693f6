import OpenSBI.Fp.MultiWord
import OpenSBI.Fp.Operands

namespace OpenSBI

open Math

/-- `ui64_fromNegOverflow` and `ui64_fromPosOverflow`. -/
def ui64FromOverflow (sign : Bool) : BitVec 64 := if sign then 0 else BitVec.allOnes 64

/-- The end of `softfloat_roundMToUI64()`, and the part behind its label `increment`. -/
def roundMToUI64End (sign : Bool) (sig : BitVec 64) (sigExtra : BitVec 32) (exact : Bool) : BitVec 64×Flags :=
  if sign=true ∧ sig≠0 then (ui64FromOverflow sign,softfloat_flag_invalid)
  else (sig,if sigExtra≠0 ∧ exact=true then softfloat_flag_inexact else 0)

def roundMToUI64Increment (sign : Bool) (sig : BitVec 64) (sigExtra : BitVec 32) (roundingMode : BitVec 32)
    (exact : Bool) : BitVec 64×Flags :=
  let sig := sig+1
  if sig=0 then (ui64FromOverflow sign,softfloat_flag_invalid)
  else
    let sig := if sigExtra=0x80000000 ∧ roundingMode=softfloat_round_near_even then sig &&& ~~~(1 : BitVec 64)
      else sig
    roundMToUI64End sign sig sigExtra exact

/-- The words are from the lowest, which is the one below the point. -/
def softfloatRoundMToUI64 (sign : Bool) (extSig : List (BitVec 32)) (roundingMode : BitVec 32) (exact : Bool) :
    BitVec 64×Flags :=
  let sig := (extSig.getD 2 0).setWidth 64 <<< 32 ||| (extSig.getD 1 0).setWidth 64
  let sigExtra := extSig.getD 0 0
  if roundingMode=softfloat_round_near_maxMag ∨ roundingMode=softfloat_round_near_even then
    if 0x80000000 ≤ sigExtra then roundMToUI64Increment sign sig sigExtra roundingMode exact
    else roundMToUI64End sign sig sigExtra exact
  else if sign=true then
    if sig ||| sigExtra.setWidth 64=0 then (0,0)
    else if roundingMode=softfloat_round_min then (ui64FromOverflow sign,softfloat_flag_invalid)
    else roundMToUI64End sign sig sigExtra exact
  else if roundingMode=softfloat_round_max ∧ sigExtra≠0 then
    roundMToUI64Increment sign sig sigExtra roundingMode exact
  else roundMToUI64End sign sig sigExtra exact

/-- `extSig`, the significand above a word of zeros. -/
def extWords (sig : BitVec 64) : List (BitVec 32) := [0,sig.setWidth 32,(sig >>> 32).setWidth 32]

def f64ToUi64 (a : BitVec 64) (roundingMode : BitVec 32) (exact : Bool) : BitVec 64×Flags :=
  let sign := signF64UI a
  let exp := Fmt.D.expUI a
  let sig := BitVec.ofNat 64 (Fmt.D.fracUI a)
  let sig := if exp≠0 then sig ||| 0x0010000000000000 else sig
  let shiftDist : ℤ := 0x433-exp
  if shiftDist ≤ 0 then
    if shiftDist < -11 then
      (if exp=0x7FF ∧ Fmt.D.fracUI a≠0 then BitVec.allOnes 64 else ui64FromOverflow sign,softfloat_flag_invalid)
    else softfloatRoundMToUI64 sign (extWords (sig <<< (-shiftDist).toNat)) roundingMode exact
  else
    softfloatRoundMToUI64 sign (softfloatShiftRightJam96M (extWords sig) shiftDist.toNat) roundingMode exact

section ToUi64

variable {mode : RoundingMode} {sign : Bool}

/-- The magnitude `n`, of which `r` was cut off, as an unsigned word. -/
def convertedWord (sign : Bool) (n r : Nat) : BitVec 64×Flags :=
  if 2^64 ≤ n ∨ sign=true ∧ n≠0 then (ui64FromOverflow sign,softfloat_flag_invalid)
  else (BitVec.ofNat 64 n,if r≠0 then softfloat_flag_inexact else 0)

/-- The conversion of a magnitude of which the lowest word is below the point. -/
def roundedWords (mode : RoundingMode) (sign : Bool) (e : Nat) : BitVec 64×Flags :=
  convertedWord sign ((mode.signed sign).roundDiv e (2^32)) (e%2^32)

section Words

variable {sig : BitVec 64} {r : BitVec 32}

theorem roundMToUI64End_eq (sign : Bool) (sig : BitVec 64) (r : BitVec 32) :
    roundMToUI64End sign sig r true=convertedWord sign sig.toNat r.toNat := by
  have hs : sig=0 ↔ sig.toNat=0 := BitVec.toNat_eq
  have hr : r=0 ↔ r.toNat=0 := BitVec.toNat_eq
  have hlt := sig.isLt
  simp only [roundMToUI64End,convertedWord,ne_eq,hs,hr,and_true,BitVec.ofNat_toNat,BitVec.setWidth_eq,
    show ¬2^64 ≤ sig.toNat by omega,false_or]

theorem and_not_one (v : BitVec 64) : (v &&& ~~~(1 : BitVec 64)).toNat=v.toNat/2*2 := by
  have h : v &&& ~~~(1 : BitVec 64)=(v >>> 1) <<< 1 := by
    apply BitVec.eq_of_getLsbD_eq
    intro i hi
    cases i with
    | zero => simp
    | succ i =>
      rw [BitVec.getLsbD_and,BitVec.getLsbD_not,show (1 : BitVec 64)=1#64 from rfl,BitVec.getLsbD_one]
      simp [hi,Nat.add_comm]
  have hv := v.isLt
  rw [h,BitVec.toNat_shiftLeft,BitVec.toNat_ushiftRight,Nat.shiftRight_eq_div_pow,Nat.shiftLeft_eq]
  omega

theorem roundMToUI64Increment_eq (sign : Bool) (sig : BitVec 64) (r rm : BitVec 32) :
    roundMToUI64Increment sign sig r rm true=convertedWord sign
      (if r.toNat=2^31 ∧ rm=softfloat_round_near_even then (sig.toNat+1)/2*2 else sig.toNat+1) r.toNat := by
  have hr : r=0x80000000 ↔ r.toNat=2^31 := BitVec.toNat_eq
  have hlt := sig.isLt
  have hz : sig+1=0 ↔ sig.toNat+1=2^64 := by
    rw [BitVec.toNat_eq,BitVec.toNat_add]
    simp
    omega
  rw [roundMToUI64Increment]
  by_cases h : sig.toNat+1=2^64
  · rw [if_pos (hz.mpr h),convertedWord,if_pos (.inl (by split <;> omega))]
  · have hs : (sig+1).toNat=sig.toNat+1 := by
      rw [BitVec.toNat_add,show (1 : BitVec 64).toNat=1 from rfl,Nat.mod_eq_of_lt (by omega)]
    rw [if_neg (mt hz.mp h),roundMToUI64End_eq]
    simp only [apply_ite BitVec.toNat,and_not_one,hs,hr]

end Words

theorem roundMToUI64_eq (mode : RoundingMode) (sign : Bool) (w0 w1 w2 : BitVec 32) :
    softfloatRoundMToUI64 sign [w0,w1,w2] (roundingCode mode) true=roundedWords mode sign (ofWords [w0,w1,w2]) := by
  have h0 := w0.isLt
  have h1 := w1.isLt
  have h2 := w2.isLt
  obtain ⟨sig,hsig⟩ : ∃ sig : BitVec 64,w2.setWidth 64 <<< 32 ||| w1.setWidth 64=sig := ⟨_,rfl⟩
  have hn : sig.toNat=w1.toNat+2^32*w2.toNat := by
    rw [← hsig,BitVec.toNat_or,BitVec.toNat_shiftLeft,BitVec.toNat_setWidth,BitVec.toNat_setWidth,
      Nat.mod_eq_of_lt (show w2.toNat<2^64 by omega),Nat.mod_eq_of_lt (show w1.toNat<2^64 by omega),Nat.shiftLeft_eq,
      Nat.mod_eq_of_lt (by omega),Nat.mul_comm,← Nat.two_pow_add_eq_or_of_lt h1,Nat.add_comm]
  have he : ofWords [w0,w1,w2]=w0.toNat+2^32*sig.toNat := by
    rw [hn]
    rfl
  have hdiv : (w0.toNat+2^32*sig.toNat)/2^32=sig.toNat := by omega
  have hmod : (w0.toNat+2^32*sig.toNat)%2^32=w0.toNat := by omega
  have hr : (0x80000000 : BitVec 32) ≤ w0 ↔ 2^31 ≤ w0.toNat := Iff.rfl
  have hr0 : w0=0 ↔ w0.toNat=0 := BitVec.toNat_eq
  have hz : sig ||| w0.setWidth 64=0 ↔ sig.toNat=0 ∧ w0.toNat=0 := by
    have hw : (w0.setWidth 64).toNat=w0.toNat := by
      rw [BitVec.toNat_setWidth,Nat.mod_eq_of_lt (by omega)]
    rw [BitVec.toNat_eq,BitVec.toNat_or,hw]
    exact Nat.or_eq_zero_iff
  rw [softfloatRoundMToUI64]
  simp only [List.getD_cons_zero,List.getD_cons_succ,hsig]
  rw [he,roundedWords,hmod]
  simp only [roundMToUI64Increment_eq,roundMToUI64End_eq,hr,hz,RoundingMode.roundDiv,hdiv,hmod]
  cases mode with
  | rne =>
    simp only [roundingCode,softfloat_round_near_maxMag,softfloat_round_near_even,RoundingMode.signed,
      RoundingMode.flip,ite_self,or_true,if_true,and_true]
    by_cases h : 2^31 ≤ w0.toNat
    · rw [if_pos h]
      congr 1
      split_ifs <;> omega
    · rw [if_neg h,if_pos (.inl (by omega))]
  | rmm =>
    simp only [roundingCode,softfloat_round_near_maxMag,RoundingMode.signed,RoundingMode.flip,ite_self,true_or,
      if_true,show ¬(4 : BitVec 32)=softfloat_round_near_even by decide,and_false,if_false]
    by_cases h : 2^31 ≤ w0.toNat
    · rw [if_pos h,if_neg (by omega)]
    · rw [if_neg h,if_pos (by omega)]
  | rtz =>
    rw [if_neg (by decide)]
    cases sign with
    | false => rfl
    | true =>
      by_cases h : sig.toNat=0 ∧ w0.toNat=0
      · rw [if_pos rfl,if_pos h,h.1,h.2]
        rfl
      · rw [if_pos rfl,if_neg h,if_neg (by decide)]
        rfl
  | rdn =>
    rw [if_neg (by decide)]
    cases sign with
    | false => rfl
    | true =>
      by_cases h : sig.toNat=0 ∧ w0.toNat=0
      · rw [if_pos rfl,if_pos h,h.1,h.2]
        rfl
      · have hne : (if w0.toNat=0 then sig.toNat else sig.toNat+1)≠0 := by
          split <;> omega
        rw [if_pos rfl,if_neg h,if_pos (show roundingCode .rdn=softfloat_round_min from rfl)]
        exact (if_pos (.inr ⟨rfl,hne⟩)).symm
  | rup =>
    rw [if_neg (by decide)]
    cases sign with
    | false =>
      rw [if_neg (by decide)]
      by_cases h : w0.toNat=0
      · rw [if_neg (by tauto)]
        simp only [RoundingMode.signed,Bool.false_eq_true,if_false,h,if_true]
      · rw [if_pos ⟨rfl,mt hr0.mp h⟩,if_neg (fun hc => absurd hc.2 (by decide))]
        simp only [RoundingMode.signed,Bool.false_eq_true,if_false,h]
    | true =>
      by_cases h : sig.toNat=0 ∧ w0.toNat=0
      · rw [if_pos rfl,if_pos h,h.1,h.2]
        rfl
      · rw [if_pos rfl,if_neg h,if_neg (by decide)]
        rfl

/-- The limits of an unsigned result. -/
theorem unsignedResult_eq (sign : Bool) (n r : ℕ) :
    let z : ℤ := if sign=true then -n else n
    let o := if z<kindMin 3 then (kindMin 3,softfloat_flag_invalid)
      else if kindMax 3<z then (kindMax 3,softfloat_flag_invalid)
      else (z,if r=0 then 0 else softfloat_flag_inexact)
    (BitVec.ofInt 64 o.1,o.2)=convertedWord sign n r := by
  have hmin : kindMin 3=0 := rfl
  have hmax : kindMax 3=2^64-1 := rfl
  simp only [hmin,hmax,convertedWord]
  have hflags : (if r≠0 then softfloat_flag_inexact else 0)=if r=0 then 0 else softfloat_flag_inexact := by
    rw [ite_not]
  cases sign with
  | false =>
    have hn : ¬(n : ℤ)<0 := by omega
    simp only [Bool.false_eq_true,if_false,false_and,or_false,hn,hflags]
    by_cases h : 2^64 ≤ n
    · rw [if_pos h,if_pos (by omega)]
      rfl
    · rw [if_neg h,if_neg (by omega),BitVec.ofInt_natCast]
  | true =>
    simp only [if_true,true_and,hflags]
    by_cases h : n=0
    · have hneg : ¬-(n : ℤ)<0 := by omega
      rw [if_neg hneg,if_neg (by omega),if_neg (show ¬(2^64 ≤ n ∨ n≠0) by omega),h]
      rfl
    · have hneg : -(n : ℤ)<0 := by omega
      rw [if_pos hneg,if_pos (.inr h)]
      rfl

/-- What is cut as `e` at the halves is converted as `e`. -/
theorem toInteger_words {e : ℕ} {q : ℚ} (hcut : SameCut (1/2) q (e/2^32)) :
    (BitVec.ofInt 64 (toInteger mode 3 (.finite sign q)).1,(toInteger mode 3 (.finite sign q)).2)=
      roundedWords mode sign e := by
  have hround : ∀ m : RoundingMode,m.round q=m.roundDiv e (2^32) := by
    intro m
    have h := hcut.round (by norm_num) m
    rw [show 2*(1/2 : ℚ)=1 by norm_num,div_one,div_one] at h
    rw [h,← RoundingMode.round_div (by decide)]
    norm_num
  have hint : q=⌊q⌋ ↔ e%2^32=0 := by
    have h1 : SameCut 1 q (e/2^32) := by
      have h := hcut.widen 2
      norm_num at h
      exact h
    have h := h1.eq_floor_iff one_pos
    have hpos : ((2^32 : ℕ) : ℚ)≠0 := by norm_num
    have hfloor : ⌊(e : ℚ)/((2^32 : ℕ) : ℚ)⌋=((e/2^32 : ℕ) : ℤ) := RoundingMode.floor_div (by decide)
    rw [div_one,div_one,show (e : ℚ)/2^32=e/((2^32 : ℕ) : ℚ) by norm_num,hfloor,div_eq_iff hpos] at h
    rw [h]
    norm_cast
    omega
  have hz : mode.round (if sign=true then -q else q)=
      if sign=true then -((mode.signed sign).roundDiv e (2^32) : ℤ) else (mode.signed sign).roundDiv e (2^32) := by
    cases sign with
    | false => exact hround mode
    | true =>
      rw [if_pos rfl,if_pos rfl,RoundingMode.round_neg,hround]
      rfl
  have hexact : (mode.round (if sign=true then -q else q) : ℚ)=(if sign=true then -q else q) ↔ e%2^32=0 := by
    cases sign with
    | false => rw [← hint]; exact RoundingMode.round_eq_iff mode q
    | true =>
      rw [if_pos rfl,RoundingMode.round_neg,Int.cast_neg,neg_inj,RoundingMode.round_eq_iff,hint]
  simp only [toInteger,hexact]
  rw [hz,roundedWords]
  exact unsignedResult_eq sign _ _

section Finite

variable {exp frac : ℕ}

theorem ofWords_extWords (sig : BitVec 64) : ofWords (extWords sig)=2^32*sig.toNat := by
  simp only [extWords,ofWords,BitVec.toNat_setWidth,BitVec.toNat_ushiftRight,Nat.shiftRight_eq_div_pow,
    show (0 : BitVec 32).toNat=0 from rfl]
  omega

theorem roundedWords_whole (mode : RoundingMode) (sign : Bool) (n : ℕ) :
    roundedWords mode sign (2^32*n)=convertedWord sign n 0 := by
  have hn : ∀ m : RoundingMode,m.roundDiv (2^32*n) (2^32)=n := by
    intro m
    have h := @BinaryFormat.roundDiv_mul_eq m (2^32) (2^32*n)
    exact Nat.eq_of_mul_eq_mul_right (by decide) ((h.mpr (Dvd.intro _ rfl)).trans (Nat.mul_comm _ _))
  rw [roundedWords,hn,Nat.mul_mod_right]

/-- Where the unit of the significand is at least one, nothing is cut off. -/
theorem toInteger_whole (mode : RoundingMode) (sign : Bool) (n : ℕ) :
    (BitVec.ofInt 64 (toInteger mode 3 (.finite sign n)).1,(toInteger mode 3 (.finite sign n)).2)=
      convertedWord sign n 0 := by
  have hcut : SameCut (1/2) (n : ℚ) ((2^32*n : ℕ)/2^32) := by
    rw [Nat.cast_mul,Nat.cast_pow,Nat.cast_ofNat,mul_div_cancel_left₀ _ (by norm_num)]
    exact SameCut.refl _ _
  rw [toInteger_words hcut,roundedWords_whole]

theorem sameCut_fraction {s d : ℕ} : SameCut (1/2) ((s : ℚ)/2^d) ((jam (2^32*s) (2^d) : ℕ)/2^32) := by
  have h := (sameCut_jam (2^32*s) (Nat.two_pow_pos d)).scale (show (0 : ℚ)<1/2^32 by norm_num)
  have hval : (1 : ℚ)/2^32*((2^32*s : ℕ)/(2^d : ℕ))=s/2^d := by
    rw [Nat.cast_mul,Nat.cast_pow,Nat.cast_pow,Nat.cast_ofNat]
    field_simp
  have hw := h.widen (2^30)
  rwa [hval,show (((2^30 : ℤ) : ℚ)*(1/2^32*2))=1/2 by norm_num,one_div_mul_eq_div] at hw

theorem sameCut_tiny {s d : ℕ} (hs : s<2^52) (hd : 84 ≤ d) :
    SameCut (1/2) ((s : ℚ)*2/2^d) ((jam (2^32*s) (2^d) : ℕ)/2^32) := by
  obtain rfl | h0 := Nat.eq_zero_or_pos s
  · rw [Nat.cast_zero,zero_mul,zero_div,Nat.mul_zero,jam_eq_zero.mpr rfl,Nat.cast_zero,zero_div]
    exact SameCut.refl _ _
  · have hlt : jam (2^32*s) (2^d)<2^1 := jam_lt le_rfl
      ((show 2^32*s<2^84 by omega).trans_le (Nat.pow_le_pow_right (by decide) (by omega)))
    have hne := mt (jam_eq_zero (m := 2^32*s) (d := 2^d)).mp (by omega)
    have hone : jam (2^32*s) (2^d)=1 := by omega
    have hsmall : (s : ℚ)*2/2^d<1/2 := by
      have hpow : (2 : ℚ)^84 ≤ 2^d := pow_le_pow_right₀ (by norm_num) hd
      have hs' : (s : ℚ)<2^52 := by exact_mod_cast hs
      rw [div_lt_iff₀ (by positivity)]
      linarith
    rw [hone]
    exact BinaryFormat.sameCut_between (by norm_num) ⟨by positivity,hsmall⟩ ⟨by norm_num,by norm_num⟩

/-- The shift down to the point, in the two directions. -/
theorem toUi64_finite {exp : ℕ} {sig : BitVec 64} (hexp : exp<2047) (h0 : exp=0 → sig.toNat<2^52)
    (h1 : exp≠0 → 2^52 ≤ sig.toNat ∧ sig.toNat<2^53) :
    (if 0x433-(exp : ℤ) ≤ 0 then
      if 0x433-(exp : ℤ) < -11 then (ui64FromOverflow sign,softfloat_flag_invalid)
      else softfloatRoundMToUI64 sign (extWords (sig <<< (-(0x433-(exp : ℤ))).toNat)) (roundingCode mode) true
    else softfloatRoundMToUI64 sign (softfloatShiftRightJam96M (extWords sig) (0x433-(exp : ℤ)).toNat)
        (roundingCode mode) true)=
      (BitVec.ofInt 64 (toInteger mode 3 (.finite sign (sig.toNat*2^max exp 1/2^1075))).1,
       (toInteger mode 3 (.finite sign (sig.toNat*2^max exp 1/2^1075))).2) := by
  by_cases hd : 1075 ≤ exp
  · obtain ⟨k,rfl⟩ := Nat.exists_eq_add_of_le hd
    obtain ⟨hlo,hhi⟩ := h1 (by omega)
    have hval : (sig.toNat : ℚ)*2^max (1075+k) 1/2^1075=(sig.toNat*2^k : ℕ) := by
      rw [Nat.max_eq_left (by omega),pow_add]
      push_cast
      field_simp
    rw [if_pos (by omega),hval,toInteger_whole]
    by_cases hk : 11<k
    · have hbig : 2^64 ≤ sig.toNat*2^k := by
        calc 2^64=2^52*2^12 := by norm_num
          _ ≤ sig.toNat*2^k := Nat.mul_le_mul hlo (Nat.pow_le_pow_right (by decide) hk)
      rw [if_pos (by omega),convertedWord,if_pos (.inl hbig)]
    · have hsmall : sig.toNat*2^k<2^64 := by
        calc sig.toNat*2^k<2^53*2^11 :=
              Nat.mul_lt_mul_of_lt_of_le hhi (Nat.pow_le_pow_right (by decide) (by omega)) (by decide)
          _=2^64 := by norm_num
      have hshl : (sig <<< k).toNat=sig.toNat*2^k := by
        rw [BitVec.toNat_shiftLeft,Nat.shiftLeft_eq,Nat.mod_eq_of_lt hsmall]
      rw [if_neg (by omega),show (-(0x433-((1075+k : ℕ) : ℤ))).toNat=k by omega,extWords,roundMToUI64_eq,
        ← extWords,ofWords_extWords,roundedWords_whole,hshl]
  · obtain ⟨d,hd'⟩ := Nat.exists_eq_add_of_lt (not_le.mp hd)
    have hlen := shiftRightJamM_length (extWords sig) (d+1)
    obtain ⟨w0,w1,w2,hw⟩ := List.length_eq_three.mp hlen
    have he : ofWords [w0,w1,w2]=jam (2^32*sig.toNat) (2^(d+1)) := by
      rw [← hw,shiftRightJamM_eq,ofWords_extWords]
    rw [if_neg (by omega),show (0x433-(exp : ℤ)).toNat=d+1 by omega,softfloatShiftRightJam96M,hw,roundMToUI64_eq,he]
    symm
    apply toInteger_words
    obtain rfl | hz := Nat.eq_zero_or_pos exp
    · rw [Nat.zero_max,pow_one,show d+1=1075 by omega]
      exact sameCut_tiny (h0 rfl) (by decide)
    · have hval : (sig.toNat : ℚ)*2^max exp 1/2^1075=sig.toNat/2^(d+1) := by
        rw [Nat.max_eq_left hz,show 1075=exp+(d+1) by omega,pow_add]
        field_simp
      rw [hval]
      exact sameCut_fraction

end Finite

theorem f64ToUi64_eq (mode : RoundingMode) (a : BitVec 64) :
    f64ToUi64 a (roundingCode mode) true=
      (BitVec.ofInt 64 (toInteger mode 3 (f64Value a)).1,(toInteger mode 3 (f64Value a)).2) := by
  have hfrac : Fmt.D.fracUI a<2^52 := Fmt.fracUI_lt (f := .D) a
  have hexp : Fmt.D.expUI a ≤ 2047 := Fmt.expUI_le (f := .D) a
  unfold f64ToUi64
  dsimp only
  by_cases he : Fmt.D.expUI a=0x7FF
  · rw [if_pos (by omega),if_pos (by omega)]
    by_cases hf : Fmt.D.fracUI a=0
    · have hinf : ∀ s,(ui64FromOverflow s,softfloat_flag_invalid)=
          (BitVec.ofInt 64 (toInteger mode 3 (.inf s)).1,(toInteger mode 3 (.inf s)).2) := fun s => by
        cases s <;> rfl
      rw [if_neg (fun h => h.2 hf),show f64Value a=_ from Fmt.value_inf (f := .D) he hf]
      exact hinf a.msb
    · have hv := Fmt.value_fields (f := .D) a
      rw [if_pos (show Fmt.D.expUI a=Fmt.D.expMax from he),if_neg hf] at hv
      rw [if_pos ⟨he,hf⟩,show f64Value a=_ from hv]
      rfl
  rw [show f64Value a=_ from Fmt.value_finite (f := .D) he]
  have hovf : (if Fmt.D.expUI a=0x7FF ∧ Fmt.D.fracUI a≠0 then BitVec.allOnes 64 else ui64FromOverflow (signF64UI a))=
      ui64FromOverflow (signF64UI a) := if_neg (fun h => he h.1)
  have hsigOf : Fmt.D.sigOf a=Fmt.D.fracUI a+if Fmt.D.expUI a=0 then 0 else 2^52 := rfl
  have hsig : (if Fmt.D.expUI a≠0 then BitVec.ofNat 64 (Fmt.D.fracUI a) ||| 0x0010000000000000
      else BitVec.ofNat 64 (Fmt.D.fracUI a)).toNat=Fmt.D.sigOf a := by
    have hlow : (BitVec.ofNat 64 (Fmt.D.fracUI a)).toNat=Fmt.D.fracUI a :=
      Nat.mod_eq_of_lt (hfrac.trans (by decide))
    rw [hsigOf]
    by_cases hz : Fmt.D.expUI a=0
    · rw [if_neg (not_not.mpr hz),if_pos hz,hlow]
      rfl
    · rw [if_pos hz,if_neg hz,BitVec.toNat_or,hlow,Nat.add_comm]
      exact Fmt.or_hidden_lt hfrac
  have hmag : Fmt.D.magOf a=Fmt.D.sigOf a*2^max (Fmt.D.expUI a) 1/2^1075 := by
    rw [show (1075 : ℕ)=Fmt.D.format.bias+Fmt.D.format.fracBits by decide]
    rfl
  have hfinite := @toUi64_finite mode a.msb (Fmt.D.expUI a)
    (if Fmt.D.expUI a≠0 then BitVec.ofNat 64 (Fmt.D.fracUI a) ||| 0x0010000000000000
    else BitVec.ofNat 64 (Fmt.D.fracUI a)) (by omega)
    (fun hz => by rw [hsig,hsigOf,if_pos hz]; exact hfrac)
    (fun hz => by
      rw [hsig,hsigOf,if_neg hz]
      exact ⟨Nat.le_add_left _ _,show Fmt.D.fracUI a+2^52<2^53 by omega⟩)
  rw [hsig] at hfinite
  rw [hovf,hmag]
  exact hfinite

/-- `f64_to_ui64()` is the conversion of the standard: the limits of the format, the mode and the flags,
for every double that is converted. -/
theorem f64ToUi64_standard (mode : RoundingMode) (a : BitVec 64) :
    f64ToUi64 a (roundingCode mode) true=
      (BitVec.ofInt 64 (toInteger mode 3 (f64Value a)).1,(toInteger mode 3 (f64Value a)).2) :=
  f64ToUi64_eq mode a

end ToUi64
end OpenSBI
