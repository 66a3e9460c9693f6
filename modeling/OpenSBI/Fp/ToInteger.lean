import OpenSBI.Fp.Value
import Mathlib.Tactic.IntervalCases

namespace OpenSBI

open Math

variable {x : Xlen}

section Words

theorem signExtend_setWidth (v : BitVec 32) :
    (v.signExtend 64).setWidth x.bits=v.signExtend x.bits := by
  cases x with
  | rv64 => exact BitVec.setWidth_eq (v.signExtend 64)
  | rv32 =>
    show (v.signExtend 64).setWidth 32=v.signExtend 32
    rw [BitVec.signExtend_eq]
    apply BitVec.eq_of_getLsbD_eq
    intro i hi
    rw [BitVec.getLsbD_setWidth,BitVec.getLsbD_signExtend]
    simp [hi,show i<64 by omega]

theorem intWord_low {kind : Nat} (h : kind<2) (n : ℤ) :
    intWord x kind n=(BitVec.ofInt 32 n).signExtend x.bits := if_pos h

theorem intWord_high {kind : Nat} (h : 2 ≤ kind) (n : ℤ) :
    intWord .rv64 kind n=BitVec.ofInt 64 n := if_neg (by omega)

theorem setWidth_ofNat (u : Nat) : (BitVec.ofNat 64 u).setWidth 32=BitVec.ofInt 32 (u : ℤ) := by
  apply BitVec.eq_of_toNat_eq
  rw [BitVec.toNat_setWidth,BitVec.toNat_ofNat,BitVec.ofInt_natCast,BitVec.toNat_ofNat]
  exact Nat.mod_mod_of_dvd u (by decide)

theorem setWidth_neg (u : Nat) :
    (-BitVec.ofNat 64 u).setWidth 32=BitVec.ofInt 32 (-(u : ℤ)) := by
  rw [BitVec.setWidth_neg_of_le (by decide),setWidth_ofNat,BitVec.ofInt_neg]

theorem neg_ofNat (u : Nat) : -BitVec.ofNat 64 u=BitVec.ofInt 64 (-(u : ℤ)) := by
  rw [BitVec.ofInt_neg,BitVec.ofInt_natCast]

/-- A sign extension says what it extends. -/
theorem signExtend_inj {v w : BitVec 32} :
    v.signExtend x.bits=w.signExtend x.bits ↔ v=w := by
  have hb := x.bits_ge
  constructor
  · intro h
    have hs := congrArg BitVec.toInt h
    rw [BitVec.toInt_signExtend_of_le hb,BitVec.toInt_signExtend_of_le hb] at hs
    exact BitVec.toInt_inj.mp hs
  · intro h
    rw [h]

theorem ofInt_inj {w : Nat} (hw : 0<w) {n m : ℤ} (hn : -2^(w-1) ≤ n) (hn' : n<2^(w-1))
    (hm : -2^(w-1) ≤ m) (hm' : m<2^(w-1)) : BitVec.ofInt w n=BitVec.ofInt w m ↔ n=m := by
  constructor
  · intro h
    have ht := congrArg BitVec.toInt h
    rwa [BitVec.toInt_ofInt_eq_self hw hn hn',BitVec.toInt_ofInt_eq_self hw hm hm'] at ht
  · intro h
    rw [h]

end Words

/-- Zero extension and sign extension agree below the sign bit. -/
theorem setWidth_eq_signExtend {n : ℤ} (h0 : 0 ≤ n) (hn : n<2^32) :
    (BitVec.ofInt 32 n).setWidth x.bits=(BitVec.ofInt 32 n).signExtend x.bits ↔ n<2^31 ∨ x=.rv32 := by
  have hv : (BitVec.ofInt 32 n).toNat=n.toNat := by
    rw [BitVec.toNat_ofInt]
    omega
  have hm : (BitVec.ofInt 32 n).msb=decide (2^31 ≤ n.toNat) := by
    rw [BitVec.msb_eq_decide,hv]
  cases x with
  | rv32 =>
    show (BitVec.ofInt 32 n).setWidth 32=(BitVec.ofInt 32 n).signExtend 32 ↔ _
    rw [BitVec.setWidth_eq,BitVec.signExtend_eq]
    exact iff_of_true rfl (.inr rfl)
  | rv64 =>
    show (BitVec.ofInt 32 n).setWidth 64=(BitVec.ofInt 32 n).signExtend 64 ↔ _
    by_cases h : n<2^31
    · have hf : (BitVec.ofInt 32 n).msb=false := by
        rw [hm,decide_eq_false_iff_not]
        omega
      rw [BitVec.signExtend_eq_setWidth_of_msb_false hf]
      exact iff_of_true rfl (.inl h)
    · have ht : (BitVec.ofInt 32 n).msb=true := by
        rw [hm,decide_eq_true_iff]
        omega
      refine iff_of_false (fun hc => ?_) fun hg => hg.elim h (by decide)
      have hb : ((BitVec.ofInt 32 n).setWidth 64).getLsbD 63=((BitVec.ofInt 32 n).signExtend 64).getLsbD 63 :=
        congrArg (BitVec.getLsbD · 63) hc
      rw [BitVec.getLsbD_setWidth,BitVec.getLsbD_signExtend,ht,BitVec.getLsbD_of_ge _ _ (by decide)] at hb
      exact absurd hb (by decide)

/-- The result the limits of `emulate_fcvt_if()` leave of a magnitude `u`. -/
def limited (x : Xlen) (kind : Nat) (negative : Bool) (u : Nat) (flags : Flags) : Word x×Flags :=
  let l := fcvtIfLimits kind negative (BitVec.ofNat 64 u)
  if l.2.1<BitVec.ofNat 64 u then (l.2.2.setWidth x.bits,flags ||| softfloat_flag_invalid)
  else (l.1.setWidth x.bits,flags)

section Limited

variable {u : Nat} (hu : u<2^64) (flags : Flags)
include hu

theorem ofNat_lt (n : Nat) (hn : n<2^64) : BitVec.ofNat 64 n<BitVec.ofNat 64 u ↔ n<u := by
  rw [BitVec.lt_def,BitVec.toNat_ofNat,BitVec.toNat_ofNat,Nat.mod_eq_of_lt hn,Nat.mod_eq_of_lt hu]

theorem limited_w : limited x 0 false u flags=
    if u<2^31 then (intWord x 0 u,flags) else (intWord x 0 (2^31-1),flags ||| softfloat_flag_invalid) := by
  have hl : (0x7fffffff : BitVec 64)<BitVec.ofNat 64 u ↔ ¬u<2^31 := by
    rw [show (0x7fffffff : BitVec 64)=BitVec.ofNat 64 0x7fffffff from rfl,ofNat_lt hu _ (by decide)]
    omega
  have hmax : (0x7fffffff : BitVec 64).setWidth x.bits=intWord x 0 (2^31-1) := by cases x <;> decide
  simp only [limited,fcvtIfLimits,Bool.false_eq_true,if_false,hl]
  by_cases h : u<2^31
  · rw [if_neg (not_not.mpr h),if_pos h,signExtend_setWidth,setWidth_ofNat]
    rfl
  · rw [if_pos h,if_neg h,hmax]

theorem limited_w_neg : limited x 0 true u flags=
    if u ≤ 2^31 then (intWord x 0 (-u),flags)
    else ((0x80000000 : BitVec 64).setWidth x.bits,flags ||| softfloat_flag_invalid) := by
  have hl : (0x80000000 : BitVec 64)<BitVec.ofNat 64 u ↔ ¬u ≤ 2^31 := by
    rw [show (0x80000000 : BitVec 64)=BitVec.ofNat 64 0x80000000 from rfl,ofNat_lt hu _ (by decide)]
    omega
  simp only [limited,fcvtIfLimits,if_true,hl]
  by_cases h : u ≤ 2^31
  · rw [if_neg (not_not.mpr h),if_pos h,signExtend_setWidth,setWidth_neg]
    rfl
  · rw [if_pos h,if_neg h]

theorem limited_wu : limited x 1 false u flags=
    if u<2^32 then ((BitVec.ofInt 32 u).setWidth x.bits,flags)
    else ((0xffffffff : BitVec 64).setWidth x.bits,flags ||| softfloat_flag_invalid) := by
  have hl : (0xffffffff : BitVec 64)<BitVec.ofNat 64 u ↔ ¬u<2^32 := by
    rw [show (0xffffffff : BitVec 64)=BitVec.ofNat 64 0xffffffff from rfl,ofNat_lt hu _ (by decide)]
    omega
  simp only [limited,fcvtIfLimits,Bool.false_eq_true,if_false,hl]
  by_cases h : u<2^32
  · rw [if_neg (not_not.mpr h),if_pos h,setWidth_ofNat]
    exact congrArg (·,flags) (BitVec.setWidth_setWidth_of_le _ x.bits_le)
  · rw [if_pos h,if_neg h]

theorem limited_wu_neg : limited x 1 true u flags=
    if u=0 then (0,flags)
    else ((0xffffffff : BitVec 64).setWidth x.bits,flags ||| softfloat_flag_invalid) := by
  have hl : (0 : BitVec 64)<BitVec.ofNat 64 u ↔ ¬u=0 := by
    rw [show (0 : BitVec 64)=BitVec.ofNat 64 0 from rfl,ofNat_lt hu _ (by decide)]
    omega
  simp only [limited,fcvtIfLimits,if_true,hl]
  by_cases h : u=0
  · rw [if_neg (not_not.mpr h),if_pos h]
    simp
  · rw [if_pos h,if_neg h]

theorem limited_l : limited .rv64 2 false u flags=
    if u<2^63 then (intWord .rv64 2 u,flags)
    else (intWord .rv64 2 (2^63-1),flags ||| softfloat_flag_invalid) := by
  have hl : BitVec.intMax 64<BitVec.ofNat 64 u ↔ ¬u<2^63 := by
    rw [show BitVec.intMax 64=BitVec.ofNat 64 (2^63-1) from by decide,ofNat_lt hu _ (by decide)]
    omega
  simp only [limited,fcvtIfLimits,Bool.false_eq_true,if_false,hl]
  by_cases h : u<2^63
  · rw [if_neg (not_not.mpr h),if_pos h,intWord_high (by decide),BitVec.ofInt_natCast]
    exact congrArg (·,flags) (BitVec.setWidth_eq _)
  · rw [if_pos h,if_neg h]
    rfl

theorem limited_l_neg : limited .rv64 2 true u flags=
    if u ≤ 2^63 then (intWord .rv64 2 (-u),flags)
    else (intWord .rv64 2 (-2^63),flags ||| softfloat_flag_invalid) := by
  have hl : BitVec.intMin 64<BitVec.ofNat 64 u ↔ ¬u ≤ 2^63 := by
    rw [show BitVec.intMin 64=BitVec.ofNat 64 (2^63) from by decide,ofNat_lt hu _ (by decide)]
    omega
  simp only [limited,fcvtIfLimits,if_true,hl]
  by_cases h : u ≤ 2^63
  · rw [if_neg (not_not.mpr h),if_pos h,intWord_high (by decide),neg_ofNat]
    exact congrArg (·,flags) (BitVec.setWidth_eq _)
  · rw [if_pos h,if_neg h]
    rfl

theorem limited_lu : limited .rv64 3 false u flags=(intWord .rv64 3 u,flags) := by
  have hl : ¬BitVec.allOnes 64<BitVec.ofNat 64 u := by
    rw [show BitVec.allOnes 64=BitVec.ofNat 64 (2^64-1) from by decide,ofNat_lt hu _ (by decide)]
    omega
  simp only [limited,fcvtIfLimits,Bool.false_eq_true,if_false,hl]
  rw [intWord_high (by decide),BitVec.ofInt_natCast]
  exact congrArg (·,flags) (BitVec.setWidth_eq _)

theorem limited_lu_neg : limited .rv64 3 true u flags=
    if u=0 then (0,flags) else (intWord .rv64 3 (2^64-1),flags ||| softfloat_flag_invalid) := by
  have hl : (0 : BitVec 64)<BitVec.ofNat 64 u ↔ ¬u=0 := by
    rw [show (0 : BitVec 64)=BitVec.ofNat 64 0 from rfl,ofNat_lt hu _ (by decide)]
    omega
  simp only [limited,fcvtIfLimits,if_true,hl]
  by_cases h : u=0
  · rw [if_neg (not_not.mpr h),if_pos h]
    rfl
  · rw [if_pos h,if_neg h]
    rfl

end Limited

/-- The conversions of softfloat the emulator builds on: an `f32_to_f64()` that keeps values and turns
NaNs into the default one, and an `f64_to_ui64()` that is right on what has no sign. -/
structure Softfloat.ToIntegersCorrect (sf : Softfloat) : Prop where
  widenNaN : ∀ {a negative signaling},f32Value a=.nan negative signaling →
    sf.f32ToF64 a=(0x7ff8000000000000,if signaling then softfloat_flag_invalid else 0)
  widen : ∀ {a},(∀ negative signaling,f32Value a≠.nan negative signaling) →
    f64Value (sf.f32ToF64 a).1=f32Value a ∧ (sf.f32ToF64 a).2=0
  toUi64 : ∀ (mode : RoundingMode) {a : BitVec 64},a.msb=false →
    sf.f64ToUi64 (roundingCode mode) a=
      (BitVec.ofInt 64 (toInteger mode 3 (f64Value a)).1,(toInteger mode 3 (f64Value a)).2)

/-- The values that the code converts as the ISA does. The magnitude is rounded in the mode of the
signed number, limits are put on after that, and the results of W and WU are extended by hand. -/
def ConvertedRight (x : Xlen) (mode : RoundingMode) (fmt : Fmt) : Nat → FloatValue → Prop
  | 0,.nan negative _ => fmt=.S ∨ negative=false
  | 0,.inf negative => negative=false ∨ x=.rv32
  | 0,.finite false m => mode.round m<2^31 ∨ m=⌊m⌋
  | 0,.finite true m => m=⌊m⌋ ∧ (m ≤ 2^31 ∨ x=.rv32) ∨
      m≠⌊m⌋ ∧ mode.Undirected ∧ mode.round m ≤ 2^31
  | 1,.nan _ _ => x=.rv32
  | 1,.inf negative => negative=false ∧ x=.rv32
  | 1,.finite false m => mode.round m<2^31 ∨ x=.rv32 ∧ (mode.round m<2^32 ∨ m=⌊m⌋)
  | 1,.finite true m => m=0 ∨ mode.Undirected ∧ mode.round m=0
  | 2,.nan negative _ => fmt=.S ∨ negative=false
  | 2,.inf _ => True
  | 2,.finite negative m => negative=true → m=⌊m⌋ ∨ mode.Undirected
  | _,.nan _ _ => True
  | _,.inf negative => negative=false
  | _,.finite negative m => negative=true → m=0 ∨ mode.Undirected ∧ mode.round m=0

/-- The magnitude `f64_to_ui64()` returns, and its flags. -/
def magnitudeOf (mode : RoundingMode) (m : ℚ) : Nat := min (mode.round m).toNat (2^64-1)

def magnitudeFlags (mode : RoundingMode) (m : ℚ) : Flags :=
  if 2^64 ≤ mode.round m then softfloat_flag_invalid
  else if (mode.round m : ℚ)=m then 0 else softfloat_flag_inexact

section Finite

variable {mode : RoundingMode} {m : ℚ}

theorem magnitudeOf_lt : magnitudeOf mode m<2^64 := by
  unfold magnitudeOf
  omega

theorem magnitudeOf_eq (h0 : 0 ≤ m) (h : mode.round m<2^64) : (magnitudeOf mode m : ℤ)=mode.round m := by
  have hr := mode.round_nonneg m h0
  unfold magnitudeOf
  omega

theorem magnitudeOf_ge (h : 2^64 ≤ mode.round m) : magnitudeOf mode m=2^64-1 := by
  unfold magnitudeOf
  omega

theorem round_small (hi : m≠⌊m⌋ → m<2^53) (h : m≠⌊m⌋) (mode : RoundingMode) : mode.round m ≤ 2^53 := by
  apply (mode.round_le_ceil m).trans
  rw [Int.ceil_le]
  exact_mod_cast (hi h).le

theorem magnitudeFlags_small (h : mode.round m<2^64) : magnitudeFlags mode m=
    if (mode.round m : ℚ)=m then 0 else softfloat_flag_inexact := if_neg (not_le.mpr h)

theorem magnitudeFlags_int (h : m=⌊m⌋) (hl : mode.round m<2^64) : magnitudeFlags mode m=0 := by
  rw [magnitudeFlags_small hl,if_pos ((mode.round_eq_iff m).mpr h)]

theorem magnitudeFlags_not_int (hi : m≠⌊m⌋ → m<2^53) (h : m≠⌊m⌋) :
    magnitudeFlags mode m=softfloat_flag_inexact := by
  have hs := round_small hi h mode
  rw [magnitudeFlags_small (by omega),if_neg (fun hc => h ((mode.round_eq_iff m).mp hc))]

/-- An invalid operation is alone unless something inexact came before it. -/
theorem magnitudeFlags_invalid (hi : m≠⌊m⌋ → m<2^53) :
    magnitudeFlags mode m ||| softfloat_flag_invalid=softfloat_flag_invalid ↔ m=⌊m⌋ := by
  by_cases h : m=⌊m⌋
  · apply iff_of_true _ h
    by_cases hl : mode.round m<2^64
    · rw [magnitudeFlags_int h hl]
      decide
    · rw [magnitudeFlags,if_pos (not_lt.mp hl)]
      decide
  · apply iff_of_false _ h
    rw [magnitudeFlags_not_int hi h]
    decide

/-- What the ISA gives for a number of either sign. -/
theorem toInteger_pos (kind : Nat) (h : kindMin kind ≤ mode.round m) :
    toInteger mode kind (.finite false m)=if kindMax kind < mode.round m then
      (kindMax kind,softfloat_flag_invalid)
    else (mode.round m,if (mode.round m : ℚ)=m then 0 else softfloat_flag_inexact) := by
  simp only [toInteger,Bool.false_eq_true,if_false,if_neg (not_lt.mpr h)]

theorem toInteger_neg (kind : Nat) (h : -mode.flip.round m ≤ kindMax kind) :
    toInteger mode kind (.finite true m)=if -mode.flip.round m<kindMin kind then
      (kindMin kind,softfloat_flag_invalid)
    else (-mode.flip.round m,if m=⌊m⌋ then 0 else softfloat_flag_inexact) := by
  have hq : ((-mode.flip.round m : ℤ) : ℚ)=-m ↔ m=⌊m⌋ := by
    rw [Int.cast_neg,neg_inj,RoundingMode.round_eq_iff]
  simp only [toInteger,if_true,RoundingMode.round_neg,if_neg (not_lt.mpr h),hq]

/-- The code's result is the ISA's. -/
def SameResult (x : Xlen) (mode : RoundingMode) (kind : Nat) (negative : Bool) (m : ℚ) : Prop :=
  limited x kind negative (magnitudeOf mode m) (magnitudeFlags mode m)=
    (intWord x kind (toInteger mode kind (.finite negative m)).1,
      (toInteger mode kind (.finite negative m)).2)

theorem inexact_ne_invalid : softfloat_flag_inexact≠softfloat_flag_invalid := by decide

theorem both_ne_invalid : softfloat_flag_inexact ||| softfloat_flag_invalid≠softfloat_flag_invalid := by
  decide

theorem both_ne_inexact : softfloat_flag_inexact ||| softfloat_flag_invalid≠softfloat_flag_inexact := by
  decide

/-- The signed kinds: what is not below the bound is invalid, and inexact beside it when it was rounded. -/
theorem sameResult_signed (h0 : 0 ≤ m) (hi : m≠⌊m⌋ → m<2^53) {kind B : Nat} (hB : B ≤ 2^63)
    (hmin : kindMin kind ≤ 0) (hmax : kindMax kind=B-1)
    (hl : ∀ u<2^64,∀ flags,limited x kind false u flags=
      if u<B then (intWord x kind u,flags) else (intWord x kind (B-1),flags ||| softfloat_flag_invalid)) :
    SameResult x mode kind false m ↔ mode.round m<B ∨ m=⌊m⌋ := by
  have hr := mode.round_nonneg m h0
  unfold SameResult
  rw [hl _ magnitudeOf_lt,toInteger_pos kind (hmin.trans hr),hmax]
  by_cases h : mode.round m<B
  · have hu : (magnitudeOf mode m : ℤ)=mode.round m := magnitudeOf_eq h0 (by omega)
    rw [if_pos (by omega),if_neg (by omega),hu,magnitudeFlags_small (by omega)]
    exact iff_of_true rfl (.inl h)
  · have hu : ¬magnitudeOf mode m<B := by
      unfold magnitudeOf
      omega
    rw [if_neg hu,if_pos (by omega),Prod.mk.injEq,magnitudeFlags_invalid hi]
    exact ⟨fun hx => .inr hx.2,fun hx => ⟨rfl,hx.resolve_left h⟩⟩

theorem sameResult_w (h0 : 0 ≤ m) (hi : m≠⌊m⌋ → m<2^53) :
    SameResult x mode 0 false m ↔ mode.round m<2^31 ∨ m=⌊m⌋ :=
  sameResult_signed h0 hi (by decide) (by decide) rfl fun _ hu flags => limited_w hu flags

/-- The signed kinds of a negative number. It is rounded as its magnitude, and `limit` is right where it
is the least number of the kind. -/
theorem sameResult_signed_neg (h0 : 0 ≤ m) (hi : m≠⌊m⌋ → m<2^53) {kind B : Nat} {limit : Word x}
    (hB : 2^31 ≤ B) (hB' : B ≤ 2^63) (hmin : kindMin kind=-B) (hmax : 0 ≤ kindMax kind)
    (hinj : ∀ {a b : ℤ},-B ≤ a → a ≤ 0 → -B ≤ b → b ≤ 0 → intWord x kind a=intWord x kind b → a=b)
    (hl : ∀ u<2^64,∀ flags,limited x kind true u flags=
      if u ≤ B then (intWord x kind (-u),flags) else (limit,flags ||| softfloat_flag_invalid)) :
    SameResult x mode kind true m ↔ m=⌊m⌋ ∧ (⌊m⌋ ≤ B ∨ limit=intWord x kind (-B)) ∨
      m≠⌊m⌋ ∧ mode.Undirected ∧ mode.round m ≤ B := by
  have hr := mode.round_nonneg m h0
  have hn := mode.flip.round_nonneg m h0
  unfold SameResult
  rw [hl _ magnitudeOf_lt,toInteger_neg kind (by omega),hmin]
  by_cases hm : m=⌊m⌋
  · have hR : mode.round m=⌊m⌋ := mode.round_of_int hm
    have hN : mode.flip.round m=⌊m⌋ := mode.flip.round_of_int hm
    have hc : (m=⌊m⌋ ∧ (⌊m⌋ ≤ B ∨ limit=intWord x kind (-B)) ∨
        m≠⌊m⌋ ∧ mode.Undirected ∧ mode.round m ≤ B) ↔ (⌊m⌋ ≤ B ∨ limit=intWord x kind (-B)) :=
      ⟨fun h => h.elim And.right fun g => absurd hm g.1,fun h => .inl ⟨hm,h⟩⟩
    rw [hN,hc]
    by_cases h : ⌊m⌋ ≤ B
    · have hu : (magnitudeOf mode m : ℤ)=⌊m⌋ := by rw [magnitudeOf_eq h0 (by omega),hR]
      rw [if_pos (by omega),if_neg (by omega),hu,magnitudeFlags_int hm (by omega),if_pos hm]
      exact iff_of_true rfl (.inl h)
    · have hu : ¬magnitudeOf mode m ≤ B := by
        unfold magnitudeOf
        omega
      rw [if_neg hu,if_pos (by omega),(magnitudeFlags_invalid hi).mpr hm,Prod.mk.injEq,or_iff_right h]
      exact and_iff_left rfl
  · have hR := round_small hi hm mode
    have hN := round_small hi hm mode.flip
    have hc : (m=⌊m⌋ ∧ (⌊m⌋ ≤ B ∨ limit=intWord x kind (-B)) ∨
        m≠⌊m⌋ ∧ mode.Undirected ∧ mode.round m ≤ B) ↔ mode.Undirected ∧ mode.round m ≤ B :=
      ⟨fun h => h.elim (fun g => absurd g.1 hm) And.right,fun h => .inr ⟨hm,h⟩⟩
    rw [magnitudeFlags_not_int hi hm,if_neg hm,hc]
    by_cases h : mode.round m ≤ B
    · have hu : (magnitudeOf mode m : ℤ)=mode.round m := magnitudeOf_eq h0 (by omega)
      rw [if_pos (by omega),hu]
      by_cases hd : mode.Undirected
      · rw [RoundingMode.flip_eq_of_undirected m hd,if_neg (by omega)]
        exact iff_of_true rfl ⟨hd,h⟩
      · have hne : mode.flip.round m≠mode.round m := RoundingMode.flip_ne_of_directed hd hm
        refine iff_of_false (fun hg => ?_) fun hg => hd hg.1
        split at hg
        · exact inexact_ne_invalid (congrArg Prod.snd hg)
        · have hw := hinj (by omega) (by omega) (by omega) (by omega) (congrArg Prod.fst hg)
          omega
    · have hu : ¬magnitudeOf mode m ≤ B := by
        unfold magnitudeOf
        omega
      rw [if_neg hu]
      refine iff_of_false (fun hg => ?_) fun hg => h hg.2
      split at hg
      · exact both_ne_invalid (congrArg Prod.snd hg)
      · exact both_ne_inexact (congrArg Prod.snd hg)

theorem intWord_inj {kind B : Nat} (hk : kind<2 ∧ B=2^31 ∨ 2 ≤ kind ∧ x=.rv64 ∧ B=2^63) {a b : ℤ}
    (ha : -B ≤ a) (ha' : a ≤ 0) (hb : -B ≤ b) (hb' : b ≤ 0) (h : intWord x kind a=intWord x kind b) : a=b := by
  obtain ⟨h2,rfl⟩ | ⟨h2,rfl,rfl⟩ := hk
  · rw [intWord_low h2,intWord_low h2,signExtend_inj] at h
    exact (ofInt_inj (by decide) (by omega) (by omega) (by omega) (by omega)).mp h
  · rw [intWord_high h2,intWord_high h2] at h
    exact (ofInt_inj (by decide) (by omega) (by omega) (by omega) (by omega)).mp h

/-- On RV64 the limit of W is put into the register without its sign extension. -/
theorem minWord_w : (0x80000000 : BitVec 64).setWidth x.bits=intWord x 0 (-(2^31 : ℕ)) ↔ x=.rv32 := by
  cases x with
  | rv32 => exact iff_of_true (by rfl) rfl
  | rv64 => exact iff_of_false (by unfold intWord; decide) (by decide)

theorem floor_le_iff (h : m=⌊m⌋) (B : Nat) : ⌊m⌋ ≤ B ↔ m ≤ B := by
  have hq : m ≤ B ↔ ((⌊m⌋ : ℤ) : ℚ) ≤ B := by rw [← h]
  rw [hq]
  exact_mod_cast Iff.rfl

theorem sameResult_w_neg (h0 : 0 ≤ m) (hi : m≠⌊m⌋ → m<2^53) : SameResult x mode 0 true m ↔
    m=⌊m⌋ ∧ (m ≤ 2^31 ∨ x=.rv32) ∨ m≠⌊m⌋ ∧ mode.Undirected ∧ mode.round m ≤ 2^31 := by
  have hs : SameResult x mode 0 true m ↔ _ := sameResult_signed_neg (B := 2^31) h0 hi le_rfl (by decide)
    (by decide) (by decide) (intWord_inj (.inl ⟨by decide,rfl⟩)) fun _ hu flags => limited_w_neg hu flags
  rw [hs,minWord_w]
  refine or_congr (and_congr_right fun hm => ?_) Iff.rfl
  rw [floor_le_iff hm]
  push_cast
  rfl

/-- `UINT32_MAX` is put into the register without its sign extension. -/
theorem maxWord_wu : (0xffffffff : BitVec 64).setWidth x.bits=intWord x 1 (kindMax 1) ↔ x=.rv32 := by
  cases x with
  | rv32 => exact iff_of_true (by rfl) rfl
  | rv64 => exact iff_of_false (by unfold intWord; decide) (by decide)

theorem sameResult_wu (h0 : 0 ≤ m) (hi : m≠⌊m⌋ → m<2^53) : SameResult x mode 1 false m ↔
    mode.round m<2^31 ∨ x=.rv32 ∧ (mode.round m<2^32 ∨ m=⌊m⌋) := by
  have hr := mode.round_nonneg m h0
  unfold SameResult
  rw [limited_wu magnitudeOf_lt,toInteger_pos 1 (by simp only [kindMin]; omega)]
  by_cases h : mode.round m<2^32
  · have hu : (magnitudeOf mode m : ℤ)=mode.round m := magnitudeOf_eq h0 (by omega)
    rw [if_pos (by omega),if_neg (by simp only [kindMax]; omega),hu,magnitudeFlags_small (by omega),
      intWord_low (by decide),Prod.mk.injEq,setWidth_eq_signExtend hr h]
    constructor
    · intro hx
      exact hx.1.imp id fun hx => ⟨hx,.inl h⟩
    · intro hx
      exact ⟨hx.imp id And.left,rfl⟩
  · have hu : ¬magnitudeOf mode m<2^32 := by
      unfold magnitudeOf
      omega
    rw [if_neg hu,if_pos (by simp only [kindMax]; omega),Prod.mk.injEq,magnitudeFlags_invalid hi]
    constructor
    · intro hx
      exact .inr ⟨maxWord_wu.mp hx.1,.inr hx.2⟩
    · intro hx
      obtain hx | hx := hx
      · omega
      · exact ⟨maxWord_wu.mpr hx.1,hx.2.resolve_left h⟩

/-- A negative number that does not round to zero gets the unsigned limit where the ISA gives zero. -/
theorem sameResult_unsigned_neg (h0 : 0 ≤ m) {kind : Nat} (hk : kindMin kind=0)
    (hk' : 0 ≤ kindMax kind) (hz : intWord x kind 0=0) {limit : Word x} (hg : limit≠0)
    (hl : ∀ u<2^64,∀ flags,limited x kind true u flags=
      if u=0 then (0,flags) else (limit,flags ||| softfloat_flag_invalid)) :
    SameResult x mode kind true m ↔ m=0 ∨ mode.Undirected ∧ mode.round m=0 := by
  have hr := mode.round_nonneg m h0
  have hn := mode.flip.round_nonneg m h0
  unfold SameResult
  rw [hl _ magnitudeOf_lt,toInteger_neg kind (by omega),hk]
  by_cases hR : mode.round m=0
  · have hu : magnitudeOf mode m=0 := by
      unfold magnitudeOf
      omega
    have hint : m=⌊m⌋ ↔ m=0 := by
      rw [← mode.round_eq_iff,hR,Int.cast_zero]
      exact eq_comm
    rw [if_pos hu,magnitudeFlags_small (by omega)]
    simp only [RoundingMode.round_eq_iff,hint]
    by_cases hm : m=0
    · have hN : mode.flip.round m=0 := by
        rw [hm]
        exact mode.flip.round_intCast 0
      rw [hN,if_pos hm,if_neg (by omega)]
      exact iff_of_true (by rw [neg_zero,hz]) (.inl hm)
    · have hmi : m≠⌊m⌋ := fun h => hm (hint.mp h)
      rw [if_neg hm]
      by_cases hd : mode.Undirected
      · rw [RoundingMode.flip_eq_of_undirected m hd,hR,if_neg (by omega)]
        exact iff_of_true (by rw [neg_zero,hz]) (.inr ⟨hd,rfl⟩)
      · have hne : mode.flip.round m≠mode.round m := RoundingMode.flip_ne_of_directed hd hmi
        rw [if_pos (by omega)]
        exact iff_of_false (fun hc => inexact_ne_invalid (congrArg Prod.snd hc))
          fun hg => hg.elim hm fun g => hd g.1
  · have hu : magnitudeOf mode m≠0 := by
      unfold magnitudeOf
      omega
    have hv : intWord x kind (if -mode.flip.round m<0 then ((0 : ℤ),softfloat_flag_invalid)
        else (-mode.flip.round m,if m=⌊m⌋ then 0 else softfloat_flag_inexact)).1=0 := by
      split
      · exact hz
      · rename_i hs
        rw [show -mode.flip.round m=0 by omega]
        exact hz
    rw [if_neg hu]
    refine iff_of_false (fun hc => hg ((congrArg Prod.fst hc).trans hv)) fun hgood => ?_
    obtain h | h := hgood
    · apply hR
      rw [h]
      exact mode.round_intCast 0
    · exact hR h.2

theorem sameResult_wu_neg (h0 : 0 ≤ m) :
    SameResult x mode 1 true m ↔ m=0 ∨ mode.Undirected ∧ mode.round m=0 := by
  have hz : intWord x 1 0=0 := by cases x <;> rfl
  have hg : (0xffffffff : BitVec 64).setWidth x.bits≠0 := by cases x <;> decide
  exact sameResult_unsigned_neg h0 rfl (by decide) hz hg fun u hu flags => limited_wu_neg hu flags

theorem sameResult_lu_neg (h0 : 0 ≤ m) :
    SameResult .rv64 mode 3 true m ↔ m=0 ∨ mode.Undirected ∧ mode.round m=0 := by
  have hg : intWord .rv64 3 (2^64-1)≠0 := by unfold intWord; decide
  exact sameResult_unsigned_neg h0 rfl (by decide) rfl hg fun u hu flags => limited_lu_neg hu flags

theorem sameResult_lu (h0 : 0 ≤ m) : SameResult .rv64 mode 3 false m := by
  have hr := mode.round_nonneg m h0
  unfold SameResult
  rw [limited_lu magnitudeOf_lt,toInteger_pos 3 hr]
  by_cases h : mode.round m<2^64
  · rw [if_neg (by simp only [kindMax]; omega),magnitudeOf_eq h0 h,magnitudeFlags_small h]
  · rw [if_pos (by simp only [kindMax]; omega),magnitudeOf_ge (not_lt.mp h),magnitudeFlags,
      if_pos (not_lt.mp h)]
    rfl

theorem sameResult_l (h0 : 0 ≤ m) (hi : m≠⌊m⌋ → m<2^53) : SameResult .rv64 mode 2 false m := by
  have hs : SameResult .rv64 mode 2 false m ↔ _ := sameResult_signed (B := 2^63) h0 hi le_rfl
    (by decide) rfl fun _ hu flags => limited_l hu flags
  apply hs.mpr
  by_cases hm : m=⌊m⌋
  · exact .inr hm
  · have hR := round_small hi hm mode
    left
    push_cast
    omega

theorem sameResult_l_neg (h0 : 0 ≤ m) (hi : m≠⌊m⌋ → m<2^53) :
    SameResult .rv64 mode 2 true m ↔ m=⌊m⌋ ∨ mode.Undirected := by
  have hs : SameResult .rv64 mode 2 true m ↔ _ := sameResult_signed_neg (B := 2^63) h0 hi (by decide)
    le_rfl (by decide) (by decide) (intWord_inj (.inr ⟨by decide,rfl,rfl⟩))
    fun _ hu flags => limited_l_neg hu flags
  rw [hs]
  by_cases hm : m=⌊m⌋
  · exact iff_of_true (.inl ⟨hm,.inr rfl⟩) (.inl hm)
  · have hR := round_small hi hm mode
    have hle : mode.round m ≤ (2^63 : ℕ) := by
      push_cast
      omega
    exact ⟨fun h => h.elim (fun g => .inl g.1) fun g => .inr g.2.1,
      fun h => .inr ⟨hm,h.resolve_left hm,hle⟩⟩

/-- All kinds of a finite number. -/
theorem sameResult_iff (fmt : Fmt) (h0 : 0 ≤ m) (hi : m≠⌊m⌋ → m<2^53) {kind : Nat}
    (hk : kind<fcvtIfKinds x) (negative : Bool) :
    SameResult x mode kind negative m ↔ ConvertedRight x mode fmt kind (.finite negative m) := by
  have hlow : kind<2 ∨ x=.rv64 ∧ kind<4 := by
    cases x with
    | rv32 => exact .inl hk
    | rv64 => exact .inr ⟨rfl,hk⟩
  obtain h2 | ⟨rfl,h4⟩ := hlow
  · interval_cases kind <;> cases negative
    · exact sameResult_w h0 hi
    · exact sameResult_w_neg h0 hi
    · exact sameResult_wu h0 hi
    · exact sameResult_wu_neg h0
  · interval_cases kind <;> cases negative
    · exact sameResult_w h0 hi
    · exact sameResult_w_neg h0 hi
    · exact sameResult_wu h0 hi
    · exact sameResult_wu_neg h0
    · exact iff_of_true (sameResult_l h0 hi) nofun
    · exact (sameResult_l_neg h0 hi).trans ⟨fun h _ => h,fun h => h rfl⟩
    · exact iff_of_true (sameResult_lu h0) nofun
    · exact (sameResult_lu_neg h0).trans ⟨fun h _ => h,fun h => h rfl⟩

end Finite

section Special

/-- What is out of every range, as infinities and NaNs are. -/
def outOfRange (x : Xlen) (kind : Nat) (negative : Bool) : Word x×Flags :=
  limited x kind negative (2^64-1) softfloat_flag_invalid

theorem outOfRange_nan {kind : Nat} (hk : kind<fcvtIfKinds x) (mode : RoundingMode)
    (negative signaling : Bool) : outOfRange x kind negative=
      (intWord x kind (kindMax kind),softfloat_flag_invalid) ↔
    ConvertedRight x mode .D kind (.nan negative signaling) := by
  cases x with
  | rv32 =>
    have h2 : kind<2 := hk
    interval_cases kind <;> cases negative <;> simp only [ConvertedRight] <;> decide
  | rv64 =>
    have h4 : kind<4 := hk
    interval_cases kind <;> cases negative <;> simp only [ConvertedRight] <;> decide

theorem outOfRange_inf {kind : Nat} (hk : kind<fcvtIfKinds x) (mode : RoundingMode) (fmt : Fmt)
    (negative : Bool) : outOfRange x kind negative=
      (intWord x kind (if negative then kindMin kind else kindMax kind),softfloat_flag_invalid) ↔
    ConvertedRight x mode fmt kind (.inf negative) := by
  cases x with
  | rv32 =>
    have h2 : kind<2 := hk
    interval_cases kind <;> cases negative <;> simp only [ConvertedRight] <;> decide
  | rv64 =>
    have h4 : kind<4 := hk
    interval_cases kind <;> cases negative <;> simp only [ConvertedRight] <;> decide

end Special
end OpenSBI
