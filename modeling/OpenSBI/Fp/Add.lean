import OpenSBI.Fp.Operands

namespace OpenSBI

open Math

namespace Fmt

/-- The end of the sums of significands whose exponents differ. -/
def addMagsEnd (f : Fmt) (rm : BitVec 32) (signZ : Bool) (expZ : ℤ) (sigA sigB : Nat) :
    BitVec f.width×Flags :=
  let sigZ := 2^(f.width-3)+sigA+sigB
  if sigZ<2^(f.width-2) then f.roundPack rm signZ (expZ-1) (sigZ <<< 1) else f.roundPack rm signZ expZ sigZ

/-- The body shared by `softfloat_addMagsF32()` and `softfloat_addMagsF64()`; only the first packs an even
sum at once. -/
def addMags (f : Fmt) (rm : BitVec 32) (uiA uiB : BitVec f.width) (signZ : Bool) : BitVec f.width×Flags :=
  let expA := f.expUI uiA
  let sigA := f.fracUI uiA
  let expB := f.expUI uiB
  let sigB := f.fracUI uiB
  let expDiff : ℤ := expA-expB
  if expDiff=0 then
    if expA=0 then (uiA+BitVec.ofNat f.width sigB,0)
    else if expA=f.expMax then
      if sigA ||| sigB≠0 then f.propagateNaN uiA uiB else (uiA,0)
    else
      let sigZ := 2^(f.format.fracBits+1)+sigA+sigB
      if f=.S ∧ sigZ%2=0 ∧ expA<f.expMax-1 then (f.packToUI signZ expA (sigZ >>> 1),0)
      else f.roundPack rm signZ expA (sigZ <<< (f.guardBits-1))
  else
    let sigA := sigA <<< (f.guardBits-1)
    let sigB := sigB <<< (f.guardBits-1)
    if expDiff<0 then
      if expB=f.expMax then
        if sigB≠0 then f.propagateNaN uiA uiB else (f.packToUI signZ f.expMax 0,0)
      else
        let sigA := sigA+if expA≠0 then 2^(f.width-3) else sigA
        f.addMagsEnd rm signZ expB (shiftRightJam f.width sigA (-expDiff).toNat) sigB
    else if expA=f.expMax then
      if sigA≠0 then f.propagateNaN uiA uiB else (uiA,0)
    else
      let sigB := sigB+if expB≠0 then 2^(f.width-3) else sigB
      f.addMagsEnd rm signZ expA sigA (shiftRightJam f.width sigB expDiff.toNat)

/-- The body shared by `softfloat_subMagsF32()` and `softfloat_subMagsF64()`. -/
def subMags (f : Fmt) (rm : BitVec 32) (uiA uiB : BitVec f.width) (signZ : Bool) : BitVec f.width×Flags :=
  let expA := f.expUI uiA
  let sigA := f.fracUI uiA
  let expB := f.expUI uiB
  let sigB := f.fracUI uiB
  let expDiff : ℤ := expA-expB
  if expDiff=0 then
    if expA=f.expMax then
      if sigA ||| sigB≠0 then f.propagateNaN uiA uiB else (f.canonicalNaN,softfloat_flag_invalid)
    else
      let sigDiff : ℤ := sigA-sigB
      if sigDiff=0 then (f.packToUI (decide (rm=softfloat_round_min)) 0 0,0)
      else
        let expA : ℤ := if expA≠0 then expA-1 else expA
        let signZ := if sigDiff<0 then !signZ else signZ
        let sigDiff := if sigDiff<0 then -sigDiff else sigDiff
        let shiftDist : ℤ := f.countLeadingZeros sigDiff.toNat-(f.guardBits+1)
        let expZ := expA-shiftDist
        if expZ<0 then (f.packToUI signZ 0 (sigDiff.toNat <<< expA.toNat),0)
        else (f.packToUI signZ expZ (sigDiff.toNat <<< shiftDist.toNat),0)
  else
    let sigA := sigA <<< f.guardBits
    let sigB := sigB <<< f.guardBits
    if expDiff<0 then
      if expB=f.expMax then
        if sigB≠0 then f.propagateNaN uiA uiB else (f.packToUI (!signZ) f.expMax 0,0)
      else
        let sigX := sigB ||| 2^(f.width-2)
        let sigY := sigA+if expA≠0 then 2^(f.width-2) else sigA
        f.normRoundPack rm (!signZ) (expB-1) (sigX-shiftRightJam f.width sigY (-expDiff).toNat)
    else if expA=f.expMax then
      if sigA≠0 then f.propagateNaN uiA uiB else (uiA,0)
    else
      let sigX := sigA ||| 2^(f.width-2)
      let sigY := sigB+if expB≠0 then 2^(f.width-2) else sigB
      f.normRoundPack rm signZ (expA-1) (sigX-shiftRightJam f.width sigY expDiff.toNat)

end Fmt

namespace Fmt

section Align

variable {f : Fmt} {a : BitVec f.width} {c D E : ℕ}

/-- A significand moved up by `c` bits, by one more when its exponent is that of the subnormals. -/
def aligned (f : Fmt) (c : Nat) (a : BitVec f.width) : Nat :=
  f.fracUI a <<< c+if f.expUI a≠0 then 2^(f.format.fracBits+c) else f.fracUI a <<< c

theorem aligned_mul (c : ℕ) (a : BitVec f.width) :
    f.aligned c a*2^f.expUI a=f.sigOf a*2^max (f.expUI a) 1*2^c := by
  rw [aligned,sigOf,Nat.shiftLeft_eq]
  by_cases h : f.expUI a=0
  · rw [if_neg (not_not.mpr h),if_pos h,h,Nat.max_eq_right (by decide)]
    ring
  · rw [if_pos h,if_neg h,Nat.max_eq_left (by omega)]
    ring

theorem aligned_lt (c : ℕ) (a : BitVec f.width) : f.aligned c a<2^(f.format.fracBits+c+1) := by
  have h := fracUI_lt a
  have hm : f.fracUI a <<< c<2^(f.format.fracBits+c) := by
    rw [Nat.shiftLeft_eq,pow_add]
    exact Nat.mul_lt_mul_of_pos_right h (Nat.two_pow_pos c)
  rw [aligned,pow_succ]
  split <;> omega

/-- The smaller operand on the scale of the larger one. -/
theorem aligned_value (hD : f.expUI a+D=E) :
    (f.aligned c a : ℚ)/2^D*2^((E : ℤ)-(f.format.bias+f.format.fracBits)-c)=
      f.magOf a := by
  have h : (f.aligned c a : ℚ)*2^f.expUI a=f.sigOf a*2^max (f.expUI a) 1*2^c := by
    exact_mod_cast aligned_mul c a
  rw [magOf,← hD,sub_sub,zpow_sub₀ two_ne_zero,zpow_natCast,pow_add,
    show ((f.format.bias : ℤ)+f.format.fracBits+c)=((f.format.bias+f.format.fracBits+c : ℕ) : ℤ) by push_cast; rfl,
    zpow_natCast,pow_add _ _ c]
  field_simp
  linarith

theorem sig_value (s c E : ℕ) : ((s*2^c : ℕ) : ℚ)*2^((E : ℤ)-(f.format.bias+f.format.fracBits)-c)=
    s*2^E/2^(f.format.bias+f.format.fracBits) := by
  rw [sub_sub,zpow_sub₀ two_ne_zero,zpow_natCast,
    show ((f.format.bias : ℤ)+f.format.fracBits+c)=((f.format.bias+f.format.fracBits+c : ℕ) : ℤ) by push_cast; rfl,
    zpow_natCast,pow_add _ _ c]
  push_cast
  field_simp

end Align

section Ends

variable {f : Fmt} {mode : RoundingMode} {sign : Bool}

theorem sizes (f : Fmt) : 3 ≤ f.guardBits ∧ f.width ≤ 64 ∧ f.expMax ≤ 2047 := by cases f <;> decide

/-- An even number and what is jammed keep their sum's place. -/
theorem sameCut_add {s : ℕ} (hs : s%2=0) (y D : ℕ) :
    SameCut 2 ((s : ℚ)+(y : ℚ)/2^D) ((s+jam y (2^D) : ℕ) : ℚ) := by
  have h := (sameCut_jam y (Nat.two_pow_pos D)).add_mul (s/2 : ℕ)
  have he : (((s/2 : ℕ) : ℤ) : ℚ)*2=s := by
    have : s/2*2=s := by omega
    exact_mod_cast this
  rw [he] at h
  push_cast at h ⊢
  exact h

theorem sameCut_sub {s : ℕ} (hs : s%2=0) {y D : ℕ} (hle : jam y (2^D) ≤ s) :
    SameCut 2 ((s : ℚ)-(y : ℚ)/2^D) ((s-jam y (2^D) : ℕ) : ℚ) := by
  have h := (sameCut_jam y (Nat.two_pow_pos D)).neg.add_mul (s/2 : ℕ)
  have he : (((s/2 : ℕ) : ℤ) : ℚ)*2=s := by
    have : s/2*2=s := by omega
    exact_mod_cast this
  rw [he] at h
  rw [Nat.cast_sub hle,sub_eq_add_neg,sub_eq_add_neg]
  push_cast at h ⊢
  exact h

theorem addMagsEnd_shows {E x y D : ℕ} (hE : E<f.expMax) (hx : x<2^f.format.fracBits) (hD : 1 ≤ D)
    (hy : y<2^(f.width-2)) :
    f.Shows (f.addMagsEnd (roundingCode mode) sign E (x <<< (f.guardBits-1)) (shiftRightJam f.width y D))
      (f.format.roundTo mode sign ((((2^f.format.fracBits+x)*2^(f.guardBits-1) : ℕ)+(y : ℚ)/2^D)*
        2^((E : ℤ)-(f.format.bias+f.format.fracBits)-(f.guardBits-1 : ℕ)))) := by
  have hw := f.width_eq
  obtain ⟨hg3,hw64,hmax⟩ := f.sizes
  have hjam : shiftRightJam f.width y D=jam y (2^D) :=
    shiftRightJam_eq (by omega) hD (hy.trans_le (Nat.pow_le_pow_right (by decide) (by omega)))
  have hjlt : jam y (2^D)<2^(f.width-3) :=
    jam_lt (by omega) (hy.trans_le (Nat.pow_le_pow_right (by decide) (by omega)))
  have hp3 : 2^(f.width-3)=2^f.format.fracBits*2^(f.guardBits-1) := by
    rw [← pow_add]
    congr 1
    omega
  have hp2 : 2^(f.width-2)=2*2^(f.width-3) := by
    rw [← pow_succ']
    congr 1
    omega
  have hp1 : 2^(f.width-1)=4*2^(f.width-3) := by
    rw [show 4=2^2 from rfl,← pow_add]
    congr 1
    omega
  have hxlt : x*2^(f.guardBits-1)<2^(f.width-3) := by
    rw [hp3]
    exact Nat.mul_lt_mul_of_pos_right hx (Nat.two_pow_pos _)
  have hsig : 2^(f.width-3)+x <<< (f.guardBits-1)+jam y (2^D)=
      (2^f.format.fracBits+x)*2^(f.guardBits-1)+jam y (2^D) := by
    rw [Nat.shiftLeft_eq,hp3]
    ring
  have heven : (2^f.format.fracBits+x)*2^(f.guardBits-1)%2=0 := by
    obtain ⟨j,hj⟩ := Nat.exists_eq_add_of_le (show 1 ≤ f.guardBits-1 by omega)
    rw [hj,pow_add,pow_one,Nat.mul_left_comm]
    exact Nat.mul_mod_right 2 _
  have hsum : (2^f.format.fracBits+x)*2^(f.guardBits-1)=2^(f.width-3)+x*2^(f.guardBits-1) := by
    rw [hp3]
    ring
  have hcut := sameCut_add heven y D
  set s := (2^f.format.fracBits+x)*2^(f.guardBits-1)
  set k0 := (E : ℤ)-(f.format.bias+f.format.fracBits)-(f.guardBits-1 : ℕ) with hk0
  have hcut' : SameCut (2^(k0+1)) (((s : ℕ)+(y : ℚ)/2^D)*2^k0) ((s+jam y (2^D) : ℕ)*2^k0) := by
    have h := hcut.scale (show (0 : ℚ)<2^k0 by positivity)
    rwa [← zpow_add_one₀ two_ne_zero,mul_comm _ ((s : ℚ)+_),mul_comm _ (((s+jam y (2^D) : ℕ) : ℚ))] at h
  rw [addMagsEnd,hjam]
  simp only [hsig]
  split
  · rename_i hlt
    have hdouble : (((s+jam y (2^D)) <<< 1 : ℕ) : ℚ)*2^(k0-1)=(s+jam y (2^D) : ℕ)*2^k0 := by
      rw [Nat.shiftLeft_eq,zpow_sub_one₀ two_ne_zero]
      push_cast
      field_simp
    have hs1 : (s+jam y (2^D)) <<< 1=2*(s+jam y (2^D)) := by
      rw [Nat.shiftLeft_eq]
      ring
    apply roundPack_shows (k := k0-1) (by omega) (by omega) (by omega) (by omega)
    rw [hdouble]
    exact hcut'.widen_pow (by omega)
  · apply roundPack_shows (k := k0) (by omega) (by omega) (by omega) (by omega)
    exact hcut'.widen_pow (by omega)

theorem subMagsEnd_shows {E x y D : ℕ} (hE : E<f.expMax) (hx : x<2^f.format.fracBits) (hD : 1 ≤ D)
    (hy : y<2^(f.width-1)) (heven : D=1 → y%2=0) :
    f.Shows (f.normRoundPack (roundingCode mode) sign ((E : ℤ)-1)
        ((x <<< f.guardBits ||| 2^(f.width-2))-shiftRightJam f.width y D))
      (f.format.roundTo mode sign ((((2^f.format.fracBits+x)*2^f.guardBits : ℕ)-(y : ℚ)/2^D)*
        2^((E : ℤ)-(f.format.bias+f.format.fracBits)-f.guardBits))) := by
  have hw := f.width_eq
  obtain ⟨hg3,hw64,hmax⟩ := f.sizes
  have hjam : shiftRightJam f.width y D=jam y (2^D) :=
    shiftRightJam_eq (by omega) hD (hy.trans_le (Nat.pow_le_pow_right (by decide) (by omega)))
  have hp2 : 2^(f.width-2)=2^f.format.fracBits*2^f.guardBits := by
    rw [← pow_add]
    congr 1
    omega
  have hp1 : 2^(f.width-1)=2*2^(f.width-2) := by
    rw [← pow_succ']
    congr 1
    omega
  have hp23 : 2^(f.width-2)=2*2^(f.width-3) := by
    rw [← pow_succ']
    congr 1
    omega
  have hxlt : x*2^f.guardBits<2^(f.width-2) := by
    rw [hp2]
    exact Nat.mul_lt_mul_of_pos_right hx (Nat.two_pow_pos _)
  have hsig : x <<< f.guardBits ||| 2^(f.width-2)=(2^f.format.fracBits+x)*2^f.guardBits := by
    have hor := Nat.two_pow_add_eq_or_of_lt hxlt 1
    rw [Nat.mul_one] at hor
    rw [Nat.shiftLeft_eq,Nat.or_comm,← hor,hp2]
    ring
  have hjlt : jam y (2^D)<2^(f.width-2) :=
    jam_lt (by omega) (hy.trans_le (Nat.pow_le_pow_right (by decide) (by omega)))
  have hs2 : ((2^f.format.fracBits+x)*2^f.guardBits)%2=0 := by
    obtain ⟨j,hj⟩ := Nat.exists_eq_add_of_le (show 1 ≤ f.guardBits by omega)
    rw [hj,pow_add,pow_one,Nat.mul_left_comm]
    exact Nat.mul_mod_right 2 _
  have hsum : (2^f.format.fracBits+x)*2^f.guardBits=2^(f.width-2)+x*2^f.guardBits := by
    rw [hp2]
    ring
  rw [hsig,hjam]
  set s := (2^f.format.fracBits+x)*2^f.guardBits
  set k0 := (E : ℤ)-(f.format.bias+f.format.fracBits)-f.guardBits with hk0
  have hcut := sameCut_sub hs2 (y := y) (D := D) (by omega)
  have hcut' : SameCut (2^(k0+1)) (((s : ℕ)-(y : ℚ)/2^D)*2^k0) ((s-jam y (2^D) : ℕ)*2^k0) := by
    have h := hcut.scale (show (0 : ℚ)<2^k0 by positivity)
    rwa [← zpow_add_one₀ two_ne_zero,mul_comm _ ((s : ℚ)-_),mul_comm _ (((s-jam y (2^D) : ℕ) : ℚ))] at h
  have hnear : ((s : ℕ)-(y : ℚ)/2^D)*2^k0=((s-jam y (2^D) : ℕ) : ℚ)*2^k0 ∨
      2^(f.width-3) ≤ s-jam y (2^D) := by
    obtain rfl | hD2 : D=1 ∨ 2 ≤ D := by omega
    · have hy2 : y%2^1=0 := heven rfl
      left
      congr 1
      have hdiv : ((y/2^1 : ℕ) : ℚ)=(y : ℚ)/2^1 := by
        rw [eq_div_iff (by norm_num)]
        exact_mod_cast Nat.div_mul_cancel (Nat.dvd_of_mod_eq_zero hy2)
      rw [Nat.cast_sub (by omega),jam_exact hy2,hdiv]
    · right
      have hj : jam y (2^D)<2^(f.width-3) :=
        jam_lt (by omega) (hy.trans_le (Nat.pow_le_pow_right (by decide) (by omega)))
      omega
  exact normRoundPack_shows (by omega) (by omega) (by omega) (by omega) hcut' hnear

end Ends

section AddMags

variable {f : Fmt} {a b : BitVec f.width} {mode : RoundingMode}

/-- With a NaN among the operands both give the canonical one. -/
theorem add_ofNaN (F : BinaryFormat) {v w : FloatValue} (h : v.IsNaN ∨ w.IsNaN) : F.add mode v w=.ofNaN v w := by
  cases v <;> cases w <;> simp_all [FloatValue.IsNaN,BinaryFormat.add]

theorem propagateNaN_add (h : (f.value a).IsNaN ∨ (f.value b).IsNaN) :
    f.Gives (f.propagateNaN a b) (f.format.add mode (f.value a) (f.value b)) := by
  rw [add_ofNaN _ h]
  exact propagateNaN_gives a b

/-- The significand of the larger operand is a normal one. -/
theorem sigOf_normal (h : f.expUI a≠0) : f.sigOf a=2^f.format.fracBits+f.fracUI a := by
  rw [sigOf,if_neg h,Nat.add_comm]

theorem magOf_normal (h : f.expUI a≠0) (c : ℕ) : f.magOf a=
    ((2^f.format.fracBits+f.fracUI a)*2^c : ℕ)*2^((f.expUI a : ℤ)-(f.format.bias+f.format.fracBits)-c) := by
  rw [sig_value,magOf,sigOf_normal h,Nat.max_eq_left (by omega)]

/-- An infinity beside a number. -/
theorem add_inf_left (F : BinaryFormat) (s s' : Bool) (m' : ℚ) :
    F.add mode (.inf s) (.finite s' m')=.exact (.inf s) := rfl

theorem add_inf_right (F : BinaryFormat) (s s' : Bool) (m : ℚ) :
    F.add mode (.finite s m) (.inf s')=.exact (.inf s') := rfl

theorem shl_ne_zero {n c : ℕ} : n <<< c≠0 ↔ n≠0 := by
  rw [Nat.shiftLeft_eq,Ne,Nat.mul_eq_zero]
  exact not_congr (or_iff_left (Nat.two_pow_pos c).ne')

/-- The sum with a smaller operand. -/
theorem addMagsEnd_gives {sign : Bool} (h : f.expUI a<f.expUI b) (hb : f.expUI b≠f.expMax) :
    f.Gives (f.addMagsEnd (roundingCode mode) sign (f.expUI b) (f.fracUI b <<< (f.guardBits-1))
        (shiftRightJam f.width (f.fracUI a <<< (f.guardBits-1)+if f.expUI a≠0 then 2^(f.width-3)
          else f.fracUI a <<< (f.guardBits-1)) (f.expUI b-f.expUI a)))
      (.rounded (f.format.roundTo mode sign (f.magOf b+f.magOf a))) := by
  have hle := expUI_le b
  have hw := f.width_eq
  obtain ⟨hg3,hw64,hmax⟩ := f.sizes
  have hal : f.fracUI a <<< (f.guardBits-1)+(if f.expUI a≠0 then 2^(f.width-3)
      else f.fracUI a <<< (f.guardBits-1))=f.aligned (f.guardBits-1) a := by
    rw [aligned,show f.width-3=f.format.fracBits+(f.guardBits-1) by omega]
  have hy := aligned_lt (f.guardBits-1) a
  have hend := @addMagsEnd_shows f mode sign (f.expUI b) _ _ _ (by omega) (fracUI_lt b)
    (show 1 ≤ f.expUI b-f.expUI a by omega) (hy.trans_le (Nat.pow_le_pow_right (by decide) (by omega)))
  rw [add_mul,← magOf_normal (by omega),aligned_value (by omega)] at hend
  rw [hal]
  exact hend.gives

theorem addMagsEnd_comm (rm : BitVec 32) (sign : Bool) (e : ℤ) (x y : ℕ) :
    f.addMagsEnd rm sign e x y=f.addMagsEnd rm sign e y x := by
  rw [addMagsEnd,addMagsEnd,Nat.add_right_comm]

theorem addMags_below (hs : a.msb=b.msb) (h : f.expUI a<f.expUI b) :
    f.Gives (f.addMags (roundingCode mode) a b a.msb) (f.format.add mode (f.value a) (f.value b)) := by
  have hle := expUI_le b
  have ha := value_finite (a := a) (by omega)
  unfold addMags
  dsimp only
  rw [if_neg (by omega),if_pos (by omega)]
  by_cases hb : f.expUI b=f.expMax
  · rw [if_pos hb]
    by_cases hz : f.fracUI b=0
    · rw [if_neg (not_not.mpr (by rw [hz,Nat.zero_shiftLeft])),value_inf hb hz,ha,add_inf_right,hs]
      exact exact_gives (value_packInf b.msb) (by simp [FloatValue.IsNaN])
    · rw [if_pos (shl_ne_zero.mpr hz)]
      exact propagateNaN_add (.inr (isNaN_iff.mpr ⟨hb,hz⟩))
  · have hdist : (-((f.expUI a : ℤ)-f.expUI b)).toNat=f.expUI b-f.expUI a := by omega
    have hsum := f.format.addFinite_same mode (s := b.msb) (magOf_nonneg a) (magOf_nonneg b)
    rw [add_comm] at hsum
    rw [if_neg hb,hdist,addMagsEnd_comm,value_finite hb,ha,hs,BinaryFormat.add,hsum]
    exact addMagsEnd_gives h hb

theorem addMags_above (hs : a.msb=b.msb) (h : f.expUI b<f.expUI a) :
    f.Gives (f.addMags (roundingCode mode) a b a.msb) (f.format.add mode (f.value a) (f.value b)) := by
  have hle := expUI_le a
  have hb := value_finite (a := b) (by omega)
  unfold addMags
  dsimp only
  rw [if_neg (by omega),if_neg (by omega)]
  by_cases ha : f.expUI a=f.expMax
  · rw [if_pos ha]
    by_cases hz : f.fracUI a=0
    · rw [if_neg (not_not.mpr (by rw [hz,Nat.zero_shiftLeft])),hb,value_inf ha hz,add_inf_left]
      exact exact_gives (value_inf ha hz) (by simp [FloatValue.IsNaN])
    · rw [if_pos (shl_ne_zero.mpr hz)]
      exact propagateNaN_add (.inl (isNaN_iff.mpr ⟨ha,hz⟩))
  · have hdist : ((f.expUI a : ℤ)-f.expUI b).toNat=f.expUI a-f.expUI b := by omega
    have hsum := f.format.addFinite_same mode (s := b.msb) (magOf_nonneg a) (magOf_nonneg b)
    rw [if_neg ha,hdist,value_finite ha,hb,hs,BinaryFormat.add,hsum]
    exact addMagsEnd_gives h ha

/-- The exponent field counts down to the subnormals without a step. -/
theorem addMags_subnormal (hs : a.msb=b.msb) (ha : f.expUI a=0) (hb : f.expUI b=0) :
    f.Gives (a+BitVec.ofNat f.width (f.fracUI b),0) (f.format.add mode (f.value a) (f.value b)) := by
  have hpos := f.expMax_gt
  have hfa := fracUI_lt a
  have hfb := fracUI_lt b
  have hp : 2^(f.format.fracBits+1)=2*2^f.format.fracBits := pow_succ' ..
  have hlow : f.low a=f.fracUI a := by
    obtain ⟨he,hf⟩ := fields_low a
    rw [ha] at he
    have hd := Nat.div_add_mod (f.low a) (2^f.format.fracBits)
    rw [show f.low a/2^f.format.fracBits=0 from he,show f.low a%2^f.format.fracBits=f.fracUI a from hf] at hd
    omega
  have hbits : a+BitVec.ofNat f.width (f.fracUI b)=f.packToUI a.msb 0 (f.fracUI a+f.fracUI b) := by
    have h0 := packToUI_natCast (f := f) a.msb 0 (f.fracUI a+f.fracUI b)
    rw [Nat.zero_mul,Nat.zero_add] at h0
    rw [show (0 : ℤ)=((0 : ℕ) : ℤ) from rfl,h0,signBits,← Nat.add_assoc,BitVec.ofNat_add,← hlow,← f.toNat_eq,
      BitVec.ofNat_toNat,BitVec.setWidth_eq]
  have hmag : f.magOf a+f.magOf b=((f.fracUI a+f.fracUI b : ℕ) : ℚ)*2^(0+1)/
      2^(f.format.bias+f.format.fracBits) := by
    rw [magOf,magOf,sigOf,sigOf,ha,hb,if_pos rfl,Nat.add_zero,Nat.add_zero,Nat.max_eq_right (by decide)]
    push_cast
    ring
  rw [value_finite (a := a) (by omega),value_finite (a := b) (by omega),hs,BinaryFormat.add,
    f.format.addFinite_same mode (magOf_nonneg a) (magOf_nonneg b),hmag,hbits,hs]
  apply Shows.gives
  rw [BinaryFormat.roundTo_add f.expBits_ge mode b.msb (by omega) (by rw [expMax] at hpos; omega)]
  exact ⟨value_pack_normal (.inl rfl) (by omega) (.inl hpos),by simp [roundedFlags]⟩

theorem or_ne_zero (ha : f.expUI a=f.expMax) (hb : f.expUI b=f.expMax) (h : f.fracUI a ||| f.fracUI b≠0) :
    (f.value a).IsNaN ∨ (f.value b).IsNaN := by
  rw [isNaN_iff,isNaN_iff]
  by_cases hza : f.fracUI a=0
  · refine .inr ⟨hb,fun hzb => h ?_⟩
    rw [hza,hzb,Nat.or_zero]
  · exact .inl ⟨ha,hza⟩

theorem addMags_equal (hs : a.msb=b.msb) (h : f.expUI a=f.expUI b) :
    f.Gives (f.addMags (roundingCode mode) a b a.msb) (f.format.add mode (f.value a) (f.value b)) := by
  have hle := expUI_le a
  have hw := f.width_eq
  obtain ⟨hg3,hw64,hmax⟩ := f.sizes
  have hpos := f.expMax_gt
  unfold addMags
  dsimp only
  rw [if_pos (by omega)]
  by_cases h0 : f.expUI a=0
  · rw [if_pos h0]
    exact addMags_subnormal hs h0 (by omega)
  rw [if_neg h0]
  by_cases ha : f.expUI a=f.expMax
  · rw [if_pos ha]
    by_cases hz : f.fracUI a ||| f.fracUI b=0
    · obtain ⟨hza,hzb⟩ := Nat.or_eq_zero_iff.mp hz
      rw [if_neg (not_not.mpr hz),value_inf ha hza,value_inf (by omega) hzb,hs,BinaryFormat.add,if_pos rfl]
      refine exact_gives ?_ (by simp [FloatValue.IsNaN])
      rw [value_inf ha hza,hs]
    · rw [if_pos hz]
      exact propagateNaN_add (or_ne_zero ha (by omega) hz)
  rw [if_neg ha,value_finite ha,value_finite (a := b) (by omega),hs,BinaryFormat.add,
    f.format.addFinite_same mode (magOf_nonneg a) (magOf_nonneg b)]
  have hsum : f.magOf a+f.magOf b=((2^(f.format.fracBits+1)+f.fracUI a+f.fracUI b : ℕ) : ℚ)*2^f.expUI a/
      2^(f.format.bias+f.format.fracBits) := by
    rw [magOf,magOf,sigOf_normal h0,sigOf_normal (a := b) (by omega),Nat.max_eq_left (by omega),
      Nat.max_eq_left (by omega),← h,← add_div,← add_mul,pow_succ]
    push_cast
    ring
  have hfa := fracUI_lt a
  have hfb := fracUI_lt b
  have hp : 2^(f.format.fracBits+1)=2*2^f.format.fracBits := pow_succ' ..
  rw [hsum]
  apply Shows.gives
  split
  · rename_i he
    obtain ⟨-,heven,hlt⟩ := he
    obtain ⟨n,hn⟩ : ∃ n,2^(f.format.fracBits+1)+f.fracUI a+f.fracUI b=2*n := ⟨_,(Nat.mul_div_cancel' (by omega)).symm⟩
    have hval : ((2*n : ℕ) : ℚ)*2^f.expUI a/2^(f.format.bias+f.format.fracBits)=
        n*2^(f.expUI a+1)/2^(f.format.bias+f.format.fracBits) := by
      rw [pow_succ]
      push_cast
      ring
    rw [hn,hval,Nat.shiftRight_eq_div_pow,pow_one,Nat.mul_div_cancel_left n Nat.two_pos,
      BinaryFormat.roundTo_add f.expBits_ge mode b.msb (by omega) (by rw [expMax] at hlt; omega)]
    exact ⟨value_pack_normal (.inr (by omega)) (by omega) (by omega),by simp [roundedFlags]⟩
  · have hp2 : 2^(f.width-2)=2*2^f.format.fracBits*2^(f.guardBits-1) := by
      rw [← hp,← pow_add]
      congr 1
      omega
    have hp1 : 2^(f.width-1)=4*2^f.format.fracBits*2^(f.guardBits-1) := by
      rw [show 4=2^2 from rfl,← pow_add,← pow_add]
      congr 1
      omega
    have hval := sig_value (f := f) (2^(f.format.fracBits+1)+f.fracUI a+f.fracUI b) (f.guardBits-1) (f.expUI a)
    rw [← hval,Nat.shiftLeft_eq]
    apply roundPack_shows (k := (f.expUI a : ℤ)-(f.format.bias+f.format.fracBits)-(f.guardBits-1 : ℕ)) (by omega)
      (by omega) _ _ (SameCut.refl _ _)
    · rw [hp2]
      exact Nat.mul_le_mul_right _ (by omega)
    · rw [hp1]
      exact Nat.mul_lt_mul_of_pos_right (by omega) (Nat.two_pow_pos _)

theorem addMags_gives (hs : a.msb=b.msb) :
    f.Gives (f.addMags (roundingCode mode) a b a.msb) (f.format.add mode (f.value a) (f.value b)) := by
  obtain h | h | h := lt_trichotomy (f.expUI a) (f.expUI b)
  · exact addMags_below hs h
  · exact addMags_equal hs h
  · exact addMags_above hs h

end AddMags

section SubMags

variable {f : Fmt} {a b : BitVec f.width} {mode : RoundingMode}

theorem aligned_even {c : ℕ} (hc : 1 ≤ c) (a : BitVec f.width) : f.aligned c a%2=0 := by
  obtain ⟨j,rfl⟩ := Nat.exists_eq_add_of_le hc
  have hs : f.fracUI a <<< (1+j)=2*(f.fracUI a*2^j) := by
    rw [Nat.shiftLeft_eq,pow_add]
    ring
  have hp : 2^(f.format.fracBits+(1+j))=2*2^(f.format.fracBits+j) := by
    rw [← pow_succ']
    congr 1
    omega
  rw [aligned,hs,hp]
  split <;> omega

/-- The exponents decide which magnitude is larger. -/
theorem magOf_lt (h : f.expUI a<f.expUI b) : f.magOf a<f.magOf b := by
  have hlt : f.sigOf a*2^max (f.expUI a) 1<2^f.format.fracBits*2^f.expUI b := by
    rw [sigOf,← pow_add]
    have hfa := fracUI_lt a
    by_cases h0 : f.expUI a=0
    · rw [if_pos h0,h0,Nat.max_eq_right (by decide),Nat.add_zero]
      calc f.fracUI a*2^1<2^f.format.fracBits*2^1 := Nat.mul_lt_mul_of_pos_right hfa (by decide)
        _=2^(f.format.fracBits+1) := (pow_add ..).symm
        _ ≤ 2^(f.format.fracBits+f.expUI b) := Nat.pow_le_pow_right (by decide) (by omega)
    · rw [if_neg h0,Nat.max_eq_left (by omega)]
      calc (f.fracUI a+2^f.format.fracBits)*2^f.expUI a<2^(f.format.fracBits+1)*2^f.expUI a := by
            apply Nat.mul_lt_mul_of_pos_right _ (Nat.two_pow_pos _)
            rw [pow_succ]
            omega
        _=2^(f.format.fracBits+1+f.expUI a) := (pow_add ..).symm
        _ ≤ 2^(f.format.fracBits+f.expUI b) := Nat.pow_le_pow_right (by decide) (by omega)
  have hge : 2^f.format.fracBits*2^f.expUI b ≤ f.sigOf b*2^max (f.expUI b) 1 := by
    rw [sigOf_normal (a := b) (by omega),Nat.max_eq_left (by omega)]
    exact Nat.mul_le_mul_right _ (Nat.le_add_right _ _)
  rw [magOf,magOf,div_lt_div_iff_of_pos_right (by positivity)]
  exact_mod_cast hlt.trans_le hge

/-- The difference with a smaller operand. -/
theorem subMagsEnd_gives {sign : Bool} (h : f.expUI a<f.expUI b) (hb : f.expUI b≠f.expMax) :
    f.Gives (f.normRoundPack (roundingCode mode) sign ((f.expUI b : ℤ)-1)
        ((f.fracUI b <<< f.guardBits ||| 2^(f.width-2))-
          shiftRightJam f.width (f.fracUI a <<< f.guardBits+if f.expUI a≠0 then 2^(f.width-2)
            else f.fracUI a <<< f.guardBits) (f.expUI b-f.expUI a)))
      (.rounded (f.format.roundTo mode sign (f.magOf b-f.magOf a))) := by
  have hle := expUI_le b
  have hw := f.width_eq
  obtain ⟨hg3,hw64,hmax⟩ := f.sizes
  have hal : f.fracUI a <<< f.guardBits+(if f.expUI a≠0 then 2^(f.width-2)
      else f.fracUI a <<< f.guardBits)=f.aligned f.guardBits a := by
    rw [aligned,show f.width-2=f.format.fracBits+f.guardBits by omega]
  have hy := aligned_lt f.guardBits a
  have hend := @subMagsEnd_shows f mode sign (f.expUI b) _ _ _ (by omega) (fracUI_lt b)
    (show 1 ≤ f.expUI b-f.expUI a by omega) (hy.trans_le (Nat.pow_le_pow_right (by decide) (by omega)))
    (fun _ => aligned_even (by omega) a)
  rw [sub_mul,← magOf_normal (by omega),aligned_value (by omega)] at hend
  rw [hal]
  exact hend.gives

theorem subMags_below (hs : b.msb= !a.msb) (h : f.expUI a<f.expUI b) :
    f.Gives (f.subMags (roundingCode mode) a b a.msb) (f.format.add mode (f.value a) (f.value b)) := by
  have hle := expUI_le b
  have ha := value_finite (a := a) (by omega)
  unfold subMags
  dsimp only
  rw [if_neg (by omega),if_pos (by omega)]
  by_cases hb : f.expUI b=f.expMax
  · rw [if_pos hb]
    by_cases hz : f.fracUI b=0
    · rw [if_neg (not_not.mpr (by rw [hz,Nat.zero_shiftLeft])),value_inf hb hz,ha,add_inf_right,hs]
      exact exact_gives (value_packInf _) (by simp [FloatValue.IsNaN])
    · rw [if_pos (shl_ne_zero.mpr hz)]
      exact propagateNaN_add (.inr (isNaN_iff.mpr ⟨hb,hz⟩))
  · have hdist : (-((f.expUI a : ℤ)-f.expUI b)).toNat=f.expUI b-f.expUI a := by omega
    rw [if_neg hb,hdist,value_finite hb,ha,hs,BinaryFormat.add,f.format.addFinite_lt mode (magOf_lt h)]
    exact subMagsEnd_gives h hb

theorem subMags_above (hs : b.msb= !a.msb) (h : f.expUI b<f.expUI a) :
    f.Gives (f.subMags (roundingCode mode) a b a.msb) (f.format.add mode (f.value a) (f.value b)) := by
  have hle := expUI_le a
  have hb := value_finite (a := b) (by omega)
  unfold subMags
  dsimp only
  rw [if_neg (by omega),if_neg (by omega)]
  by_cases ha : f.expUI a=f.expMax
  · rw [if_pos ha]
    by_cases hz : f.fracUI a=0
    · rw [if_neg (not_not.mpr (by rw [hz,Nat.zero_shiftLeft])),hb,value_inf ha hz,add_inf_left]
      exact exact_gives (value_inf ha hz) (by simp [FloatValue.IsNaN])
    · rw [if_pos (shl_ne_zero.mpr hz)]
      exact propagateNaN_add (.inl (isNaN_iff.mpr ⟨ha,hz⟩))
  · have hdist : ((f.expUI a : ℤ)-f.expUI b).toNat=f.expUI a-f.expUI b := by omega
    rw [if_neg ha,hdist,value_finite ha,hb,hs,BinaryFormat.add,f.format.addFinite_gt mode (magOf_lt h)]
    exact subMagsEnd_gives h ha

/-- The difference of significands of one exponent is exact, and is moved up as far as the exponent
allows. -/
theorem subMags_exact {sign : Bool} {d e : ℕ} (h0 : d≠0) (hd : d<2^f.format.fracBits) (he : e+2<f.expMax+1) :
    f.Gives (if (e : ℤ)-((f.countLeadingZeros d : ℤ)-(f.guardBits+1))<0 then
        (f.packToUI sign 0 (d <<< e),0)
      else (f.packToUI sign ((e : ℤ)-((f.countLeadingZeros d : ℤ)-(f.guardBits+1)))
        (d <<< ((f.countLeadingZeros d : ℤ)-(f.guardBits+1)).toNat),0))
      (.rounded (f.format.roundTo mode sign (d*2^(e+1)/2^(f.format.bias+f.format.fracBits)))) := by
  have hw := f.width_eq
  have hpos := f.expMax_gt
  have hl : Nat.log2 d<f.format.fracBits := (Nat.log2_lt h0).mpr hd
  have hclz := countLeadingZeros_eq (f := f) h0 (hd.trans_le (Nat.pow_le_pow_right (by decide) (by omega)))
  have hshift : (f.countLeadingZeros d : ℤ)-(f.guardBits+1)=(f.format.fracBits-Nat.log2 d : ℕ) := by omega
  have hlt := Nat.lt_log2_self (n := d)
  rw [hshift]
  apply Shows.gives
  split
  · rename_i hneg
    have hn : d <<< e<2^f.format.fracBits := by
      rw [Nat.shiftLeft_eq]
      calc d*2^e<2^(Nat.log2 d+1)*2^e := Nat.mul_lt_mul_of_pos_right hlt (Nat.two_pow_pos _)
        _=2^(Nat.log2 d+1+e) := (pow_add ..).symm
        _ ≤ 2^f.format.fracBits := Nat.pow_le_pow_right (by decide) (by omega)
    have hp : 2^(f.format.fracBits+1)=2*2^f.format.fracBits := pow_succ' ..
    have hval : (d : ℚ)*2^(e+1)=(d <<< e : ℕ)*2^(0+1) := by
      rw [Nat.shiftLeft_eq,pow_succ]
      push_cast
      ring
    rw [hval,BinaryFormat.roundTo_add f.expBits_ge mode sign (by omega) (by rw [expMax] at hpos; omega)]
    exact ⟨value_pack_normal (.inl rfl) (by omega) (.inl hpos),by simp [roundedFlags]⟩
  · rename_i hneg
    obtain ⟨hlo,hhi⟩ := shl_log2 h0 (show d<2^(f.format.fracBits+1) from
      hd.trans (Nat.pow_lt_pow_right (by decide) (Nat.lt_succ_self _)))
    obtain ⟨j,hj⟩ := Int.eq_ofNat_of_zero_le (not_lt.mp hneg)
    have hval : (d : ℚ)*2^(e+1)=(d <<< (f.format.fracBits-Nat.log2 d) : ℕ)*2^(j+1) := by
      rw [Nat.shiftLeft_eq,show e+1=f.format.fracBits-Nat.log2 d+(j+1) by omega,pow_add]
      push_cast
      ring
    rw [hj,Int.toNat_natCast,hval,BinaryFormat.roundTo_add f.expBits_ge mode sign hhi (by
      rw [expMax] at he
      omega)]
    exact ⟨value_pack_normal (.inr hlo) hhi.le (.inl (by omega)),by simp [roundedFlags]⟩

theorem subMags_equal (hs : b.msb= !a.msb) (h : f.expUI a=f.expUI b) :
    f.Gives (f.subMags (roundingCode mode) a b a.msb) (f.format.add mode (f.value a) (f.value b)) := by
  have hle := expUI_le a
  have hpos := f.expMax_gt
  unfold subMags
  dsimp only
  rw [if_pos (by omega)]
  by_cases ha : f.expUI a=f.expMax
  · rw [if_pos ha]
    by_cases hz : f.fracUI a ||| f.fracUI b=0
    · obtain ⟨hza,hzb⟩ := Nat.or_eq_zero_iff.mp hz
      rw [if_neg (not_not.mpr hz),value_inf ha hza,value_inf (by omega) hzb,hs,BinaryFormat.add,
        if_neg (by simp)]
      exact invalid_gives f
    · rw [if_pos hz]
      exact propagateNaN_add (or_ne_zero ha (by omega) hz)
  rw [if_neg ha,value_finite ha,value_finite (a := b) (by omega),hs,BinaryFormat.add]
  have hfa := fracUI_lt a
  have hfb := fracUI_lt b
  obtain ⟨e,he,hmax⟩ : ∃ e : ℕ,(if f.expUI a≠0 then (f.expUI a : ℤ)-1 else f.expUI a)=e ∧
      max (f.expUI a) 1=e+1 := by
    by_cases h0 : f.expUI a=0
    · exact ⟨0,by rw [if_neg (not_not.mpr h0),h0],by omega⟩
    · exact ⟨f.expUI a-1,by rw [if_pos h0]; omega,by omega⟩
  have hdiff : ∀ {u v : BitVec f.width} {d : ℕ},f.expUI u=f.expUI a → f.expUI v=f.expUI a →
      f.fracUI u=f.fracUI v+d → f.magOf u-f.magOf v=d*2^(e+1)/2^(f.format.bias+f.format.fracBits) := by
    intro u v d hu hv hd
    rw [magOf,magOf,sigOf,sigOf,hu,hv,hd,hmax]
    push_cast
    ring
  simp only [he,Int.toNat_natCast]
  obtain hlt | heq | hgt := lt_trichotomy (f.fracUI a) (f.fracUI b)
  · obtain ⟨d,hd⟩ := Nat.exists_eq_add_of_lt hlt
    have hm := hdiff (u := b) (v := a) (d := d+1) h.symm rfl (by omega)
    have hpos' : f.magOf a<f.magOf b := by
      rw [← sub_pos,hm]
      positivity
    have hneg : (f.fracUI a : ℤ)-f.fracUI b<0 := by omega
    have habs : (-((f.fracUI a : ℤ)-f.fracUI b)).toNat=d+1 := by omega
    rw [f.format.addFinite_lt mode hpos',hm,if_neg (by omega)]
    simp only [hneg,if_true,habs]
    exact subMags_exact (by omega) (by omega) (by omega)
  · have hm : f.magOf a=f.magOf b := by
      have := hdiff (u := b) (v := a) (d := 0) h.symm rfl (by omega)
      rw [Nat.cast_zero,zero_mul,zero_div,sub_eq_zero] at this
      exact this.symm
    have hmin : decide (roundingCode mode=softfloat_round_min)=decide (mode=.rdn) := by cases mode <;> rfl
    rw [hm,f.format.addFinite_eq,if_pos (by omega),hmin]
    exact exact_gives (value_packZero _) (by simp [FloatValue.IsNaN])
  · obtain ⟨d,hd⟩ := Nat.exists_eq_add_of_lt hgt
    have hm := hdiff (u := a) (v := b) (d := d+1) rfl h.symm (by omega)
    have hpos' : f.magOf b<f.magOf a := by
      rw [← sub_pos,hm]
      positivity
    have hneg : ¬(f.fracUI a : ℤ)-f.fracUI b<0 := by omega
    have habs : ((f.fracUI a : ℤ)-f.fracUI b).toNat=d+1 := by omega
    rw [f.format.addFinite_gt mode hpos',hm,if_neg (by omega)]
    simp only [hneg,if_false,habs]
    exact subMags_exact (by omega) (by omega) (by omega)

theorem subMags_gives (hs : b.msb= !a.msb) :
    f.Gives (f.subMags (roundingCode mode) a b a.msb) (f.format.add mode (f.value a) (f.value b)) := by
  obtain h | h | h := lt_trichotomy (f.expUI a) (f.expUI b)
  · exact subMags_below hs h
  · exact subMags_equal hs h
  · exact subMags_above hs h

end SubMags
end Fmt

def softfloatAddMagsF32 (rm uiA uiB : BitVec 32) : BitVec 32×Flags := Fmt.S.addMags rm uiA uiB (signF32UI uiA)
def softfloatSubMagsF32 (rm uiA uiB : BitVec 32) : BitVec 32×Flags := Fmt.S.subMags rm uiA uiB (signF32UI uiA)
def softfloatAddMagsF64 : BitVec 32 → BitVec 64 → BitVec 64 → Bool → BitVec 64×Flags := Fmt.D.addMags
def softfloatSubMagsF64 : BitVec 32 → BitVec 64 → BitVec 64 → Bool → BitVec 64×Flags := Fmt.D.subMags

def f32Add (rm a b : BitVec 32) : BitVec 32×Flags :=
  if signF32UI (a ^^^ b) then softfloatSubMagsF32 rm a b else softfloatAddMagsF32 rm a b

def f64Add (rm : BitVec 32) (a b : BitVec 64) : BitVec 64×Flags :=
  if signF64UI a=signF64UI b then softfloatAddMagsF64 rm a b (signF64UI a)
  else softfloatSubMagsF64 rm a b (signF64UI a)

theorem f32Add_gives (mode : RoundingMode) (a b : BitVec 32) :
    Fmt.S.Gives (f32Add (roundingCode mode) a b) (binary32.add mode (f32Value a) (f32Value b)) := by
  have hx : (a ^^^ b).msb=(a.msb ^^ b.msb) := BitVec.msb_xor
  rw [f32Add,signF32UI,hx]
  by_cases hab : a.msb=b.msb
  · rw [if_neg (by simp [hab])]
    exact Fmt.addMags_gives (f := .S) hab
  · rw [if_pos (by simpa using hab)]
    exact Fmt.subMags_gives (f := .S) (Bool.eq_not.mpr (Ne.symm hab))

theorem f64Add_gives (mode : RoundingMode) (a b : BitVec 64) :
    Fmt.D.Gives (f64Add (roundingCode mode) a b) (binary64.add mode (f64Value a) (f64Value b)) := by
  rw [f64Add,signF64UI,signF64UI]
  by_cases hab : a.msb=b.msb
  · rw [if_pos hab]
    exact Fmt.addMags_gives (f := .D) hab
  · rw [if_neg hab]
    exact Fmt.subMags_gives (f := .D) (Bool.eq_not.mpr (Ne.symm hab))

/-- `f32_add()` and `f64_add()` are the addition of the standard, in every rounding mode. -/
theorem addition_standard (mode : RoundingMode) :
    (∀ a b,Fmt.S.Gives (f32Add (roundingCode mode) a b) (binary32.add mode (f32Value a) (f32Value b))) ∧
      ∀ a b,Fmt.D.Gives (f64Add (roundingCode mode) a b) (binary64.add mode (f64Value a) (f64Value b)) :=
  ⟨f32Add_gives mode,f64Add_gives mode⟩

end OpenSBI
