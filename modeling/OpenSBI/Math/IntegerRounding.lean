import OpenSBI.Math.BinaryFormat
import OpenSBI.Math.RoundDiv

namespace OpenSBI.Math.BinaryFormat

variable (F : BinaryFormat) (mode : RoundingMode)

/-- The distance between the numbers of the format around the integer `m`, at least one. -/
def ulp (m : Nat) : Nat := 2^(Nat.log2 m-F.fracBits)

/-- The integer `z` rounded once to the precision of the format. -/
def roundInt (z : ℤ) : ℤ := mode.round ((z : ℚ)/F.ulp z.natAbs)*F.ulp z.natAbs

/-- The same on magnitudes. -/
def roundNat (m : Nat) : Nat := mode.roundDiv m (F.ulp m)*F.ulp m

theorem ulp_pos (m : Nat) : 0<F.ulp m := Nat.two_pow_pos _

theorem ulp_dvd {F G : BinaryFormat} (h : G.fracBits ≤ F.fracBits) (m : Nat) : F.ulp m ∣ G.ulp m :=
  Nat.pow_dvd_pow 2 (by omega)

theorem roundInt_natCast (m : Nat) : F.roundInt mode m=F.roundNat mode m := by
  rw [roundInt,roundNat,Int.natAbs_natCast,Int.cast_natCast,RoundingMode.round_div (F.ulp_pos m)]
  push_cast
  rfl

theorem roundInt_neg (z : ℤ) : F.roundInt mode (-z)=-F.roundInt mode.flip z := by
  rw [roundInt,roundInt,Int.natAbs_neg,Int.cast_neg,neg_div,RoundingMode.round_neg,neg_mul]

/-- The magnitude is rounded in the mode its sign asks for. -/
theorem natAbs_roundInt (z : ℤ) :
    (F.roundInt mode z).natAbs=F.roundNat (mode.signed (decide (z<0))) z.natAbs := by
  by_cases h : z<0
  · obtain ⟨m,hm⟩ := Int.eq_ofNat_of_zero_le (show 0 ≤ -z by omega)
    have hz : z=-(m : ℤ) := by omega
    have hs : mode.signed (decide (z<0))=mode.flip := by simp [RoundingMode.signed,h]
    rw [hs,hz,roundInt_neg,roundInt_natCast,Int.natAbs_neg,Int.natAbs_neg,Int.natAbs_natCast,
      Int.natAbs_natCast]
  · obtain ⟨m,hm⟩ := Int.eq_ofNat_of_zero_le (show 0 ≤ z by omega)
    have hs : mode.signed (decide (z<0))=mode := by simp [RoundingMode.signed,h]
    rw [hs,hm,roundInt_natCast,Int.natAbs_natCast,Int.natAbs_natCast]

section Representable

variable {F} {mode}

/-- Whether a number is rounded does not depend on the mode. -/
theorem roundDiv_mul_eq (u m : Nat) : mode.roundDiv m u*u=m ↔ u ∣ m := by
  constructor
  · intro h
    exact ⟨mode.roundDiv m u,by rw [Nat.mul_comm]; exact h.symm⟩
  · intro h
    obtain ⟨k,rfl⟩ := h
    obtain rfl | hu := Nat.eq_zero_or_pos u
    · simp
    · have hm : u*k%u=0 := Nat.mul_mod_right u k
      have hd : u*k/u=k := Nat.mul_div_cancel_left k hu
      have hr : mode.roundDiv (u*k) u=k := by
        cases mode <;> simp [RoundingMode.roundDiv,hm,hd,hu]
      rw [hr,Nat.mul_comm]

theorem roundNat_eq_iff (m : Nat) : F.roundNat mode m=m ↔ F.ulp m ∣ m := roundDiv_mul_eq _ m

theorem roundInt_eq_iff (z : ℤ) : F.roundInt mode z=z ↔ F.ulp z.natAbs ∣ z.natAbs := by
  by_cases h : z<0
  · obtain ⟨m,hm⟩ := Int.eq_ofNat_of_zero_le (show 0 ≤ -z by omega)
    have hz : z=-(m : ℤ) := by omega
    rw [hz,roundInt_neg,roundInt_natCast,neg_inj,Int.natAbs_neg,Int.natAbs_natCast,Int.natCast_inj]
    exact roundNat_eq_iff m
  · obtain ⟨m,hm⟩ := Int.eq_ofNat_of_zero_le (show 0 ≤ z by omega)
    rw [hm,roundInt_natCast,Int.natAbs_natCast,Int.natCast_inj]
    exact roundNat_eq_iff m

/-- The directed modes differ on what is rounded at all. -/
theorem roundNat_flip (m : Nat) :
    F.roundNat mode.flip m=F.roundNat mode m ↔ mode.Undirected ∨ F.ulp m ∣ m := by
  have hu := F.ulp_pos m
  have hd : F.ulp m ∣ m ↔ m%F.ulp m=0 := Nat.dvd_iff_mod_eq_zero
  rw [roundNat,roundNat,Nat.mul_left_inj hu.ne',hd]
  by_cases h : mode.Undirected
  · rw [h]
    exact iff_of_true rfl (.inl h)
  · have hor : mode.Undirected ∨ m%F.ulp m=0 ↔ m%F.ulp m=0 := or_iff_right h
    rw [hor]
    cases mode with
    | rdn =>
      show (if m%F.ulp m=0 then m/F.ulp m else m/F.ulp m+1)=m/F.ulp m ↔ _
      split <;> omega
    | rup =>
      show m/F.ulp m=(if m%F.ulp m=0 then m/F.ulp m else m/F.ulp m+1) ↔ _
      split <;> omega
    | _ => exact absurd rfl h

end Representable

section Range

variable {F} {mode} {m : Nat}

theorem ulp_of_small (h : Nat.log2 m ≤ F.fracBits) : F.ulp m=1 := by
  rw [ulp,Nat.sub_eq_zero_of_le h,pow_zero]

theorem ulp_mul (h : F.fracBits ≤ Nat.log2 m) : 2^F.fracBits*F.ulp m=2^Nat.log2 m := by
  rw [ulp,← pow_add,Nat.add_sub_cancel' h]

theorem roundDiv_bounds (mode : RoundingMode) (m u : Nat) :
    m/u ≤ mode.roundDiv m u ∧ mode.roundDiv m u ≤ m/u+1 := by
  cases mode <;> simp only [RoundingMode.roundDiv] <;> (try split) <;> omega

/-- The significand of a rounded number, with one bit more at most when it is carried over. -/
theorem roundDiv_ulp_le (mode : RoundingMode) (m : Nat) : mode.roundDiv m (F.ulp m) ≤ 2^(F.fracBits+1) := by
  have hlt : m<2^(Nat.log2 m+1) := Nat.lt_log2_self
  apply (roundDiv_bounds mode m (F.ulp m)).2.trans
  rw [Nat.succ_le_iff,Nat.div_lt_iff_lt_mul (F.ulp_pos m)]
  apply hlt.trans_le
  rw [ulp,← pow_add]
  exact Nat.pow_le_pow_right (by decide) (by omega)

theorem le_roundNat (h0 : m≠0) (h : F.fracBits ≤ Nat.log2 m) : 2^Nat.log2 m ≤ F.roundNat mode m := by
  rw [← ulp_mul h,roundNat]
  apply Nat.mul_le_mul_right
  apply le_trans _ (roundDiv_bounds mode m (F.ulp m)).1
  rw [Nat.le_div_iff_mul_le (F.ulp_pos m),ulp_mul h]
  exact Nat.log2_self_le h0

theorem roundNat_le (m : Nat) : F.roundNat mode m ≤ 2^(Nat.log2 m+1) := by
  by_cases h : F.fracBits ≤ Nat.log2 m
  · rw [pow_succ,← ulp_mul h,roundNat,Nat.mul_right_comm,← pow_succ]
    exact Nat.mul_le_mul_right _ (roundDiv_ulp_le mode m)
  · have hu : F.ulp m=1 := ulp_of_small (by omega)
    have hm : F.roundNat mode m=m := (roundNat_eq_iff m).mpr (hu ▸ one_dvd m)
    rw [hm]
    exact Nat.lt_log2_self.le

theorem roundNat_le_pow {e : Nat} (h : m<2^e) : F.roundNat mode m ≤ 2^e := by
  obtain rfl | h0 := Nat.eq_zero_or_pos m
  · rw [(roundNat_eq_iff 0).mpr (Nat.dvd_zero _)]
    exact Nat.zero_le _
  · exact (roundNat_le m).trans (Nat.pow_le_pow_right (by decide) ((Nat.log2_lt h0.ne').mpr h))

theorem log2_mul_pow {c : Nat} (h : c≠0) (k : Nat) : Nat.log2 (c*2^k)=Nat.log2 c+k := by
  have hp := Nat.two_pow_pos k
  rw [Nat.log2_eq_iff (Nat.mul_ne_zero h hp.ne')]
  constructor
  · rw [pow_add]
    exact Nat.mul_le_mul_right _ (Nat.log2_self_le h)
  · rw [Nat.add_right_comm,pow_add]
    exact Nat.mul_lt_mul_of_pos_right Nat.lt_log2_self hp

theorem represents_of_mul {c : Nat} (h : c ≤ 2^(F.fracBits+1)) (k : Nat) : F.Represents (c*2^k) := by
  obtain rfl | h0 := Nat.eq_zero_or_pos c
  · simp [Represents]
  · rw [Represents,log2_mul_pow h0.ne',pow_add,Nat.mul_right_comm]
    apply Nat.mul_dvd_mul_right
    obtain rfl | hlt := h.eq_or_lt
    · rw [Nat.log2_two_pow]
      exact Nat.dvd_mul_right _ _
    · have hl : Nat.log2 c<F.fracBits+1 := (Nat.log2_lt h0.ne').mpr hlt
      exact (Nat.pow_dvd_pow 2 (by omega)).mul_left c

/-- What was rounded has a place in the format. -/
theorem represents_roundNat (m : Nat) : F.Represents (F.roundNat mode m) :=
  represents_of_mul (roundDiv_ulp_le mode m) _

end Range

section Twice

variable {F} {mode}

/-- A carry into the next binade does not change what the narrower format makes of a number. -/
theorem roundNat_of_binade {e n : Nat} (h : F.fracBits ≤ e) (hlo : 2^e ≤ n) (hhi : n ≤ 2^(e+1)) :
    F.roundNat mode n=mode.roundDiv n (2^(e-F.fracBits))*2^(e-F.fracBits) := by
  have hp := Nat.two_pow_pos e
  obtain rfl | hlt := hhi.eq_or_lt
  · have hu : F.ulp (2^(e+1)) ∣ 2^(e+1) := by
      rw [ulp,Nat.log2_two_pow]
      exact Nat.pow_dvd_pow 2 (by omega)
    rw [(roundNat_eq_iff _).mpr hu,(roundDiv_mul_eq _ _).mpr]
    exact Nat.pow_dvd_pow 2 (by omega)
  · have he : Nat.log2 n=e := (Nat.log2_eq_iff (by omega)).mpr ⟨hlo,hlt⟩
    rw [roundNat,ulp,he]

theorem roundsThrough_one (negative : Bool) (m N : Nat) : mode.RoundsThrough negative m 1 N := by
  have h : m%1=0 := Nat.mod_one m
  cases mode <;> simp [RoundingMode.RoundsThrough,h]

/-- Exactly when rounding to the format `F` on the way to `G` does no harm. -/
theorem roundNat_twice {G : BinaryFormat} (hG : G.fracBits+2 ≤ F.fracBits) (negative : Bool) (m : Nat) :
    G.roundNat (mode.signed negative) (F.roundNat mode m)=G.roundNat (mode.signed negative) m ↔
      mode.RoundsThrough negative m (F.ulp m) (2^(F.fracBits-G.fracBits)) := by
  by_cases h : Nat.log2 m ≤ F.fracBits
  · have hu : F.ulp m=1 := ulp_of_small h
    rw [(roundNat_eq_iff m).mpr (hu ▸ one_dvd m),hu]
    exact iff_of_true rfl (roundsThrough_one negative m _)
  · have h0 : m≠0 := by
      rintro rfl
      exact h (Nat.zero_le _)
    obtain ⟨k,hk⟩ := Nat.exists_eq_add_of_le hG
    have hb : G.ulp m=2*2^(k+1)*F.ulp m := by
      rw [ulp,ulp,← pow_succ',← pow_add]
      congr 1
      omega
    have hN : 2^(F.fracBits-G.fracBits)=2*2^(k+1) := by
      rw [← pow_succ']
      congr 1
      omega
    have hg : 2^(Nat.log2 m-G.fracBits)=G.ulp m := rfl
    have hX : F.roundNat mode m=mode.roundDiv m (F.ulp m)*F.ulp m := rfl
    rw [roundNat_of_binade (by omega) (le_roundNat h0 (by omega)) (roundNat_le m),hg,hX,hb,hN,
      RoundingMode.roundDiv_mul_right (F.ulp_pos m),roundNat,hb,
      Nat.mul_left_inj (Nat.mul_ne_zero (by positivity) (F.ulp_pos m).ne')]
    apply RoundingMode.roundDiv_twice (F.ulp_pos m)
    · exact Nat.one_lt_two_pow (by omega)
    · rw [pow_succ]
      omega

end Twice
end OpenSBI.Math.BinaryFormat
