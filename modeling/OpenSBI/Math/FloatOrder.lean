import OpenSBI.Math.BinaryFormat

namespace OpenSBI.Math

namespace FloatValue

def IsNaN : FloatValue → Prop
  | .nan _ _ => True
  | _ => False

def IsSignaling : FloatValue → Prop
  | .nan _ signaling => signaling=true
  | _ => False

instance : DecidablePred IsNaN := fun v => by cases v <;> unfold IsNaN <;> infer_instance
instance : DecidablePred IsSignaling := fun v => by cases v <;> unfold IsSignaling <;> infer_instance

theorem IsSignaling.isNaN {v : FloatValue} (h : v.IsSignaling) : v.IsNaN := by
  cases v with
  | nan => trivial
  | inf => exact h
  | finite => exact h

/-- The sign and the magnitude of a number; a NaN has none. -/
def number : FloatValue → Option (Bool×WithTop ℚ)
  | .nan _ _ => none
  | .inf negative => some (negative,⊤)
  | .finite negative m => some (negative,(m : ℚ))

/-- The order of the numbers, with the negative zero below the positive one. -/
def Lt (v w : FloatValue) : Prop :=
  match v.number,w.number with
  | some (s,m),some (s',m') => if s=s' then (if s=true then m' < m else m < m') else s=true
  | _,_ => False

instance : DecidableRel Lt := fun v w => by unfold Lt; split <;> infer_instance

end FloatValue

namespace BinaryFormat

variable (F : BinaryFormat) {m m' : Nat}

theorem expField_le (h : m ≤ m') : F.expField m≤F.expField m' := Nat.div_le_div_right h

theorem significand_lt_of_expField (he : F.expField m=F.expField m') (h : m < m') :
    F.significand m<F.significand m' := by
  have hd := Nat.div_add_mod m (2^F.fracBits)
  have hd' := Nat.div_add_mod m' (2^F.fracBits)
  have hq : m/2^F.fracBits=m'/2^F.fracBits := he
  rw [hq] at hd
  rw [significand,significand,he,fracField,fracField]
  omega

theorem significand_ge (h : F.expField m≠0) : 2^F.fracBits≤F.significand m := by
  rw [significand,if_neg h]
  exact Nat.le_add_left _ _

/-- The magnitude grows with the bits below the sign. -/
theorem magnitude_strictMono : StrictMono F.magnitude := by
  intro m m' h
  have hp : (0 : ℚ)<2^(F.bias+F.fracBits) := by positivity
  have hsig : F.significand m*2^max (F.expField m) 1<F.significand m'*2^max (F.expField m') 1 := by
    rcases (F.expField_le h.le).eq_or_lt with he | he
    · rw [he]
      exact Nat.mul_lt_mul_of_pos_right (F.significand_lt_of_expField he h) (Nat.two_pow_pos _)
    · have hs' := F.significand_ge (m := m') (by omega)
      rw [Nat.max_eq_left (show 1≤F.expField m' by omega)]
      by_cases h0 : F.expField m=0
      · -- a subnormal number has the exponent of the smallest normal ones
        have hfrac : F.significand m<2^F.fracBits := by
          rw [significand,if_pos h0,Nat.add_zero]
          exact Nat.mod_lt _ (Nat.two_pow_pos _)
        have hpow : 2^max (F.expField m) 1≤2^F.expField m' :=
          Nat.pow_le_pow_right (by decide) (by omega)
        exact Nat.mul_lt_mul_of_lt_of_le (hfrac.trans_le hs') hpow (Nat.two_pow_pos _)
      · have hpow : 2^(F.expField m+1)≤2^F.expField m' := Nat.pow_le_pow_right (by decide) he
        rw [Nat.max_eq_left (show 1≤F.expField m by omega)]
        calc F.significand m*2^F.expField m
            <2^(F.fracBits+1)*2^F.expField m :=
              Nat.mul_lt_mul_of_pos_right (F.significand_lt m) (Nat.two_pow_pos _)
          _=2^F.fracBits*2^(F.expField m+1) := by ring
          _≤F.significand m'*2^F.expField m' := Nat.mul_le_mul hs' hpow
  rw [magnitude,magnitude,div_lt_div_iff_of_pos_right hp]
  exact_mod_cast hsig

theorem value_isNaN_iff (s : Bool) :
    (F.value s m).IsNaN ↔ F.expField m=2^F.expBits-1 ∧ F.fracField m≠0 := by
  unfold value
  split_ifs with he hf
  · simp [FloatValue.IsNaN,hf]
  · simp [FloatValue.IsNaN,he,hf]
  · simp [FloatValue.IsNaN,he]

theorem value_isSignaling_iff (s : Bool) : (F.value s m).IsSignaling ↔
    F.expField m=2^F.expBits-1 ∧ F.fracField m≠0 ∧ F.fracField m<2^(F.fracBits-1) := by
  unfold value
  split_ifs with he hf
  · simp [FloatValue.IsSignaling,hf]
  · simp [FloatValue.IsSignaling,he,hf]
  · simp [FloatValue.IsSignaling,he]

/-- The magnitude of a number, infinite in the highest exponent. -/
def absolute (m : Nat) : WithTop ℚ := if F.expField m=2^F.expBits-1 then ⊤ else (F.magnitude m : ℚ)

theorem value_number {s : Bool} (hn : ¬(F.value s m).IsNaN) :
    (F.value s m).number=some (s,F.absolute m) := by
  rw [value_isNaN_iff] at hn
  unfold value absolute
  split_ifs with he hf
  · rfl
  · exact absurd ⟨he,hf⟩ hn
  · rfl

/-- The bits of a number: those of an infinity have no fraction, those of the others a lower
exponent. -/
def Numeral (m : Nat) : Prop :=
  F.expField m<2^F.expBits-1 ∨ F.expField m=2^F.expBits-1 ∧ F.fracField m=0

theorem absolute_lt (hm : F.Numeral m) (hm' : F.Numeral m') (h : m < m') :
    F.absolute m<F.absolute m' := by
  have hlow : F.expField m<2^F.expBits-1 := by
    rcases hm with hlow | ⟨he,hf⟩
    · exact hlow
    · -- no number lies above an infinity
      exfalso
      have hle := F.expField_le h.le
      have hd := Nat.div_add_mod m (2^F.fracBits)
      have hd' := Nat.div_add_mod m' (2^F.fracBits)
      rcases hm' with hlow' | ⟨he',hf'⟩
      · omega
      · have hq : m/2^F.fracBits=m'/2^F.fracBits := he.trans he'.symm
        have hr : m%2^F.fracBits=0 := hf
        have hr' : m'%2^F.fracBits=0 := hf'
        rw [hq] at hd
        omega
  rw [absolute,absolute,if_neg hlow.ne]
  split_ifs with he'
  · exact WithTop.coe_lt_top _
  · exact WithTop.coe_lt_coe.mpr (F.magnitude_strictMono h)

theorem absolute_lt_iff (hm : F.Numeral m) (hm' : F.Numeral m') :
    F.absolute m<F.absolute m' ↔ m < m' := by
  constructor
  · intro h
    by_contra hc
    rcases (not_lt.mp hc).eq_or_lt with rfl | hgt
    · exact lt_irrefl _ h
    · exact lt_asymm h (F.absolute_lt hm' hm hgt)
  · exact F.absolute_lt hm hm'

/-- The order of the numbers is that of their sign-magnitude bits. -/
theorem value_lt_iff {s s' : Bool} (hm : F.Numeral m) (hm' : F.Numeral m') :
    (F.value s m).Lt (F.value s' m') ↔ if s=s' then (if s=true then m' < m else m < m') else s=true := by
  have hn : ∀ {m s},F.Numeral m → ¬(F.value s m).IsNaN := by
    intro m s hm
    rw [value_isNaN_iff]
    rcases hm with h | h
    · exact fun hc => h.ne hc.1
    · exact fun hc => hc.2 h.2
  unfold FloatValue.Lt
  rw [F.value_number (hn hm),F.value_number (hn hm')]
  simp only [F.absolute_lt_iff hm hm',F.absolute_lt_iff hm' hm]

end BinaryFormat
end OpenSBI.Math
