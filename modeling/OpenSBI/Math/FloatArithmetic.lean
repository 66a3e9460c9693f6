import OpenSBI.Math.FloatOrder
import OpenSBI.Math.FloatRounding

namespace OpenSBI.Math

/-- What an operation gives: a number, with all the exceptions it signals. -/
structure FloatOutcome extends Rounded where
  invalid : Bool
  divByZero : Bool
  deriving DecidableEq,Repr

namespace FloatOutcome

/-- A value that is exact. -/
def exact (v : FloatValue) : FloatOutcome := ⟨⟨v,false,false,false⟩,false,false⟩

def rounded (r : Rounded) : FloatOutcome := ⟨r,false,false⟩

/-- The quiet NaN of an operation that has no result. -/
def invalidOperation : FloatOutcome := ⟨⟨.nan false false,false,false,false⟩,true,false⟩

/-- The infinity of a number divided by zero. -/
def infinite (negative : Bool) : FloatOutcome := ⟨⟨.inf negative,false,false,false⟩,false,true⟩

/-- The quiet NaN of operands of which one is a NaN; a signaling one is invalid. -/
def ofNaN (v w : FloatValue) : FloatOutcome :=
  ⟨⟨.nan false false,false,false,false⟩,decide (v.IsSignaling ∨ w.IsSignaling),false⟩

end FloatOutcome

/-- A magnitude with its sign. -/
def signedRat (negative : Bool) (q : ℚ) : ℚ := if negative then -q else q

/-- The numbers are equal, whatever the signs of zeros. -/
def FloatValue.Equal : FloatValue → FloatValue → Prop
  | .inf s,.inf s' => s=s'
  | .finite s m,.finite s' m' => signedRat s m=signedRat s' m'
  | _,_ => False

/-- The first number is less than the second. -/
def FloatValue.Less : FloatValue → FloatValue → Prop
  | .inf s,.inf s' => s=true ∧ s'=false
  | .inf s,.finite _ _ => s=true
  | .finite _ _,.inf s' => s'=false
  | .finite s m,.finite s' m' => signedRat s m<signedRat s' m'
  | _,_ => False

instance : DecidableRel FloatValue.Equal
  | .inf s,.inf s' => inferInstanceAs (Decidable (s=s'))
  | .finite s m,.finite s' m' => instDecidableEqRat (signedRat s m) (signedRat s' m')
  | .inf _,.finite _ _ | .finite _ _,.inf _ | .nan _ _,_ | .inf _,.nan _ _ | .finite _ _,.nan _ _ => instDecidableFalse

instance : DecidableRel FloatValue.Less
  | .inf s,.inf s' => inferInstanceAs (Decidable (s=true ∧ s'=false))
  | .inf s,.finite _ _ => inferInstanceAs (Decidable (s=true))
  | .finite _ _,.inf s' => inferInstanceAs (Decidable (s'=false))
  | .finite s m,.finite s' m' => Rat.instDecidableLt (signedRat s m) (signedRat s' m')
  | .nan _ _,_ | .inf _,.nan _ _ | .finite _ _,.nan _ _ => instDecidableFalse

/-- The value with the other sign. -/
def FloatValue.neg : FloatValue → FloatValue
  | .nan negative signaling => .nan (!negative) signaling
  | .inf negative => .inf (!negative)
  | .finite negative m => .finite (!negative) m

namespace BinaryFormat

variable (F : BinaryFormat) (mode : RoundingMode)

/-- A number that is not zero is rounded; the sum of a number and its negative is the positive zero,
rounding down the negative one. -/
def addFinite (s : Bool) (m : ℚ) (s' : Bool) (m' : ℚ) : FloatOutcome :=
  let z := signedRat s m+signedRat s' m'
  if z=0 then .exact (.finite (if s=s' then s else decide (mode=.rdn)) 0)
  else .rounded (F.roundTo mode (decide (z<0)) |z|)

def add : FloatValue → FloatValue → FloatOutcome
  | .inf s,.inf s' => if s=s' then .exact (.inf s) else .invalidOperation
  | .inf s,.finite _ _ => .exact (.inf s)
  | .finite _ _,.inf s' => .exact (.inf s')
  | .finite s m,.finite s' m' => F.addFinite mode s m s' m'
  | v,w => .ofNaN v w

def sub (v w : FloatValue) : FloatOutcome := F.add mode v w.neg

def mul : FloatValue → FloatValue → FloatOutcome
  | .inf s,.inf s' => .exact (.inf (s ^^ s'))
  | .inf s,.finite s' m' => if m'=0 then .invalidOperation else .exact (.inf (s ^^ s'))
  | .finite s m,.inf s' => if m=0 then .invalidOperation else .exact (.inf (s ^^ s'))
  | .finite s m,.finite s' m' => .rounded (F.roundTo mode (s ^^ s') (m*m'))
  | v,w => .ofNaN v w

def div : FloatValue → FloatValue → FloatOutcome
  | .inf _,.inf _ => .invalidOperation
  | .inf s,.finite s' _ => .exact (.inf (s ^^ s'))
  | .finite s _,.inf s' => .exact (.finite (s ^^ s') 0)
  | .finite s m,.finite s' m' =>
    if m'=0 then if m=0 then .invalidOperation else .infinite (s ^^ s')
    else .rounded (F.roundTo mode (s ^^ s') (m/m'))
  | v,w => .ofNaN v w

/-- A value brought into the format. -/
def convert : FloatValue → FloatOutcome
  | .inf s => .exact (.inf s)
  | .finite s m => .rounded (F.roundTo mode s m)
  | v => .ofNaN v v

theorem roundTo_zero (negative : Bool) : F.roundTo mode negative 0=⟨.finite negative 0,false,false,false⟩ := by
  apply roundTo_exact
  · exact F.roundRat_zero _
  · positivity

section AddFinite

variable {s : Bool} {m m' : ℚ}

theorem addFinite_same (hm : 0 ≤ m) (hm' : 0 ≤ m') :
    F.addFinite mode s m s m'=.rounded (F.roundTo mode s (m+m')) := by
  have hz : signedRat s m+signedRat s m'=signedRat s (m+m') := by
    unfold signedRat
    split <;> ring
  rw [addFinite]
  simp only [hz]
  by_cases h0 : m+m'=0
  · have hs : signedRat s 0=0 := by cases s <;> simp [signedRat]
    rw [h0,hs,if_pos rfl,if_pos trivial,roundTo_zero]
    rfl
  · have hpos : 0 < m+m' := lt_of_le_of_ne (by linarith) (Ne.symm h0)
    cases s with
    | false =>
      have hf : decide (m+m'<0)=false := decide_eq_false (by linarith)
      simp [signedRat,h0,abs_of_pos hpos,hf]
    | true =>
      rw [signedRat,if_pos rfl,if_neg (by linarith),abs_neg,abs_of_pos hpos,decide_eq_true (by linarith)]

theorem addFinite_gt (h : m' < m) : F.addFinite mode s m (!s) m'=.rounded (F.roundTo mode s (m-m')) := by
  have hpos : 0 < m-m' := by linarith
  cases s with
  | false =>
    have hz : signedRat false m+signedRat true m'=m-m' := by simp [signedRat,sub_eq_add_neg]
    rw [Bool.not_false,addFinite,hz,if_neg hpos.ne',abs_of_pos hpos,decide_eq_false (by linarith)]
  | true =>
    have hz : signedRat true m+signedRat false m'=-(m-m') := by simp [signedRat]; ring
    rw [Bool.not_true,addFinite,hz,if_neg (by linarith),abs_neg,abs_of_pos hpos,decide_eq_true (by linarith)]

theorem addFinite_lt (h : m < m') : F.addFinite mode s m (!s) m'=.rounded (F.roundTo mode (!s) (m'-m)) := by
  have hc : F.addFinite mode s m (!s) m'=F.addFinite mode (!s) m' s m := by
    rw [addFinite,addFinite,add_comm]
    cases s <;> rfl
  have hg := F.addFinite_gt mode (s := !s) h
  rwa [Bool.not_not,← hc] at hg

theorem addFinite_eq : F.addFinite mode s m (!s) m=.exact (.finite (decide (mode=.rdn)) 0) := by
  have hz : signedRat s m+signedRat (!s) m=0 := by cases s <;> simp [signedRat]
  rw [addFinite,hz,if_pos rfl]
  cases s <;> rfl

end AddFinite
end BinaryFormat

namespace FloatValue

/-- No magnitude is negative. -/
def Nonneg : FloatValue → Prop
  | .finite _ m => 0 ≤ m
  | _ => True

section Order

variable {v w : FloatValue}

theorem not_isNaN_of_less (h : v.Less w) : ¬v.IsNaN ∧ ¬w.IsNaN := by
  cases v <;> cases w <;> simp_all [Less,IsNaN]

theorem not_isNaN_of_equal (h : v.Equal w) : ¬v.IsNaN ∧ ¬w.IsNaN := by
  cases v <;> cases w <;> simp_all [Equal,IsNaN]

/-- The two orders differ on the zeros alone. -/
theorem less_iff (hv : v.Nonneg) (hw : w.Nonneg) :
    v.Less w ↔ v.Lt w ∧ ¬(v=.finite true 0 ∧ w=.finite false 0) := by
  cases v with
  | nan s q => simp [Less,Lt,number]
  | inf s =>
    cases w with
    | nan s' q' => simp [Less,Lt,number]
    | inf s' => cases s <;> cases s' <;> simp [Less,Lt,number]
    | finite s' m' => cases s <;> cases s' <;> simp [Less,Lt,number]
  | finite s m =>
    cases w with
    | nan s' q' => simp [Less,Lt,number]
    | inf s' => cases s <;> cases s' <;> simp [Less,Lt,number]
    | finite s' m' =>
      have hm : 0 ≤ m := hv
      have hm' : 0 ≤ m' := hw
      cases s <;> cases s' <;> simp [Less,Lt,number,signedRat]
      · linarith
      · constructor
        · intro h h0 h0'
          linarith
        · intro h
          rcases hm.eq_or_lt with h0 | h0
          · have := lt_of_le_of_ne hm' (fun h' => h h0.symm h'.symm)
            linarith
          · linarith

theorem equal_iff (hv : ¬v.IsNaN) (hw : ¬w.IsNaN) : v.Equal w ↔ ¬v.Less w ∧ ¬w.Less v := by
  cases v with
  | nan s q => exact absurd trivial hv
  | inf s =>
    cases w with
    | nan s' q' => exact absurd trivial hw
    | inf s' => cases s <;> cases s' <;> simp [Less,Equal]
    | finite s' m' => cases s <;> simp [Less,Equal]
  | finite s m =>
    cases w with
    | nan s' q' => exact absurd trivial hw
    | inf s' => cases s' <;> simp [Less,Equal]
    | finite s' m' =>
      simp only [Less,Equal,not_lt]
      exact ⟨fun h => ⟨h.ge,h.le⟩,fun h => le_antisymm h.2 h.1⟩

end Order
end FloatValue
end OpenSBI.Math
