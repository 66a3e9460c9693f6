import Mathlib.Algebra.Order.Floor.Ring
import Mathlib.Data.Rat.Floor
import Mathlib.Tactic.Linarith
import Mathlib.Tactic.Positivity
import Mathlib.Tactic.Push

namespace OpenSBI.Math

/-- To nearest with ties to even, towards zero, down, up, and to nearest with ties away from zero. -/
inductive RoundingMode where
  | rne
  | rtz
  | rdn
  | rup
  | rmm
  deriving DecidableEq,Repr

namespace RoundingMode

/-- A rational rounded to an integer. -/
def round (mode : RoundingMode) (q : ℚ) : ℤ :=
  match mode with
  | .rne => if 2*(q-⌊q⌋)<1 ∨ 2*(q-⌊q⌋)=1 ∧ ⌊q⌋%2=0 then ⌊q⌋ else ⌈q⌉
  | .rtz => if 0 ≤ q then ⌊q⌋ else ⌈q⌉
  | .rdn => ⌊q⌋
  | .rup => ⌈q⌉
  | .rmm => if 2*(q-⌊q⌋)<1 ∨ 2*(q-⌊q⌋)=1 ∧ q<0 then ⌊q⌋ else ⌈q⌉

/-- The mode that does to `-q` what `mode` does to `q`. -/
def flip : RoundingMode → RoundingMode
  | .rdn => .rup
  | .rup => .rdn
  | mode => mode

/-- The mode does not look at the sign. -/
def Undirected (mode : RoundingMode) : Prop := mode.flip=mode

instance (mode : RoundingMode) : Decidable mode.Undirected := inferInstanceAs (Decidable (_=_))

variable (mode : RoundingMode) (q : ℚ)

theorem round_cases : mode.round q=⌊q⌋ ∨ mode.round q=⌈q⌉ := by
  cases mode <;> simp only [round]
  case rne => split <;> simp
  case rtz => split <;> simp
  case rdn => simp
  case rup => simp
  case rmm => split <;> simp

theorem floor_le_round : ⌊q⌋ ≤ mode.round q := by
  obtain h | h := mode.round_cases q
  · exact h.ge
  · rw [h]
    exact Int.floor_le_ceil q

theorem round_le_ceil : mode.round q ≤ ⌈q⌉ := by
  obtain h | h := mode.round_cases q
  · rw [h]
    exact Int.floor_le_ceil q
  · exact h.le

/-- An integer is rounded to itself. -/
@[simp] theorem round_intCast (n : ℤ) : mode.round n=n := by
  obtain h | h := mode.round_cases n
  · rw [h,Int.floor_intCast]
  · rw [h,Int.ceil_intCast]

theorem round_nonneg (h : 0 ≤ q) : 0 ≤ mode.round q :=
  (Int.floor_nonneg.mpr h).trans (mode.floor_le_round q)

theorem ceil_of_not_int {q : ℚ} (h : q≠⌊q⌋) : ⌈q⌉=⌊q⌋+1 := by
  apply le_antisymm (Int.ceil_le_floor_add_one q)
  have hlt : (⌊q⌋ : ℚ)<q := lt_of_le_of_ne (Int.floor_le q) h.symm
  exact Int.add_one_le_of_lt (Int.lt_ceil.mpr hlt)

/-- Rounding commutes with the sign once the mode is turned with it. -/
theorem round_neg : mode.round (-q)=-mode.flip.round q := by
  by_cases hi : q=⌊q⌋
  · rw [hi,← Int.cast_neg,round_intCast,round_intCast]
  have hc : ⌈q⌉=⌊q⌋+1 := ceil_of_not_int hi
  have hq : q≠0 := by
    intro h
    rw [h] at hi
    simp at hi
  cases mode with
  | rdn => exact Int.floor_neg
  | rup => exact Int.ceil_neg
  | rtz =>
    simp only [round,flip,Int.floor_neg,Int.ceil_neg]
    obtain h | h := lt_or_gt_of_ne hq
    · rw [if_pos (by linarith),if_neg (by linarith)]
    · rw [if_neg (by linarith),if_pos (by linarith)]
  | rne =>
    simp only [round,flip,Int.floor_neg,Int.ceil_neg,hc]
    push_cast
    obtain h | h | h := lt_trichotomy (2*(q-⌊q⌋)) 1
    · rw [if_neg (by rintro (h' | ⟨h',-⟩) <;> linarith),if_pos (.inl h)]
    · by_cases he : ⌊q⌋%2=0
      · rw [if_neg (by rintro (h' | ⟨-,h'⟩) <;> [linarith; omega]),if_pos (.inr ⟨h,he⟩)]
      · rw [if_pos (.inr ⟨by linarith,by omega⟩),if_neg (by rintro (h' | ⟨-,h'⟩) <;> [linarith; omega])]
    · rw [if_pos (.inl (by linarith)),if_neg (by rintro (h' | ⟨h',-⟩) <;> linarith)]
  | rmm =>
    simp only [round,flip,Int.floor_neg,Int.ceil_neg,hc]
    push_cast
    obtain h | h | h := lt_trichotomy (2*(q-⌊q⌋)) 1
    · rw [if_neg (by rintro (h' | ⟨h',-⟩) <;> linarith),if_pos (.inl h)]
    · obtain hs | hs := lt_or_gt_of_ne hq
      · rw [if_neg (by rintro (h' | ⟨-,h'⟩) <;> linarith),if_pos (.inr ⟨h,hs⟩)]
      · rw [if_pos (.inr ⟨by linarith,by linarith⟩),if_neg (by rintro (h' | ⟨-,h'⟩) <;> linarith)]
    · rw [if_pos (.inl (by linarith)),if_neg (by rintro (h' | ⟨h',-⟩) <;> linarith)]

theorem flip_eq_of_undirected {mode : RoundingMode} (h : mode.Undirected) :
    mode.flip.round q=mode.round q := by rw [h]

/-- A directed mode separates a number that is not an integer from its negative. -/
theorem flip_ne_of_directed {mode : RoundingMode} {q : ℚ} (h : ¬mode.Undirected) (hq : q≠⌊q⌋) :
    mode.flip.round q≠mode.round q := by
  have hc := ceil_of_not_int hq
  cases mode with
  | rdn =>
    show ⌈q⌉≠⌊q⌋
    omega
  | rup =>
    show ⌊q⌋≠⌈q⌉
    omega
  | _ => exact absurd rfl h

theorem round_of_int {q : ℚ} (h : q=⌊q⌋) : mode.round q=⌊q⌋ := by
  have hr := mode.round_intCast ⌊q⌋
  rwa [← h] at hr

/-- Only integers are rounded to themselves. -/
theorem round_eq_iff : (mode.round q : ℚ)=q ↔ q=⌊q⌋ := by
  constructor
  · intro h
    rw [← h,Int.floor_intCast]
  · intro h
    rw [h,round_intCast]

end RoundingMode
end OpenSBI.Math
