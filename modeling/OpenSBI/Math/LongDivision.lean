import Mathlib.Tactic.Linarith
import Mathlib.Tactic.LinearCombination
import Mathlib.Tactic.Ring

namespace OpenSBI.Math

section Place

variable {R : Type*} [CommSemiring R] {B : R} {f g : ℕ → R} {a m n : ℕ}

/-- The number of `n` digits in base `B`, the highest of them at `a`. -/
def place (B : R) (f : ℕ → R) (a : ℕ) : ℕ → R
  | 0 => 0
  | n+1 => place B f a n*B+f (a+n)

theorem place_congr (h : ∀ i,i<n → f (a+i)=g (a+i)) : place B f a n=place B g a n := by
  induction n with
  | zero => rfl
  | succ n ih => rw [place,place,ih fun i hi => h i (by omega),h n (by omega)]

theorem place_append (m n : ℕ) : place B f a (m+n)=place B f a m*B^n+place B f (a+m) n := by
  induction n with
  | zero => simp [place]
  | succ n ih =>
    rw [← Nat.add_assoc,place,ih,place,Nat.add_assoc]
    ring

theorem place_one : place B f a 1=f a := by
  simp [place]

theorem place_head (n : ℕ) : place B f a (n+1)=f a*B^n+place B f (a+1) n := by
  rw [Nat.add_comm n 1,place_append,place_one]

theorem place_eq_zero (h : ∀ i,i<n → f (a+i)=0) : place B f a n=0 := by
  induction n with
  | zero => rfl
  | succ n ih => rw [place,ih fun i hi => h i (by omega),h n (by omega),zero_mul,add_zero]

theorem cast_place {B : ℕ} {f : ℕ → ℕ} :
    ((place B f a n : ℕ) : R)=place (B : R) (fun i => (f i : R)) a n := by
  induction n with
  | zero => simp [place]
  | succ n ih => rw [place,place,← ih,Nat.cast_add,Nat.cast_mul]

end Place

section Carry

variable {R : Type*} [CommRing R] {B S : R} {f g c r : ℕ → R} {a n : ℕ}

/-- Digits that are multiplied and hand a carry to the next higher one. -/
theorem place_carry (h : ∀ i,i<n → g (a+i)+B*c i=f (a+i)*S+c (i+1)) :
    place B g a n+B^n*c 0=place B f a n*S+c n := by
  induction n with
  | zero => simp [place]
  | succ n ih =>
    have hn := h n (by omega)
    have hih := ih fun i hi => h i (by omega)
    rw [place,place]
    linear_combination B*hih+hn

/-- Digits that are divided and hand a remainder to the next lower one. -/
theorem place_divide (h : ∀ i,i<n → g (a+i)*S+r (i+1)=r i*B+f (a+i)) :
    place B g a n*S+r n=r 0*B^n+place B f a n := by
  induction n with
  | zero => simp [place]
  | succ n ih =>
    have hn := h n (by omega)
    have hih := ih fun i hi => h i (by omega)
    rw [place,place]
    linear_combination B*hih+hn

end Carry

section Bounds

variable {B : ℕ} {f : ℕ → ℕ} {a k n : ℕ}

theorem place_lt (h : ∀ i,f i<B) : place B f a n<B^n := by
  induction n with
  | zero => exact Nat.one_pos
  | succ n ih =>
    have hn := h (a+n)
    calc place B f a n*B+f (a+n)<place B f a n*B+1*B := by omega
      _=(place B f a n+1)*B := (Nat.add_mul _ _ _).symm
      _ ≤ B^n*B := Nat.mul_le_mul_right B ih
      _=B^(n+1) := (pow_succ B n).symm

/-- Digits above those that a small number fills are zero. -/
theorem place_high (h : place B f a (k+n)<B^n) : place B f a k=0 := by
  rw [place_append] at h
  by_contra hk
  have := Nat.mul_le_mul_right (B^n) (Nat.one_le_iff_ne_zero.mpr hk)
  omega

end Bounds

section Ripple

variable {D C : Type*} {g : ℕ → D → C → D×C} {a n i : ℕ} {u : ℕ → D} {t : C}

/-- A loop over digits from the lowest one up, with a carry. -/
def ripple (g : ℕ → D → C → D×C) (a : ℕ) : ℕ → (ℕ → D) → C → (ℕ → D)×C
  | 0,u,t => (u,t)
  | n+1,u,t =>
    let r := g n (u (a+n)) t
    ripple g a n (Function.update u (a+n) r.1) r.2

theorem ripple_frame (h : i<a ∨ a+n ≤ i) : (ripple g a n u t).1 i=u i := by
  induction n generalizing u t with
  | zero => rfl
  | succ n ih =>
    rw [ripple,ih (by omega)]
    exact Function.update_of_ne (by omega) _ _

/-- What each digit and its carry keep, the number and the last carry keep. -/
theorem ripple_place {B k : ℤ} {p : D → ℤ} {q : C → ℤ} {P : C → Prop} {w : ℕ → ℤ} {b : ℕ}
    (ht : P t) (h : ∀ i d c,i<n → P c → P (g i d c).2 ∧
      p (g i d c).1+B*q (g i d c).2=p d+k*w (b+i)+q c) :
    P (ripple g a n u t).2 ∧
      place B (fun i => p ((ripple g a n u t).1 i)) a n+B^n*q (ripple g a n u t).2=
        place B (fun i => p (u i)) a n+k*place B w b n+q t := by
  induction n generalizing u t with
  | zero => simp [ripple,place,ht]
  | succ n ih =>
    obtain ⟨hP,hn⟩ := h n (u (a+n)) t (by omega) ht
    obtain ⟨hP',hih⟩ := ih (u := Function.update u (a+n) (g n (u (a+n)) t).1) hP
      fun i d c hi => h i d c (by omega)
    refine ⟨hP',?_⟩
    have hlow : place B (fun i => p (Function.update u (a+n) (g n (u (a+n)) t).1 i)) a n=
        place B (fun i => p (u i)) a n := by
      apply place_congr
      intro i hi
      rw [Function.update_of_ne (by omega)]
    have hdigit : (ripple g a (n+1) u t).1 (a+n)=(g n (u (a+n)) t).1 := by
      rw [ripple,ripple_frame (Or.inr le_rfl)]
      exact Function.update_self _ _ _
    rw [hlow] at hih
    rw [place,hdigit,place,place]
    rw [show ripple g a (n+1) u t=ripple g a n (Function.update u (a+n) (g n (u (a+n)) t).1)
      (g n (u (a+n)) t).2 from rfl]
    linear_combination B*hih+hn

end Ripple

section Estimate

variable {B U V W x y q e : ℕ}

/-- The quotient of the leading digits is not below the quotient. -/
theorem quotient_leading (hU : U<(x+1)*W) (hV : y*W ≤ V) (hq : q*V ≤ U) : q*y ≤ x := by
  by_contra h
  have hx : (x+1)*W ≤ q*y*W := Nat.mul_le_mul_right W (by omega)
  have hy : q*y*W ≤ q*V := Nat.mul_assoc q y W ▸ Nat.mul_le_mul_left q hV
  omega

/-- One that the leading digits admit is at most one above it, where the divisor is normalised. -/
theorem estimate_le (hU : x*W ≤ U) (hV : V<(y+1)*W) (hq : U<(q+1)*V) (he : e*y ≤ x) (heB : e ≤ B)
    (hB : B*W ≤ V) : e ≤ q+1 := by
  by_contra h
  have h1 : (q+2)*V ≤ e*V := Nat.mul_le_mul_right V (by omega)
  have h2 : e*V ≤ e*((y+1)*W) := Nat.mul_le_mul_left e hV.le
  have h3 : e*y*W ≤ x*W := Nat.mul_le_mul_right W he
  have h4 : e*W ≤ B*W := Nat.mul_le_mul_right W heB
  nlinarith

/-- Long division, one digit of the quotient split off. -/
theorem div_split (U R b V : ℕ) (hV : 0<V) : (U*b+R)/V=U/V*b+(U%V*b+R)/V := by
  conv_lhs => rw [← Nat.div_add_mod U V]
  rw [show (V*(U/V)+U%V)*b+R=U%V*b+R+V*(U/V*b) by ring,Nat.add_mul_div_left _ _ hV,Nat.add_comm]

theorem mod_split (U R b V : ℕ) : (U*b+R)%V=(U%V*b+R)%V := by
  conv_lhs => rw [← Nat.div_add_mod U V]
  rw [show (V*(U/V)+U%V)*b+R=U%V*b+R+V*(U/V*b) by ring,Nat.add_mul_mod_self_left]

end Estimate
end OpenSBI.Math
