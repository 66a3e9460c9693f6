import Mathlib.Algebra.Order.Ring.Nat
import Mathlib.Tactic.Ring
import Mathlib.Tactic.Common

namespace OpenSBI.Math

variable {s n p : Nat}

/-- Block number of the `k`-th address of a stride of one block. -/
theorem stride_div (hp : 0<p) (s k : Nat) : (s+k*p)/p=s/p+k := Nat.add_mul_div_right s k hp

/-- The last address of a range lies as many blocks behind the first as its size has, and one more
when the two remainders fill a block. -/
theorem last_div (hp : 0<p) (h1 : 1≤n) :
    (s+n-1)/p=s/p+(n-1)/p+if s%p+(n-1)%p<p then 0 else 1 := by
  have hs := Nat.div_add_mod s p
  have hn := Nat.div_add_mod (n-1) p
  have hsr := Nat.mod_lt s hp
  have hnr := Nat.mod_lt (n-1) hp
  have he : s+n-1=s%p+(n-1)%p+p*(s/p+(n-1)/p) := by rw [Nat.mul_add]; omega
  rw [he,Nat.add_mul_div_left _ _ hp]
  split_ifs with h
  · rw [Nat.div_eq_of_lt h]
    omega
  · have hone : (s%p+(n-1)%p)/p=1 := Nat.div_eq_of_lt_le (by omega) (by omega)
    rw [hone]
    omega

/-- A stride of one block from the start of a range meets every block the range meets exactly when
the range does not reach over one more boundary than its size has. -/
theorem stride_meets_iff (hp : 0<p) (h1 : 1≤n) :
    (∀ a,s≤a → a<s+n → ∃ k,k*p<n ∧ (s+k*p)/p=a/p) ↔ s%p+(n-1)%p<p := by
  have hlast := last_div (s := s) hp h1
  have hk : ∀ k,k*p<n ↔ k≤(n-1)/p := by
    intro k
    rw [Nat.le_div_iff_mul_le hp]
    omega
  simp only [hk,stride_div hp]
  constructor
  · intro h
    by_contra hc
    obtain ⟨k,hkn,hke⟩ := h (s+n-1) (by omega) (by omega)
    rw [if_neg hc] at hlast
    omega
  · intro h a hlo hhi
    rw [if_pos h] at hlast
    have hla : s/p≤a/p := Nat.div_le_div_right hlo
    have hal : a/p≤(s+n-1)/p := Nat.div_le_div_right (by omega)
    exact ⟨a/p-s/p,by omega,by omega⟩

end OpenSBI.Math
