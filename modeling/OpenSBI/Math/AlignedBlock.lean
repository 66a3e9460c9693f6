import Mathlib.Algebra.Order.Ring.Nat
import Mathlib.Algebra.Order.Group.Nat
import Mathlib.Tactic.Ring
import Mathlib.Tactic.Linarith
import Mathlib.Tactic.Common

namespace OpenSBI.Math

/-- `a` lies in the block of `2^k` addresses starting at `b`. -/
def InBlock (b k a : Nat) : Prop := b≤a ∧ a<b+2^k

instance (b k a : Nat) : Decidable (InBlock b k a) :=
  inferInstanceAs (Decidable (_ ∧ _))

/-- A naturally aligned block is a fibre of division by its size. -/
theorem inBlock_iff_div {b k : Nat} (hb : 2^k∣b) (a : Nat) :
    InBlock b k a ↔ a/2^k=b/2^k := by
  have hk : 0<2^k := Nat.two_pow_pos k
  obtain ⟨q,rfl⟩ := hb
  rw [Nat.mul_div_cancel_left q hk]
  constructor
  · rintro ⟨h1,h2⟩
    have hlo : q≤a/2^k := (Nat.le_div_iff_mul_le hk).mpr (by rwa [Nat.mul_comm])
    have hhi : a/2^k<q+1 := (Nat.div_lt_iff_lt_mul hk).mpr (by
      rw [Nat.add_mul,Nat.one_mul,Nat.mul_comm q]; exact h2)
    omega
  · intro h
    have hm := Nat.div_add_mod a (2^k)
    have hr := Nat.mod_lt a hk
    rw [h] at hm
    exact ⟨by omega,by omega⟩

theorem base_inBlock (b k : Nat) : InBlock b k b :=
  ⟨le_refl b,Nat.lt_add_of_pos_right (Nat.two_pow_pos k)⟩

/-- Aligned blocks are laminar: a block that meets a larger one lies inside it. -/
theorem InBlock.nested {b c i j a a' : Nat} (hb : 2^i∣b) (hc : 2^j∣c) (hij : i≤j)
    (h1 : InBlock b i a) (h2 : InBlock c j a) (h3 : InBlock b i a') : InBlock c j a' := by
  rw [inBlock_iff_div hb] at h1 h3
  rw [inBlock_iff_div hc] at h2 ⊢
  have hp : 2^j=2^i*2^(j-i) := by rw [← Nat.pow_add]; congr 1; omega
  rw [hp,← Nat.div_div_eq_div_mul] at h2 ⊢
  rw [h3,← h1]
  exact h2

/-- Two aligned blocks of one size that meet are the same block. -/
theorem InBlock.base_eq {b c k a : Nat} (hb : 2^k∣b) (hc : 2^k∣c)
    (h1 : InBlock b k a) (h2 : InBlock c k a) : b=c := by
  have hbc := h1.nested hb hc (le_refl k) h2 (base_inBlock b k)
  have hcb := h2.nested hc hb (le_refl k) h1 (base_inBlock c k)
  exact le_antisymm hcb.1 hbc.1

/-- Adding one to a word that ends in a zero followed by ones flips exactly that tail. -/
theorem xor_succ_tail (q k : Nat) :
    (2^(k+1)*q+(2^k-1))^^^(2^(k+1)*q+2^k)=2^(k+1)-1 := by
  have hk : 0<2^k := Nat.two_pow_pos k
  have hs : 2^(k+1)=2^k+2^k := by rw [Nat.pow_succ]; ring
  apply Nat.eq_of_testBit_eq
  intro j
  rw [Nat.testBit_xor,Nat.testBit_two_pow_mul_add q (by omega : 2^k-1<2^(k+1)) j,
    Nat.testBit_two_pow_mul_add q (by omega : 2^k<2^(k+1)) j,Nat.testBit_two_pow_sub_one]
  by_cases hj : j<k+1
  · simp only [hj,if_true,Nat.testBit_two_pow_sub_one,Nat.testBit_two_pow,decide_true]
    by_cases he : k=j
    · simp [he]
    · have hlt : j<k := by omega
      simp [he,hlt]
  · simp [hj]

/-- Two words agree above bit `k` exactly when their quotients by `2^k` agree. -/
theorem testBit_above_iff_div (a b k : Nat) :
    (∀ j,k≤j → a.testBit j=b.testBit j) ↔ a/2^k=b/2^k := by
  rw [← Nat.shiftRight_eq_div_pow,← Nat.shiftRight_eq_div_pow]
  constructor
  · intro h
    apply Nat.eq_of_testBit_eq
    intro j
    rw [Nat.testBit_shiftRight,Nat.testBit_shiftRight]
    exact h (k+j) (by omega)
  · intro h j hj
    have hb := congrArg (fun n => n.testBit (j-k)) h
    simp only [Nat.testBit_shiftRight] at hb
    rwa [Nat.add_sub_of_le hj] at hb

/-- Some aligned block of order `k` holds both addresses. -/
theorem exists_block_iff (a b k : Nat) :
    (∃ c,2^k∣c ∧ InBlock c k a ∧ InBlock c k b) ↔ a/2^k=b/2^k := by
  constructor
  · rintro ⟨c,hc,ha,hb⟩
    rw [(inBlock_iff_div hc a).mp ha,(inBlock_iff_div hc b).mp hb]
  · intro h
    have hc : 2^k∣a/2^k*2^k := Nat.dvd_mul_left _ _
    refine ⟨a/2^k*2^k,hc,?_,?_⟩
    · rw [inBlock_iff_div hc,Nat.mul_div_cancel _ (Nat.two_pow_pos k)]
    · rw [inBlock_iff_div hc,Nat.mul_div_cancel _ (Nat.two_pow_pos k),h]

/-- Addresses that share a block share every larger one. -/
theorem div_eq_of_le {a b j k : Nat} (h : a/2^j=b/2^j) (hjk : j≤k) : a/2^k=b/2^k := by
  have hp : 2^k=2^j*2^(k-j) := by rw [← Nat.pow_add]; congr 1; omega
  rw [hp,← Nat.div_div_eq_div_mul,h,Nat.div_div_eq_div_mul]

/-- The block of order `k` around `a` does not reach past the space of `2^n` addresses. -/
theorem block_end_le {a k n : Nat} (ha : a<2^n) (hk : k≤n) : a/2^k*2^k+2^k≤2^n := by
  have hp : 2^n=2^(n-k)*2^k := by rw [← Nat.pow_add]; congr 1; omega
  have hq : a/2^k<2^(n-k) := Nat.div_lt_of_lt_mul (by rwa [Nat.mul_comm,← hp])
  calc
    a/2^k*2^k+2^k = (a/2^k+1)*2^k := by ring
    _ ≤ 2^(n-k)*2^k := Nat.mul_le_mul_right _ hq
    _ = 2^n := hp.symm

/-- It is the topmost one exactly for the last `2^k` addresses. -/
theorem block_end_eq_iff {a k n : Nat} (ha : a<2^n) (hk : k≤n) :
    a/2^k*2^k+2^k=2^n ↔ 2^n≤a+2^k := by
  have hle := Nat.div_mul_le_self a (2^k)
  refine ⟨fun h => by omega,fun h => ?_⟩
  refine le_antisymm (block_end_le ha hk) ?_
  have hp : 2^n=2^(n-k)*2^k := by rw [← Nat.pow_add]; congr 1; omega
  have hq : 2^(n-k)-1≤a/2^k := by
    rw [Nat.le_div_iff_mul_le (Nat.two_pow_pos k),Nat.sub_mul,← hp]
    omega
  calc
    2^n = 2^(n-k)*2^k := hp
    _ ≤ (a/2^k+1)*2^k := Nat.mul_le_mul_right _ (by omega)
    _ = a/2^k*2^k+2^k := by ring

end OpenSBI.Math
