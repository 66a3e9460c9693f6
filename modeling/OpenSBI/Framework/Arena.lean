import Mathlib.Algebra.BigOperators.Ring.List
import Mathlib.Algebra.Order.Ring.Nat
import Mathlib.Tactic.Common

namespace OpenSBI.Framework

/-- The least multiple of `align` from `n` on. -/
def roundUp (align n : Nat) : Nat := if n%align=0 then n else n-n%align+align

theorem dvd_roundUp (align n : Nat) : align∣roundUp align n := by
  unfold roundUp
  split
  next h => exact Nat.dvd_of_mod_eq_zero h
  next => exact Nat.dvd_add (Nat.dvd_sub_mod n) (dvd_refl align)

theorem le_roundUp {align : Nat} (h : 0<align) (n : Nat) : n ≤ roundUp align n := by
  have hm := Nat.mod_lt n h
  unfold roundUp
  split
  · exact le_refl n
  · omega

theorem roundUp_lt {align : Nat} (h : 0<align) (n : Nat) : roundUp align n<n+align := by
  unfold roundUp
  split
  · omega
  · have hm := Nat.mod_le n align
    omega

theorem roundUp_le {align n m : Nat} (h : n ≤ m) (hm : align∣m) : roundUp align n ≤ m := by
  unfold roundUp
  split
  · exact h
  next hn =>
    obtain ⟨c,rfl⟩ := hm
    have hd := Nat.div_add_mod n align
    have hlt : n/align<c := by
      by_contra hc
      have hmul := Nat.mul_le_mul_left align (not_lt.mp hc)
      omega
    have hmul := Nat.mul_le_mul_left align hlt
    rw [Nat.mul_succ] at hmul
    omega

/-- A space `[lo,hi)` that blocks are carved out of from below, never to be given back. The blocks
are known by their lengths, the newest first. -/
structure Arena (lo hi align : Nat) where
  lengths : List Nat
  fits : lo+lengths.sum ≤ hi
  aligned : ∀ n∈lengths,align∣n

namespace Arena

variable {lo hi align : Nat}

/-- The first address that is free. -/
def top (a : Arena lo hi align) : Nat := lo+a.lengths.sum

/-- Blocks laid end to end from `lo` on, with their starts. -/
def blocksFrom (lo : Nat) : List Nat → List (Nat×Nat)
  | [] => []
  | n::ns => (lo+ns.sum,n)::blocksFrom lo ns

def blocks (a : Arena lo hi align) : List (Nat×Nat) := blocksFrom lo a.lengths

def empty (h : lo ≤ hi) : Arena lo hi align := ⟨[],by simpa using h,by simp⟩

/-- The request for `n` bytes, refused when what is left does not hold it. -/
def alloc (a : Arena lo hi align) (n : Nat) : Option (Arena lo hi align) :=
  if h : a.top+roundUp align n ≤ hi then
    some ⟨roundUp align n::a.lengths,by
      rw [List.sum_cons,Nat.add_left_comm,Nat.add_comm]
      exact h,by
      intro k hk
      rcases List.mem_cons.mp hk with rfl | hk
      · exact dvd_roundUp align n
      · exact a.aligned k hk⟩
  else none

theorem blocksFrom_within (lo : Nat) (ns : List Nat) :
    ∀ b∈blocksFrom lo ns,lo ≤ b.1 ∧ b.1+b.2 ≤ lo+ns.sum := by
  induction ns with
  | nil => simp [blocksFrom]
  | cons n ns ih =>
    intro b hb
    rcases List.mem_cons.mp hb with rfl | hb
    · simp only [List.sum_cons]
      omega
    · have hw := ih b hb
      simp only [List.sum_cons]
      omega

theorem top_le (a : Arena lo hi align) : a.top ≤ hi := a.fits

theorem le_top (a : Arena lo hi align) : lo ≤ a.top := Nat.le_add_right lo _

theorem dvd_top (a : Arena lo hi align) (hlo : align∣lo) : align∣a.top :=
  Nat.dvd_add hlo (List.dvd_sum a.aligned)

theorem blocks_le_top (a : Arena lo hi align) : ∀ b∈a.blocks,b.1+b.2 ≤ a.top :=
  fun b hb => (blocksFrom_within lo a.lengths b hb).2

theorem top_eq (a : Arena lo hi align) : a.top=lo+(a.blocks.map Prod.snd).sum := by
  have h : ∀ ns : List Nat,(blocksFrom lo ns).map Prod.snd=ns := by
    intro ns
    induction ns with
    | nil => rfl
    | cons n ns ih => rw [blocksFrom,List.map_cons,ih]
  rw [top,blocks,h]

theorem alloc_isSome (a : Arena lo hi align) (n : Nat) :
    (a.alloc n).isSome=true ↔ a.top+roundUp align n ≤ hi := by
  unfold alloc
  split
  next h => simp [h]
  next h => simp [h]

/-- A granted block starts at the top and the rest stays. -/
theorem blocks_alloc {a b : Arena lo hi align} {n : Nat} (h : a.alloc n=some b) :
    b.blocks=(a.top,roundUp align n)::a.blocks ∧ b.top=a.top+roundUp align n := by
  unfold alloc at h
  split at h
  · cases h
    refine ⟨rfl,?_⟩
    simp only [top,List.sum_cons]
    omega
  · cases h

end Arena
end OpenSBI.Framework
