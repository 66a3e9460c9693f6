import Mathlib.Data.List.Basic
import Mathlib.Tactic.Common

/-! # Lists in rings of slots

A list lies in a ring of `n` slots, its first element in slot `tail`. -/

namespace OpenSBI.Framework

/-- The slot `i` places behind `tail`, with one subtraction for the wrap. -/
def ringSlot (n tail i : Nat) : Nat := if n ≤ tail+i then tail+i-n else tail+i

/-- The elements in `avail` slots from `tail` on. -/
def ringList {α : Type*} (read : Nat → α) (n tail avail : Nat) : List α :=
  (List.range avail).map fun i => read (ringSlot n tail i)

section Slots

variable {n tail i j : Nat}

theorem ringSlot_lt (ht : tail<n) (hi : i ≤ n) : ringSlot n tail i<n := by
  unfold ringSlot
  split <;> omega

theorem ringSlot_zero (ht : tail<n) : ringSlot n tail 0=tail := by
  rw [ringSlot,Nat.add_zero,if_neg (by omega)]

theorem ringSlot_inj (hi : i<n) (hj : j<n) (h : ringSlot n tail i=ringSlot n tail j) : i=j := by
  unfold ringSlot at h
  split_ifs at h <;> omega

/-- A slot counted from the next one. -/
theorem ringSlot_next (ht : tail<n) (hi : i+1 ≤ n) :
    ringSlot n (ringSlot n tail 1) i=ringSlot n tail (i+1) := by
  unfold ringSlot
  split_ifs <;> omega

end Slots

section Lists

variable {α : Type*} {read write : Nat → α} {n tail avail : Nat}

@[simp] theorem length_ringList : (ringList read n tail avail).length=avail := by simp [ringList]

theorem ringList_getElem? {i : Nat} (hi : i<avail) :
    (ringList read n tail avail)[i]?=some (read (ringSlot n tail i)) := by
  simp [ringList,hi]

theorem ringList_congr (h : ∀ i<avail,write (ringSlot n tail i)=read (ringSlot n tail i)) :
    ringList write n tail avail=ringList read n tail avail :=
  List.map_congr_left fun i hi => h i (List.mem_range.mp hi)

/-- A write to the first free slot appends. -/
theorem ringList_push (ht : tail<n) (ha : avail<n)
    (h : ∀ k<n,k≠ringSlot n tail avail → write k=read k) :
    ringList write n tail (avail+1)=ringList read n tail avail++[write (ringSlot n tail avail)] := by
  have hkept : ringList write n tail avail=ringList read n tail avail := by
    apply ringList_congr
    intro i hi
    refine h _ (ringSlot_lt ht (by omega)) fun heq => ?_
    have := ringSlot_inj (by omega) ha heq
    omega
  rw [← hkept,ringList,ringList,List.range_succ,List.map_append,List.map_cons,List.map_nil]

/-- The first element lies in the first slot, the others from the next slot on. -/
theorem ringList_pop (ht : tail<n) (ha : avail+1 ≤ n) :
    ringList read n tail (avail+1)=read tail::ringList read n (ringSlot n tail 1) avail := by
  rw [ringList,List.range_succ_eq_map,List.map_cons,List.map_map,ringSlot_zero ht]
  congr 1
  refine List.map_congr_left fun i hi => ?_
  have hlt := List.mem_range.mp hi
  rw [ringSlot_next ht (by omega)]
  rfl

end Lists
end OpenSBI.Framework
