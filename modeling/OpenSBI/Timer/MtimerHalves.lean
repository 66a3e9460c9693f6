import OpenSBI.Riscv.Xlen
import Mathlib.Tactic.Common

namespace OpenSBI

/-! ## 64-bit timer registers on a 32-bit bus -/

/-- `readl_relaxed()` of a 64-bit register, at byte 4 for the high half. -/
def readlHalf (high : Bool) (v : BitVec 64) : BitVec 32 := v.extractLsb' (if high then 32 else 0) 32

/-- `writel_relaxed()` to a 64-bit register. -/
def writelHalf (high : Bool) (w : BitVec 32) (v : BitVec 64) : BitVec 64 :=
  if high then w++readlHalf false v else readlHalf true v++w

/-- The rounds of `mtimer_time_rd32()`: the value returned and the number of the access that began the last
round. `timer k` is the register at access `k`, and `none` is a loop that goes on. -/
def mtimerTimeRd32 (timer : Nat → BitVec 64) : Nat → Nat → Option (BitVec 64×Nat)
  | 0,_ => none
  | fuel+1,k =>
    let hi := readlHalf true (timer k)
    let lo := readlHalf false (timer (k+1))
    if hi≠readlHalf true (timer (k+2)) then mtimerTimeRd32 timer fuel (k+3)
    else some ((hi.setWidth 64 <<< 32) ||| lo.setWidth 64,k)

/-- `mtimer_time_wr32()`: what the register holds after each of the writes. -/
def mtimerTimeWr32 (timecmp : Bool) (value old : BitVec 64) : List (BitVec 64) :=
  let v1 := writelHalf false (if timecmp then -1 else 0) old
  let v2 := writelHalf true ((value >>> 32).setWidth 32) v1
  [v1,v2,writelHalf false (value.setWidth 32) v2]

theorem toNat_readlHalf (high : Bool) (v : BitVec 64) :
    (readlHalf high v).toNat=if high then v.toNat/2^32 else v.toNat%2^32 := by
  have hv := v.isLt
  rw [readlHalf,BitVec.extractLsb'_toNat,Nat.shiftRight_eq_div_pow]
  cases high
  · simp
  · simp
    omega

theorem readlHalf_append (high : Bool) (hi lo : BitVec 32) :
    readlHalf high (hi++lo)=if high then hi else lo := by
  cases high with
  | true => exact (extractLsb'_append hi lo).1
  | false => exact (extractLsb'_append hi lo).2

theorem append_readlHalf (v : BitVec 64) : readlHalf true v++readlHalf false v=v := append_extractLsb' v

/-- `((u64)hi << 32) | (u64)lo`. -/
theorem halves_or (hi lo : BitVec 32) : (hi.setWidth 64 <<< 32) ||| lo.setWidth 64=hi++lo := by
  apply BitVec.eq_of_getLsbD_eq
  intro i hi64
  rw [BitVec.getLsbD_or,BitVec.getLsbD_shiftLeft,BitVec.getLsbD_append,BitVec.getLsbD_setWidth,
    BitVec.getLsbD_setWidth]
  by_cases h : i<32
  · simp [h,hi64]
  · have hsub : i-32<64 := by omega
    simp [h,hi64,hsub,BitVec.getLsbD_of_ge lo i (by omega)]

/-! ## Reads -/

/-- The high half that is read twice has not changed in between, so that the value is the register's at
the second access of the last round. -/
theorem mtimerTimeRd32_eq {timer : Nat → BitVec 64} (hmono : ∀ i j,i ≤ j → timer i ≤ timer j)
    {fuel k n : Nat} {v : BitVec 64} (h : mtimerTimeRd32 timer fuel k=some (v,n)) : v=timer (n+1) := by
  induction fuel generalizing k with
  | zero => cases h
  | succ fuel ih =>
    rw [mtimerTimeRd32] at h
    by_cases hne : readlHalf true (timer k)≠readlHalf true (timer (k+2))
    · rw [if_pos hne] at h
      exact ih h
    · rw [if_neg hne,halves_or,Option.some.injEq,Prod.mk.injEq] at h
      obtain ⟨rfl,rfl⟩ := h
      have hsame := congrArg BitVec.toNat (not_not.mp hne)
      have h1 := BitVec.le_def.mp (hmono k (k+1) (by omega))
      have h2 := BitVec.le_def.mp (hmono (k+1) (k+2) (by omega))
      have hmid : readlHalf true (timer k)=readlHalf true (timer (k+1)) := by
        apply BitVec.eq_of_toNat_eq
        rw [toNat_readlHalf,toNat_readlHalf] at hsame
        rw [toNat_readlHalf,toNat_readlHalf]
        simp only [if_true] at hsame ⊢
        omega
      rw [hmid,append_readlHalf]

/-! ## Writes -/

/-- The halves of a new value, the low one written twice. -/
theorem mtimerTimeWr32_eq (timecmp : Bool) (value old : BitVec 64) :
    mtimerTimeWr32 timecmp value old=
      [readlHalf true old++(if timecmp then -1 else 0 : BitVec 32),
        readlHalf true value++(if timecmp then -1 else 0 : BitVec 32),value] := by
  have hhigh : (value >>> 32).setWidth 32=readlHalf true value := by
    apply BitVec.eq_of_toNat_eq
    have hv := value.isLt
    rw [toNat_readlHalf,BitVec.toNat_setWidth,BitVec.toNat_ushiftRight,Nat.shiftRight_eq_div_pow]
    simp only [if_true]
    omega
  have hlow : value.setWidth 32=readlHalf false value := by
    apply BitVec.eq_of_toNat_eq
    rw [toNat_readlHalf,BitVec.toNat_setWidth]
    rfl
  have hfalse : ∀ w v,writelHalf false w v=readlHalf true v++w := fun _ _ => rfl
  have htrue : ∀ w v,writelHalf true w v=w++readlHalf false v := fun _ _ => rfl
  simp only [mtimerTimeWr32,hfalse,htrue,readlHalf_append,hhigh,hlow,append_readlHalf,if_true,
    Bool.false_eq_true,if_false]

/-- Filling the low half only raises a value and clearing it only lowers it. -/
theorem append_fill (v : BitVec 64) :
    v.toNat ≤ (readlHalf true v++(-1 : BitVec 32)).toNat ∧
      (readlHalf true v++(0 : BitVec 32)).toNat ≤ v.toNat := by
  have hfill : (-1 : BitVec 32).toNat=2^32-1 := rfl
  have hclear : (0 : BitVec 32).toNat=0 := rfl
  rw [toNat_halves,toNat_halves,toNat_readlHalf,hfill,hclear]
  simp only [if_true]
  omega

/-- A read in halves returns a value that the timer had during its last round. A write in halves goes
through values no smaller than both the old and the new one in a compare register, no larger in the time
register, and ends with the new value. -/
theorem mtimerTime32_safe :
    (∀ timer : Nat → BitVec 64,(∀ i j,i ≤ j → timer i ≤ timer j) → ∀ fuel k v n,
      mtimerTimeRd32 timer fuel k=some (v,n) → timer n ≤ v ∧ v ≤ timer (n+2)) ∧
    ∀ old new : BitVec 64,
      (∀ v∈mtimerTimeWr32 true new old,min old.toNat new.toNat ≤ v.toNat) ∧
      (∀ v∈mtimerTimeWr32 false new old,v.toNat ≤ max old.toNat new.toNat) ∧
      ∀ timecmp,(mtimerTimeWr32 timecmp new old).getLast?=some new := by
  constructor
  · intro timer hmono fuel k v n h
    rw [mtimerTimeRd32_eq hmono h]
    exact ⟨hmono n (n+1) (by omega),hmono (n+1) (n+2) (by omega)⟩
  · intro old new
    obtain ⟨hof,hoc⟩ := append_fill old
    obtain ⟨hnf,hnc⟩ := append_fill new
    refine ⟨?_,?_,?_⟩
    · rw [mtimerTimeWr32_eq,if_pos rfl]
      simp only [List.forall_mem_cons]
      exact ⟨by omega,by omega,by omega,List.forall_mem_nil _⟩
    · rw [mtimerTimeWr32_eq,if_neg Bool.false_ne_true]
      simp only [List.forall_mem_cons]
      exact ⟨by omega,by omega,by omega,List.forall_mem_nil _⟩
    · intro timecmp
      rw [mtimerTimeWr32_eq]
      rfl

/-- A timer that carries into its high half between the first two accesses and stops after five ticks. -/
def carryTimer (k : Nat) : BitVec 64 := BitVec.ofNat 64 (0xffffffff+min k 5)

/-- The round with the carry is repeated. -/
theorem mtimerTimeRd32_carry :
    mtimerTimeRd32 carryTimer 2 0=some (0x100000003,3) ∧
      carryTimer 3 ≤ 0x100000003 ∧ 0x100000003 ≤ carryTimer 5 := by
  have hrun : mtimerTimeRd32 carryTimer 2 0=some (0x100000003,3) := by decide
  refine ⟨hrun,mtimerTime32_safe.1 carryTimer ?_ 2 0 _ 3 hrun⟩
  intro i j hij
  rw [BitVec.le_def,carryTimer,carryTimer,BitVec.toNat_ofNat,BitVec.toNat_ofNat]
  omega

end OpenSBI
