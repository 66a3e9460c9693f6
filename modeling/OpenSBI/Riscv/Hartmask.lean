import Mathlib.Data.BitVec
import Mathlib.Tactic.Common

namespace OpenSBI

/-- Upper bound of the hart ids a hartmask can hold. -/
def SBI_HARTMASK_MAX_BITS : Nat := 128

/-- `struct sbi_hartmask`: one bit for each hart id. -/
abbrev Hartmask := BitVec SBI_HARTMASK_MAX_BITS

/-- `sbi_hartmask_test_hart()`; a hart id beyond the mask is never set. -/
def sbiHartmaskTestHart (h : Nat) (m : Hartmask) : Bool := m.getLsbD h

/-- `sbi_hartmask_set_hart()`; a hart id beyond the mask is ignored. -/
def sbiHartmaskSetHart (h : Nat) (m : Hartmask) : Hartmask :=
  m ||| ((1 : Hartmask) <<< h)

/-- `sbi_hartmask_clear_hart()`. -/
def sbiHartmaskClearHart (h : Nat) (m : Hartmask) : Hartmask :=
  m &&& ~~~((1 : Hartmask) <<< h)

def sbiHartmaskOr (a b : Hartmask) : Hartmask := a ||| b

def sbiHartmaskClearAll : Hartmask := 0

/-- `SBI_HARTMASK_INIT_EXCEPT()`: only hart `h` is set. -/
def sbiHartmaskInitExcept (h : Nat) : Hartmask := sbiHartmaskSetHart h 0

theorem one_shiftLeft_getLsbD (h i : Nat) :
    ((1 : Hartmask) <<< h).getLsbD i=
      (decide (i<SBI_HARTMASK_MAX_BITS) && decide (i=h)) := by
  have hw : 0<SBI_HARTMASK_MAX_BITS := by decide
  have hone : ∀ j,(1 : Hartmask).getLsbD j=(decide (0<SBI_HARTMASK_MAX_BITS) && decide (j=0)) :=
    fun j => BitVec.getLsbD_one
  rw [BitVec.getLsbD_shiftLeft,hone]
  rcases Nat.lt_trichotomy i h with hlt | rfl | hgt
  · simp [hlt,Nat.ne_of_lt hlt]
  · simp [hw]
  · have hne : i-h≠0 := by omega
    simp [hne,Nat.ne_of_gt hgt]

theorem testHart_lt {h : Nat} {m : Hartmask} (ht : sbiHartmaskTestHart h m=true) :
    h<SBI_HARTMASK_MAX_BITS := BitVec.lt_of_getLsbD ht

@[simp] theorem testHart_or (h : Nat) (a b : Hartmask) :
    sbiHartmaskTestHart h (sbiHartmaskOr a b)=
      (sbiHartmaskTestHart h a || sbiHartmaskTestHart h b) := by
  simp [sbiHartmaskTestHart,sbiHartmaskOr]

@[simp] theorem testHart_clearAll (h : Nat) :
    sbiHartmaskTestHart h sbiHartmaskClearAll=false := by
  simp [sbiHartmaskTestHart,sbiHartmaskClearAll]

@[simp] theorem testHart_set (i h : Nat) (m : Hartmask) :
    sbiHartmaskTestHart i (sbiHartmaskSetHart h m)=
      (sbiHartmaskTestHart i m || (decide (i<SBI_HARTMASK_MAX_BITS) && decide (i=h))) := by
  rw [sbiHartmaskTestHart,sbiHartmaskSetHart,BitVec.getLsbD_or,one_shiftLeft_getLsbD]
  rfl

@[simp] theorem testHart_clear (i h : Nat) (m : Hartmask) :
    sbiHartmaskTestHart i (sbiHartmaskClearHart h m)=
      (sbiHartmaskTestHart i m && !decide (i=h)) := by
  rw [sbiHartmaskTestHart,sbiHartmaskClearHart,BitVec.getLsbD_and,BitVec.getLsbD_not,
    one_shiftLeft_getLsbD,sbiHartmaskTestHart]
  cases hm : m.getLsbD i with
  | false => rfl
  | true =>
    have hi := BitVec.lt_of_getLsbD hm
    simp [hi]

@[simp] theorem testHart_initExcept (i h : Nat) :
    sbiHartmaskTestHart i (sbiHartmaskInitExcept h)=
      (decide (i<SBI_HARTMASK_MAX_BITS) && decide (i=h)) := by
  have h0 : sbiHartmaskTestHart i 0=false := testHart_clearAll i
  rw [sbiHartmaskInitExcept,testHart_set,h0,Bool.false_or]

end OpenSBI
