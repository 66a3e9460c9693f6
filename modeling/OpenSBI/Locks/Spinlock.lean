import Mathlib.Logic.Function.Basic
import Mathlib.Tactic.Common
import OpenSBI.Riscv.Xlen
import OpenSBI.Framework.Transition

namespace OpenSBI

open Framework

variable {x : Xlen}

def TICKET_SHIFT : Nat := 16

/-- The word of a `spinlock_t`, little endian: `owner` is its low half and `next` its high half. -/
abbrev SpinlockT := BitVec 32

namespace SpinlockT

def owner (lock : SpinlockT) : BitVec 16 := lock.extractLsb' 0 16
def next (lock : SpinlockT) : BitVec 16 := lock.extractLsb' TICKET_SHIFT 16

/-- A halfword store to `owner`. -/
def setOwner (lock : SpinlockT) (owner : BitVec 16) : SpinlockT := lock.next++owner

end SpinlockT

/-- `__SPIN_LOCK_UNLOCKED`. -/
def SPIN_LOCK_UNLOCKED : SpinlockT := 0

def spinLockUnlocked (lock : SpinlockT) : Bool := lock.owner==lock.next

/-- `spin_lock_check()` on the word it copies. -/
def spinLockCheck (lock : SpinlockT) : Bool := !spinLockUnlocked lock

/-- `lw`, `lr.w` and `amoadd.w` sign-extend the word. -/
def loadWord (lock : SpinlockT) : Word x := lock.signExtend x.bits

/-- `inc`, and the masks of `spin_trylock()` and of `spin_lock()`. -/
def ticketInc : Word x := BitVec.ofNat x.bits (1 <<< TICKET_SHIFT)
def trylockMask : Word x := BitVec.ofNat x.bits (0xffff <<< TICKET_SHIFT)
def lockMask : Word x := BitVec.ofNat x.bits 0xffff

/-- `srli` and `and` behind the `amoadd.w`: the ticket just taken. -/
def myTicket (l0 : Word x) : Word x := (l0 >>> TICKET_SHIFT) &&& lockMask

/-- `bne` of `spin_trylock()`: the lock is not free. -/
def trylockBusy (l0 : Word x) : Bool := (l0 &&& trylockMask)!=((l0 <<< TICKET_SHIFT) &&& trylockMask)

/-- `l0 == 0`, the value of `spin_trylock()`. -/
def trylockRet (l0 : Word x) : Bool := l0.setWidth 32==0

/-- Where a contender is: outside, in the loop of `spin_lock()` with `%1` and `%0`, at the start of
`spin_trylock()`, behind its `lr.w`, with the lock, or behind the load of `spin_unlock()`. -/
inductive LockPc (x : Xlen) where
  | idle
  | spin (tmp1 l0 : Word x)
  | retry
  | loaded (l0 : Word x)
  | held
  | unlocking (owner : BitVec 16)

/-- The lock word and the contenders with their reservations. -/
structure SpinState (x : Xlen) (ι : Type) where
  lock : SpinlockT
  pc : ι → LockPc x
  reserved : ι → Bool

/-- One memory access each. An `sc.w` may also fail on its own. -/
inductive SpinAction (ι : Type) where
  | amoadd (i : ι)
  | spin (i : ι)
  | lr (i : ι)
  | sc (i : ι) (succeeds : Bool)
  | unlockLoad (i : ι)
  | unlockStore (i : ι)
  | check (i : ι)

/-- A ticket is taken, the lock is granted for a ticket, released for one; `spin_trylock()` and
`spin_lock_check()` return. -/
inductive SpinEvent (ι : Type) where
  | ticket (i : ι) (number : BitVec 16)
  | grant (i : ι) (number : BitVec 16)
  | release (i : ι) (number : BitVec 16)
  | tried (i : ι) (ret : Bool)
  | checked (i : ι) (ret : Bool)

namespace SpinState

variable {ι : Type} [DecidableEq ι]

def unlocked (x : Xlen) (ι : Type) : SpinState x ι := ⟨SPIN_LOCK_UNLOCKED,fun _ => .idle,fun _ => false⟩

def goto (s : SpinState x ι) (i : ι) (p : LockPc x) : SpinState x ι :=
  { s with pc := Function.update s.pc i p }

/-- A write breaks every reservation. -/
def write (s : SpinState x ι) (lock : SpinlockT) : SpinState x ι :=
  { s with lock := lock,reserved := fun _ => false }

def setReserved (s : SpinState x ι) (i : ι) (b : Bool) : SpinState x ι :=
  { s with reserved := Function.update s.reserved i b }

/-- `spin_trylock()` returns. -/
def tried (s : SpinState x ι) (i : ι) (l0 : Word x) : SpinState x ι :=
  s.goto i (if trylockRet l0 then .held else .idle)

end SpinState

/-- One step of `spin_lock()`, `spin_trylock()`, `spin_unlock()` or `spin_lock_check()`. -/
def spinStep {ι : Type} [DecidableEq ι] (s : SpinState x ι) :
    SpinAction ι → Option (SpinState x ι×List (SpinEvent ι))
  | .amoadd i =>
    match s.pc i with
    | .idle =>
      let l0 : Word x := loadWord s.lock
      some ((s.write (s.lock+(ticketInc : Word x).setWidth 32)).goto i (.spin (myTicket l0) l0),
        [.ticket i s.lock.next])
    | _ => none
  | .spin i =>
    match s.pc i with
    | .spin tmp1 l0 =>
      if tmp1=l0 &&& lockMask then some (s.goto i .held,[.grant i (tmp1.setWidth 16)])
      else some (s.goto i (.spin tmp1 (loadWord s.lock)),[])
    | _ => none
  | .lr i =>
    match s.pc i with
    | .idle | .retry => some ((s.setReserved i true).goto i (.loaded (loadWord s.lock)),[])
    | _ => none
  | .sc i succeeds =>
    match s.pc i with
    | .loaded l0 =>
      if trylockBusy l0 then some (s.tried i l0,[.tried i (trylockRet l0)])
      else if s.reserved i && succeeds then
        let number := SpinlockT.next (l0.setWidth 32)
        some ((s.write ((l0+ticketInc).setWidth 32)).tried i 0,
          [.ticket i number,.grant i number,.tried i (trylockRet (0 : Word x))])
      else some ((s.setReserved i false).goto i .retry,[])
    | _ => none
  | .unlockLoad i =>
    match s.pc i with
    | .held => some (s.goto i (.unlocking s.lock.owner),[])
    | _ => none
  | .unlockStore i =>
    match s.pc i with
    | .unlocking owner =>
      some ((s.write (s.lock.setOwner (owner+1))).goto i .idle,[.release i owner])
    | _ => none
  | .check i =>
    match s.pc i with
    | .idle | .held => some (s,[.checked i (spinLockCheck s.lock)])
    | _ => none

/-- The lock and its contenders. -/
def spinMachine (x : Xlen) (ι : Type) [DecidableEq ι] :
    Machine (SpinState x ι) (SpinAction ι) (SpinEvent ι) := ⟨spinStep⟩

/-! ## The words -/

namespace SpinlockT

theorem owner_toNat (lock : SpinlockT) : lock.owner.toNat=lock.toNat%2^16 := by
  simp [owner]

theorem next_toNat (lock : SpinlockT) : lock.next.toNat=lock.toNat/2^16 := by
  have h := lock.isLt
  rw [next,TICKET_SHIFT,BitVec.extractLsb'_toNat,Nat.shiftRight_eq_div_pow]
  omega

theorem ticketInc_toNat : ((ticketInc : Word x).setWidth 32).toNat=2^16 := by
  cases x <;> rfl

/-- The carry of the `amoadd.w` leaves the word. -/
theorem owner_add (lock : SpinlockT) : (lock+(ticketInc : Word x).setWidth 32).owner=lock.owner := by
  apply BitVec.eq_of_toNat_eq
  rw [owner_toNat,owner_toNat,BitVec.toNat_add,ticketInc_toNat]
  omega

theorem next_add (lock : SpinlockT) : (lock+(ticketInc : Word x).setWidth 32).next=lock.next+1 := by
  apply BitVec.eq_of_toNat_eq
  have h := lock.isLt
  rw [next_toNat,BitVec.toNat_add,ticketInc_toNat,BitVec.toNat_add,next_toNat]
  change _=(_+1)%_
  omega

/-- The halfword store leaves `next` alone. -/
theorem next_setOwner (lock : SpinlockT) (v : BitVec 16) : (lock.setOwner v).next=lock.next := by
  apply BitVec.eq_of_toNat_eq
  have h := v.isLt
  have hn := lock.next.isLt
  rw [next_toNat,setOwner,BitVec.toNat_append,← Nat.shiftLeft_add_eq_or_of_lt h,Nat.shiftLeft_eq]
  omega

theorem owner_setOwner (lock : SpinlockT) (v : BitVec 16) : (lock.setOwner v).owner=v := by
  apply BitVec.eq_of_toNat_eq
  have h := v.isLt
  rw [owner_toNat,setOwner,BitVec.toNat_append,← Nat.shiftLeft_add_eq_or_of_lt h,Nat.shiftLeft_eq]
  omega

end SpinlockT

theorem setWidth_loadWord (lock : SpinlockT) : (loadWord lock : Word x).setWidth 32=lock := by
  have h := x.bits_ge
  apply BitVec.eq_of_getLsbD_eq
  intro i hi
  rw [loadWord,BitVec.getLsbD_setWidth,BitVec.getLsbD_signExtend]
  simp [hi,hi.trans_le h]

/-- What `sc.w` stores is what `amoadd.w` would make of the word. -/
theorem setWidth_add_ticketInc (lock : SpinlockT) :
    ((loadWord lock : Word x)+ticketInc).setWidth 32=lock+(ticketInc : Word x).setWidth 32 := by
  rw [BitVec.setWidth_add _ _ x.bits_ge,setWidth_loadWord]

theorem getLsbD_lockMask (i : Nat) : (lockMask : Word x).getLsbD i=decide (i<16) := by
  have h := x.bits_ge
  have hm : (0xffff : Nat)=2^16-1 := by decide
  rw [lockMask,hm,BitVec.getLsbD_ofNat,Nat.testBit_two_pow_sub_one]
  by_cases hi : i<16
  · simp [hi,show i<x.bits by omega]
  · simp [hi]

theorem myTicket_loadWord (lock : SpinlockT) :
    myTicket (loadWord lock : Word x)=lock.next.setWidth x.bits := by
  have h := x.bits_ge
  apply BitVec.eq_of_getLsbD_eq
  intro i hi
  rw [myTicket,loadWord,BitVec.getLsbD_and,getLsbD_lockMask,BitVec.getLsbD_ushiftRight,
    BitVec.getLsbD_signExtend,BitVec.getLsbD_setWidth,SpinlockT.next,BitVec.getLsbD_extractLsb']
  by_cases hlt : i<16
  · simp [hlt,hi,TICKET_SHIFT,show 16+i<x.bits by omega,show 16+i<32 by omega]
  · simp [hlt]

theorem loadWord_and_lockMask (lock : SpinlockT) :
    (loadWord lock : Word x) &&& lockMask=lock.owner.setWidth x.bits := by
  have h := x.bits_ge
  apply BitVec.eq_of_getLsbD_eq
  intro i hi
  rw [loadWord,BitVec.getLsbD_and,getLsbD_lockMask,BitVec.getLsbD_signExtend,BitVec.getLsbD_setWidth,
    SpinlockT.owner,BitVec.getLsbD_extractLsb']
  by_cases hlt : i<16
  · simp [hlt,hi,show i<32 by omega]
  · simp [hlt]

theorem setWidth_half_inj {a b : BitVec 16} (h : a.setWidth x.bits=b.setWidth x.bits) : a=b := by
  have hx := x.bits_ge
  have hw := congrArg (BitVec.setWidth 16) h
  rwa [BitVec.setWidth_setWidth_of_le _ (by omega),BitVec.setWidth_setWidth_of_le _ (by omega),
    BitVec.setWidth_eq,BitVec.setWidth_eq] at hw

theorem getLsbD_trylockMask (i : Nat) : (trylockMask : Word x).getLsbD i=decide (16 ≤ i ∧ i<32) := by
  have h := x.bits_ge
  have hm : (0xffff : Nat) <<< TICKET_SHIFT=(2^16-1) <<< 16 := by decide
  rw [trylockMask,hm,BitVec.getLsbD_ofNat,Nat.testBit_shiftLeft,Nat.testBit_two_pow_sub_one]
  by_cases hi : i<32
  · simp [hi,show i<x.bits by omega,show i-16<16 by omega]
  · simp [hi,show ¬i-16<16 by omega]

/-- The comparison of `spin_trylock()` is that of the halves. -/
theorem trylockBusy_loadWord (lock : SpinlockT) :
    trylockBusy (loadWord lock : Word x)=!spinLockUnlocked lock := by
  have h := x.bits_ge
  have hbit : ∀ i<16,(loadWord lock : Word x).getLsbD (16+i)=lock.next.getLsbD i ∧
      ((loadWord lock : Word x) <<< TICKET_SHIFT).getLsbD (16+i)=lock.owner.getLsbD i := by
    intro i hi
    rw [BitVec.getLsbD_shiftLeft,loadWord,BitVec.getLsbD_signExtend,BitVec.getLsbD_signExtend,
      SpinlockT.next,SpinlockT.owner,BitVec.getLsbD_extractLsb',BitVec.getLsbD_extractLsb']
    simp [hi,TICKET_SHIFT,show 16+i<x.bits by omega,show 16+i<32 by omega,show i<x.bits by omega,
      show i<32 by omega]
  rw [trylockBusy,spinLockUnlocked,bne]
  congr 1
  rw [Bool.eq_iff_iff,beq_iff_eq,beq_iff_eq]
  constructor
  · intro heq
    apply BitVec.eq_of_getLsbD_eq
    intro i hi
    have hb := congrArg (fun w : Word x => w.getLsbD (16+i)) heq
    simp only [BitVec.getLsbD_and,getLsbD_trylockMask,(hbit i hi).1,(hbit i hi).2] at hb
    simpa [show 16+i<32 by omega] using hb.symm
  · intro heq
    apply BitVec.eq_of_getLsbD_eq
    intro i hi
    rw [BitVec.getLsbD_and,BitVec.getLsbD_and,getLsbD_trylockMask]
    by_cases hr : 16 ≤ i ∧ i<32
    · have hi' : i=16+(i-16) := by omega
      rw [hi',(hbit (i-16) (by omega)).1,(hbit (i-16) (by omega)).2,heq]
    · simp [hr]

theorem trylockRet_loadWord (lock : SpinlockT) : trylockRet (loadWord lock : Word x)=(lock==0) := by
  rw [trylockRet,setWidth_loadWord]

/-- The failing path of `spin_trylock()` returns false. -/
theorem trylockRet_of_busy (lock : SpinlockT) (h : trylockBusy (loadWord lock : Word x)=true) :
    trylockRet (loadWord lock : Word x)=false := by
  rw [trylockBusy_loadWord] at h
  rw [trylockRet_loadWord,beq_eq_false_iff_ne]
  rintro rfl
  cases h

end OpenSBI
