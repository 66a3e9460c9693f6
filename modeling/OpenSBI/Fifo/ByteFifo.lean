import OpenSBI.Riscv.SbiString
import OpenSBI.Riscv.Error
import OpenSBI.Framework.Transition

namespace OpenSBI.ByteFifo

variable {x : Xlen} {σ : Type}

/-- `enum sbi_fifo_inplace_update_types`. -/
def SBI_FIFO_SKIP : Int := 0
def SBI_FIFO_UPDATED : Int := 1
def SBI_FIFO_UNCHANGED : Int := 2

/-- `struct sbi_fifo` without its lock. -/
structure Fifo (x : Xlen) where
  queue : Word x
  entrySize : BitVec 16
  numEntries : BitVec 16
  avail : BitVec 16
  tail : BitVec 16

/-- A FIFO and the memory its ring lies in. -/
structure State (x : Xlen) where
  mem : Mem x
  fifo : Fifo x

/-- A callback of `sbi_fifo_inplace_update()`, with an object `in` of type `σ`: what it returns, and what
it makes of the object and of the bytes of the entry it is shown. -/
structure Callback (σ : Type) where
  call : σ → List (BitVec 8) → Int×σ×List (BitVec 8)
  length_eq : ∀ inp entry,(call inp entry).2.2.length=entry.length

/-- The address of a slot, by `u32` arithmetic. -/
def slotAddr (f : Fifo x) (index : BitVec 32) : Word x :=
  f.queue+(index*f.entrySize.setWidth 32).setWidth x.bits

def isFull (f : Fifo x) : Bool := f.avail==f.numEntries
def isEmpty (f : Fifo x) : Bool := f.avail==0

/-- `sbi_fifo_init()`. -/
def sbiFifoInit (mem : Mem x) (queueMem : Word x) (entries entrySize : BitVec 16) : State x where
  mem := sbiMemset mem queueMem 0 (entries.setWidth x.bits*entrySize.setWidth x.bits).toNat
  fifo := ⟨queueMem,entrySize,entries,0,0⟩

/-- `__sbi_fifo_reset()`. -/
def resetFifo (s : State x) : State x where
  mem := sbiMemset s.mem s.fifo.queue 0
    (s.fifo.numEntries.setWidth x.bits*s.fifo.entrySize.setWidth x.bits).toNat
  fifo := { s.fifo with avail := 0,tail := 0 }

/-- The slot `__sbi_fifo_enqueue()` writes. -/
def enqueueHead (f : Fifo x) : BitVec 32 :=
  let head := f.tail.setWidth 32+f.avail.setWidth 32
  if f.numEntries.setWidth 32 ≤ head then head-f.numEntries.setWidth 32 else head

/-- `__sbi_fifo_enqueue()`. -/
def enqueueEntry (s : State x) (data : Word x) : State x where
  mem := sbiMemcpy s.mem (slotAddr s.fifo (enqueueHead s.fifo)) data s.fifo.entrySize.toNat
  fifo := { s.fifo with avail := s.fifo.avail+1 }

/-- `sbi_fifo_dequeue()` on a FIFO that is not empty. -/
def dequeueEntry (s : State x) (data : Word x) : State x where
  mem := sbiMemcpy s.mem data (slotAddr s.fifo (s.fifo.tail.setWidth 32)) s.fifo.entrySize.toNat
  fifo := { s.fifo with
    avail := s.fifo.avail-1
    tail := if s.fifo.numEntries ≤ s.fifo.tail+1 then 0 else s.fifo.tail+1 }

/-- The loop of `sbi_fifo_inplace_update()` from round `i` on, with `n` rounds to go. -/
def inplaceLoop (f : Fifo x) (fptr : Callback σ) (i : Nat) : Nat → Mem x → σ → Int → Mem x×σ×Int
  | 0,mem,inp,ret => (mem,inp,ret)
  | n+1,mem,inp,_ =>
    let index := f.tail.toNat+i
    let index := if f.numEntries.toNat ≤ index then index-f.numEntries.toNat else index
    let entry := slotAddr f (BitVec.ofNat 32 index)
    let r := fptr.call inp (loadBytes mem entry f.entrySize.toNat)
    let mem := storeBytes mem entry r.2.2
    if r.1=SBI_FIFO_SKIP ∨ r.1=SBI_FIFO_UPDATED then (mem,r.2.1,r.1)
    else inplaceLoop f fptr (i+1) n mem r.2.1 r.1

section Calls

/-- `sbi_fifo_avail()`; here and below `none` is a NULL pointer. -/
def sbiFifoAvail : Option (State x) → BitVec 16
  | none => 0
  | some s => s.fifo.avail

def sbiFifoIsFull : Option (State x) → Int
  | none => SBI_EINVAL
  | some s => if isFull s.fifo then 1 else 0

def sbiFifoIsEmpty : Option (State x) → Int
  | none => SBI_EINVAL
  | some s => if isEmpty s.fifo then 1 else 0

def sbiFifoReset : Option (State x) → Option (State x)×Bool
  | none => (none,false)
  | some s => (some (resetFifo s),true)

/-- `sbi_fifo_inplace_update()`. -/
def sbiFifoInplaceUpdate (fptr : Callback σ) :
    Option (State x) → Option σ → Option (State x)×Option σ×Int
  | some s,some inp =>
    if isEmpty s.fifo then (some s,some inp,SBI_FIFO_UNCHANGED)
    else
      let r := inplaceLoop s.fifo fptr 0 s.fifo.avail.toNat s.mem inp SBI_FIFO_UNCHANGED
      (some { s with mem := r.1 },some r.2.1,r.2.2)
  | fifo,inp => (fifo,inp,SBI_FIFO_UNCHANGED)

/-- `sbi_fifo_enqueue()`; the address 0 is NULL. -/
def sbiFifoEnqueue (fifo : Option (State x)) (data : Word x) : Option (State x)×Int :=
  match fifo with
  | none => (none,SBI_EINVAL)
  | some s =>
    if data=0 then (some s,SBI_EINVAL)
    else if isFull s.fifo then (some s,SBI_ENOSPC)
    else (some (enqueueEntry s data),0)

/-- `sbi_fifo_dequeue()`. -/
def sbiFifoDequeue (fifo : Option (State x)) (data : Word x) : Option (State x)×Int :=
  match fifo with
  | none => (none,SBI_EINVAL)
  | some s =>
    if data=0 then (some s,SBI_EINVAL)
    else if isEmpty s.fifo then (some s,SBI_ENOENT)
    else (some (dequeueEntry s data),0)

end Calls

/-! ## Runs -/

/-- A call, or a write of the code that uses the memory. -/
inductive Action (x : Xlen) (σ : Type) where
  | init (queueMem : Word x) (entries entrySize : BitVec 16)
  | enqueue (data : Word x)
  | dequeue (data : Word x)
  | update (fptr : Callback σ) (inp : Option σ)
  | reset
  | isFull
  | isEmpty
  | avail
  | store (addr : Word x) (byte : BitVec 8)

/-- A call with what it was given and what it returned: `enqueue` the bytes at its argument and `dequeue`
the bytes it left there, `none` for NULL. -/
inductive Event (σ : Type) where
  | init (entries entrySize : Nat)
  | enqueue (data : Option (List (BitVec 8))) (ret : Int)
  | dequeue (data : Option (List (BitVec 8))) (ret : Int)
  | update (fptr : Callback σ) (inp out : Option σ) (ret : Int)
  | reset (ret : Bool)
  | isFull (ret : Int)
  | isEmpty (ret : Int)
  | avail (ret : Nat)

/-- The bytes of an entry at `data`. -/
def entryAt (s : State x) (data : Word x) : List (BitVec 8) :=
  loadBytes s.mem data s.fifo.entrySize.toNat

def fifoStep (s : State x) : Action x σ → Option (State x×List (Event σ))
  | .init queueMem entries entrySize =>
    some (sbiFifoInit s.mem queueMem entries entrySize,[.init entries.toNat entrySize.toNat])
  | .enqueue data =>
    let r := sbiFifoEnqueue (some s) data
    r.1.map fun s' => (s',[.enqueue (if data=0 then none else some (entryAt s data)) r.2])
  | .dequeue data =>
    let r := sbiFifoDequeue (some s) data
    r.1.map fun s' => (s',[.dequeue (if data=0 then none else some (entryAt s' data)) r.2])
  | .update fptr inp =>
    let r := sbiFifoInplaceUpdate fptr (some s) inp
    r.1.map fun s' => (s',[.update fptr inp r.2.1 r.2.2])
  | .reset =>
    let r := sbiFifoReset (some s)
    r.1.map fun s' => (s',[.reset r.2])
  | .isFull => some (s,[.isFull (sbiFifoIsFull (some s))])
  | .isEmpty => some (s,[.isEmpty (sbiFifoIsEmpty (some s))])
  | .avail => some (s,[.avail (sbiFifoAvail (some s)).toNat])
  | .store addr byte => some ({ s with mem := Function.update s.mem addr byte },[])

def fifoMachine (x : Xlen) (σ : Type) : Framework.Machine (State x) (Action x σ) (Event σ) := ⟨fifoStep⟩

/-- The bytes of the ring. -/
def blockSize (f : Fifo x) : Nat := f.numEntries.toNat*f.entrySize.toNat

/-- What the callers promise: a ring has entries, and the buffers and writes of the code around it lie
outside the ring. -/
def CallerOk (s : State x) (a : Action x σ) (_ : State x) : Prop :=
  match a with
  | .init _ entries _ => entries≠0
  | .enqueue data | .dequeue data =>
    data≠0 → RangesApart data s.fifo.entrySize.toNat s.fifo.queue (blockSize s.fifo)
  | .store addr _ => ¬InRange s.fifo.queue (blockSize s.fifo) addr
  | _ => True

instance (s : State x) (a : Action x σ) (s' : State x) : Decidable (CallerOk s a s') :=
  match a with
  | .init _ entries _ => inferInstanceAs (Decidable (entries≠0))
  | .enqueue data | .dequeue data => inferInstanceAs (Decidable
      (data≠0 → RangesApart data s.fifo.entrySize.toNat s.fifo.queue (blockSize s.fifo)))
  | .store addr _ => inferInstanceAs (Decidable (¬InRange s.fifo.queue (blockSize s.fifo) addr))
  | .update .. | .reset | .isFull | .isEmpty | .avail => inferInstanceAs (Decidable True)

end OpenSBI.ByteFifo
