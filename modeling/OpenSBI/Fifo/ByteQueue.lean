import OpenSBI.Fifo.ByteFifo
import OpenSBI.Framework.Scan

namespace OpenSBI.ByteFifo

open Framework

variable {σ : Type}

/-- What a FIFO is for: a list of at most `capacity` entries of one size, the oldest first. -/
structure ByteQueue where
  capacity : Nat
  entrySize : Nat
  entries : List (List (BitVec 8))
  length_le : entries.length ≤ capacity
  length_entry : ∀ entry∈entries,entry.length=entrySize

/-- A callback with one of these results ends an update. -/
def Stops (ret : Int) : Prop := ret=SBI_FIFO_SKIP ∨ ret=SBI_FIFO_UPDATED

instance : DecidablePred Stops := fun ret =>
  inferInstanceAs (Decidable (ret=SBI_FIFO_SKIP ∨ ret=SBI_FIFO_UPDATED))

namespace ByteQueue

def empty (capacity entrySize : Nat) : ByteQueue :=
  ⟨capacity,entrySize,[],Nat.zero_le capacity,fun _ h => absurd h List.not_mem_nil⟩

/-- The new entry goes behind the others. -/
def push (Q : ByteQueue) (entry : List (BitVec 8)) (hroom : Q.entries.length<Q.capacity)
    (hentry : entry.length=Q.entrySize) : ByteQueue where
  capacity := Q.capacity
  entrySize := Q.entrySize
  entries := Q.entries++[entry]
  length_le := by
    rw [List.length_append]
    exact hroom
  length_entry := by
    intro e he
    rcases List.mem_append.mp he with hm | hm
    · exact Q.length_entry e hm
    · rwa [List.mem_singleton.mp hm]

/-- The queue without its oldest entry. -/
def pop (Q : ByteQueue) : ByteQueue where
  capacity := Q.capacity
  entrySize := Q.entrySize
  entries := Q.entries.tail
  length_le := by
    rw [List.length_tail]
    exact (Nat.sub_le ..).trans Q.length_le
  length_entry := fun e he => Q.length_entry e (List.mem_of_mem_tail he)

/-- The entries after the callback was shown them in turn. -/
def update (Q : ByteQueue) (fptr : Callback σ) (inp : σ) : ByteQueue where
  capacity := Q.capacity
  entrySize := Q.entrySize
  entries := (scan fptr.call Stops Q.entries inp SBI_FIFO_UNCHANGED).1
  length_le := by
    rw [length_scan]
    exact Q.length_le
  length_entry := scan_forall (fun inp e he => (fptr.length_eq inp e).trans he) Q.length_entry inp _

end ByteQueue

/-- What the calls do to a bounded queue. -/
inductive QueueStep : ByteQueue → Event σ → ByteQueue → Prop where
  | init (Q : ByteQueue) (entries entrySize : Nat) (h : 0<entries) :
      QueueStep Q (.init entries entrySize) (.empty entries entrySize)
  | enqueue (Q : ByteQueue) (entry : List (BitVec 8)) (hroom : Q.entries.length<Q.capacity)
      (hentry : entry.length=Q.entrySize) : QueueStep Q (.enqueue (some entry) 0) (Q.push entry hroom hentry)
  | enqueueFull (Q : ByteQueue) (entry : List (BitVec 8)) (hfull : Q.entries.length=Q.capacity) :
      QueueStep Q (.enqueue (some entry) SBI_ENOSPC) Q
  | enqueueNull (Q : ByteQueue) : QueueStep Q (.enqueue none SBI_EINVAL) Q
  | dequeue (Q : ByteQueue) (entry : List (BitVec 8)) (h : Q.entries.head?=some entry) :
      QueueStep Q (.dequeue (some entry) 0) Q.pop
  | dequeueEmpty (Q : ByteQueue) (left : List (BitVec 8)) (h : Q.entries=[]) :
      QueueStep Q (.dequeue (some left) SBI_ENOENT) Q
  | dequeueNull (Q : ByteQueue) : QueueStep Q (.dequeue none SBI_EINVAL) Q
  | update (Q : ByteQueue) (fptr : Callback σ) (inp : σ) :
      QueueStep Q (.update fptr (some inp) (some (scan fptr.call Stops Q.entries inp SBI_FIFO_UNCHANGED).2.1)
        (scan fptr.call Stops Q.entries inp SBI_FIFO_UNCHANGED).2.2) (Q.update fptr inp)
  | updateNull (Q : ByteQueue) (fptr : Callback σ) :
      QueueStep Q (.update fptr none none SBI_FIFO_UNCHANGED) Q
  | reset (Q : ByteQueue) : QueueStep Q (.reset true) (.empty Q.capacity Q.entrySize)
  | isFull (Q : ByteQueue) : QueueStep Q (.isFull (if Q.entries.length=Q.capacity then 1 else 0)) Q
  | isEmpty (Q : ByteQueue) : QueueStep Q (.isEmpty (if Q.entries=[] then 1 else 0)) Q
  | avail (Q : ByteQueue) : QueueStep Q (.avail Q.entries.length) Q

/-- The calls of a trace one after the other. -/
inductive QueueRun (Q : ByteQueue) : List (Event σ) → ByteQueue → Prop where
  | nil : QueueRun Q [] Q
  | snoc {t : List (Event σ)} {e : Event σ} {Q1 Q2 : ByteQueue} :
      QueueRun Q t Q1 → QueueStep Q1 e Q2 → QueueRun Q (t++[e]) Q2

end OpenSBI.ByteFifo
