import Mathlib.Logic.Function.Basic
import OpenSBI.Framework.RingSlots
import OpenSBI.Riscv.Error

namespace OpenSBI

/-- `enum sbi_fifo_inplace_update_types`. -/
inductive FifoUpdate where
  | skip
  | updated
  | unchanged
  deriving DecidableEq,Repr

/-- `struct sbi_fifo`: a ring of `numEntries` slots of which `avail` from `tail` on are in use. -/
structure SbiFifo (α : Type) where
  queue : Nat → α
  numEntries : Nat
  tail : Nat
  avail : Nat
  tail_lt : tail<numEntries
  avail_le : avail≤numEntries

variable {α β : Type}

/-- `sbi_fifo_init()` on memory of `entries` slots; `zero` is the zeroed entry. -/
def sbiFifoInit (zero : α) (entries : Nat) (h : 0<entries) : SbiFifo α :=
  ⟨fun _ => zero,entries,0,0,h,Nat.zero_le entries⟩

namespace SbiFifo

/-- Slot of the `i`-th entry from the tail. -/
def slot (f : SbiFifo α) (i : Nat) : Nat :=
  if f.numEntries≤f.tail+i then f.tail+i-f.numEntries else f.tail+i

def isFull (f : SbiFifo α) : Bool := decide (f.avail=f.numEntries)

def isEmpty (f : SbiFifo α) : Bool := decide (f.avail=0)

/-- The entries in use, oldest first. -/
def toList (f : SbiFifo α) : List α := (List.range f.avail).map (fun i => f.queue (f.slot i))

theorem slot_inj (f : SbiFifo α) {i j : Nat} (hi : i<f.numEntries) (hj : j<f.numEntries)
    (h : f.slot i=f.slot j) : i=j := Framework.ringSlot_inj hi hj h

/-- The entries lie in a ring of slots. -/
theorem toList_eq (f : SbiFifo α) :
    f.toList=Framework.ringList f.queue f.numEntries f.tail f.avail := rfl

@[simp] theorem length_toList (f : SbiFifo α) : f.toList.length=f.avail := by simp [toList]

end SbiFifo

/-- `sbi_fifo_enqueue()`. -/
def sbiFifoEnqueue (f : SbiFifo α) (data : α) : Except Int (SbiFifo α) :=
  if h : f.isFull then .error SBI_ENOSPC
  else .ok { f with
    queue := Function.update f.queue (f.slot f.avail) data
    avail := f.avail+1
    avail_le := by
      have := f.avail_le
      simp only [SbiFifo.isFull,decide_eq_true_iff] at h
      omega }

/-- `sbi_fifo_dequeue()`. -/
def sbiFifoDequeue (f : SbiFifo α) : Except Int (α × SbiFifo α) :=
  if f.isEmpty then .error SBI_ENOENT
  else .ok (f.queue f.tail,{ f with
    avail := f.avail-1
    tail := if f.numEntries≤f.tail+1 then 0 else f.tail+1
    tail_lt := by
      have := f.tail_lt
      split_ifs <;> omega
    avail_le := by have := f.avail_le; omega })

/-- The loop of `sbi_fifo_inplace_update()` from entry `i` on, with `n` entries to go. -/
def inplaceLoop (fptr : β → α → FifoUpdate × α) (data : β) (slot : Nat → Nat)
    (queue : Nat → α) (i : Nat) : Nat → FifoUpdate × (Nat → α)
  | 0 => (.unchanged,queue)
  | n+1 =>
      let r := fptr data (queue (slot i))
      let queue' := Function.update queue (slot i) r.2
      if r.1=.skip ∨ r.1=.updated then (r.1,queue')
      else inplaceLoop fptr data slot queue' (i+1) n

/-- `sbi_fifo_inplace_update()`; the callback may change the entry it is shown. -/
def sbiFifoInplaceUpdate (f : SbiFifo α) (data : β) (fptr : β → α → FifoUpdate × α) :
    FifoUpdate × SbiFifo α :=
  let r := inplaceLoop fptr data f.slot f.queue 0 f.avail
  (r.1,{ f with queue := r.2 })

/-- An in-place update of a list: the callback is tried on each entry until it reports a change. -/
def updateFirst (fptr : β → α → FifoUpdate × α) (data : β) : List α → FifoUpdate × List α
  | [] => (.unchanged,[])
  | e::l =>
      let r := fptr data e
      if r.1=.skip ∨ r.1=.updated then (r.1,r.2::l)
      else
        let rest := updateFirst fptr data l
        (rest.1,r.2::rest.2)

/-- Entries that report no change are passed over. -/
theorem updateFirst_append {fptr : β → α → FifoUpdate × α} {data : β} {pre : List α}
    (h : ∀ e∈pre,fptr data e=(.unchanged,e)) (l : List α) :
    updateFirst fptr data (pre++l)=
      ((updateFirst fptr data l).1,pre++(updateFirst fptr data l).2) := by
  induction pre with
  | nil => rfl
  | cons e pre ih =>
    have he := h e List.mem_cons_self
    rw [List.cons_append,updateFirst,he,ih (fun a ha => h a (List.mem_cons_of_mem e ha))]
    simp

theorem updateFirst_of_unchanged {fptr : β → α → FifoUpdate × α} {data : β} {l : List α}
    (h : ∀ e∈l,fptr data e=(.unchanged,e)) : updateFirst fptr data l=(.unchanged,l) := by
  have happ := updateFirst_append h []
  rwa [List.append_nil,updateFirst,List.append_nil] at happ

/-- An update happens at the first entry that reports one, and nowhere else. -/
theorem updateFirst_at {fptr : β → α → FifoUpdate × α} {data : β} {pre post : List α} {e e' : α}
    {ret : FifoUpdate} (hpre : ∀ a∈pre,fptr data a=(.unchanged,a))
    (he : fptr data e=(ret,e')) (hret : ret≠.unchanged) :
    updateFirst fptr data (pre++e::post)=(ret,pre++e'::post) := by
  have hstop : ret=.skip ∨ ret=.updated := by cases ret <;> simp at hret ⊢
  rw [updateFirst_append hpre,updateFirst,he]
  simp [hstop]

private theorem inplaceLoop_spec (fptr : β → α → FifoUpdate × α) (data : β) (slot : Nat → Nat)
    (n i : Nat) (hinj : ∀ j k,j < i+n → k < i+n → slot j=slot k → j=k) (queue : Nat → α) :
    (inplaceLoop fptr data slot queue i n).1=
      (updateFirst fptr data ((List.range' i n).map (fun j => queue (slot j)))).1 ∧
    (List.range' i n).map (fun j => (inplaceLoop fptr data slot queue i n).2 (slot j))=
      (updateFirst fptr data ((List.range' i n).map (fun j => queue (slot j)))).2 ∧
    ∀ j,j < i → (inplaceLoop fptr data slot queue i n).2 (slot j)=queue (slot j) := by
  induction n generalizing i queue with
  | zero => exact ⟨rfl,rfl,fun _ _ => rfl⟩
  | succ n ih =>
    have hother : ∀ (e : α) j,j < i+(n+1) → j≠i →
        Function.update queue (slot i) e (slot j)=queue (slot j) := by
      intro e j hj hne
      exact Function.update_of_ne (fun h => hne (hinj j i hj (by omega) h)) _ _
    have hrest : ∀ e : α,(List.range' (i+1) n).map
        (fun j => Function.update queue (slot i) e (slot j))=
          (List.range' (i+1) n).map (fun j => queue (slot j)) := by
      intro e
      refine List.map_congr_left fun j hj => ?_
      obtain ⟨h1,h2⟩ := List.mem_range'_1.mp hj
      exact hother e j (by omega) (by omega)
    rw [inplaceLoop,List.range'_succ,List.map_cons,updateFirst]
    by_cases hstop : (fptr data (queue (slot i))).1=.skip ∨ (fptr data (queue (slot i))).1=.updated
    · simp only [hstop,if_true]
      refine ⟨trivial,?_,?_⟩
      · rw [List.map_cons,Function.update_self,hrest]
      · intro j hj
        exact hother _ j (by omega) (by omega)
    · simp only [hstop,if_false]
      obtain ⟨h1,h2,h3⟩ := ih (i+1) (fun j k hj hk => hinj j k (by omega) (by omega))
        (Function.update queue (slot i) (fptr data (queue (slot i))).2)
      rw [hrest] at h1 h2
      refine ⟨h1,?_,?_⟩
      · rw [List.map_cons,h2,h3 i (Nat.lt_succ_self i),Function.update_self]
      · intro j hj
        rw [h3 j (by omega),hother _ j (by omega) (by omega)]

theorem sbiFifoInplaceUpdate_spec (f : SbiFifo α) (data : β) (fptr : β → α → FifoUpdate × α) :
    (sbiFifoInplaceUpdate f data fptr).1=(updateFirst fptr data f.toList).1 ∧
      (sbiFifoInplaceUpdate f data fptr).2.toList=(updateFirst fptr data f.toList).2 := by
  have ha := f.avail_le
  obtain ⟨h1,h2,-⟩ := inplaceLoop_spec fptr data f.slot f.avail 0
    (fun j k hj hk h => f.slot_inj (by omega) (by omega) h) f.queue
  rw [← List.range_eq_range'] at h1 h2
  exact ⟨h1,h2⟩

theorem sbiFifoEnqueue_spec {f f' : SbiFifo α} {data : α} (h : sbiFifoEnqueue f data=.ok f') :
    f'.toList=f.toList++[data] ∧ f'.numEntries=f.numEntries := by
  unfold sbiFifoEnqueue at h
  split_ifs at h with hfull
  obtain rfl := Except.ok.inj h
  simp only [SbiFifo.isFull,decide_eq_true_iff] at hfull
  have hroom : f.avail<f.numEntries := Nat.lt_of_le_of_ne f.avail_le hfull
  have hpush := Framework.ringList_push f.tail_lt hroom fun k _ hne => Function.update_of_ne hne data f.queue
  rw [Function.update_self,← f.toList_eq] at hpush
  exact ⟨hpush,rfl⟩

/-- An enqueue fails only on a full FIFO. -/
theorem sbiFifoEnqueue_error {f : SbiFifo α} {data : α} {e : Int}
    (h : sbiFifoEnqueue f data=.error e) : f.toList.length=f.numEntries ∧ e=SBI_ENOSPC := by
  unfold sbiFifoEnqueue at h
  split_ifs at h with hfull
  exact ⟨by simpa [SbiFifo.isFull] using hfull,(Except.error.inj h).symm⟩

theorem sbiFifoDequeue_spec {f f' : SbiFifo α} {e : α} (h : sbiFifoDequeue f=.ok (e,f')) :
    f.toList=e::f'.toList ∧ f'.numEntries=f.numEntries := by
  have hempty : ¬f.isEmpty=true := fun he => by rw [sbiFifoDequeue,if_pos he] at h; cases h
  rw [sbiFifoDequeue,if_neg hempty] at h
  obtain ⟨rfl,rfl⟩ := Prod.mk.inj (Except.ok.inj h)
  simp only [SbiFifo.isEmpty,decide_eq_true_iff] at hempty
  have ha := f.avail_le
  obtain ⟨n,hn⟩ : ∃ n,f.avail=n+1 := ⟨f.avail-1,by omega⟩
  have htail : Framework.ringSlot f.numEntries f.tail 1=if f.numEntries ≤ f.tail+1 then 0 else f.tail+1 := by
    have ht := f.tail_lt
    unfold Framework.ringSlot
    split_ifs <;> omega
  refine ⟨?_,rfl⟩
  rw [SbiFifo.toList_eq,SbiFifo.toList_eq]
  simp only [hn,Nat.add_sub_cancel]
  rw [Framework.ringList_pop f.tail_lt (by omega),htail]

/-- A dequeue fails only on an empty FIFO. -/
theorem sbiFifoDequeue_error {f : SbiFifo α} {e : Int} (h : sbiFifoDequeue f=.error e) :
    f.toList=[] ∧ e=SBI_ENOENT := by
  by_cases hempty : f.isEmpty=true
  · rw [sbiFifoDequeue,if_pos hempty] at h
    refine ⟨List.eq_nil_of_length_eq_zero ?_,(Except.error.inj h).symm⟩
    simpa [SbiFifo.isEmpty] using hempty
  · rw [sbiFifoDequeue,if_neg hempty] at h
    cases h

end OpenSBI
