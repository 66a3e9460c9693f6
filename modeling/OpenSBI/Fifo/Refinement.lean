import OpenSBI.Fifo.ByteQueue
import OpenSBI.Framework.RingSlots

namespace OpenSBI.ByteFifo

open Framework

variable {x : Xlen} {σ : Type}

/-- The address of slot `k`. -/
def slotPtr (f : Fifo x) (k : Nat) : Word x := offsetPtr f.queue (k*f.entrySize.toNat)

/-- The addresses of slot `k`. -/
def InSlot (f : Fifo x) (k : Nat) (addr : Word x) : Prop := InRange (slotPtr f k) f.entrySize.toNat addr

/-- The bytes of slot `k`. -/
def loadSlot (f : Fifo x) (mem : Mem x) (k : Nat) : List (BitVec 8) :=
  loadBytes mem (slotPtr f k) f.entrySize.toNat

/-- The slot of the entry `i` places behind the oldest. -/
def Fifo.slot (f : Fifo x) (i : Nat) : Nat := ringSlot f.numEntries.toNat f.tail.toNat i

/-- The entries in use, the oldest first. -/
def contents (s : State x) : List (List (BitVec 8)) :=
  ringList (loadSlot s.fifo s.mem) s.fifo.numEntries.toNat s.fifo.tail.toNat s.fifo.avail.toNat

/-- The state holds a bounded queue. -/
structure Represents (s : State x) (Q : ByteQueue) : Prop where
  capacity : Q.capacity=s.fifo.numEntries.toNat
  entrySize : Q.entrySize=s.fifo.entrySize.toNat
  tail_lt : s.fifo.tail.toNat<s.fifo.numEntries.toNat
  entries : Q.entries=contents s

section Slots

variable {f : Fifo x} {mem mem' : Mem x} {k l : Nat} {addr : Word x}

/-- No address computation of the code wraps. -/
theorem blockSize_lt (f : Fifo x) : blockSize f<2^32 := by
  have hn := f.numEntries.isLt
  have hm := f.entrySize.isLt
  calc f.numEntries.toNat*f.entrySize.toNat ≤ 65535*65535 := Nat.mul_le_mul (by omega) (by omega)
    _ < 2^32 := by decide

theorem blockSize_lt_bits (f : Fifo x) : blockSize f<2^x.bits :=
  (blockSize_lt f).trans_le (Nat.pow_le_pow_right (by decide) x.bits_ge)

/-- The entries of a ring end where the next one begins. -/
theorem slot_end_le (hk : k<f.numEntries.toNat) :
    k*f.entrySize.toNat+f.entrySize.toNat ≤ blockSize f := by
  rw [← Nat.succ_mul]
  exact Nat.mul_le_mul_right _ hk

theorem slotAddr_eq {index : BitVec 32} (h : index.toNat<f.numEntries.toNat) :
    slotAddr f index=slotPtr f index.toNat := by
  have hsize : index.toNat*f.entrySize.toNat<2^32 :=
    (Nat.mul_le_mul_right _ h.le).trans_lt (blockSize_lt f)
  have hprod : (index*f.entrySize.setWidth 32).toNat=index.toNat*f.entrySize.toNat := by
    rw [BitVec.toNat_mul,BitVec.toNat_setWidth_of_le (by decide),Nat.mod_eq_of_lt hsize]
  rw [slotAddr,slotPtr,offsetPtr,← hprod,BitVec.ofNat_toNat]

/-- Two slots have no byte in common. -/
theorem InSlot.apart (hk : k<f.numEntries.toNat) (hl : l<f.numEntries.toNat) (hne : l≠k)
    (h : InSlot f k addr) : ¬InSlot f l addr := by
  rintro ⟨j,hj,heq⟩
  obtain ⟨i,hi,rfl⟩ := h
  rw [slotPtr,slotPtr,offsetPtr_add,offsetPtr_add] at heq
  have hbits := blockSize_lt_bits f
  have hkend := slot_end_le hk
  have hlend := slot_end_le hl
  have hoff := offsetPtr_inj f.queue (by omega) (by omega) heq
  have hdiv := congrArg (·/f.entrySize.toNat) hoff
  have hpos : 0<f.entrySize.toNat := by omega
  simp only [Nat.mul_comm _ f.entrySize.toNat,Nat.mul_add_div hpos,Nat.div_eq_of_lt hi,
    Nat.div_eq_of_lt hj] at hdiv
  omega

theorem InSlot.inBlock (hk : k<f.numEntries.toNat) (h : InSlot f k addr) :
    InRange f.queue (blockSize f) addr := by
  obtain ⟨j,hj,rfl⟩ := h
  have hend := slot_end_le hk
  exact ⟨k*f.entrySize.toNat+j,by omega,offsetPtr_add ..⟩

@[simp] theorem length_loadSlot : (loadSlot f mem k).length=f.entrySize.toNat := length_loadBytes ..

theorem loadSlot_congr (h : ∀ addr,InSlot f k addr → mem' addr=mem addr) :
    loadSlot f mem' k=loadSlot f mem k := loadBytes_congr h

/-- An entry stored in a slot is the entry of that slot, -/
theorem loadSlot_storeBytes_self (hk : k<f.numEntries.toNat) {entry : List (BitVec 8)}
    (hentry : entry.length=f.entrySize.toNat) :
    loadSlot f (storeBytes mem (slotPtr f k) entry) k=entry := by
  have hbits := blockSize_lt_bits f
  have hend := slot_end_le hk
  rw [loadSlot,← hentry]
  exact loadBytes_storeBytes mem _ (by omega)

/-- and leaves the other slots alone. -/
theorem loadSlot_storeBytes_of_ne (hk : k<f.numEntries.toNat) (hl : l<f.numEntries.toNat) (hne : l≠k)
    {entry : List (BitVec 8)} (hentry : entry.length=f.entrySize.toNat) :
    loadSlot f (storeBytes mem (slotPtr f k) entry) l=loadSlot f mem l := by
  apply loadSlot_congr
  intro addr hin
  apply storeBytes_of_not
  rw [hentry]
  exact hin.apart hl hk (Ne.symm hne)

/-- So does a store apart from the ring. -/
theorem loadSlot_storeBytes_of_apart {data : Word x} {n : Nat}
    (hapart : RangesApart data n f.queue (blockSize f)) {bytes : List (BitVec 8)} (hbytes : bytes.length=n) (hk : k<f.numEntries.toNat) :
    loadSlot f (storeBytes mem data bytes) k=loadSlot f mem k := by
  apply loadSlot_congr
  intro addr hin
  apply storeBytes_of_not
  rw [hbytes]
  rintro ⟨j,hj,rfl⟩
  obtain ⟨l,hl,heq⟩ := hin.inBlock hk
  exact hapart j hj l hl heq

end Slots

namespace Represents

variable {s : State x} {Q : ByteQueue} {data : Word x} {i : Nat}

theorem avail (h : Represents s Q) : s.fifo.avail.toNat=Q.entries.length := by
  rw [h.entries,contents,length_ringList]

theorem avail_le (h : Represents s Q) : s.fifo.avail.toNat ≤ s.fifo.numEntries.toNat := by
  rw [h.avail,← h.capacity]
  exact Q.length_le

theorem slot_lt (h : Represents s Q) (hi : i ≤ s.fifo.numEntries.toNat) :
    s.fifo.slot i<s.fifo.numEntries.toNat := ringSlot_lt h.tail_lt hi

theorem full_iff (h : Represents s Q) : isFull s.fifo=true ↔ Q.entries.length=Q.capacity := by
  rw [isFull,beq_iff_eq,← h.avail,h.capacity,BitVec.toNat_inj]

theorem empty_iff (h : Represents s Q) : isEmpty s.fifo=true ↔ Q.entries=[] := by
  rw [isEmpty,beq_iff_eq,← List.length_eq_zero_iff,← h.avail]
  exact BitVec.toNat_inj.symm

/-- The queue is in the bytes of the ring. -/
theorem congr (h : Represents s Q) {mem : Mem x}
    (hmem : ∀ addr,InRange s.fifo.queue (blockSize s.fifo) addr → mem addr=s.mem addr) :
    Represents { s with mem := mem } Q := by
  refine ⟨h.capacity,h.entrySize,h.tail_lt,h.entries.trans ?_⟩
  symm
  apply ringList_congr
  intro i hi
  apply loadSlot_congr
  intro addr hin
  exact hmem addr (hin.inBlock (h.slot_lt (hi.le.trans h.avail_le)))

theorem init (mem : Mem x) (queueMem : Word x) {entries : BitVec 16} (entrySize : BitVec 16)
    (hn : entries≠0) :
    Represents (sbiFifoInit mem queueMem entries entrySize) (.empty entries.toNat entrySize.toNat) where
  capacity := rfl
  entrySize := rfl
  tail_lt := Nat.pos_of_ne_zero fun h0 => hn (BitVec.eq_of_toNat_eq h0)
  entries := rfl

theorem reset (h : Represents s Q) : Represents (resetFifo s) (.empty Q.capacity Q.entrySize) where
  capacity := h.capacity
  entrySize := h.entrySize
  tail_lt := Nat.zero_lt_of_lt h.tail_lt
  entries := rfl

/-- A buffer apart from the ring is apart from a slot. -/
theorem apart_slot (h : Represents s Q) {n : Nat}
    (hapart : RangesApart data n s.fifo.queue (blockSize s.fifo)) (hi : i ≤ s.fifo.numEntries.toNat) :
    RangesApart data n (slotPtr s.fifo (s.fifo.slot i)) s.fifo.entrySize.toNat := by
  intro j hj m hm heq
  have hin : InSlot s.fifo (s.fifo.slot i) (offsetPtr data j) := ⟨m,hm,heq⟩
  obtain ⟨l,hl,hblock⟩ := hin.inBlock (h.slot_lt hi)
  exact hapart j hj l hl hblock

theorem entrySize_le (s : State x) : s.fifo.entrySize.toNat ≤ 2^x.bits :=
  s.fifo.entrySize.isLt.le.trans (Nat.pow_le_pow_right (by decide) ((by decide : 16 ≤ 32).trans x.bits_ge))

/-- The head is the first free slot. -/
theorem enqueueHead (h : Represents s Q) :
    (enqueueHead s.fifo).toNat=s.fifo.slot s.fifo.avail.toNat := by
  have hn := s.fifo.numEntries.isLt
  have ht := h.tail_lt
  have ha := h.avail_le
  have hsum : (s.fifo.tail.setWidth 32+s.fifo.avail.setWidth 32).toNat=
      s.fifo.tail.toNat+s.fifo.avail.toNat := by
    rw [BitVec.toNat_add,BitVec.toNat_setWidth_of_le (by decide),BitVec.toNat_setWidth_of_le (by decide),
      Nat.mod_eq_of_lt (by omega)]
  have hcap : (s.fifo.numEntries.setWidth 32).toNat=s.fifo.numEntries.toNat :=
    BitVec.toNat_setWidth_of_le (by decide)
  simp only [ByteFifo.enqueueHead,BitVec.le_def,hsum,hcap]
  rw [Fifo.slot,ringSlot]
  split_ifs with hwrap
  · rw [BitVec.toNat_sub_of_le (by rwa [BitVec.le_def,hsum,hcap]),hsum,hcap]
  · exact hsum

/-- Enqueueing stores the entry in the first free slot. -/
theorem enqueueEntry_mem (h : Represents s Q)
    (hapart : RangesApart data s.fifo.entrySize.toNat s.fifo.queue (blockSize s.fifo)) :
    (enqueueEntry s data).mem=
      storeBytes s.mem (slotPtr s.fifo (s.fifo.slot s.fifo.avail.toNat)) (entryAt s data) := by
  have hlt : (ByteFifo.enqueueHead s.fifo).toNat<s.fifo.numEntries.toNat := by
    rw [h.enqueueHead]
    exact h.slot_lt h.avail_le
  have hdest := (h.apart_slot hapart h.avail_le).symm
  rw [enqueueEntry,slotAddr_eq hlt,h.enqueueHead]
  exact sbiMemcpy_eq s.mem (entrySize_le s) hdest

theorem enqueue (h : Represents s Q) (hroom : Q.entries.length<Q.capacity)
    (hapart : RangesApart data s.fifo.entrySize.toNat s.fifo.queue (blockSize s.fifo)) :
    Represents (enqueueEntry s data) (Q.push (entryAt s data) hroom
      ((length_loadBytes ..).trans h.entrySize.symm)) := by
  have hn := s.fifo.numEntries.isLt
  have ha : s.fifo.avail.toNat<s.fifo.numEntries.toNat := by rwa [h.avail,← h.capacity]
  have hslot := h.slot_lt ha.le
  have hsize : (entryAt s data).length=s.fifo.entrySize.toNat := length_loadBytes ..
  have hmem := h.enqueueEntry_mem hapart
  refine ⟨h.capacity,h.entrySize,h.tail_lt,?_⟩
  have havail : (s.fifo.avail+1).toNat=s.fifo.avail.toNat+1 := by
    rw [BitVec.toNat_add]
    exact Nat.mod_eq_of_lt (by simp; omega)
  have hpush := @ringList_push _ (loadSlot s.fifo s.mem) (loadSlot s.fifo (enqueueEntry s data).mem) _ _ _
    h.tail_lt ha fun k hk hne => by
      rw [hmem]
      exact loadSlot_storeBytes_of_ne hslot hk hne hsize
  have hnew : loadSlot s.fifo (enqueueEntry s data).mem (s.fifo.slot s.fifo.avail.toNat)=entryAt s data := by
    rw [hmem]
    exact loadSlot_storeBytes_self hslot hsize
  calc Q.entries++[entryAt s data] = contents s++[entryAt s data] := by rw [h.entries]
    _ = ringList (loadSlot s.fifo (enqueueEntry s data).mem) s.fifo.numEntries.toNat s.fifo.tail.toNat
          (s.fifo.avail.toNat+1) := by rw [hpush,← hnew]; rfl
    _ = contents (enqueueEntry s data) := by rw [← havail]; rfl

/-- Dequeueing copies the oldest entry to the buffer. -/
theorem dequeueEntry_mem (h : Represents s Q)
    (hapart : RangesApart data s.fifo.entrySize.toNat s.fifo.queue (blockSize s.fifo)) :
    (dequeueEntry s data).mem=storeBytes s.mem data (loadSlot s.fifo s.mem s.fifo.tail.toNat) := by
  have htail : (s.fifo.tail.setWidth 32).toNat=s.fifo.tail.toNat := BitVec.toNat_setWidth_of_le (by decide)
  have hsrc := h.apart_slot hapart (Nat.zero_le _)
  rw [Fifo.slot,ringSlot_zero h.tail_lt] at hsrc
  rw [dequeueEntry,slotAddr_eq (by rw [htail]; exact h.tail_lt),htail]
  exact sbiMemcpy_eq s.mem (entrySize_le s) hsrc

theorem dequeue_tail (h : Represents s Q) :
    (dequeueEntry s data).fifo.tail.toNat=s.fifo.slot 1 := by
  have hn := s.fifo.numEntries.isLt
  have ht := h.tail_lt
  have hnext : (s.fifo.tail+1).toNat=s.fifo.tail.toNat+1 := by
    rw [BitVec.toNat_add]
    exact Nat.mod_eq_of_lt (by simp; omega)
  simp only [dequeueEntry,Fifo.slot,ringSlot,BitVec.le_def,hnext]
  split_ifs with hwrap
  · have : (0 : BitVec 16).toNat=0 := rfl
    omega
  · exact hnext

theorem dequeue (h : Represents s Q) (hne : Q.entries≠[])
    (hapart : RangesApart data s.fifo.entrySize.toNat s.fifo.queue (blockSize s.fifo)) :
    Q.entries.head?=some (entryAt (dequeueEntry s data) data) ∧ Represents (dequeueEntry s data) Q.pop := by
  have hmem := h.dequeueEntry_mem hapart
  have hsize : (loadSlot s.fifo s.mem s.fifo.tail.toNat).length=s.fifo.entrySize.toNat := length_loadSlot
  obtain ⟨n,hn⟩ : ∃ n,s.fifo.avail.toNat=n+1 := by
    have hpos := List.length_pos_iff.mpr hne
    exact ⟨_,(Nat.sub_add_cancel (h.avail ▸ hpos)).symm⟩
  have hle := h.avail_le
  have hpop := @ringList_pop _ (loadSlot s.fifo s.mem) _ _ n h.tail_lt (by omega)
  have hcontents : Q.entries=loadSlot s.fifo s.mem s.fifo.tail.toNat::
      ringList (loadSlot s.fifo s.mem) s.fifo.numEntries.toNat (s.fifo.slot 1) n := by
    rw [h.entries,contents,hn,hpop]
    rfl
  have hgot : entryAt (dequeueEntry s data) data=loadSlot s.fifo s.mem s.fifo.tail.toNat := by
    have hload := loadBytes_storeBytes s.mem data (hsize.trans_le (entrySize_le s))
    rw [hsize] at hload
    rw [entryAt,hmem]
    exact hload
  constructor
  · rw [hcontents,List.head?_cons,hgot]
  · have hone : (1 : BitVec 16).toNat=1 := rfl
    have havail : (dequeueEntry s data).fifo.avail.toNat=n := by
      have hle1 : (1 : BitVec 16) ≤ s.fifo.avail := by
        rw [BitVec.le_def,hone]
        omega
      have hsub := BitVec.toNat_sub_of_le hle1
      rw [hone,hn] at hsub
      exact hsub
    have hslot : s.fifo.slot 1<s.fifo.numEntries.toNat := h.slot_lt (by omega)
    refine ⟨h.capacity,h.entrySize,by rw [h.dequeue_tail]; exact hslot,?_⟩
    show Q.entries.tail=_
    rw [hcontents,List.tail_cons,contents,havail,h.dequeue_tail,hmem]
    symm
    apply ringList_congr
    intro i hi
    have hin : i ≤ s.fifo.numEntries.toNat := by omega
    exact loadSlot_storeBytes_of_apart hapart hsize (ringSlot_lt hslot hin)

end Represents

section Update

variable {f : Fifo x} {fptr : Callback σ} {mem : Mem x}

/-- The entries of `n` rounds from round `i` on. -/
def roundEntries (f : Fifo x) (mem : Mem x) (i n : Nat) : List (List (BitVec 8)) :=
  (List.range' i n).map fun j => loadSlot f mem (f.slot j)

theorem length_roundEntries (mem : Mem x) (i n : Nat) : (roundEntries f mem i n).length=n := by
  rw [roundEntries,List.length_map,List.length_range']

theorem roundEntries_succ (mem : Mem x) (i n : Nat) :
    roundEntries f mem i (n+1)=loadSlot f mem (f.slot i)::roundEntries f mem (i+1) n := by
  rw [roundEntries,List.range'_succ,List.map_cons]
  rfl

theorem contents_eq (s : State x) : contents s=roundEntries s.fifo s.mem 0 s.fifo.avail.toNat := by
  rw [contents,ringList,List.range_eq_range']
  rfl

theorem inplaceLoop_succ {i n : Nat} (hi : f.slot i<f.numEntries.toNat) (inp : σ) (ret : Int) :
    inplaceLoop f fptr i (n+1) mem inp ret=
      let r := fptr.call inp (loadSlot f mem (f.slot i))
      let mem := storeBytes mem (slotPtr f (f.slot i)) r.2.2
      if Stops r.1 then (mem,r.2.1,r.1) else inplaceLoop f fptr (i+1) n mem r.2.1 r.1 := by
  have hn := f.numEntries.isLt
  have hindex : (BitVec.ofNat 32 (f.slot i)).toNat=f.slot i := by
    rw [BitVec.toNat_ofNat]
    exact Nat.mod_eq_of_lt (by omega)
  have haddr : slotAddr f (BitVec.ofNat 32 (f.slot i))=slotPtr f (f.slot i) := by
    rw [slotAddr_eq (by rwa [hindex]),hindex]
  rw [Fifo.slot,ringSlot] at haddr
  rw [inplaceLoop]
  simp only [haddr]
  rfl

theorem Fifo.slot_later (ht : f.tail.toNat<f.numEntries.toNat) {i j : Nat} (hij : i<j)
    (hj : j<f.numEntries.toNat) : f.slot j<f.numEntries.toNat ∧ f.slot j≠f.slot i := by
  refine ⟨ringSlot_lt ht hj.le,fun heq => ?_⟩
  have := ringSlot_inj hj (hij.trans hj) heq
  omega

/-- A round leaves the entries of the later rounds alone. -/
theorem roundEntries_storeBytes (ht : f.tail.toNat<f.numEntries.toNat) {i n : Nat}
    (hn : i+(n+1) ≤ f.numEntries.toNat) {entry : List (BitVec 8)} (hentry : entry.length=f.entrySize.toNat) :
    roundEntries f (storeBytes mem (slotPtr f (f.slot i)) entry) (i+1) n=roundEntries f mem (i+1) n := by
  refine List.map_congr_left fun j hj => ?_
  obtain ⟨hij,hjn⟩ := List.mem_range'_1.mp hj
  obtain ⟨hlt,hne⟩ := Fifo.slot_later ht hij (by omega)
  exact loadSlot_storeBytes_of_ne (ringSlot_lt ht (by omega)) hlt hne hentry

/-- The rounds scan the entries, and store in the slots they scan alone. -/
theorem inplaceLoop_scan (ht : f.tail.toNat<f.numEntries.toNat) (fptr : Callback σ) {i n : Nat}
    (hn : i+n ≤ f.numEntries.toNat) (mem : Mem x) (inp : σ) (ret : Int) :
    roundEntries f (inplaceLoop f fptr i n mem inp ret).1 i n=
        (scan fptr.call Stops (roundEntries f mem i n) inp ret).1 ∧
      (inplaceLoop f fptr i n mem inp ret).2=(scan fptr.call Stops (roundEntries f mem i n) inp ret).2 ∧
      ∀ addr,(∀ j<scanned fptr.call Stops (roundEntries f mem i n) inp,¬InSlot f (f.slot (i+j)) addr) →
        (inplaceLoop f fptr i n mem inp ret).1 addr=mem addr := by
  induction n generalizing i mem inp ret with
  | zero => exact ⟨rfl,rfl,fun _ _ => rfl⟩
  | succ n ih =>
    have hi : f.slot i<f.numEntries.toNat := ringSlot_lt ht (by omega)
    have hlen := fptr.length_eq inp (loadSlot f mem (f.slot i))
    rw [length_loadSlot] at hlen
    rw [inplaceLoop_succ hi,roundEntries_succ mem,scan,scanned]
    generalize fptr.call inp (loadSlot f mem (f.slot i))=r at hlen ⊢
    have hrest := @roundEntries_storeBytes _ _ mem ht _ _ hn _ hlen
    have hself := @loadSlot_storeBytes_self _ _ mem _ hi _ hlen
    by_cases hstop : Stops r.1
    · simp only [if_pos hstop]
      refine ⟨?_,trivial,fun addr hout => ?_⟩
      · rw [roundEntries_succ,hself,hrest]
      · apply storeBytes_of_not
        rw [hlen]
        exact hout 0 (by omega)
    · simp only [if_neg hstop]
      obtain ⟨hentries,hret,hframe⟩ := @ih (i+1) (by omega)
        (storeBytes mem (slotPtr f (f.slot i)) r.2.2) r.2.1 r.1
      rw [hrest] at hentries hret hframe
      have hle := @scanned_le _ _ _ fptr.call Stops _ (roundEntries f mem (i+1) n) r.2.1
      rw [length_roundEntries] at hle
      refine ⟨?_,hret,fun addr hout => ?_⟩
      · rw [roundEntries_succ,hentries]
        congr 1
        refine (loadSlot_congr fun addr hin => hframe addr fun j hj => ?_).trans hself
        obtain ⟨hlt,hne⟩ := Fifo.slot_later ht (show i < i+1+j by omega) (by omega)
        exact hin.apart hi hlt hne
      · rw [hframe addr fun j hj => by
          rw [show i+1+j=i+(j+1) by omega]
          exact hout (j+1) (by omega)]
        apply storeBytes_of_not
        rw [hlen]
        exact hout 0 (by omega)

end Update

section Steps

variable {s s' : State x} {Q : ByteQueue} {a : Action x σ} {ev : List (Event σ)} {fptr : Callback σ} {inp : σ}

/-- The memory, the object and the result an update leaves. -/
def updated (s : State x) (fptr : Callback σ) (inp : σ) : Mem x×σ×Int :=
  inplaceLoop s.fifo fptr 0 s.fifo.avail.toNat s.mem inp SBI_FIFO_UNCHANGED

/-- An update scans the entries from the oldest on. -/
theorem Represents.updated_scan (h : Represents s Q) (fptr : Callback σ) (inp : σ) :
    contents { s with mem := (updated s fptr inp).1 }=
        (scan fptr.call Stops (contents s) inp SBI_FIFO_UNCHANGED).1 ∧
      (updated s fptr inp).2=(scan fptr.call Stops (contents s) inp SBI_FIFO_UNCHANGED).2 ∧
      ∀ addr,(∀ i<scanned fptr.call Stops (contents s) inp,¬InSlot s.fifo (s.fifo.slot i) addr) →
        (updated s fptr inp).1 addr=s.mem addr := by
  have hloop := inplaceLoop_scan h.tail_lt fptr ((Nat.zero_add _).trans_le h.avail_le) s.mem inp
    SBI_FIFO_UNCHANGED
  simp only [Nat.zero_add] at hloop
  rw [contents_eq,contents_eq]
  exact hloop

theorem Represents.update (h : Represents s Q) (fptr : Callback σ) (inp : σ) :
    Represents { s with mem := (updated s fptr inp).1 } (Q.update fptr inp) := by
  refine ⟨h.capacity,h.entrySize,h.tail_lt,?_⟩
  rw [(h.updated_scan fptr inp).1,← h.entries]
  rfl

/-- An update of an empty FIFO is a scan of no entries. -/
theorem sbiFifoInplaceUpdate_some (s : State x) (fptr : Callback σ) (inp : σ) :
    sbiFifoInplaceUpdate fptr (some s) (some inp)=
      (some { s with mem := (updated s fptr inp).1 },some (updated s fptr inp).2.1,
        (updated s fptr inp).2.2) := by
  rw [sbiFifoInplaceUpdate,updated]
  split
  next hempty =>
    rw [isEmpty,beq_iff_eq] at hempty
    rw [hempty]
    rfl
  next => rfl

/-- Every call does to the queue what it is for. -/
theorem fifoStep_refines (h : Represents s Q) (hstep : fifoStep s a=some (s',ev)) (hok : CallerOk s a s') :
    ∃ Q',Represents s' Q' ∧ (ev=[] ∧ Q'=Q ∨ ∃ e,ev=[e] ∧ QueueStep Q e Q') := by
  cases a with
  | init queueMem entries entrySize =>
    cases hstep
    have hpos : 0<entries.toNat := Nat.pos_of_ne_zero fun h0 => hok (BitVec.eq_of_toNat_eq h0)
    exact ⟨_,.init s.mem queueMem entrySize hok,.inr ⟨_,rfl,.init Q _ _ hpos⟩⟩
  | enqueue data =>
    simp only [fifoStep,sbiFifoEnqueue] at hstep
    split_ifs at hstep with hnull hfull <;> cases hstep
    · exact ⟨Q,h,.inr ⟨_,rfl,.enqueueNull Q⟩⟩
    · exact ⟨Q,h,.inr ⟨_,rfl,.enqueueFull Q _ (h.full_iff.mp hfull)⟩⟩
    · have hroom : Q.entries.length<Q.capacity :=
        Nat.lt_of_le_of_ne Q.length_le fun heq => hfull (h.full_iff.mpr heq)
      exact ⟨_,h.enqueue hroom (hok hnull),.inr ⟨_,rfl,.enqueue Q _ hroom _⟩⟩
  | dequeue data =>
    simp only [fifoStep,sbiFifoDequeue] at hstep
    split_ifs at hstep with hnull hempty <;> cases hstep
    · exact ⟨Q,h,.inr ⟨_,rfl,.dequeueNull Q⟩⟩
    · exact ⟨Q,h,.inr ⟨_,rfl,.dequeueEmpty Q _ (h.empty_iff.mp hempty)⟩⟩
    · obtain ⟨hhead,hrep⟩ := h.dequeue (fun heq => hempty (h.empty_iff.mpr heq)) (hok hnull)
      exact ⟨_,hrep,.inr ⟨_,rfl,.dequeue Q _ hhead⟩⟩
  | update fptr inp =>
    cases inp with
    | none =>
      cases hstep
      exact ⟨Q,h,.inr ⟨_,rfl,.updateNull Q fptr⟩⟩
    | some inp =>
      simp only [fifoStep,sbiFifoInplaceUpdate_some] at hstep
      cases hstep
      refine ⟨_,h.update fptr inp,.inr ⟨_,rfl,?_⟩⟩
      rw [(h.updated_scan fptr inp).2.1,← h.entries]
      exact .update Q fptr inp
  | reset =>
    cases hstep
    exact ⟨_,h.reset,.inr ⟨_,rfl,.reset Q⟩⟩
  | isFull =>
    cases hstep
    refine ⟨Q,h,.inr ⟨_,rfl,?_⟩⟩
    rw [sbiFifoIsFull,if_congr h.full_iff rfl rfl]
    exact .isFull Q
  | isEmpty =>
    cases hstep
    refine ⟨Q,h,.inr ⟨_,rfl,?_⟩⟩
    rw [sbiFifoIsEmpty,if_congr h.empty_iff rfl rfl]
    exact .isEmpty Q
  | avail =>
    cases hstep
    refine ⟨Q,h,.inr ⟨_,rfl,?_⟩⟩
    rw [sbiFifoAvail,h.avail]
    exact .avail Q
  | store addr byte =>
    cases hstep
    refine ⟨Q,h.congr fun b hin => ?_,.inl ⟨rfl,rfl⟩⟩
    apply Function.update_of_ne
    rintro rfl
    exact hok hin

/-- The addresses a call may read or write. -/
def Touches (s : State x) (a : Action x σ) (addr : Word x) : Prop :=
  match a with
  | .init queueMem entries entrySize => InRange queueMem (entries.toNat*entrySize.toNat) addr
  | .enqueue data => data≠0 ∧ (InRange data s.fifo.entrySize.toNat addr ∨
      isFull s.fifo=false ∧ InSlot s.fifo (s.fifo.slot s.fifo.avail.toNat) addr)
  | .dequeue data => data≠0 ∧ (InRange data s.fifo.entrySize.toNat addr ∨
      isEmpty s.fifo=false ∧ InSlot s.fifo s.fifo.tail.toNat addr)
  | .update fptr (some inp) =>
    ∃ i<scanned fptr.call Stops (contents s) inp,InSlot s.fifo (s.fifo.slot i) addr
  | .reset => InRange s.fifo.queue (blockSize s.fifo) addr
  | .store b _ => addr=b
  | _ => False

/-- The step changes no byte outside a set of addresses, and what it returns and leaves there depends on
these bytes alone. -/
structure Confined (s : State x) (a : Action x σ) (P : Word x → Prop) : Prop where
  frame : ∀ s' ev,fifoStep s a=some (s',ev) → ∀ addr,¬P addr → s'.mem addr=s.mem addr
  reads : ∀ s' ev mem,fifoStep s a=some (s',ev) → (∀ addr,P addr → mem addr=s.mem addr) →
    ∃ mem',fifoStep { s with mem := mem } a=some (⟨mem',s'.fifo⟩,ev) ∧ ∀ addr,P addr → mem' addr=s'.mem addr

theorem blockSize_count (queueMem : Word x) (entries entrySize : BitVec 16) :
    (entries.setWidth x.bits*entrySize.setWidth x.bits).toNat=entries.toNat*entrySize.toNat := by
  have hlt := blockSize_lt_bits (⟨queueMem,entrySize,entries,0,0⟩ : Fifo x)
  have hbits : 16 ≤ x.bits := (by decide : 16 ≤ 32).trans x.bits_ge
  rw [BitVec.toNat_mul,BitVec.toNat_setWidth_of_le hbits,BitVec.toNat_setWidth_of_le hbits]
  exact Nat.mod_eq_of_lt hlt

theorem Confined.of_step {P : Word x → Prop} (m : Mem x → Mem x) (f : Fifo x) (ev : List (Event σ))
    (hstep : ∀ mem,(∀ addr,P addr → mem addr=s.mem addr) → fifoStep { s with mem := mem } a=some (⟨m mem,f⟩,ev))
    (hframe : ∀ addr,¬P addr → m s.mem addr=s.mem addr)
    (hreads : ∀ mem,(∀ addr,P addr → mem addr=s.mem addr) → ∀ addr,P addr → m mem addr=m s.mem addr) :
    Confined s a P := by
  have hs : fifoStep s a=some (⟨m s.mem,f⟩,ev) := hstep s.mem fun _ _ => rfl
  constructor
  · intro s' ev' h addr hout
    cases hs.symm.trans h
    exact hframe addr hout
  · intro s' ev' mem h hmem
    cases hs.symm.trans h
    exact ⟨m mem,hstep mem hmem,hreads mem hmem⟩

theorem Confined.of_same {P : Word x → Prop} (ev : List (Event σ))
    (hstep : ∀ mem,(∀ addr,P addr → mem addr=s.mem addr) →
      fifoStep { s with mem := mem } a=some ({ s with mem := mem },ev)) : Confined s a P :=
  .of_step id s.fifo ev hstep (fun _ _ => rfl) fun _ hmem => hmem

/-- Other memory holds some queue too. -/
theorem Represents.other (h : Represents s Q) (mem : Mem x) : ∃ Q',Represents { s with mem := mem } Q' := by
  refine ⟨⟨Q.capacity,Q.entrySize,contents { s with mem := mem },?_,?_⟩,h.capacity,h.entrySize,h.tail_lt,rfl⟩
  · rw [contents,length_ringList,h.avail]
    exact Q.length_le
  · intro entry hin
    obtain ⟨i,-,rfl⟩ := List.mem_map.mp hin
    exact length_loadSlot.trans h.entrySize.symm

theorem confined_memset {p : Word x} {n : Nat} (f : Fifo x) (ev : List (Event σ))
    (hstep : ∀ mem,fifoStep { s with mem := mem } a=some (⟨sbiMemset mem p 0 n,f⟩,ev)) :
    Confined s a (InRange p n) := by
  refine .of_step (fun mem => sbiMemset mem p 0 n) f ev (fun mem _ => hstep mem)
    (fun _ hout => sbiMemset_not _ _ _ _ hout) ?_
  rintro mem - addr ⟨j,hj,rfl⟩
  rw [sbiMemset_at _ _ _ hj,sbiMemset_at _ _ _ hj]

theorem Represents.confined_enqueue (h : Represents s Q) {data : Word x} (hnull : data≠0)
    (hfull : isFull s.fifo=false)
    (hapart : RangesApart data s.fifo.entrySize.toNat s.fifo.queue (blockSize s.fifo)) :
    Confined s (.enqueue data : Action x σ) (Touches s (.enqueue data : Action x σ)) := by
  refine .of_step (fun mem => storeBytes mem (slotPtr s.fifo (s.fifo.slot s.fifo.avail.toNat)) (entryAt s data))
    { s.fifo with avail := s.fifo.avail+1 } [.enqueue (some (entryAt s data)) 0]
    (fun mem hmem => ?_) (fun addr hout => ?_) fun mem hmem addr hin => storeBytes_congr _ (hmem addr hin)
  · obtain ⟨Q',h'⟩ := h.other mem
    have hread : entryAt { s with mem := mem } data=entryAt s data :=
      loadBytes_congr fun addr hin => hmem addr ⟨hnull,.inl hin⟩
    have hcopy := h'.enqueueEntry_mem hapart
    rw [hread] at hcopy
    rw [← hcopy]
    simp only [fifoStep,sbiFifoEnqueue,hread,if_neg hnull,hfull]
    rfl
  · apply storeBytes_of_not
    intro hin
    rw [entryAt,length_loadBytes] at hin
    exact hout ⟨hnull,.inr ⟨hfull,hin⟩⟩

theorem Represents.confined_dequeue (h : Represents s Q) {data : Word x} (hnull : data≠0)
    (hempty : isEmpty s.fifo=false)
    (hapart : RangesApart data s.fifo.entrySize.toNat s.fifo.queue (blockSize s.fifo)) :
    Confined s (.dequeue data : Action x σ) (Touches s (.dequeue data : Action x σ)) := by
  have hsize : (loadSlot s.fifo s.mem s.fifo.tail.toNat).length=s.fifo.entrySize.toNat := length_loadSlot
  refine .of_step (fun mem => storeBytes mem data (loadSlot s.fifo s.mem s.fifo.tail.toNat))
    (dequeueEntry s data).fifo [.dequeue (some (entryAt (dequeueEntry s data) data)) 0]
    (fun mem hmem => ?_) (fun addr hout => ?_) fun mem hmem addr hin => storeBytes_congr _ (hmem addr hin)
  · obtain ⟨Q',h'⟩ := h.other mem
    have hread : loadSlot s.fifo mem s.fifo.tail.toNat=loadSlot s.fifo s.mem s.fifo.tail.toNat :=
      loadSlot_congr fun addr hin => hmem addr ⟨hnull,.inr ⟨hempty,hin⟩⟩
    have hcopy := h'.dequeueEntry_mem hapart
    rw [hread] at hcopy
    have hgot : entryAt (dequeueEntry { s with mem := mem } data) data=entryAt (dequeueEntry s data) data := by
      apply loadBytes_congr
      intro addr hin
      rw [hcopy,h.dequeueEntry_mem hapart]
      exact storeBytes_congr _ (hmem addr ⟨hnull,.inl hin⟩)
    rw [← hcopy,← hgot]
    simp only [fifoStep,sbiFifoDequeue,if_neg hnull,hempty]
    rfl
  · apply storeBytes_of_not
    intro hin
    rw [hsize] at hin
    exact hout ⟨hnull,.inl hin⟩

theorem Represents.confined_update (h : Represents s Q) (fptr : Callback σ) (inp : σ) :
    Confined s (.update fptr (some inp)) (Touches s (.update fptr (some inp))) := by
  have hscan : ∀ mem : Mem x,(∀ addr,Touches s (.update fptr (some inp)) addr → mem addr=s.mem addr) →
      (updated { s with mem := mem } fptr inp).2=(updated s fptr inp).2 ∧
      ∀ addr,Touches s (.update fptr (some inp)) addr →
        (updated { s with mem := mem } fptr inp).1 addr=(updated s fptr inp).1 addr := by
    intro mem hmem
    obtain ⟨Q',h'⟩ := h.other mem
    obtain ⟨hl',hr',-⟩ := h'.updated_scan fptr inp
    obtain ⟨hl,hr,-⟩ := h.updated_scan fptr inp
    have hlen : (contents { s with mem := mem }).length=(contents s).length := by
      rw [contents,contents,length_ringList,length_ringList]
    have hle := @scanned_le _ _ _ fptr.call Stops _ (contents s) inp
    rw [contents,length_ringList] at hle
    -- the entries it scans are the same
    have hsame : ∀ i<scanned fptr.call Stops (contents s) inp,
        (contents { s with mem := mem })[i]?=(contents s)[i]? := by
      intro i hi
      have hlt : i<s.fifo.avail.toNat := hi.trans_le hle
      rw [contents,contents,ringList_getElem? hlt,ringList_getElem? hlt]
      exact congrArg some (loadSlot_congr fun addr hin => hmem addr ⟨i,hi,hin⟩)
    obtain ⟨-,hret,hlist⟩ := @scan_congr _ _ _ fptr.call Stops _ _ _ hlen inp SBI_FIFO_UNCHANGED hsame
    refine ⟨hr'.trans (hret.trans hr.symm),fun addr hin => ?_⟩
    obtain ⟨i,hi,hin⟩ := hin
    have hlt : i<s.fifo.avail.toNat := hi.trans_le hle
    have hentry := hlist i hi
    rw [← hl,← hl',contents,contents,ringList_getElem? hlt,ringList_getElem? hlt,Option.some.injEq] at hentry
    exact eq_of_loadBytes_eq hentry hin
  refine .of_step (fun mem => (updated { s with mem := mem } fptr inp).1) s.fifo
    [.update fptr (some inp) (some (updated s fptr inp).2.1) (updated s fptr inp).2.2]
    (fun mem hmem => ?_) (fun addr hout => ?_) fun mem hmem => (hscan mem hmem).2
  · rw [← (hscan mem hmem).1,fifoStep,sbiFifoInplaceUpdate_some]
    rfl
  · apply (h.updated_scan fptr inp).2.2
    intro i hi hin
    exact hout ⟨i,hi,hin⟩

/-- A call reads and writes nothing but what it touches. -/
theorem fifoStep_confined (h : Represents s Q) (a : Action x σ) (hok : CallerOk s a s') :
    Confined s a (Touches s a) := by
  cases a with
  | init queueMem entries entrySize =>
    refine confined_memset ⟨queueMem,entrySize,entries,0,0⟩ [.init entries.toNat entrySize.toNat] fun mem => ?_
    rw [← blockSize_count queueMem]
    rfl
  | enqueue data =>
    by_cases hnull : data=0
    · refine .of_same [.enqueue none SBI_EINVAL] fun mem _ => ?_
      simp only [fifoStep,sbiFifoEnqueue,if_pos hnull]
      rfl
    · cases hfull : isFull s.fifo with
      | false => exact h.confined_enqueue hnull hfull (hok hnull)
      | true =>
        refine .of_same [.enqueue (some (entryAt s data)) SBI_ENOSPC] fun mem hmem => ?_
        have hread : entryAt { s with mem := mem } data=entryAt s data :=
          loadBytes_congr fun addr hin => hmem addr ⟨hnull,.inl hin⟩
        simp only [fifoStep,sbiFifoEnqueue,if_neg hnull,hfull,hread]
        rfl
  | dequeue data =>
    by_cases hnull : data=0
    · refine .of_same [.dequeue none SBI_EINVAL] fun mem _ => ?_
      simp only [fifoStep,sbiFifoDequeue,if_pos hnull]
      rfl
    · cases hempty : isEmpty s.fifo with
      | false => exact h.confined_dequeue hnull hempty (hok hnull)
      | true =>
        refine .of_same [.dequeue (some (entryAt s data)) SBI_ENOENT] fun mem hmem => ?_
        have hread : entryAt { s with mem := mem } data=entryAt s data :=
          loadBytes_congr fun addr hin => hmem addr ⟨hnull,.inl hin⟩
        simp only [fifoStep,sbiFifoDequeue,if_neg hnull,hempty,Option.map_some,if_true,hread]
  | update fptr inp =>
    cases inp with
    | none => exact .of_same [.update fptr none none SBI_FIFO_UNCHANGED] fun _ _ => rfl
    | some inp => exact h.confined_update fptr inp
  | reset =>
    refine confined_memset { s.fifo with avail := 0,tail := 0 } [.reset true] fun mem => ?_
    rw [blockSize,← blockSize_count s.fifo.queue]
    rfl
  | isFull => exact .of_same [.isFull (sbiFifoIsFull (some s))] fun _ _ => rfl
  | isEmpty => exact .of_same [.isEmpty (sbiFifoIsEmpty (some s))] fun _ _ => rfl
  | avail => exact .of_same [.avail s.fifo.avail.toNat] fun _ _ => rfl
  | store b byte =>
    refine .of_step (fun mem => Function.update mem b byte) s.fifo [] (fun _ _ => rfl)
      (fun addr hout => Function.update_of_ne hout ..) ?_
    rintro mem - addr rfl
    rw [Function.update_self,Function.update_self]

end Steps

/-- The byte-array FIFO refines a bounded queue: after every run the ring holds the queue that the calls
of the run leave, and a further call reads and writes the entry it is about, not a byte of another. -/
theorem sbiFifo_refines (mem : Mem x) (queueMem : Word x) (entries entrySize : BitVec 16) (hn : entries≠0)
    {t : List (Event σ)} {s : State x}
    (h : (fifoMachine x σ).Run CallerOk (sbiFifoInit mem queueMem entries entrySize) t s) :
    ∃ Q,Represents s Q ∧ QueueRun (.empty entries.toNat entrySize.toNat) t Q ∧
      ∀ (a : Action x σ) s',CallerOk s a s' → Confined s a (Touches s a) := by
  obtain ⟨Q,hrep,hrun⟩ := h.traceInvariant (P := fun t s =>
    ∃ Q,Represents s Q ∧ QueueRun (.empty entries.toNat entrySize.toNat) t Q)
    (by
      rintro t s a s' ev ⟨Q,hrep,hrun⟩ hstep hok
      obtain ⟨Q',hrep',⟨rfl,rfl⟩ | ⟨e,rfl,hq⟩⟩ := fifoStep_refines hrep hstep hok
      · rw [List.append_nil]
        exact ⟨Q',hrep',hrun⟩
      · exact ⟨Q',hrep',hrun.snoc hq⟩)
    ⟨_,.init mem queueMem entrySize hn,.nil⟩
  exact ⟨Q,hrep,hrun,fun a s' hok => fifoStep_confined hrep a hok⟩

/-- Two slots of two bytes, an enqueue into the full ring and one past its end, and an update of the newest
entry. -/
theorem sbiFifo_refines_wrapped : ∃ (t : List (Event Nat)) (s : State .rv32) (Q : ByteQueue),Represents s Q ∧
    QueueRun (.empty 2 2) t Q ∧ Q.entries=[[3,2],[5,7]] ∧ t.length=6 ∧
    ∀ (a : Action .rv32 Nat) s',CallerOk s a s' → Confined s a (Touches s a) := by
  let fptr : Callback Nat := ⟨fun inp entry =>
    if entry=[5,2] then (SBI_FIFO_UPDATED,inp+1,[5,7]) else (SBI_FIFO_UNCHANGED,inp+1,entry),by
      intro inp entry
      split_ifs with h
      · rw [h]
        rfl
      · rfl⟩
  let s0 : State .rv32 := sbiFifoInit (fun _ => 0) 16 2 2
  let as : List (Action .rv32 Nat) := [.store 1 1,.store 2 2,.enqueue 1,.store 1 3,.enqueue 1,.enqueue 1,
    .dequeue 8,.store 1 5,.enqueue 1,.update fptr (some 0)]
  obtain ⟨s,t,hrun,hlast⟩ := @Machine.exists_run _ _ _ (fifoMachine .rv32 Nat)
    (fun s a s' => decide (CallerOk s a s')) s0 as
    (fun s t => decide (contents s=[[3,2],[5,7]] ∧ t.length=6)) (by decide +kernel)
  have hok := hrun.mono fun _ _ _ h => of_decide_eq_true h
  obtain ⟨Q,hrep,hqueue,hconfined⟩ := sbiFifo_refines (fun _ => 0) 16 2 2 (by decide) hok
  obtain ⟨hentries,hlen⟩ := of_decide_eq_true hlast
  exact ⟨t,s,Q,hrep,hqueue,hrep.entries.trans hentries,hlen,hconfined⟩

end OpenSBI.ByteFifo
