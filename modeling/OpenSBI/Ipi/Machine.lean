import OpenSBI.Framework.Transition
import OpenSBI.Hsm.State
import OpenSBI.Tlb.Merge

namespace OpenSBI

open Framework

variable {x : Xlen}

/-- The IPI events, in the order in which `sbi_ipi_init()` and `sbi_tlb_init()` create them. -/
inductive IpiEvent where
  | smode
  | halt
  | tlb
  deriving DecidableEq,Repr

/-- `ipi_type`: one bit for each event. -/
structure IpiType where
  smode : Bool
  halt : Bool
  tlb : Bool
  deriving DecidableEq,Repr

def IpiType.none : IpiType := ⟨false,false,false⟩

def IpiType.setBit (w : IpiType) : IpiEvent → IpiType
  | .smode => { w with smode := true }
  | .halt => { w with halt := true }
  | .tlb => { w with tlb := true }

/-- A call of `sbi_ipi_send_many()` with its loop variables: `i` and `m` are those of the mask
computation and of the send loop over the window at `base`. -/
structure Sending (x : Xlen) where
  event : IpiEvent
  data : TlbInfo x
  hmask : Word x
  all : Bool
  base : Nat
  i : Nat
  m : Word x

namespace Sending

def target (k : Sending x) : Nat := k.base+k.i

/-- The step of the send loop to the next bit. -/
def next (k : Sending x) : Sending x := { k with i := k.i+1,m := k.m >>> 1 }

end Sending

/-- Where `sbi_fifo_dequeue()` was called from: the retry loop of `tlb_update()`, the poll loop of
`tlb_sync()`, or `tlb_process()` with the rest of the word `sbi_ipi_process()` works on. -/
inductive Caller (x : Xlen) where
  | full (k : Sending x)
  | wait (k : Sending x)
  | ipi (exiting : Bool) (w : IpiType)

/-- Program positions of a hart. `smode` stands for the lower privilege modes. -/
inductive Pc (x : Xlen) where
  | smode
  | mask (k : Sending x)
  | send (k : Sending x)
  | update (k : Sending x)
  | enqueue (k : Sending x)
  | setBit (k : Sending x)
  | raise (k : Sending x)
  | sync (k : Sending x)
  | dequeue (c : Caller x) (deqCount : Nat)
  | localFn (c : Caller x) (deqCount : Nat) (e : TlbInfo x)
  | ack (c : Caller x) (deqCount : Nat) (e : TlbInfo x) (rhartid : Nat)
  | ipiClear (exiting : Bool)
  | ipiXchg (exiting : Bool)
  | ipiLoop (exiting : Bool) (w : IpiType)
  | hsmExit
  | hartWait
  | ipiInitWord
  | ipiInitClear
  | tlbInitSync
  | tlbInitFifo
  | prepareJump
  | startKick (t : Nat)
  | hang

/-- What does not change while the firmware runs. -/
structure Harts (x : Xlen) where
  lastHartid : Nat
  /-- `sbi_hartid_to_scratch()` is not NULL. -/
  scratch : Nat → Bool
  scratch_lt : ∀ h,scratch h=true → h<SBI_HARTMASK_MAX_BITS
  /-- Hart `j` is assigned to the domain of hart `h`. -/
  assigned : Nat → Nat → Bool
  tlbRangeFlushLimit : Word x
  tlbFifoEntries : Nat
  tlbFifoEntries_pos : 0<tlbFifoEntries

/-- The shared words of all harts and their program positions. -/
structure IpiState (x : Xlen) where
  hsm : Nat → HsmState
  ipiType : Nat → IpiType
  msip : Nat → Bool
  tlbSync : Nat → Bool
  tlbFifo : Nat → SbiFifo (TlbInfo x)
  pc : Nat → Pc x

/-- What a hart in S-mode can do next; everywhere else the firmware runs on. Calls of
`sbi_ipi_send_halt()` come from `sbi_system_reset()`. -/
inductive Action (x : Xlen) where
  | run
  | trap
  | tlbRequest (hmask hbase : Word x) (data : TlbInfo x)
  | sendSmode (hmask hbase : Word x)
  | sendHalt (hmask hbase : Word x)
  | hartStop
  | hartStart (t : Nat)

/-- Events of the trace: request of `a` enters the FIFO of `b`, `b` runs the `local_fn` of an
entry, `b` acknowledges `a`, and `tlb_sync()` of `a` for its request to `b` returns. -/
inductive IpiTrace (x : Xlen) where
  | enter (a b : Nat)
  | exec (b : Nat) (e : TlbInfo x)
  | ack (b a : Nat)
  | ret (a b : Nat)

namespace IpiState

def setPc (s : IpiState x) (h : Nat) (p : Pc x) : IpiState x :=
  { s with pc := Function.update s.pc h p }

end IpiState

def zeroTlbInfo : TlbInfo x := ⟨0,0,0,0,.fenceI,0⟩

/-- `SBI_TLB_INFO_INIT()`: only the source hart is set in the mask. -/
def tlbInfoInit (src : Nat) (data : TlbInfo x) : TlbInfo x :=
  { data with smask := sbiHartmaskInitExcept src }

/-- The start of `sbi_ipi_send_many()`; an `hbase` of `-1` asks for all harts. -/
def sendMany (event : IpiEvent) (data : TlbInfo x) (hmask hbase : Word x) : Sending x :=
  { event,data,hmask,all := decide (hbase=Word.max)
    base := if hbase=Word.max then 0 else hbase.toNat,i := 0,m := 0 }

/-- The entry of `sbi_hsm_hart_interruptible_mask()`: a window past the last hart fails, which ends
the call. -/
def maskEntry (c : Harts x) (k : Sending x) : Pc x :=
  if c.lastHartid+1≤k.base then .smode else .mask { k with i := 0,m := 0 }

/-- End of the window of `sbi_hsm_hart_interruptible_mask()`. -/
def maskEnd (c : Harts x) (k : Sending x) : Nat :=
  if x.bits<c.lastHartid+1-k.base then k.base+x.bits else c.lastHartid+1

/-- The mask `sbi_system_reset()` passes on: without the calling hart. -/
def othersMask (h : Nat) (hmask hbase : Word x) : Word x :=
  if hbase.toNat≤h then hmask &&& ~~~Word.bit (h-hbase.toNat) else hmask

/-- Back to the caller of `tlb_process_count()` or `tlb_process()`. -/
def Caller.resume : Caller x → Pc x
  | .full k => .enqueue k
  | .wait k => .sync k
  | .ipi ex w => .ipiLoop ex w

/-- After an entry: `tlb_process_count(scratch, 1)` leaves when its count exceeds one. -/
def Caller.processed (c : Caller x) (deqCount : Nat) : Pc x :=
  match c with
  | .ipi ex w => .dequeue (.ipi ex w) deqCount
  | c => if 1<deqCount+1 then c.resume else .dequeue c (deqCount+1)

/-- One step of hart `h` inside the firmware. -/
def runStep (c : Harts x) (s : IpiState x) (h : Nat) :
    Pc x → Option (IpiState x × List (IpiTrace x))
  | .smode => none
  | .mask k =>
      if k.target < maskEnd c k then
        let m := if c.assigned h k.target && c.scratch k.target &&
          (s.hsm k.target).interruptible then k.m ||| Word.bit k.i else k.m
        some (s.setPc h (.mask { k with i := k.i+1,m := m }),[])
      else
        some (s.setPc h (.send { k with i := 0,m := if k.all then k.m else k.m &&& k.hmask }),[])
  | .send k =>
      if k.m=0 then
        some (s.setPc h (if k.all then maskEntry c { k with base := k.base+x.bits } else .smode),[])
      else if k.m.getLsbD 0 && c.scratch k.target then
        some (s.setPc h (if k.event=.tlb then .update k else .setBit k),[])
      else some (s.setPc h (.send k.next),[])
  | .update k =>
      let k := { k with data := tlbLimitRange c.tlbRangeFlushLimit k.data }
      if k.target=h then some (s.setPc h (.send k.next),[])
      else
        let u := sbiFifoInplaceUpdate (s.tlbFifo k.target) k.data tlbUpdateCb
        if u.1=.unchanged then some (s.setPc h (.enqueue k),[])
        else some ({ s with
          tlbFifo := Function.update s.tlbFifo k.target u.2
          pc := Function.update s.pc h (.setBit k) },[.enter h k.target])
  | .enqueue k =>
      match sbiFifoEnqueue (s.tlbFifo k.target) k.data with
      | .error _ => some (s.setPc h (.dequeue (.full k) 0),[])
      | .ok f => some ({ s with
          tlbFifo := Function.update s.tlbFifo k.target f
          pc := Function.update s.pc h (.setBit k) },[.enter h k.target])
  | .setBit k => some ({ s with
      ipiType := Function.update s.ipiType k.target ((s.ipiType k.target).setBit k.event)
      pc := Function.update s.pc h (.raise k) },[])
  | .raise k => some ({ s with
      msip := Function.update s.msip k.target true
      pc := Function.update s.pc h (if k.event=.tlb then .sync k else .send k.next) },[])
  | .sync k =>
      if s.tlbSync h then some ({ s with
        tlbSync := Function.update s.tlbSync h false
        pc := Function.update s.pc h (.send k.next) },[.ret h k.target])
      else some (s.setPc h (.dequeue (.wait k) 0),[])
  | .dequeue r n =>
      match sbiFifoDequeue (s.tlbFifo h) with
      | .error _ => some (s.setPc h r.resume,[])
      | .ok (e,f) => some ({ s with
          tlbFifo := Function.update s.tlbFifo h f
          pc := Function.update s.pc h (.localFn r n e) },[])
  | .localFn r n e => some (s.setPc h (.ack r n e 0),[.exec h e])
  | .ack r n e i =>
      if SBI_HARTMASK_MAX_BITS ≤ i then some (s.setPc h (r.processed n),[])
      else if sbiHartmaskTestHart i e.smask && c.scratch i then
        if s.tlbSync i then some (s,[])
        else some ({ s with
          tlbSync := Function.update s.tlbSync i true
          pc := Function.update s.pc h (.ack r n e (i+1)) },[.ack h i])
      else some (s.setPc h (.ack r n e (i+1)),[])
  | .ipiClear ex => some ({ s with
      msip := Function.update s.msip h false
      pc := Function.update s.pc h (.ipiXchg ex) },[])
  | .ipiXchg ex => some ({ s with
      ipiType := Function.update s.ipiType h .none
      pc := Function.update s.pc h (.ipiLoop ex (s.ipiType h)) },[])
  | .ipiLoop ex w =>
      if w.smode then some (s.setPc h (.ipiLoop ex { w with smode := false }),[])
      else if w.halt then
        if s.hsm h=.started then some ({ s with
          hsm := Function.update s.hsm h .stopPending
          pc := Function.update s.pc h (.ipiClear true) },[])
        else some (s.setPc h (.ipiLoop ex { w with halt := false }),[])
      else if w.tlb then some (s.setPc h (.dequeue (.ipi ex { w with tlb := false }) 0),[])
      else some (s.setPc h (if ex then .hsmExit else .smode),[])
  | .hsmExit =>
      if s.hsm h=.stopPending then some ({ s with
        hsm := Function.update s.hsm h .stopped
        pc := Function.update s.pc h .hartWait },[])
      else some (s.setPc h .hang,[])
  | .hartWait =>
      if s.hsm h=.startPending then some (s.setPc h .ipiInitWord,[]) else some (s,[])
  | .ipiInitWord => some ({ s with
      ipiType := Function.update s.ipiType h .none
      pc := Function.update s.pc h .ipiInitClear },[])
  | .ipiInitClear => some ({ s with
      msip := Function.update s.msip h false
      pc := Function.update s.pc h .tlbInitSync },[])
  | .tlbInitSync => some ({ s with
      tlbSync := Function.update s.tlbSync h false
      pc := Function.update s.pc h .tlbInitFifo },[])
  | .tlbInitFifo => some ({ s with
      tlbFifo := Function.update s.tlbFifo h
        (sbiFifoInit zeroTlbInfo c.tlbFifoEntries c.tlbFifoEntries_pos)
      pc := Function.update s.pc h .prepareJump },[])
  | .prepareJump =>
      if s.hsm h=.startPending then some ({ s with
        hsm := Function.update s.hsm h .started
        pc := Function.update s.pc h .smode },[])
      else some (s.setPc h .hang,[])
  | .startKick t => some ({ s with
      msip := Function.update s.msip t true
      pc := Function.update s.pc h .smode },[])
  | .hang => none

/-- What a hart in S-mode does. -/
def smodeStep (c : Harts x) (s : IpiState x) (h : Nat) :
    Action x → Option (IpiState x × List (IpiTrace x))
  | .run => none
  | .trap => if s.msip h then some (s.setPc h (.ipiClear false),[]) else none
  | .tlbRequest hmask hbase data =>
      some (s.setPc h (maskEntry c (sendMany .tlb (tlbInfoInit h data) hmask hbase)),[])
  | .sendSmode hmask hbase =>
      some (s.setPc h (maskEntry c (sendMany .smode zeroTlbInfo hmask hbase)),[])
  | .sendHalt hmask hbase =>
      if hbase=Word.max then none
      else some (s.setPc h
        (maskEntry c (sendMany .halt zeroTlbInfo (othersMask h hmask hbase) hbase)),[])
  | .hartStop =>
      if s.hsm h=.started then some ({ s with
        hsm := Function.update s.hsm h .stopPending
        pc := Function.update s.pc h (.ipiClear true) },[])
      else some (s,[])
  | .hartStart t =>
      if c.scratch t && decide (s.hsm t=.stopped) then some ({ s with
        hsm := Function.update s.hsm t .startPending
        pc := Function.update s.pc h (.startKick t) },[])
      else some (s,[])

/-- The firmware on all harts: one hart takes one atomic step. -/
def ipiMachine (c : Harts x) : Machine (IpiState x) (Nat × Action x) (IpiTrace x) where
  step s l :=
    if c.scratch l.1 then
      match s.pc l.1,l.2 with
      | .smode,a => smodeStep c s l.1 a
      | p,.run => runStep c s l.1 p
      | _,_ => none
    else none

/-- After cold boot: every hart runs in S-mode or waits to be started, and all words are clear. -/
structure IpiState.Initial (s : IpiState x) : Prop where
  place : ∀ h,(s.hsm h=.started ∧ s.pc h=.smode) ∨ (s.hsm h=.stopped ∧ s.pc h=.hartWait)
  ipiType : ∀ h,s.ipiType h=.none
  msip : ∀ h,s.msip h=false
  tlbSync : ∀ h,s.tlbSync h=false
  tlbFifo : ∀ h,(s.tlbFifo h).toList=[]

end OpenSBI
