import OpenSBI.Framework.AckQueue
import OpenSBI.Ipi.Place

namespace OpenSBI

open Framework

variable {x : Xlen}

/-- The harts an entry acknowledges: those of its mask that have a scratch space. -/
def sourceHarts (c : Harts x) (m : Hartmask) : Finset Nat :=
  (Finset.range SBI_HARTMASK_MAX_BITS).filter (fun i => sbiHartmaskTestHart i m && c.scratch i)

theorem mem_sourceHarts {c : Harts x} {m : Hartmask} {i : Nat} :
    i∈sourceHarts c m ↔ sbiHartmaskTestHart i m=true ∧ c.scratch i=true := by
  simp only [sourceHarts,Finset.mem_filter,Finset.mem_range,Bool.and_eq_true]
  exact ⟨fun h => h.2,fun h => ⟨testHart_lt h.1,h⟩⟩

theorem sourceHarts_initExcept {c : Harts x} {h : Nat} (hsc : c.scratch h=true) :
    sourceHarts c (sbiHartmaskInitExcept h)={h} := by
  ext i
  simp only [mem_sourceHarts,testHart_initExcept,Bool.and_eq_true,decide_eq_true_iff,
    Finset.mem_singleton]
  constructor
  · exact fun hi => hi.1.2
  · rintro rfl
    exact ⟨⟨c.scratch_lt i hsc,rfl⟩,hsc⟩

theorem sourceHarts_join {c : Harts x} {h : Nat} (hsc : c.scratch h=true) (m : Hartmask) :
    sourceHarts c (sbiHartmaskOr m (sbiHartmaskInitExcept h))=insert h (sourceHarts c m) := by
  ext i
  have hone := sourceHarts_initExcept hsc
  have hi := congrArg (fun t => i∈t) hone
  simp only [mem_sourceHarts,Finset.mem_singleton,eq_iff_iff] at hi
  simp only [mem_sourceHarts,testHart_or,Bool.or_eq_true,Finset.mem_insert]
  tauto

/-- The hart whose acknowledgement is waited for at a program position. -/
def Caller.waiting : Caller x → Option Nat
  | .wait k => some k.target
  | _ => none

def Pc.waiting : Pc x → Option Nat
  | .setBit k => if k.event=.tlb then some k.target else none
  | .raise k => if k.event=.tlb then some k.target else none
  | .sync k => some k.target
  | .dequeue r _ => r.waiting
  | .localFn r _ _ => r.waiting
  | .ack r _ _ _ => r.waiting
  | _ => none

/-- The harts of the entry a hart has copied out, before its `local_fn` has run. -/
def Pc.taken (c : Harts x) : Pc x → Finset Nat
  | .localFn _ _ e => sourceHarts c e.smask
  | _ => ∅

/-- The harts of the entry a hart has executed that are still to be acknowledged. -/
def Pc.acking (c : Harts x) : Pc x → Finset Nat
  | .ack _ _ e i => (sourceHarts c e.smask).filter (i≤·)
  | _ => ∅

/-- The queues, flags and waits of the protocol in a state of the firmware. -/
def IpiState.queues (c : Harts x) (s : IpiState x) : AckQueues Nat where
  queue h := (s.tlbFifo h).toList.map (fun e => sourceHarts c e.smask)
  taken h := (s.pc h).taken c
  acking h := (s.pc h).acking c
  flag := s.tlbSync
  waiting h := (s.pc h).waiting

def IpiTrace.event (c : Harts x) : IpiTrace x → AckEvent Nat
  | .enter a b => .enter a b
  | .exec b e => .exec b (sourceHarts c e.smask)
  | .ack b a => .ack b a
  | .ret a b => .ret a b

private theorem apply_update {γ : Type} (f : Pc x → γ) (pc : Nat → Pc x) (h : Nat) (p : Pc x) :
    (fun j => f (Function.update pc h p j))=Function.update (fun j => f (pc j)) h (f p) := by
  funext j
  by_cases hj : j=h
  · subst hj; simp
  · simp [Function.update_of_ne hj]

variable {c : Harts x} {s s' : IpiState x} {h : Nat} {p : Pc x} {ev : List (IpiTrace x)}

/-- Moving a program counter changes the wait and the held entry of that hart. -/
theorem queues_of_pc (hfifo : s'.tlbFifo=s.tlbFifo) (hpc : s'.pc=Function.update s.pc h p) :
    s'.queues c={ s.queues c with
      taken := Function.update (s.queues c).taken h (p.taken c)
      acking := Function.update (s.queues c).acking h (p.acking c)
      flag := s'.tlbSync
      waiting := Function.update (s.queues c).waiting h p.waiting } := by
  simp only [IpiState.queues,hfifo,hpc]
  rw [apply_update (Pc.taken c),apply_update (Pc.acking c),apply_update Pc.waiting]

theorem queues_of_fifo {t : Nat} {f : SbiFifo (TlbInfo x)}
    (hfifo : s'.tlbFifo=Function.update s.tlbFifo t f) (hpc : s'.pc=Function.update s.pc h p) :
    s'.queues c={ s.queues c with
      queue := Function.update (s.queues c).queue t
        (f.toList.map (fun e => sourceHarts c e.smask))
      taken := Function.update (s.queues c).taken h (p.taken c)
      acking := Function.update (s.queues c).acking h (p.acking c)
      flag := s'.tlbSync
      waiting := Function.update (s.queues c).waiting h p.waiting } := by
  simp only [IpiState.queues,hfifo,hpc]
  rw [apply_update (Pc.taken c),apply_update (Pc.acking c),apply_update Pc.waiting]
  congr 1
  funext j
  by_cases hj : j=t
  · subst hj; simp
  · simp [Function.update_of_ne hj]

/-- Steps the protocol does not see. -/
theorem queues_tau {p0 : Pc x} (hp0 : s.pc h=p0) (hfifo : s'.tlbFifo=s.tlbFifo)
    (hflag : s'.tlbSync=s.tlbSync) (hpc : s'.pc=Function.update s.pc h p)
    (hw : p.waiting=p0.waiting) (ht : p.taken c=p0.taken c) (ha : p.acking c=p0.acking c) :
    s'.queues c=s.queues c := by
  subst hp0
  have hw' : Function.update (s.queues c).waiting h p.waiting=(s.queues c).waiting :=
    Function.update_eq_self_iff.mpr hw
  have ht' : Function.update (s.queues c).taken h (p.taken c)=(s.queues c).taken :=
    Function.update_eq_self_iff.mpr ht
  have ha' : Function.update (s.queues c).acking h (p.acking c)=(s.queues c).acking :=
    Function.update_eq_self_iff.mpr ha
  rw [queues_of_pc hfifo hpc,hflag,hw',ht',ha']
  rfl

@[simp] theorem Caller.resume_waiting (r : Caller x) : r.resume.waiting=r.waiting := by
  cases r <;> rfl

@[simp] theorem Caller.resume_taken (r : Caller x) : r.resume.taken c=∅ := by cases r <;> rfl

@[simp] theorem Caller.resume_acking (r : Caller x) : r.resume.acking c=∅ := by cases r <;> rfl

@[simp] theorem Caller.processed_waiting (r : Caller x) (n : Nat) :
    (r.processed n).waiting=r.waiting := by
  cases r <;> simp only [Caller.processed] <;> (try split_ifs) <;> rfl

@[simp] theorem Caller.processed_taken (r : Caller x) (n : Nat) : (r.processed n).taken c=∅ := by
  cases r <;> simp only [Caller.processed] <;> (try split_ifs) <;> rfl

@[simp] theorem Caller.processed_acking (r : Caller x) (n : Nat) :
    (r.processed n).acking c=∅ := by
  cases r <;> simp only [Caller.processed] <;> (try split_ifs) <;> rfl

@[simp] theorem maskEntry_waiting (k : Sending x) : (maskEntry c k).waiting=none := by
  unfold maskEntry
  split_ifs <;> rfl

@[simp] theorem maskEntry_taken (k : Sending x) : (maskEntry c k).taken c=∅ := by
  unfold maskEntry
  split_ifs <;> rfl

@[simp] theorem maskEntry_acking (k : Sending x) : (maskEntry c k).acking c=∅ := by
  unfold maskEntry
  split_ifs <;> rfl

private theorem step_of_eq {q q' : AckQueues Nat} {t : List (AckEvent Nat)}
    (hq : AckQueues.Step q t q') (he : s'.queues c=q') : AckQueues.Step q t (s'.queues c) :=
  he ▸ hq

/-- A request enters a FIFO. -/
private theorem refines_enter {k : Sending x} {f : SbiFifo (TlbInfo x)} {p0 : Pc x}
    (hp0 : s.pc h=p0) (hk : k.Fencing h) (hw : p0.waiting=none) (ht : p0.taken c=∅)
    (ha : p0.acking c=∅) (hsc : c.scratch h=true)
    (hfifo : s'.tlbFifo=Function.update s.tlbFifo k.target f) (hflag : s'.tlbSync=s.tlbSync)
    (hpc : s'.pc=Function.update s.pc h (.setBit k))
    (hq : (∃ pre e post e',(s.tlbFifo k.target).toList=pre++e::post ∧ f.toList=pre++e'::post ∧
        e'.smask=sbiHartmaskOr e.smask k.data.smask) ∨
      f.toList=(s.tlbFifo k.target).toList++[k.data]) :
    AckQueues.Step (s.queues c) [.enter h k.target] (s'.queues c) := by
  subst hp0
  have hsrc := hk.sourced hk.event
  have ht' : Function.update (s.queues c).taken h ∅=(s.queues c).taken :=
    Function.update_eq_self_iff.mpr ht.symm
  have ha' : Function.update (s.queues c).acking h ∅=(s.queues c).acking :=
    Function.update_eq_self_iff.mpr ha.symm
  have hset : (Pc.setBit k).waiting=some k.target := if_pos hk.event
  have hnew := queues_of_fifo (c := c) hfifo hpc
  rw [hset,hflag] at hnew
  simp only [Pc.taken,Pc.acking,ht',ha'] at hnew
  rcases hq with ⟨pre,e,post,e',hold,hnewq,hmask⟩ | hnewq
  · rw [hsrc] at hmask
    simp only [hnewq,List.map_append,List.map_cons,hmask,sourceHarts_join hsc] at hnew
    rw [hnew]
    refine AckQueues.Step.merge h k.target _ _ (sourceHarts c e.smask) hw ?_
    simp only [IpiState.queues,hold,List.map_append,List.map_cons]
  · simp only [hnewq,List.map_append,List.map_cons,List.map_nil,hsrc,
      sourceHarts_initExcept hsc] at hnew
    rw [hnew]
    exact AckQueues.Step.push h k.target hw

/-- A step of the firmware is one of the protocol, or one the protocol does not see, as long as a
FIFO is re-initialised only when it is empty. -/
theorem IpiStep.refines (hs : IpiStep c s h ev s') (hsc : c.scratch h=true) (hp : Placed s)
    (hb : (s.queues c).Balanced) (hreset : s.pc h=.tlbInitFifo → (s.tlbFifo h).toList=[]) :
    (s'.queues c=s.queues c ∧ ev=[]) ∨
      AckQueues.Step (s.queues c) (ev.map (IpiTrace.event c)) (s'.queues c) := by
  have hok := hp h
  cases hs with
  | refused hpc => exact .inl ⟨rfl,rfl⟩
  | ackSpin r n e i hpc hi ht hsc hf => exact .inl ⟨rfl,rfl⟩
  | hartWait hpc => exact .inl ⟨rfl,rfl⟩
  | call k hpc hk =>
    exact .inl ⟨queues_tau hpc rfl rfl rfl (maskEntry_waiting k) (maskEntry_taken k)
      (maskEntry_acking k),rfl⟩
  | sendWindow k hpc hm hall =>
    exact .inl ⟨queues_tau hpc rfl rfl rfl (maskEntry_waiting _) (maskEntry_taken _)
      (maskEntry_acking _),rfl⟩
  | sendEvent k hpc hm ht he =>
    exact .inl ⟨queues_tau hpc rfl rfl rfl (if_neg he) rfl rfl,rfl⟩
  | merge k d hpc ht hd f pre post e e' hf hf' he =>
    rw [hpc] at hok
    subst hd
    exact .inr (refines_enter
      (k := { k with data := tlbLimitRange c.tlbRangeFlushLimit k.data }) hpc
      (hok.2.withData c.tlbRangeFlushLimit) rfl rfl rfl hsc rfl rfl rfl
      (.inl ⟨pre,e,post,e',hf,hf',he⟩))
  | enqueue k hpc f hf =>
    rw [hpc] at hok
    exact .inr (refines_enter hpc hok.2.toFencing rfl rfl rfl hsc rfl rfl rfl (.inr hf))
  | raise k hpc =>
    refine .inl ⟨queues_tau hpc rfl rfl rfl ?_ ?_ ?_,rfl⟩ <;> split_ifs with he
    · simp [Pc.waiting,he]
    · simp [Pc.waiting,he]
    all_goals rfl
  | ret k hpc hf =>
    have hw : (s.queues c).waiting h=some k.target := by simp [IpiState.queues,hpc,Pc.waiting]
    refine .inr ?_
    have ht' : Function.update (s.queues c).taken h ∅=(s.queues c).taken :=
      Function.update_eq_self_iff.mpr (by simp [IpiState.queues,hpc,Pc.taken])
    have ha' : Function.update (s.queues c).acking h ∅=(s.queues c).acking :=
      Function.update_eq_self_iff.mpr (by simp [IpiState.queues,hpc,Pc.acking])
    refine step_of_eq (AckQueues.Step.ret h k.target hw hf)
      (Eq.trans (queues_of_pc (s := s) rfl rfl) ?_)
    simp only [Pc.taken,Pc.acking,Pc.waiting,ht',ha']
    rfl
  | dequeue r n hpc e f hf =>
    refine .inr ?_
    have hw' : Function.update (s.queues c).waiting h r.waiting=(s.queues c).waiting :=
      Function.update_eq_self_iff.mpr (by simp [IpiState.queues,hpc,Pc.waiting])
    have ha' : Function.update (s.queues c).acking h ∅=(s.queues c).acking :=
      Function.update_eq_self_iff.mpr (by simp [IpiState.queues,hpc,Pc.acking])
    have hstep := AckQueues.Step.take (s := s.queues c) h (sourceHarts c e.smask)
      (f.toList.map (fun e => sourceHarts c e.smask))
      (by simp only [IpiState.queues,hf,List.map_cons]) (by simp [IpiState.queues,hpc,Pc.taken])
    refine step_of_eq hstep (Eq.trans (queues_of_fifo (s := s) rfl rfl) ?_)
    simp only [Pc.taken,Pc.acking,Pc.waiting,hw',ha']
    rfl
  | dequeueEmpty r n hpc hf =>
    exact .inl ⟨queues_tau hpc rfl rfl rfl r.resume_waiting r.resume_taken r.resume_acking,rfl⟩
  | exec r n e hpc =>
    refine .inr ?_
    have hw' : Function.update (s.queues c).waiting h r.waiting=(s.queues c).waiting :=
      Function.update_eq_self_iff.mpr (by simp [IpiState.queues,hpc,Pc.waiting])
    have htaken : (s.queues c).taken h=sourceHarts c e.smask := by
      simp [IpiState.queues,hpc,Pc.taken]
    have hstep := AckQueues.Step.exec (s := s.queues c) h (by simp [IpiState.queues,hpc,Pc.acking])
    rw [htaken] at hstep
    refine step_of_eq hstep (Eq.trans (queues_of_pc (s := s) rfl rfl) ?_)
    simp only [Pc.taken,Pc.acking,Pc.waiting,hw',Nat.zero_le,Finset.filter_true]
    rfl
  | ack r n e i hpc hi ht hsc' hf =>
    refine .inr ?_
    have hw' : Function.update (s.queues c).waiting h r.waiting=(s.queues c).waiting :=
      Function.update_eq_self_iff.mpr (by simp [IpiState.queues,hpc,Pc.waiting])
    have ht' : Function.update (s.queues c).taken h ∅=(s.queues c).taken :=
      Function.update_eq_self_iff.mpr (by simp [IpiState.queues,hpc,Pc.taken])
    have hacking : (s.queues c).acking h=(sourceHarts c e.smask).filter (i≤·) := by
      simp [IpiState.queues,hpc,Pc.acking]
    have hmem : i∈(s.queues c).acking h := by
      rw [hacking,Finset.mem_filter,mem_sourceHarts]
      exact ⟨⟨ht,hsc'⟩,le_refl i⟩
    have hstep := AckQueues.Step.ack h i hmem hf
    have herase : ((s.queues c).acking h).erase i=(sourceHarts c e.smask).filter (i+1≤·) := by
      rw [hacking]
      ext j
      simp only [Finset.mem_erase,Finset.mem_filter]
      constructor
      · rintro ⟨hne,hj,hle⟩; exact ⟨hj,by omega⟩
      · rintro ⟨hj,hle⟩; exact ⟨by omega,hj,by omega⟩
    rw [herase] at hstep
    refine step_of_eq hstep (Eq.trans (queues_of_pc (s := s) rfl rfl) ?_)
    simp only [Pc.taken,Pc.acking,Pc.waiting,hw',ht']
    rfl
  | ackSkip r n e i hpc hi ht =>
    refine .inl ⟨queues_tau hpc rfl rfl rfl rfl rfl ?_,rfl⟩
    simp only [Pc.acking]
    refine Finset.filter_congr fun j hj => ?_
    have hne : j≠i := by rintro rfl; exact ht (mem_sourceHarts.mp hj)
    omega
  | ackDone r n e i hpc hi =>
    refine .inl ⟨queues_tau hpc rfl rfl rfl (r.processed_waiting n) (r.processed_taken n) ?_,rfl⟩
    rw [Caller.processed_acking,Pc.acking,eq_comm,Finset.filter_eq_empty_iff]
    intro j hj
    have := testHart_lt (mem_sourceHarts.mp hj).1
    omega
  | ipiDone ex w hpc hsm hh hw =>
    refine .inl ⟨queues_tau hpc rfl rfl rfl ?_ ?_ ?_,rfl⟩ <;> cases ex <;> rfl
  | tlbInitSync hpc =>
    have hw : (s.queues c).waiting h=none := by simp [IpiState.queues,hpc,Pc.waiting]
    refine .inl ⟨queues_tau hpc rfl ?_ rfl rfl rfl rfl,rfl⟩
    exact Function.update_eq_self_iff.mpr (hb.clear h hw).symm
  | tlbInitFifo hpc f hf =>
    refine .inl ⟨?_,rfl⟩
    have hempty : Function.update (s.queues c).queue h []=(s.queues c).queue :=
      Function.update_eq_self_iff.mpr (by simp [IpiState.queues,hreset hpc])
    have ht' : Function.update (s.queues c).taken h ∅=(s.queues c).taken :=
      Function.update_eq_self_iff.mpr (by simp [IpiState.queues,hpc,Pc.taken])
    have ha' : Function.update (s.queues c).acking h ∅=(s.queues c).acking :=
      Function.update_eq_self_iff.mpr (by simp [IpiState.queues,hpc,Pc.acking])
    have hw' : Function.update (s.queues c).waiting h none=(s.queues c).waiting :=
      Function.update_eq_self_iff.mpr (by simp [IpiState.queues,hpc,Pc.waiting])
    refine Eq.trans (queues_of_fifo (s := s) rfl rfl) ?_
    simp only [hf,List.map_nil,Pc.taken,Pc.acking,Pc.waiting,hempty,ht',ha',hw']
    rfl
  | _ =>
    refine .inl ⟨queues_tau rfl rfl rfl rfl ?_ ?_ ?_,rfl⟩ <;>
      simp [*,Pc.waiting,Pc.taken,Pc.acking,Caller.waiting]

end OpenSBI
