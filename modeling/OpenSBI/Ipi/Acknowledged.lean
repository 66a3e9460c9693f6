import OpenSBI.Ipi.Refinement

namespace OpenSBI

open Framework

variable {x : Xlen} {c : Harts x} {s s' : IpiState x} {t : List (IpiTrace x)}

def AllStarted (c : Harts x) (s : IpiState x) : Prop :=
  ∀ h,c.scratch h=true → s.hsm h=.started

/-- What every run keeps: positions go with hart states, and the books of the protocol balance. -/
structure IpiState.Accounted (c : Harts x) (s : IpiState x) : Prop where
  placed : Placed s
  balanced : (s.queues c).Balanced

theorem IpiState.Initial.waiting (h : s.Initial) (j : Nat) : (s.pc j).waiting=none := by
  rcases h.place j with ⟨-,hpc⟩ | ⟨-,hpc⟩ <;> rw [hpc] <;> rfl

theorem IpiState.Initial.accounted (h : s.Initial) : s.Accounted c where
  placed := h.placed
  balanced := by
    refine ⟨fun a b => ?_,fun a _ => h.tlbSync a⟩
    have hw : (s.queues c).waiting a=none := h.waiting a
    have hq : (s.queues c).queue b=[] := by simp [IpiState.queues,h.tlbFifo b]
    have ht : (s.queues c).taken b=∅ := by
      rcases h.place b with ⟨-,hpc⟩ | ⟨-,hpc⟩ <;> simp [IpiState.queues,hpc,Pc.taken]
    have ha : (s.queues c).acking b=∅ := by
      rcases h.place b with ⟨-,hpc⟩ | ⟨-,hpc⟩ <;> simp [IpiState.queues,hpc,Pc.acking]
    simp [AckQueues.tokens,hw,hq,ht,ha]

theorem IpiState.Initial.phase (h : s.Initial) (a : Nat) :
    (s.queues c).phase a=.idle := by
  have hw : (s.queues c).waiting a=none := h.waiting a
  rw [AckQueues.phase,hw]

/-- A step keeps the account and moves every request along its phases. -/
theorem IpiState.Accounted.step {h : Nat} {ev : List (IpiTrace x)} (hs : s.Accounted c)
    (hstep : IpiStep c s h ev s') (hsc : c.scratch h=true)
    (hreset : s.pc h=.tlbInitFifo → (s.tlbFifo h).toList=[]) :
    s'.Accounted c ∧ ∀ a,(ev.map (IpiTrace.event c)).foldlM (AckQueues.advance a)
      ((s.queues c).phase a)=some ((s'.queues c).phase a) := by
  rcases hstep.refines hsc hs.placed hs.balanced hreset with ⟨hq,hev⟩ | hq
  · exact ⟨⟨hs.placed.step hstep,hq ▸ hs.balanced⟩,fun a => by rw [hq,hev]; rfl⟩
  · exact ⟨⟨hs.placed.step hstep,hs.balanced.step hq⟩,hs.balanced.phases hq⟩

/-- Along runs that re-initialise only empty FIFOs the trace follows the phases. -/
theorem run_accounted {ok : IpiState x → Nat × Action x → IpiState x → Prop}
    {P : IpiState x → Prop} (hP : ∀ s l s' ev,P s → s.Accounted c →
      (ipiMachine c).step s l=some (s',ev) → ok s l s' →
      P s' ∧ (s.pc l.1=.tlbInitFifo → (s.tlbFifo l.1).toList=[]))
    {s0 : IpiState x} (hinit : s0.Initial) (h0 : P s0) (hrun : (ipiMachine c).Run ok s0 t s) :
    P s ∧ s.Accounted c ∧ ∀ a,(t.map (IpiTrace.event c)).foldlM (AckQueues.advance a) .idle=
      some ((s.queues c).phase a) := by
  refine hrun.traceInvariant (P := fun t s => P s ∧ s.Accounted c ∧
    ∀ a,(t.map (IpiTrace.event c)).foldlM (AckQueues.advance a) .idle=
      some ((s.queues c).phase a)) ?_ ⟨h0,hinit.accounted,fun a => by rw [hinit.phase]; rfl⟩
  intro t s l s' ev ⟨hs,hacc,htr⟩ hstep hok
  obtain ⟨hsc,hcase⟩ := ipiMachine_step hstep
  obtain ⟨hs',hreset⟩ := hP s l s' ev hs hacc hstep hok
  obtain ⟨hacc',hph⟩ := hacc.step hcase hsc hreset
  refine ⟨hs',hacc',fun a => ?_⟩
  rw [List.map_append,List.foldlM_append,htr a]
  exact hph a

/-- A hart whose state is started is not re-initialising its FIFO. -/
theorem Placed.not_reset (h : Placed s) {j : Nat} (hst : s.hsm j=.started) :
    s.pc j≠.tlbInitFifo := by
  intro hpc
  have hok := h j
  rw [hpc,hst] at hok
  cases hok

theorem run_allStarted {s0 : IpiState x} (hinit : s0.Initial) (hall : AllStarted c s0)
    (hrun : (ipiMachine c).Run (fun _ _ s' => AllStarted c s') s0 t s) :
    AllStarted c s ∧ s.Accounted c ∧
      ∀ a,(t.map (IpiTrace.event c)).foldlM (AckQueues.advance a) .idle=
        some ((s.queues c).phase a) := by
  refine run_accounted (P := AllStarted c) ?_ hinit hall hrun
  intro s l s' ev hs hacc hstep hok
  exact ⟨hok,fun hpc => absurd hpc (hacc.placed.not_reset (hs l.1 (ipiMachine_step hstep).1))⟩

/-- Requests of `a` that entered a FIFO, acknowledgements for `a`, and returns of `a`. -/
def requests (a : Nat) (t : List (IpiTrace x)) : Nat :=
  t.countP (fun | .enter a' _ => decide (a'=a) | _ => false)

def acknowledgements (a : Nat) (t : List (IpiTrace x)) : Nat :=
  t.countP (fun | .ack _ a' => decide (a'=a) | _ => false)

def returns (a : Nat) (t : List (IpiTrace x)) : Nat :=
  t.countP (fun | .ret a' _ => decide (a'=a) | _ => false)

/-- Nothing in the trace concerns a request of `a`: none entered, acknowledged or returned. -/
def NothingOf (a : Nat) (t : List (IpiTrace x)) : Prop :=
  ∀ b,.enter a b∉t ∧ .ack b a∉t ∧ .ret a b∉t

private theorem counts_map (a : Nat) (t : List (IpiTrace x)) :
    AckQueues.enters a (t.map (IpiTrace.event c))=requests a t ∧
    AckQueues.acks a (t.map (IpiTrace.event c))=acknowledgements a t ∧
    AckQueues.rets a (t.map (IpiTrace.event c))=returns a t := by
  refine ⟨?_,?_,?_⟩ <;>
    simp only [AckQueues.enters,AckQueues.acks,AckQueues.rets,requests,acknowledgements,returns,
      List.countP_map] <;>
    refine List.countP_congr fun e _ => ?_ <;> cases e <;> simp [IpiTrace.event]

private theorem nothingOf_of_quiet {a : Nat} {t : List (IpiTrace x)}
    (h : AckQueues.Quiet a (t.map (IpiTrace.event c))) : NothingOf a t := by
  intro b
  have hq : ∀ e∈t,∀ p,AckQueues.advance a p (e.event c)=some p :=
    fun e he => h _ (List.mem_map_of_mem he)
  refine ⟨fun he => ?_,fun he => ?_,fun he => ?_⟩
  · have := hq _ he (.acked b)
    simp [IpiTrace.event,AckQueues.advance] at this
  · have := hq _ he .idle
    simp [IpiTrace.event,AckQueues.advance] at this
  · have := hq _ he .idle
    simp [IpiTrace.event,AckQueues.advance] at this

private theorem event_enter {e : IpiTrace x} {a b : Nat} (h : e.event c=.enter a b) :
    e=.enter a b := by
  cases e <;> simp [IpiTrace.event] at h ⊢
  exact h

private theorem event_ack {e : IpiTrace x} {a b : Nat} (h : e.event c=.ack b a) :
    e=.ack b a := by
  cases e <;> simp [IpiTrace.event] at h ⊢
  exact h

private theorem event_exec {e : IpiTrace x} {b : Nat} {m : Finset Nat}
    (h : e.event c=.exec b m) : ∃ i,e=.exec b i ∧ m=sourceHarts c i.smask := by
  cases e <;> simp [IpiTrace.event] at h ⊢
  exact ⟨h.1,h.2.symm⟩

/-- What precedes a return, pulled back from the protocol to the firmware. -/
private theorem since_acked {a b : Nat} {t : List (IpiTrace x)}
    (h : AckQueues.Since a (.acked b) (t.map (IpiTrace.event c))) :
    ∃ u v w z e,t=u++.enter a b::(v++.exec b e::(w++.ack b a::z)) ∧
      sbiHartmaskTestHart a e.smask=true ∧ NothingOf a v ∧ NothingOf a w ∧ NothingOf a z := by
  generalize ht : t.map (IpiTrace.event c)=t' at h
  cases h with
  | acked _ u v w z m ha hv hw hz =>
    obtain ⟨u',r1,rfl,rfl,hr1⟩ := List.map_eq_append_iff.mp ht
    obtain ⟨e1,r2,rfl,he1,hr2⟩ := List.map_eq_cons_iff.mp hr1
    obtain ⟨v',r3,rfl,rfl,hr3⟩ := List.map_eq_append_iff.mp hr2
    obtain ⟨e2,r4,rfl,he2,hr4⟩ := List.map_eq_cons_iff.mp hr3
    obtain ⟨w',r5,rfl,rfl,hr5⟩ := List.map_eq_append_iff.mp hr4
    obtain ⟨e3,z',rfl,he3,rfl⟩ := List.map_eq_cons_iff.mp hr5
    obtain rfl := event_enter he1
    obtain rfl := event_ack he3
    obtain ⟨i,rfl,rfl⟩ := event_exec he2
    exact ⟨u',v',w',z',i,rfl,(mem_sourceHarts.mp ha).1,nothingOf_of_quiet hv,
      nothingOf_of_quiet hw,nothingOf_of_quiet hz⟩

/-- On harts that all stay started: when `tlb_sync()` of hart `a` for its request to hart `b`
returns, `b` has run, after the request entered its FIFO, the `local_fn` of an entry with `a` in
its mask, and has then acknowledged `a` once; and over the whole run each request obtains one
acknowledgement, which it alone consumes. -/
theorem tlbRequest_acknowledged (c : Harts x) {s0 s : IpiState x} {t : List (IpiTrace x)}
    (hinit : s0.Initial) (hall : AllStarted c s0)
    (hrun : (ipiMachine c).Run (fun _ _ s' => AllStarted c s') s0 t s) (a : Nat) :
    (∀ b t1 t2,t=t1++.ret a b::t2 →
      ∃ u v w z e,t1=u++.enter a b::(v++.exec b e::(w++.ack b a::z)) ∧
        sbiHartmaskTestHart a e.smask=true ∧ NothingOf a v ∧ NothingOf a w ∧ NothingOf a z) ∧
    returns a t≤acknowledgements a t ∧ acknowledgements a t≤requests a t ∧
    requests a t≤returns a t+1 ∧
    ((s.pc a).waiting=none → requests a t=acknowledgements a t ∧
      acknowledgements a t=returns a t) := by
  obtain ⟨-,-,htr⟩ := run_allStarted hinit hall hrun
  obtain ⟨h1,h2⟩ := AckQueues.counts_of_foldlM (htr a)
  obtain ⟨he,hk,hr⟩ := counts_map (c := c) a t
  rw [he,hk] at h1
  rw [hk,hr] at h2
  refine ⟨?_,by omega,by omega,?_,?_⟩
  · rintro b t1 t2 rfl
    have hfold := htr a
    rw [List.map_append,List.map_cons] at hfold
    exact since_acked (AckQueues.ret_preceded hfold)
  · have hone := ((s.queues c).phase a).unacked_add_unreturned_le
    omega
  · intro hw
    have hidle : (s.queues c).phase a=.idle := by
      have hwq : (s.queues c).waiting a=none := hw
      rw [AckQueues.phase,hwq]
    rw [hidle] at h1 h2
    exact ⟨h1,h2⟩

/-! ## Two harts -/

/-- The harts `0` to `n-1` in one domain, with room for one entry in each FIFO. -/
def oneDomain (n : Nat) (hn : n≤SBI_HARTMASK_MAX_BITS) : Harts .rv32 where
  lastHartid := n-1
  scratch h := decide (h<n)
  scratch_lt := by
    intro h hh
    exact Nat.lt_of_lt_of_le (of_decide_eq_true hh) hn
  assigned _ _ := true
  tlbRangeFlushLimit := 0
  tlbFifoEntries := 1
  tlbFifoEntries_pos := by decide

def twoHarts : Harts .rv32 := oneDomain 2 (by decide)

def bootedState : IpiState .rv32 where
  hsm _ := .started
  ipiType _ := .none
  msip _ := false
  tlbSync _ := false
  tlbFifo _ := sbiFifoInit zeroTlbInfo 1 (by decide)
  pc _ := .smode

theorem bootedState_initial : bootedState.Initial :=
  ⟨fun _ => .inl ⟨rfl,rfl⟩,fun _ => rfl,fun _ => rfl,fun _ => rfl,fun _ => rfl⟩

theorem forall_twoHarts {P : Nat → Prop} (h0 : P 0) (h1 : P 1) :
    ∀ h,twoHarts.scratch h=true → P h := by
  intro h hsc
  have hlt : h<2 := of_decide_eq_true hsc
  match h,hlt with
  | 0,_ => exact h0
  | 1,_ => exact h1

def startedStep (_ : IpiState .rv32) (_ : Nat × Action .rv32) (s' : IpiState .rv32) : Bool :=
  decide (s'.hsm 0=.started) && decide (s'.hsm 1=.started)

theorem allStarted_of_startedStep {s s' : IpiState .rv32} {l : Nat × Action .rv32}
    (h : startedStep s l s'=true) : AllStarted twoHarts s' := by
  simp only [startedStep,Bool.and_eq_true,decide_eq_true_iff] at h
  exact forall_twoHarts h.1 h.2

/-- Hart 0 requests a fence of hart 1 and comes to wait for it. -/
def requestFence : List (Nat × Action .rv32) :=
  (0,.tlbRequest 2 0 zeroTlbInfo)::List.replicate 9 (0,.run)

/-- Hart 1 takes the interrupt, executes the fence and acknowledges it. -/
def answerFence : List (Nat × Action .rv32) := (1,.trap)::List.replicate 6 (1,.run)

theorem twoHarts_acknowledged : ∃ s t,
    (ipiMachine twoHarts).Run (fun _ _ s' => AllStarted twoHarts s') bootedState t s ∧
    returns 0 t=1 ∧ returns 0 t≤acknowledgements 0 t ∧ acknowledgements 0 t≤requests 0 t := by
  have hreplay : ((ipiMachine twoHarts).replay startedStep bootedState
      (requestFence++answerFence++[(0,.run)])).any (fun r => decide (returns 0 r.2=1))=true := by
    decide +kernel
  obtain ⟨s,t,hrun,hret⟩ := Machine.exists_run (p := fun _ t => decide (returns 0 t=1)) hreplay
  have hall : (ipiMachine twoHarts).Run (fun _ _ s' => AllStarted twoHarts s') bootedState t s :=
    hrun.mono fun _ _ _ => allStarted_of_startedStep
  have h := tlbRequest_acknowledged twoHarts bootedState_initial (fun _ _ => rfl) hall 0
  exact ⟨s,t,hall,of_decide_eq_true hret,h.2.1,h.2.2.1⟩

end OpenSBI
