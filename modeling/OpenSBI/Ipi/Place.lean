import OpenSBI.Ipi.Step

namespace OpenSBI

open Framework

variable {x : Xlen}

namespace Sending

/-- A fence request of hart `h` carries `h` alone in its source mask. -/
def Sourced (k : Sending x) (h : Nat) : Prop :=
  k.event=.tlb → k.data.smask=sbiHartmaskInitExcept h

/-- The targets left to a halt request do not include hart `h`. -/
def Away (k : Sending x) (h : Nat) : Prop :=
  k.event=.halt → k.all=false ∧ ∀ j,k.m.getLsbD j=true → k.target+j≠h

/-- A call in its send loop. -/
structure Going (k : Sending x) (h : Nat) : Prop where
  sourced : k.Sourced h
  away : k.Away h

/-- A fence request at one of its targets. -/
structure Fencing (k : Sending x) (h : Nat) : Prop where
  event : k.event=.tlb
  sourced : k.Sourced h

/-- A fence request at a target other than the calling hart. -/
structure Remote (k : Sending x) (h : Nat) : Prop extends Fencing k h where
  away : k.target≠h

theorem Going.next {k : Sending x} {h : Nat} (hk : k.Going h) : k.next.Going h where
  sourced := hk.sourced
  away := by
    intro he
    obtain ⟨hall,hm⟩ := hk.away he
    refine ⟨hall,fun j hj => ?_⟩
    have hbit : k.m.getLsbD (1+j)=true := by
      simpa [Sending.next,BitVec.getLsbD_ushiftRight] using hj
    have := hm (1+j) hbit
    simp only [Sending.target,Sending.next] at this ⊢
    omega

theorem Going.withData {k : Sending x} {h : Nat} (hk : k.Going h) {d : TlbInfo x}
    (hd : k.event=.tlb → d.smask=sbiHartmaskInitExcept h) : Going { k with data := d } h :=
  ⟨hd,hk.away⟩

theorem Fencing.withData {k : Sending x} {h : Nat} (hk : k.Fencing h) (limit : Word x) :
    Fencing { k with data := tlbLimitRange limit k.data } h where
  event := hk.event
  sourced he := (limitRange_smask limit k.data).trans (hk.sourced he)

theorem Fencing.going {k : Sending x} {h : Nat} (hk : k.Fencing h) : k.Going h where
  sourced := hk.sourced
  away he := absurd (hk.event.symm.trans he) (by decide)

end Sending

/-- The state in which `sbi_ipi_process()` runs: from a trap, or from `sbi_ipi_exit()`. -/
def ipiHsm (exiting : Bool) : HsmState := if exiting then .stopPending else .started

def Caller.Ok (r : Caller x) (h : Nat) (st : HsmState) : Prop :=
  match r with
  | .full k => st=.started ∧ k.Remote h
  | .wait k => st=.started ∧ k.Remote h
  | .ipi ex _ => st=ipiHsm ex

/-- The program positions of hart `h` that go with each hart state. -/
def Pc.Ok (h : Nat) (st : HsmState) : Pc x → Prop
  | .smode => st=.started
  | .mask k => st=.started ∧ k.Sourced h ∧ (k.event=.halt → k.all=false ∧
      ∀ j,j<x.bits → k.base+j=h → k.hmask.getLsbD j=false)
  | .send k => st=.started ∧ k.Going h
  | .update k => st=.started ∧ k.Fencing h
  | .enqueue k => st=.started ∧ k.Remote h
  | .setBit k => st=.started ∧ k.Going h ∧ (k.event≠.smode → k.target≠h)
  | .raise k => st=.started ∧ k.Going h ∧ (k.event≠.smode → k.target≠h)
  | .sync k => st=.started ∧ k.Remote h
  | .dequeue r _ => r.Ok h st
  | .localFn r _ _ => r.Ok h st
  | .ack r _ _ _ => r.Ok h st
  | .ipiClear ex => st=ipiHsm ex
  | .ipiXchg ex => st=ipiHsm ex
  | .ipiLoop ex _ => st=ipiHsm ex
  | .hsmExit => st=.stopPending
  | .hartWait => st=.stopped ∨ st=.startPending
  | .ipiInitWord => st=.startPending
  | .ipiInitClear => st=.startPending
  | .tlbInitSync => st=.startPending
  | .tlbInitFifo => st=.startPending
  | .prepareJump => st=.startPending
  | .startKick _ => st=.started
  | .hang => False

/-- Every hart is at a position that goes with its state; none hangs. -/
def Placed (s : IpiState x) : Prop := ∀ h,(s.pc h).Ok h (s.hsm h)

theorem Pc.Ok.stopped {h : Nat} {p : Pc x} (hp : p.Ok h .stopped) : p=.hartWait := by
  cases p <;> simp_all [Pc.Ok,ipiHsm]
  case dequeue r _ => cases r <;> simp_all [Caller.Ok,ipiHsm]; split_ifs at hp
  case localFn r _ _ => cases r <;> simp_all [Caller.Ok,ipiHsm]; split_ifs at hp
  case ack r _ _ _ => cases r <;> simp_all [Caller.Ok,ipiHsm]; split_ifs at hp
  all_goals split_ifs at hp

theorem Caller.Ok.resume {r : Caller x} {h : Nat} {st : HsmState} (hr : r.Ok h st) :
    r.resume.Ok h st := by
  cases r <;> exact hr

theorem Caller.Ok.processed {r : Caller x} {h n : Nat} {st : HsmState} (hr : r.Ok h st) :
    (r.processed n).Ok h st := by
  cases r with
  | ipi ex w => exact hr
  | full k => unfold Caller.processed; simp only; split_ifs; exacts [hr.resume,hr]
  | wait k => unfold Caller.processed; simp only; split_ifs; exacts [hr.resume,hr]

theorem maskEntry_ok {c : Harts x} {k : Sending x} {h : Nat} (hs : k.Sourced h)
    (hh : k.event=.halt → k.all=false ∧ ∀ j,j<x.bits → k.base+j=h → k.hmask.getLsbD j=false) :
    (maskEntry c k).Ok h .started := by
  unfold maskEntry
  split_ifs
  · exact rfl
  · exact ⟨rfl,hs,hh⟩

private theorem placed_self {c : Harts x} {s s' : IpiState x} {h : Nat} {ev : List (IpiTrace x)}
    (hs : IpiStep c s h ev s') (hp : (s.pc h).Ok h (s.hsm h)) : (s'.pc h).Ok h (s'.hsm h) := by
  cases hs with
  | refused hpc => exact hp
  | ackSpin r n e i hpc hi ht hsc hf => exact hp
  | hartWait hpc => exact hp
  | call k hpc hk =>
    rw [hpc] at hp
    simp only [IpiState.setPc,Function.update_self]
    rw [show s.hsm h=.started from hp]
    exact maskEntry_ok hk.smask hk.halt
  | hartStart t hpc ht hst =>
    rw [hpc] at hp
    have hne : h≠t := by rintro rfl; exact absurd (hp.symm.trans hst) (by decide)
    simpa [Pc.Ok,Function.update_of_ne hne] using hp
  | maskRead k m hpc hlt =>
    rw [hpc] at hp
    simp only [IpiState.setPc,Function.update_self]
    exact hp
  | maskDone k m hpc hge hm =>
    rw [hpc] at hp
    obtain ⟨hst,hsrc,hh⟩ := hp
    simp only [IpiState.setPc,Function.update_self]
    refine ⟨hst,hsrc,fun he => ?_⟩
    obtain ⟨hall,hbits⟩ := hh he
    refine ⟨hall,fun j hj htgt => ?_⟩
    have hjx := BitVec.lt_of_getLsbD hj
    rw [hm,hall] at hj
    have hmask : k.hmask.getLsbD j=true := by
      simp only [Bool.false_eq_true,if_false,BitVec.getLsbD_and,Bool.and_eq_true] at hj
      exact hj.2
    rw [hbits j hjx htgt] at hmask
    exact absurd hmask (by decide)
  | sendWindow k hpc hm hall =>
    rw [hpc] at hp
    obtain ⟨hst,hsrc,haway⟩ := hp
    simp only [IpiState.setPc,Function.update_self]
    rw [hst]
    refine maskEntry_ok hsrc fun he => ?_
    have := (haway he).1
    simp [hall] at this
  | sendTlb k hpc hm ht he =>
    rw [hpc] at hp
    simp only [IpiState.setPc,Function.update_self]
    exact ⟨hp.1,he,hp.2.sourced⟩
  | sendEvent k hpc hm ht he =>
    rw [hpc] at hp
    simp only [IpiState.setPc,Function.update_self]
    refine ⟨hp.1,hp.2,fun hsm => ?_⟩
    have hh : k.event=.halt := by
      cases hk : k.event
      · exact absurd hk hsm
      · rfl
      · exact absurd hk he
    exact (hp.2.away hh).2 0 hm
  | sendSkip k hpc hm =>
    rw [hpc] at hp
    simp only [IpiState.setPc,Function.update_self]
    exact ⟨hp.1,hp.2.next⟩
  | updateSelf k d hpc ht hd =>
    rw [hpc] at hp
    simp only [IpiState.setPc,Function.update_self]
    subst hd
    exact ⟨hp.1,(hp.2.withData c.tlbRangeFlushLimit).going.next⟩
  | updateNone k d hpc ht hd =>
    rw [hpc] at hp
    simp only [IpiState.setPc,Function.update_self]
    subst hd
    exact ⟨hp.1,hp.2.withData c.tlbRangeFlushLimit,ht⟩
  | merge k d hpc ht hd =>
    rw [hpc] at hp
    simp only [Function.update_self]
    subst hd
    have hf := hp.2.withData c.tlbRangeFlushLimit
    exact ⟨hp.1,hf.going,fun _ => ht⟩
  | enqueue k hpc f hf =>
    rw [hpc] at hp
    simp only [Function.update_self]
    exact ⟨hp.1,hp.2.going,fun _ => hp.2.away⟩
  | setBit k hpc =>
    rw [hpc] at hp
    simp only [Function.update_self]
    exact hp
  | raise k hpc =>
    rw [hpc] at hp
    simp only [Function.update_self]
    split_ifs with he
    · exact ⟨hp.1,⟨he,hp.2.1.sourced⟩,hp.2.2 (by rw [he]; decide)⟩
    · exact ⟨hp.1,hp.2.1.next⟩
  | ret k hpc hf =>
    rw [hpc] at hp
    simp only [Function.update_self]
    exact ⟨hp.1,hp.2.going.next⟩
  | dequeueEmpty r n hpc hf =>
    rw [hpc] at hp
    simp only [IpiState.setPc,Function.update_self]
    exact Caller.Ok.resume hp
  | ackDone r n e i hpc hi =>
    rw [hpc] at hp
    simp only [IpiState.setPc,Function.update_self]
    exact Caller.Ok.processed hp
  | ipiDone ex w hpc hsm hh hw =>
    rw [hpc] at hp
    simp only [IpiState.setPc,Function.update_self]
    cases ex <;> exact hp
  | hsmExitHang hpc hst => rw [hpc] at hp; exact absurd hp hst
  | prepareJumpHang hpc hst => rw [hpc] at hp; exact absurd hp hst
  | hartWaitDone hpc hst => simpa [IpiState.setPc,Pc.Ok] using hst
  | _ => simp_all [IpiState.setPc,Pc.Ok,Caller.Ok,ipiHsm]

/-- A step moves only the hart itself, and another hart from stopped to start-pending. -/
theorem step_other {c : Harts x} {s s' : IpiState x} {h j : Nat} {ev : List (IpiTrace x)}
    (hs : IpiStep c s h ev s') (hj : j≠h) :
    s'.pc j=s.pc j ∧ (s'.hsm j=s.hsm j ∨ s.hsm j=.stopped ∧ s'.hsm j=.startPending) := by
  cases hs with
  | hartStart t hpc ht hst =>
    refine ⟨Function.update_of_ne hj _ _,?_⟩
    by_cases hjt : j=t
    · subst hjt; exact .inr ⟨hst,Function.update_self _ _ _⟩
    · exact .inl (Function.update_of_ne hjt _ _)
  | _ => simp [IpiState.setPc,Function.update_of_ne hj]

/-- The positions stay in step with the hart states. -/
theorem Placed.step {c : Harts x} {s s' : IpiState x} {h : Nat} {ev : List (IpiTrace x)}
    (hp : Placed s) (hs : IpiStep c s h ev s') : Placed s' := by
  intro j
  by_cases hj : j=h
  · subst hj; exact placed_self hs (hp j)
  · obtain ⟨hpc,hst⟩ := step_other hs hj
    rw [hpc]
    rcases hst with hst | ⟨hst,hst'⟩
    · rw [hst]; exact hp j
    · have hok := hp j
      rw [hst] at hok
      rw [hok.stopped,hst']
      exact .inr rfl

theorem IpiState.Initial.placed {s : IpiState x} (h : s.Initial) : Placed s := by
  intro j
  rcases h.place j with ⟨hst,hpc⟩ | ⟨hst,hpc⟩
  · rw [hst,hpc]; exact rfl
  · rw [hst,hpc]; exact .inl rfl

end OpenSBI
