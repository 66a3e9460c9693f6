import OpenSBI.Framework.Fair
import OpenSBI.Riscv.Xlen
import Mathlib.Logic.Function.Basic

namespace OpenSBI

open Framework

variable {x : Xlen}

/-- What `struct sbi_ipi_event_ops` says about an event: whether it has an `update` callback, and
whether its `process` callback stops the hart. -/
structure IpiEventOps where
  hasUpdate : Bool
  halts : Bool
  deriving DecidableEq

/-- Where a sender is in `sbi_ipi_send()` to the receiver. -/
inductive SenderPc where
  | idle
  | update (event : Nat)
  | setBit (event : Nat)
  | raise (event : Nat)
  | sync (event : Nat)
  deriving DecidableEq

/-- Where the receiver is in `sbi_ipi_process()`; `lower` is everywhere else, with the interrupt
enabled. -/
inductive ReceiverPc (x : Xlen) where
  | lower
  | clear
  | xchg
  | loop (ipiType : Word x) (ipiEvent : Nat)
  | stopped
  deriving DecidableEq

/-- One receiver with its event word and software interrupt, and any number of senders. -/
structure EventState (x : Xlen) where
  ipiType : Word x
  msip : Bool
  sender : Nat → SenderPc
  receiver : ReceiverPc x

/-- A sender starts, its `update` callback returns, it goes on, or the receiver does. -/
inductive EventAction where
  | send (k event : Nat)
  | updated (k : Nat) (ret : Int)
  | run (k : Nat)
  | receive
  deriving DecidableEq

/-- Events of the trace: a sender sets the bit of an event, and its `process` callback is called. -/
inductive EventTrace where
  | posted (k event : Nat)
  | processed (event : Nat)
  deriving DecidableEq

namespace EventState

def setSender (s : EventState x) (k : Nat) (p : SenderPc) : EventState x :=
  { s with sender := Function.update s.sender k p }

/-- After `sbi_ipi_init()`. -/
def initial : EventState x := ⟨0,false,fun _ => .idle,.lower⟩

end EventState

/-- The start of `sbi_ipi_send()`; `ops` is `ipi_ops_array`. -/
def sendStep (ops : Nat → Option IpiEventOps) (s : EventState x) (k event : Nat) :
    EventState x :=
  if x.bits≤event then s
  else
    match ops event with
    | none => s
    | some o => s.setSender k (if o.hasUpdate then .update event else .setBit event)

/-- One step of `sbi_ipi_process()`. -/
def receiveStep (ops : Nat → Option IpiEventOps) (s : EventState x) :
    Option (EventState x × List EventTrace) :=
  match s.receiver with
  | .lower => if s.msip then some ({ s with receiver := .clear },[]) else none
  | .clear => some ({ s with msip := false,receiver := .xchg },[])
  | .xchg => some ({ s with ipiType := 0,receiver := .loop s.ipiType 0 },[])
  | .loop w e =>
      if w=0 then some ({ s with receiver := .lower },[])
      else if w.getLsbD 0 then
        match ops e with
        | none => some ({ s with receiver := .loop (w >>> 1) (e+1) },[])
        | some o =>
            some ({ s with receiver := if o.halts then .stopped else .loop (w >>> 1) (e+1) },
              [.processed e])
      else some ({ s with receiver := .loop (w >>> 1) (e+1) },[])
  | .stopped => none

/-- The senders and the receiver, one atomic step at a time. -/
def eventMachine (ops : Nat → Option IpiEventOps) :
    Machine (EventState x) EventAction EventTrace where
  step s a :=
    match a with
    | .send k event =>
        match s.sender k with
        | .idle => some (sendStep ops s k event,[])
        | _ => none
    | .updated k ret =>
        match s.sender k with
        | .update event => some (s.setSender k (if ret < 0 then .idle else .setBit event),[])
        | _ => none
    | .run k =>
        match s.sender k with
        | .setBit event =>
            some ({ s.setSender k (.raise event) with ipiType := s.ipiType ||| Word.bit event },
              [.posted k event])
        | .raise event => some ({ s.setSender k (.sync event) with msip := true },[])
        | .sync _ => some (s.setSender k .idle,[])
        | _ => none
    | .receive => receiveStep ops s

/-- What one step can do. -/
inductive EventStep (ops : Nat → Option IpiEventOps) (s : EventState x) :
    EventAction → List EventTrace → EventState x → Prop where
  | send (k e : Nat) (p : SenderPc) (hs : s.sender k=.idle)
      (hp : p=.idle ∨ e<x.bits ∧ (ops e).isSome=true ∧ (p=.update e ∨ p=.setBit e)) :
      EventStep ops s (.send k e) [] (s.setSender k p)
  | updated (k e : Nat) (ret : Int) (p : SenderPc) (hs : s.sender k=.update e)
      (hp : p=.idle ∨ p=.setBit e) : EventStep ops s (.updated k ret) [] (s.setSender k p)
  | post (k e : Nat) (hs : s.sender k=.setBit e) : EventStep ops s (.run k) [.posted k e]
      { s.setSender k (.raise e) with ipiType := s.ipiType ||| Word.bit e }
  | raise (k e : Nat) (hs : s.sender k=.raise e) : EventStep ops s (.run k) []
      { s.setSender k (.sync e) with msip := true }
  | synced (k e : Nat) (hs : s.sender k=.sync e) : EventStep ops s (.run k) [] (s.setSender k .idle)
  | trap (hr : s.receiver=.lower) (hm : s.msip=true) :
      EventStep ops s .receive [] { s with receiver := .clear }
  | clear (hr : s.receiver=.clear) :
      EventStep ops s .receive [] { s with msip := false,receiver := .xchg }
  | xchg (hr : s.receiver=.xchg) :
      EventStep ops s .receive [] { s with ipiType := 0,receiver := .loop s.ipiType 0 }
  | done (e : Nat) (hr : s.receiver=.loop 0 e) :
      EventStep ops s .receive [] { s with receiver := .lower }
  | process (w : Word x) (e : Nat) (o : IpiEventOps) (hr : s.receiver=.loop w e) (hw : w≠0)
      (hb : w.getLsbD 0=true) (ho : ops e=some o) : EventStep ops s .receive [.processed e]
        { s with receiver := if o.halts then .stopped else .loop (w >>> 1) (e+1) }
  | skip (w : Word x) (e : Nat) (hr : s.receiver=.loop w e) (hw : w≠0)
      (hb : w.getLsbD 0=false ∨ ops e=none) :
      EventStep ops s .receive [] { s with receiver := .loop (w >>> 1) (e+1) }

theorem EventState.setSender_same (s : EventState x) (k : Nat) (h : s.sender k=.idle) :
    s.setSender k .idle=s := by
  rw [EventState.setSender,← h,Function.update_eq_self]

variable {ops : Nat → Option IpiEventOps} {s s' : EventState x} {a : EventAction}
  {ev : List EventTrace}

theorem receiveStep_cases (h : receiveStep ops s=some (s',ev)) :
    EventStep ops s .receive ev s' := by
  unfold receiveStep at h
  cases hr : s.receiver <;> rw [hr] at h
  case lower =>
    simp only at h
    split_ifs at h with hm
    cases h
    exact .trap hr hm
  case clear => cases h; exact .clear hr
  case xchg => cases h; exact .xchg hr
  case loop w e =>
    simp only at h
    split_ifs at h with hw hb
    · cases h
      subst hw
      exact .done e hr
    · cases ho : ops e with
      | none =>
        rw [ho] at h
        cases h
        exact .skip w e hr hw (.inr ho)
      | some o =>
        rw [ho] at h
        cases h
        exact .process w e o hr hw hb ho
    · cases h
      exact .skip w e hr hw (.inl (by simpa using hb))
  case stopped => cases h

/-- The inversion of the machine's step. -/
theorem eventMachine_step (h : (eventMachine ops).step s a=some (s',ev)) :
    EventStep ops s a ev s' := by
  cases a with
  | send k e =>
    simp only [eventMachine] at h
    cases hs : s.sender k <;> rw [hs] at h <;> cases h
    by_cases he : x.bits≤e
    · have hstep : EventStep ops s _ [] _ := .send k e .idle hs (.inl rfl)
      rw [s.setSender_same k hs] at hstep
      simpa only [sendStep,if_pos he] using hstep
    · cases ho : ops e with
      | none =>
        have hstep : EventStep ops s _ [] _ := .send k e .idle hs (.inl rfl)
        rw [s.setSender_same k hs] at hstep
        simpa only [sendStep,if_neg he,ho] using hstep
      | some o =>
        simp only [sendStep,if_neg he,ho]
        refine .send k e _ hs (.inr ⟨Nat.lt_of_not_le he,by rw [ho]; rfl,?_⟩)
        cases o.hasUpdate
        · exact .inr rfl
        · exact .inl rfl
  | updated k ret =>
    simp only [eventMachine] at h
    cases hs : s.sender k <;> rw [hs] at h <;> cases h
    refine .updated k _ ret _ hs ?_
    split_ifs
    · exact .inl rfl
    · exact .inr rfl
  | run k =>
    simp only [eventMachine] at h
    cases hs : s.sender k <;> rw [hs] at h <;> cases h
    · exact .post k _ hs
    · exact .raise k _ hs
    · exact .synced k _ hs
  | receive => exact receiveStep_cases h

end OpenSBI
