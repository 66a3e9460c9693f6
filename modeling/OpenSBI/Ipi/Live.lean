import OpenSBI.Ipi.Acknowledged
import OpenSBI.Ipi.Wakeup

namespace OpenSBI

open Framework

variable {x : Xlen} {c : Harts x} {s s' : IpiState x} {h : Nat} {ev : List (IpiTrace x)}
  {t : List (IpiTrace x)}

/-- The target of the request a hart is at. -/
def Caller.target : Caller x → Option Nat
  | .full k => some k.target
  | .wait k => some k.target
  | .ipi _ _ => none

def Pc.target : Pc x → Option Nat
  | .update k => some k.target
  | .enqueue k => some k.target
  | .setBit k => some k.target
  | .raise k => some k.target
  | .sync k => some k.target
  | .dequeue r _ => r.target
  | .localFn r _ _ => r.target
  | .ack r _ _ _ => r.target
  | _ => none

@[simp] theorem Caller.resume_target (r : Caller x) : r.resume.target=r.target := by
  cases r <;> rfl

@[simp] theorem Caller.processed_target (r : Caller x) (n : Nat) :
    (r.processed n).target=r.target := by
  cases r <;> simp only [Caller.processed] <;> (try split_ifs) <;> rfl

@[simp] theorem maskEntry_target (k : Sending x) : (maskEntry c k).target=none := by
  unfold maskEntry
  split_ifs <;> rfl

/-- Requests go between harts that have a scratch space. -/
def Aimed (c : Harts x) (s : IpiState x) : Prop :=
  ∀ a b,(s.pc a).target=some b → c.scratch a=true ∧ c.scratch b=true

theorem Aimed.step (ha : Aimed c s) (hs : IpiStep c s h ev s') (hsc : c.scratch h=true) :
    Aimed c s' := by
  intro a b hb
  by_cases hah : a=h
  · subst hah
    refine ⟨hsc,?_⟩
    have hold := ha a b
    cases hs with
    | refused hp => exact (hold hb).2
    | ackSpin r n e i hp => exact (hold hb).2
    | hartWait hp => exact (hold hb).2
    | call k hp => simp [IpiState.setPc] at hb
    | sendWindow k hp => simp [IpiState.setPc] at hb
    | dequeueEmpty r n hp =>
      simp only [IpiState.setPc,Function.update_self,Caller.resume_target] at hb
      rw [hp] at hold
      exact (hold hb).2
    | ackDone r n e i hp =>
      simp only [IpiState.setPc,Function.update_self,Caller.processed_target] at hb
      rw [hp] at hold
      exact (hold hb).2
    | raise k hp =>
      simp only [Function.update_self] at hb
      rw [hp] at hold
      split_ifs at hb
      · exact (hold hb).2
      · cases hb
    | ipiDone ex w hp => cases ex <;> simp [IpiState.setPc,Pc.target] at hb
    | sendTlb k hp hm ht =>
      simp only [IpiState.setPc,Function.update_self] at hb
      exact Option.some.inj hb ▸ ht
    | sendEvent k hp hm ht =>
      simp only [IpiState.setPc,Function.update_self] at hb
      exact Option.some.inj hb ▸ ht
    | _ =>
      simp_all [IpiState.setPc,Pc.target,Caller.target,Sending.target]
  · rw [(step_other hs hah).1] at hb
    exact ha a b hb

theorem Caller.target_of_waiting {r : Caller x} {b : Nat} (h : r.waiting=some b) :
    r.target=some b := by
  cases r with
  | wait k => exact h
  | full k => cases h
  | ipi ex w => cases h

theorem Pc.target_of_waiting {p : Pc x} {b : Nat} (h : p.waiting=some b) : p.target=some b := by
  cases p <;> simp_all [Pc.waiting,Pc.target,Caller.target_of_waiting]

theorem Pc.waiting_of_posted {p : Pc x} {b : Nat} (h : p.posted=some b) : p.waiting=some b := by
  cases p <;> first | exact h | cases h

/-- What a run keeps whose steps heed all harts. -/
structure IpiState.Live (c : Harts x) (s : IpiState x) : Prop extends s.Accounted c where
  populated : (s.queues c).Populated
  aimed : Aimed c s
  heard : ∀ b,c.scratch b=true → Heard c s b

theorem IpiState.Initial.live (hi : s.Initial) : s.Live c where
  toAccounted := hi.accounted
  populated b m hm := by simp [IpiState.queues,hi.tlbFifo b] at hm
  aimed a b hb := by rcases hi.place a with ⟨-,hp⟩ | ⟨-,hp⟩ <;> rw [hp] at hb <;> cases hb
  heard _ _ := hi.heard

theorem IpiState.Live.step (hl : s.Live c) (hs : IpiStep c s h ev s') (hsc : c.scratch h=true)
    (hh : ∀ b,c.scratch b=true → Heeds s h b) : s'.Live c where
  toAccounted := (hl.toAccounted.step hs hsc (hl.heard h hsc).not_reset).1
  populated := by
    rcases hs.refines hsc hl.placed hl.balanced (hl.heard h hsc).not_reset with ⟨hq,-⟩ | hq
    · rw [hq]; exact hl.populated
    · exact hl.populated.step hq
  aimed := hl.aimed.step hs hsc
  heard b hb := (hl.heard b hb).step hs hl.placed hsc (hh b hb)

/-- The runs in which every step heeds every hart. -/
def heeding (c : Harts x) (s : IpiState x) (l : Nat × Action x) (_ : IpiState x) : Prop :=
  ∀ b,c.scratch b=true → Heeds s l.1 b

theorem run_live {s0 : IpiState x} (hi : s0.Initial)
    (hrun : (ipiMachine c).Run (heeding c) s0 t s) : s.Live c := by
  refine hrun.invariant (P := IpiState.Live c) ?_ hi.live
  intro s l s' ev hl hstep hok
  obtain ⟨hsc,hs⟩ := ipiMachine_step hstep
  exact hl.step hs hsc hok

end OpenSBI
