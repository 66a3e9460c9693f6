import OpenSBI.Ipi.Live

namespace OpenSBI

open Framework

variable {x : Xlen} {c : Harts x} {s s' : IpiState x} {h : Nat} {ev : List (IpiTrace x)}
  {t : List (IpiTrace x)}

/-! ## Runs without transitions of the hart states -/

def Caller.haltFree : Caller x → Prop
  | .ipi _ w => w.halt=false
  | .full k => k.event≠.halt
  | .wait k => k.event≠.halt

def Pc.haltFree : Pc x → Prop
  | .mask k => k.event≠.halt
  | .send k => k.event≠.halt
  | .update k => k.event≠.halt
  | .enqueue k => k.event≠.halt
  | .setBit k => k.event≠.halt
  | .raise k => k.event≠.halt
  | .sync k => k.event≠.halt
  | .dequeue r _ => r.haltFree
  | .localFn r _ _ => r.haltFree
  | .ack r _ _ _ => r.haltFree
  | .ipiLoop _ w => w.halt=false
  | _ => True

/-- No halt event is on its way. -/
def HaltFree (s : IpiState x) : Prop := ∀ h,(s.ipiType h).halt=false ∧ (s.pc h).haltFree

theorem Caller.haltFree.resume {r : Caller x} (h : r.haltFree) : r.resume.haltFree := by
  cases r <;> exact h

theorem Caller.haltFree.processed {r : Caller x} (h : r.haltFree) (n : Nat) :
    (r.processed n).haltFree := by
  cases r <;> simp only [Caller.processed] <;> (try split_ifs) <;> exact h

theorem maskEntry_haltFree {k : Sending x} (h : k.event≠.halt) : (maskEntry c k).haltFree := by
  unfold maskEntry
  split_ifs
  · trivial
  · exact h

private theorem smodeStep_haltFree {a : Action x} (hf : HaltFree s)
    (hs : smodeStep c s h a=some (s',ev)) (ha : ∀ m b,a≠.sendHalt m b) :
    (s'.pc h).haltFree ∧ s'.ipiType=s.ipiType := by
  cases a with
  | run => cases hs
  | trap =>
    simp only [smodeStep] at hs
    split_ifs at hs
    obtain ⟨rfl,rfl⟩ := Prod.mk.inj (Option.some.inj hs)
    simp [IpiState.setPc,Pc.haltFree]
  | tlbRequest m b d =>
    obtain ⟨rfl,rfl⟩ := Prod.mk.inj (Option.some.inj hs)
    simp only [IpiState.setPc,Function.update_self,and_true]
    exact maskEntry_haltFree (by simp [sendMany])
  | sendSmode m b =>
    obtain ⟨rfl,rfl⟩ := Prod.mk.inj (Option.some.inj hs)
    simp only [IpiState.setPc,Function.update_self,and_true]
    exact maskEntry_haltFree (by simp [sendMany])
  | sendHalt m b => exact absurd rfl (ha m b)
  | hartStop =>
    simp only [smodeStep] at hs
    split_ifs at hs <;> obtain ⟨rfl,rfl⟩ := Prod.mk.inj (Option.some.inj hs)
    · simp [Pc.haltFree]
    · exact ⟨(hf h).2,rfl⟩
  | hartStart t =>
    simp only [smodeStep] at hs
    split_ifs at hs <;> obtain ⟨rfl,rfl⟩ := Prod.mk.inj (Option.some.inj hs)
    · simp [Pc.haltFree]
    · exact ⟨(hf h).2,rfl⟩

private theorem runStep_haltFree (hf : HaltFree s) (hs : IpiStep c s h ev s')
    (hp : s.pc h≠.smode) : (s'.pc h).haltFree ∧ ∀ b,(s'.ipiType b).halt=false := by
  have hpc := (hf h).2
  have hty := fun b => (hf b).1
  have hset : ∀ t w,w.halt=false → ∀ b,(Function.update s.ipiType t w b).halt=false := by
    intro t w hw b
    by_cases hb : b=t
    · rw [hb,Function.update_self]; exact hw
    · rw [Function.update_of_ne hb]; exact hty b
  cases hs with
  | refused hk => exact ⟨hpc,hty⟩
  | ackSpin r n e i hk => exact ⟨hpc,hty⟩
  | hartWait hk => exact ⟨hpc,hty⟩
  | trap hk => exact absurd hk hp
  | call k hk => exact absurd hk hp
  | hartStop hk => exact absurd hk hp
  | hartStart t hk => exact absurd hk hp
  | ipiXchg ex hk =>
    simp only [Function.update_self]
    exact ⟨hty h,hset h .none rfl⟩
  | ipiInitWord hk =>
    simp only [Function.update_self]
    exact ⟨trivial,hset h .none rfl⟩
  | setBit k hk =>
    rw [hk] at hpc
    simp only [Function.update_self]
    refine ⟨hpc,hset k.target _ ?_⟩
    cases hev : k.event
    · exact hty k.target
    · exact absurd hev hpc
    · exact hty k.target
  | sendWindow k hk =>
    rw [hk] at hpc
    simp only [IpiState.setPc,Function.update_self]
    exact ⟨maskEntry_haltFree hpc,hty⟩
  | raise k hk =>
    rw [hk] at hpc
    simp only [Function.update_self]
    split_ifs <;> exact ⟨hpc,hty⟩
  | dequeueEmpty r n hk =>
    rw [hk] at hpc
    simp only [IpiState.setPc,Function.update_self]
    exact ⟨Caller.haltFree.resume hpc,hty⟩
  | ackDone r n e i hk =>
    rw [hk] at hpc
    simp only [IpiState.setPc,Function.update_self]
    exact ⟨Caller.haltFree.processed hpc n,hty⟩
  | ipiDone ex w hk =>
    simp only [IpiState.setPc,Function.update_self]
    cases ex <;> exact ⟨trivial,hty⟩
  | _ => simp_all [IpiState.setPc,Pc.haltFree,Caller.haltFree,Sending.next]

theorem HaltFree.step {l : Nat × Action x} (hf : HaltFree s)
    (hs : (ipiMachine c).step s l=some (s',ev)) (ha : ∀ m b,l.2≠.sendHalt m b) : HaltFree s' := by
  obtain ⟨hsc,hcase⟩ := ipiMachine_step hs
  have hkey : (s'.pc l.1).haltFree ∧ ∀ b,(s'.ipiType b).halt=false := by
    by_cases hp : s.pc l.1=.smode
    · obtain ⟨h,a⟩ := l
      simp only [ipiMachine,hsc,if_true,hp] at hs
      obtain ⟨hpc,hty⟩ := smodeStep_haltFree hf hs ha
      exact ⟨hpc,fun b => by rw [hty]; exact (hf b).1⟩
    · exact runStep_haltFree hf hcase hp
  intro b
  refine ⟨hkey.2 b,?_⟩
  by_cases hb : b=l.1
  · rw [hb]; exact hkey.1
  · rw [(step_other hcase hb).1]; exact (hf b).2

/-- All harts are and stay started, and no halt event is requested. -/
def steady (c : Harts x) (_ : IpiState x) (l : Nat × Action x) (s' : IpiState x) : Prop :=
  AllStarted c s' ∧ ∀ m b,l.2≠.sendHalt m b

/-- A started hart without halt events heeds every hart. -/
theorem heeds_of_steady (hall : AllStarted c s) (hp : Placed s) (hf : HaltFree s)
    (hsc : c.scratch h=true) {b : Nat} (hb : c.scratch b=true) : Heeds s h b := by
  have hok := hp h
  have hokb := hp b
  rw [hall h hsc] at hok
  rw [hall b hb] at hokb
  unfold Heeds
  split
  · intro _
    cases hpb : s.pc b <;> rw [hpb] at hokb <;> simp_all [Pc.Ok,Pc.deaf,ipiHsm]
  · rename_i hpc
    rw [hpc] at hok
    cases hok
  · rename_i k hpc
    intro hkb _ _ hhalt
    have hk := (hf h).2
    rw [hpc] at hk
    have hty := (hf b).1
    cases hev : k.event
    · rw [hev] at hhalt; exact absurd hhalt (by simp [IpiType.setBit,hty])
    · exact absurd hev hk
    · rw [hev] at hhalt; exact absurd hhalt (by simp [IpiType.setBit,hty])
  · trivial

theorem IpiState.Initial.haltFree (hi : s.Initial) : HaltFree s := by
  intro b
  refine ⟨by rw [hi.ipiType b]; rfl,?_⟩
  rcases hi.place b with ⟨-,hp⟩ | ⟨-,hp⟩ <;> rw [hp] <;> trivial

theorem run_steady {s0 : IpiState x} (hi : s0.Initial) (hall : AllStarted c s0)
    (hrun : (ipiMachine c).Run (steady c) s0 t s) : s.Live c ∧ AllStarted c s ∧ HaltFree s := by
  refine hrun.invariant (P := fun s => s.Live c ∧ AllStarted c s ∧ HaltFree s) ?_
    ⟨hi.live,hall,hi.haltFree⟩
  rintro s l s' ev ⟨hl,hst,hf⟩ hstep ⟨hall',hact⟩
  obtain ⟨hsc,hs⟩ := ipiMachine_step hstep
  exact ⟨hl.step hs hsc (fun b hb => heeds_of_steady hst hl.placed hf hsc hb),hall',
    hf.step hstep hact⟩

/-- Such runs heed all harts. -/
theorem heeding_of_steady {s0 : IpiState x} (hi : s0.Initial) (hall : AllStarted c s0)
    (hrun : (ipiMachine c).Run (steady c) s0 t s) : (ipiMachine c).Run (heeding c) s0 t s := by
  induction hrun with
  | nil => exact .nil
  | snoc hpre hstep hok ih =>
    obtain ⟨hl,hst,hf⟩ := run_steady hi hall hpre
    exact .snoc ih hstep fun b hb =>
      heeds_of_steady hst hl.placed hf (ipiMachine_step hstep).1 hb

/-! ## Some hart can always go on -/

/-- The next step of hart `h` repeats a poll that fails: the acknowledgement is not there, the FIFO
of the target is full, its own FIFO is empty, the flag of a source is still set, or it is not
started. -/
def FailedPoll (c : Harts x) (s : IpiState x) (h : Nat) : Prop :=
  match s.pc h with
  | .sync _ => s.tlbSync h=false
  | .enqueue k => (s.tlbFifo k.target).isFull=true
  | .dequeue (.full _) _ => (s.tlbFifo h).isEmpty=true
  | .dequeue (.wait _) _ => (s.tlbFifo h).isEmpty=true
  | .ack _ _ e i => i<SBI_HARTMASK_MAX_BITS ∧ sbiHartmaskTestHart i e.smask=true ∧
      c.scratch i=true ∧ s.tlbSync i=true
  | .hartWait => s.hsm h≠.startPending
  | _ => False

/-- Some hart goes on inside the firmware or takes its pending interrupt: with a step that is no
failed poll, at once or after one poll of its own. -/
def CanAdvance (c : Harts x) (s : IpiState x) : Prop :=
  ∃ j a s1 ev,(a=.run ∨ a=.trap) ∧ (ipiMachine c).step s (j,a)=some (s1,ev) ∧
    (¬FailedPoll c s j ∨ ∃ s2 ev',(ipiMachine c).step s1 (j,.run)=some (s2,ev') ∧
      ¬FailedPoll c s1 j)

theorem toList_eq_nil {α : Type} {f : SbiFifo α} : f.toList=[] ↔ f.isEmpty=true := by
  rw [← List.length_eq_zero_iff,SbiFifo.length_toList,SbiFifo.isEmpty,decide_eq_true_iff]

theorem toList_ne_nil_of_isFull {α : Type} {f : SbiFifo α} (h : f.isFull=true) : f.toList≠[] := by
  have := f.tail_lt
  rw [SbiFifo.isFull,decide_eq_true_iff] at h
  rw [← List.length_pos_iff,SbiFifo.length_toList]
  omega

theorem run_step {p : Pc x} (hsc : c.scratch h=true) (hp : s.pc h=p) :
    (ipiMachine c).step s (h,.run)=runStep c s h p := by
  simp only [ipiMachine,hsc,if_true,hp]
  cases p <;> rfl

/-- Inside the firmware every hart has a next step. -/
theorem run_enabled (hsc : c.scratch h=true) (hsm : s.pc h≠.smode) (hh : s.pc h≠.hang) :
    ∃ s1 ev,(ipiMachine c).step s (h,.run)=some (s1,ev) := by
  rw [run_step hsc rfl]
  cases hp : s.pc h with
  | smode => exact absurd hp hsm
  | hang => exact absurd hp hh
  | enqueue k => simp only [runStep]; split <;> exact ⟨_,_,rfl⟩
  | dequeue r n => simp only [runStep]; split <;> exact ⟨_,_,rfl⟩
  | _ => simp only [runStep]; (repeat' split_ifs) <;> exact ⟨_,_,rfl⟩

theorem Placed.not_hang (hp : Placed s) : s.pc h≠.hang := by
  intro hpc
  have hok := hp h
  rw [hpc] at hok
  exact hok

private theorem advance_of (hl : s.Live c) (hsc : c.scratch h=true) (hsm : s.pc h≠.smode)
    (hf : ¬FailedPoll c s h) : CanAdvance c s := by
  obtain ⟨s1,ev,hs⟩ := run_enabled hsc hsm hl.placed.not_hang
  exact ⟨h,.run,s1,ev,.inl rfl,hs,.inl hf⟩

/-- A poll after which the hart finds something. -/
private theorem advance_after {p : Pc x} (hsc : c.scratch h=true)
    (hs : (ipiMachine c).step s (h,.run)=some (s.setPc h p,[])) (hsm : p≠.smode) (hh : p≠.hang)
    (hf : ¬FailedPoll c (s.setPc h p) h) : CanAdvance c s := by
  obtain ⟨s2,ev,hs2⟩ := run_enabled (s := s.setPc h p) hsc (by simpa [IpiState.setPc] using hsm)
    (by simpa [IpiState.setPc] using hh)
  exact ⟨h,.run,_,[],.inl rfl,hs,.inr ⟨s2,ev,hs2,hf⟩⟩

/-- An acknowledgement that is due finds the flag clear. -/
theorem ack_advances {r : Caller x} {n i : Nat} {e : TlbInfo x} (hl : s.Accounted c)
    (hp : s.pc h=.ack r n e i) : ¬FailedPoll c s h := by
  unfold FailedPoll
  rw [hp]
  rintro ⟨hi,ht,hsc,hflag⟩
  have hmem : i∈(s.queues c).acking h := by
    simp only [IpiState.queues,hp,Pc.acking,Finset.mem_filter,mem_sourceHarts]
    exact ⟨⟨ht,hsc⟩,le_refl i⟩
  have hclear : s.tlbSync i=false := (hl.balanced.of_tokens (AckQueues.tokens_of_acking hmem)).2.1
  rw [hflag] at hclear
  cases hclear

/-- Who waits for an entry has posted it, or is about to set its bit. -/
private theorem fifo_waiter (hl : s.Live c) (hne : (s.tlbFifo h).toList≠[]) :
    ∃ a,c.scratch a=true ∧ (s.pc a).waiting=some h ∧ Queued s a h := by
  obtain ⟨e,he⟩ := List.exists_mem_of_ne_nil _ hne
  have hmem : sourceHarts c e.smask∈(s.queues c).queue h := List.mem_map_of_mem he
  obtain ⟨a,ha⟩ := hl.populated h _ hmem
  have hw := (hl.balanced.of_tokens (AckQueues.tokens_of_queue hmem ha)).1
  obtain ⟨ht,hsc⟩ := mem_sourceHarts.mp ha
  exact ⟨a,hsc,hw,e,he,ht⟩

/-- A hart with entries in its FIFO lets some hart go on. -/
private theorem fifo_advances (hl : s.Live c) (hall : AllStarted c s) (hsc : c.scratch h=true)
    (hne : (s.tlbFifo h).toList≠[]) : CanAdvance c s := by
  have hem : (s.tlbFifo h).isEmpty=false := by
    rw [← Bool.not_eq_true]
    exact fun he => hne (toList_eq_nil.mpr he)
  cases hp : s.pc h with
  | smode =>
    -- in S-mode the hart has, or will get, an interrupt, unless the bit is still to be set
    obtain ⟨a,hasc,hw,hq⟩ := fifo_waiter hl hne
    by_cases hset : ∃ k,s.pc a=.setBit k
    · obtain ⟨k,hk⟩ := hset
      refine advance_of hl hasc (by rw [hk]; simp) ?_
      unfold FailedPoll
      rw [hk]
      exact id
    have hpost : (s.pc a).posted=some h := by
      cases hpa : s.pc a <;> rw [hpa] at hw hset <;> first | exact hw | exact absurd ⟨_,rfl⟩ hset
    rcases (hl.heard h hsc).woken a hpost hq with ⟨-,-,hm | ⟨d,hd,hr⟩ | ⟨ex,hx⟩⟩ | hdr
    · refine ⟨h,.trap,s.setPc h (.ipiClear false),[],.inr rfl,?_,.inl ?_⟩
      · simp [ipiMachine,hsc,hp,smodeStep,hm]
      · unfold FailedPoll
        rw [hp]
        exact id
    · cases hpd : s.pc d with
      | raise k =>
        refine advance_of hl hd (by rw [hpd]; simp) ?_
        unfold FailedPoll
        rw [hpd]
        exact id
      | _ => rw [hpd] at hr; exact hr.elim
    · rw [hp] at hx; cases hx
    · rw [hp] at hdr; cases hdr
  | sync k =>
    cases hfl : s.tlbSync h with
    | true => refine advance_of hl hsc (by rw [hp]; simp) ?_; simp [FailedPoll,hp,hfl]
    | false =>
      refine advance_after (p := .dequeue (.wait k) 0) hsc ?_ (by simp) (by simp) ?_
      · rw [run_step hsc hp]; simp [runStep,hfl]
      · simp [FailedPoll,IpiState.setPc,hem]
  | enqueue k =>
    cases hfl : (s.tlbFifo k.target).isFull with
    | false => refine advance_of hl hsc (by rw [hp]; simp) ?_; simp [FailedPoll,hp,hfl]
    | true =>
      refine advance_after (p := .dequeue (.full k) 0) hsc ?_ (by simp) (by simp) ?_
      · rw [run_step hsc hp]; simp [runStep,sbiFifoEnqueue,hfl]
      · simp [FailedPoll,IpiState.setPc,hem]
  | dequeue r n =>
    refine advance_of hl hsc (by rw [hp]; simp) ?_
    cases r <;> simp [FailedPoll,hp,hem]
  | ack r n e i => exact advance_of hl hsc (by rw [hp]; simp) (ack_advances hl.toAccounted hp)
  | hartWait =>
    have hok := hl.placed h
    rw [hp,hall h hsc] at hok
    rcases hok with hok | hok <;> cases hok
  | _ => refine advance_of hl hsc (by rw [hp]; simp) ?_; simp [FailedPoll,hp]

/-- The hart waited for lets some hart go on. -/
private theorem waiter_advances {k : Sending x} (hl : s.Live c) (hall : AllStarted c s)
    (hw : (s.pc h).waiting=some k.target) (hfl : s.tlbSync h=false) : CanAdvance c s := by
  have hsc := (hl.aimed h k.target (Pc.target_of_waiting hw)).2
  have htok : (s.queues c).tokens h k.target≠0 := by
    have hdue := hl.balanced.due h k.target
    rw [if_pos ⟨hw,hfl⟩] at hdue
    omega
  rcases AckQueues.mem_of_tokens htok with ⟨m,hm,-⟩ | ht | ha
  · refine fifo_advances hl hall hsc fun hnil => ?_
    simp [IpiState.queues,hnil] at hm
  · have htaken : h∈(s.pc k.target).taken c := ht
    cases hp : s.pc k.target with
    | localFn r n e => refine advance_of hl hsc (by rw [hp]; simp) ?_; simp [FailedPoll,hp]
    | _ => rw [hp] at htaken; simp [Pc.taken] at htaken
  · have hacking : h∈(s.pc k.target).acking c := ha
    cases hp : s.pc k.target with
    | ack r n e i => exact advance_of hl hsc (by rw [hp]; simp) (ack_advances hl.toAccounted hp)
    | _ => rw [hp] at hacking; simp [Pc.acking] at hacking

private theorem full_advances {k : Sending x} (hl : s.Live c) (hall : AllStarted c s)
    (ht : (s.pc h).target=some k.target) (hfl : (s.tlbFifo k.target).isFull=true) :
    CanAdvance c s :=
  fifo_advances hl hall (hl.aimed h k.target ht).2 (toList_ne_nil_of_isFull hfl)

/-- Remote fences do not deadlock: as long as all harts stay started and none is asked to halt,
whenever some hart is inside the firmware some hart can go on, however small the FIFOs are. -/
theorem remoteFence_deadlockFree (c : Harts x) {s0 s : IpiState x} {t : List (IpiTrace x)}
    (hi : s0.Initial) (hall0 : AllStarted c s0) (hrun : (ipiMachine c).Run (steady c) s0 t s)
    (h : Nat) (hsc : c.scratch h=true) (hbusy : s.pc h≠.smode) : CanAdvance c s := by
  obtain ⟨hl,hall,-⟩ := run_steady hi hall0 hrun
  by_cases hf : FailedPoll c s h
  · cases hp : s.pc h with
    | sync k =>
      simp only [FailedPoll,hp] at hf
      exact waiter_advances (h := h) (k := k) hl hall (by rw [hp]; rfl) hf
    | enqueue k =>
      simp only [FailedPoll,hp] at hf
      exact full_advances (h := h) hl hall (by rw [hp]; rfl) hf
    | dequeue r n =>
      cases r with
      | ipi ex w => simp [FailedPoll,hp] at hf
      | full k =>
        simp only [FailedPoll,hp] at hf
        cases hfl : (s.tlbFifo k.target).isFull with
        | true => exact full_advances (h := h) hl hall (by rw [hp]; rfl) hfl
        | false =>
          refine advance_after (p := .enqueue k) hsc ?_ (by simp) (by simp) ?_
          · rw [run_step hsc hp]; simp [runStep,sbiFifoDequeue,hf,Caller.resume]
          · simp [FailedPoll,IpiState.setPc,hfl]
      | wait k =>
        simp only [FailedPoll,hp] at hf
        cases hfl : s.tlbSync h with
        | false => exact waiter_advances (h := h) (k := k) hl hall (by rw [hp]; rfl) hfl
        | true =>
          refine advance_after (p := .sync k) hsc ?_ (by simp) (by simp) ?_
          · rw [run_step hsc hp]; simp [runStep,sbiFifoDequeue,hf,Caller.resume]
          · simp [FailedPoll,IpiState.setPc,hfl]
    | ack r n e i => exact absurd hf (ack_advances hl.toAccounted hp)
    | hartWait =>
      have hok := hl.placed h
      rw [hp,hall h hsc] at hok
      rcases hok with hok | hok <;> cases hok
    | _ => simp [FailedPoll,hp] at hf
  · exact advance_of hl hsc hbusy hf

def steadyStep (s : IpiState .rv32) (l : Nat × Action .rv32) (s' : IpiState .rv32) : Bool :=
  startedStep s l s' && (match l.2 with | .sendHalt _ _ => false | _ => true)

theorem steady_of_steadyStep {s s' : IpiState .rv32} {l : Nat × Action .rv32}
    (h : steadyStep s l s'=true) : steady twoHarts s l s' := by
  simp only [steadyStep,Bool.and_eq_true] at h
  refine ⟨allStarted_of_startedStep h.1,fun m b he => ?_⟩
  rw [he] at h
  exact absurd h.2 (by simp)

/-- Hart `h` polls for an acknowledgement that is not there yet. -/
def unanswered (s : IpiState x) (h : Nat) : Bool :=
  match s.pc h with
  | .sync _ => !s.tlbSync h
  | _ => false

theorem failedPoll_of_unanswered (hu : unanswered s h=true) : FailedPoll c s h := by
  cases hp : s.pc h with
  | sync k => simpa [unanswered,FailedPoll,hp] using hu
  | _ => simp [unanswered,hp] at hu

theorem twoHarts_deadlockFree : ∃ s t,
    (ipiMachine twoHarts).Run (steady twoHarts) bootedState t s ∧ FailedPoll twoHarts s 0 ∧
    CanAdvance twoHarts s := by
  have hreplay : ((ipiMachine twoHarts).replay steadyStep bootedState requestFence).any
      (fun r => unanswered r.1 0)=true := by
    decide +kernel
  obtain ⟨s,t,hrun,hp⟩ := Machine.exists_run (p := fun s _ => unanswered s 0) hreplay
  have hst : (ipiMachine twoHarts).Run (steady twoHarts) bootedState t s :=
    hrun.mono fun _ _ _ => steady_of_steadyStep
  refine ⟨s,t,hst,failedPoll_of_unanswered hp,?_⟩
  refine remoteFence_deadlockFree twoHarts bootedState_initial (fun _ _ => rfl) hst 0 rfl ?_
  intro hpc
  simp [unanswered,hpc] at hp

end OpenSBI
