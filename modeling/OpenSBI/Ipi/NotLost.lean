import OpenSBI.Ipi.Event

namespace OpenSBI

open Framework

variable {x : Xlen} {ops : Nat → Option IpiEventOps} {s s' : EventState x} {a : EventAction}
  {ev : List EventTrace} {e k j : Nat}

/-- A set bit has been announced: the interrupt is pending, or the receiver is about to exchange the
word, or a sender of the event is about to raise the interrupt. -/
def Announced (s : EventState x) : Prop :=
  ∀ e,s.ipiType.getLsbD e=true →
    s.msip=true ∨ s.receiver=.xchg ∨ ∃ k,s.sender k=.raise e

/-- Senders only work on events that have operations. -/
def Registered (ops : Nat → Option IpiEventOps) (s : EventState x) : Prop :=
  ∀ k e,s.sender k=.update e ∨ s.sender k=.setBit e → e<x.bits ∧ (ops e).isSome=true

theorem setSender_raise {p : SenderPc} (hk : s.sender k≠.raise e) (hj : s.sender j=.raise e) :
    (s.setSender k p).sender j=.raise e := by
  have hne : j≠k := by
    rintro rfl
    exact hk hj
  rw [← hj]
  exact Function.update_of_ne hne _ _

/-- A step of a sender that is not about to raise keeps the others in place. -/
theorem Announced.setSender {p : SenderPc} (h : Announced s) (hk : ∀ e,s.sender k≠.raise e) :
    Announced (s.setSender k p) := by
  intro e he
  rcases h e he with hm | hr | ⟨j,hj⟩
  · exact .inl hm
  · exact .inr (.inl hr)
  · exact .inr (.inr ⟨j,setSender_raise (hk e) hj⟩)

/-- A step of the receiver that does not read the event word keeps the events announced. -/
theorem Announced.setReceiver {r : ReceiverPc x} (h : Announced s) (hr : s.receiver≠.xchg) :
    Announced { s with receiver := r } := by
  intro e he
  rcases h e he with hm | hx | hk
  · exact .inl hm
  · exact absurd hx hr
  · exact .inr (.inr hk)

theorem Announced.step (h : Announced s) (hreg : Registered ops s)
    (hs : EventStep ops s a ev s') : Announced s' := by
  cases hs with
  | send k e p hs hp => exact h.setSender fun _ => by rw [hs]; exact nofun
  | updated k e ret p hs hp => exact h.setSender fun _ => by rw [hs]; exact nofun
  | post k e hs =>
    intro e' he'
    have hlt := (hreg k e (.inr hs)).1
    simp only [BitVec.getLsbD_or,Word.getLsbD_bit hlt,Bool.or_eq_true,decide_eq_true_iff] at he'
    rcases he' with he' | rfl
    · exact h.setSender (k := k) (p := .raise e) (fun _ => by rw [hs]; exact nofun) e' he'
    · exact .inr (.inr ⟨k,Function.update_self _ _ _⟩)
  | raise k e hs => exact fun _ _ => .inl rfl
  | synced k e hs => exact h.setSender fun _ => by rw [hs]; exact nofun
  | trap hr hm => exact fun _ _ => .inl hm
  | clear hr => exact fun _ _ => .inr (.inl rfl)
  | xchg hr =>
    intro e he
    simp at he
  | done e hr => exact h.setReceiver (by rw [hr]; exact nofun)
  | process w e o hr hw hb ho => exact h.setReceiver (by rw [hr]; exact nofun)
  | skip w e hr hw hb => exact h.setReceiver (by rw [hr]; exact nofun)

theorem Registered.setSender {p : SenderPc} (h : Registered ops s)
    (hp : ∀ e,p=.update e ∨ p=.setBit e → e<x.bits ∧ (ops e).isSome=true) :
    Registered ops (s.setSender k p) := by
  intro j e hj
  by_cases hjk : j=k
  · subst hjk
    simp only [EventState.setSender,Function.update_self] at hj
    exact hp e hj
  · simp only [EventState.setSender,Function.update_of_ne hjk] at hj
    exact h j e hj

theorem Registered.step (h : Registered ops s) (hs : EventStep ops s a ev s') :
    Registered ops s' := by
  cases hs with
  | send k e p hs hp =>
    refine h.setSender fun e' he' => ?_
    rcases hp with rfl | ⟨hlt,ho,rfl | rfl⟩
    · rcases he' with he' | he' <;> cases he'
    · rcases he' with he' | he' <;> cases he'
      exact ⟨hlt,ho⟩
    · rcases he' with he' | he' <;> cases he'
      exact ⟨hlt,ho⟩
  | updated k e ret p hs hp =>
    refine h.setSender fun e' he' => ?_
    rcases hp with rfl | rfl <;> rcases he' with he' | he' <;> cases he'
    exact h k e (.inl hs)
  | post k e hs =>
    exact h.setSender (p := .raise e) fun e' he' => by rcases he' with he' | he' <;> cases he'
  | raise k e hs =>
    exact h.setSender (p := .sync e) fun e' he' => by rcases he' with he' | he' <;> cases he'
  | synced k e hs =>
    exact h.setSender fun e' he' => by rcases he' with he' | he' <;> cases he'
  | trap hr hm => exact h
  | clear hr => exact h
  | xchg hr => exact h
  | done e hr => exact h
  | process w e o hr hw hb ho => exact h
  | skip w e hr hw hb => exact h

/-- What holds in every state the machine reaches. -/
structure EventInv (ops : Nat → Option IpiEventOps) (s : EventState x) : Prop where
  announced : Announced s
  registered : Registered ops s

theorem EventInv.step (h : EventInv ops s) (hs : EventStep ops s a ev s') : EventInv ops s' :=
  ⟨h.announced.step h.registered hs,h.registered.step hs⟩

theorem eventInv_initial (ops : Nat → Option IpiEventOps) :
    EventInv ops (EventState.initial : EventState x) where
  announced e he := by simp [EventState.initial] at he
  registered k e hk := by rcases hk with hk | hk <;> cases hk

/-! ## Posted events are processed -/

/-- The receiver has taken the bit of the event and not reached it yet. -/
def Held (s : EventState x) (e : Nat) : Prop :=
  ∃ w i,s.receiver=.loop w i ∧ i≤e ∧ w.getLsbD (e-i)=true

/-- The event waits in the word or in the copy of a receiver that runs. -/
def Waits (s : EventState x) (e : Nat) : Prop :=
  s.receiver≠.stopped ∧ (s.ipiType.getLsbD e=true ∨ Held s e)

/-- A bound on the steps of the receiver until it processes the event. -/
def stepsLeft (s : EventState x) (e : Nat) : Nat :=
  match s.receiver with
  | .loop w i =>
      if decide (i≤e) && w.getLsbD (e-i) then w.toNat else 2^x.bits+5+w.toNat
  | .lower => if s.msip then 2^x.bits+3 else 2^x.bits+4
  | .clear => 2^x.bits+2
  | .xchg => 2^x.bits+1
  | .stopped => 0

theorem rank_held {w : Word x} {i : Nat} (hr : s.receiver=.loop w i) (hi : i≤e)
    (hb : w.getLsbD (e-i)=true) : stepsLeft s e=w.toNat := by
  simp [stepsLeft,hr,hi,hb]

theorem rank_loop_le {w : Word x} {i : Nat} (hr : s.receiver=.loop w i) :
    stepsLeft s e≤2^x.bits+5+w.toNat := by
  simp only [stepsLeft,hr]
  split_ifs <;> omega

theorem toNat_shift_lt {w : Word x} (hw : w≠0) : (w >>> 1).toNat < w.toNat := by
  have hpos : w.toNat≠0 := fun h => hw (BitVec.eq_of_toNat_eq (by simpa using h))
  rw [BitVec.toNat_ushiftRight,Nat.shiftRight_eq_div_pow]
  omega

/-- The loop moves on from event `i`, which is not the one that waits. -/
theorem loop_next {w : Word x} {i : Nat} (hr : s.receiver=.loop w i) (hw : w≠0)
    (hr' : s'.receiver=.loop (w >>> 1) (i+1)) (ht : s'.ipiType=s.ipiType) (hp : Waits s e)
    (hne : i=e → w.getLsbD 0=false) : Waits s' e ∧ stepsLeft s' e < stepsLeft s e := by
  have hlt := toNat_shift_lt hw
  have hheld : ∀ v n,s.receiver=.loop v n → n≤e → v.getLsbD (e-n)=true →
      n=i ∧ v=w ∧ i+1≤e ∧ (w >>> 1).getLsbD (e-(i+1))=true := by
    intro v n hv hn hb
    rw [hr] at hv
    cases hv
    have hie : i≠e := by
      rintro rfl
      rw [Nat.sub_self,hne rfl] at hb
      cases hb
    refine ⟨rfl,rfl,by omega,?_⟩
    rw [BitVec.getLsbD_ushiftRight]
    have hsum : 1+(e-(i+1))=e-i := by omega
    rwa [hsum]
  refine ⟨⟨by rw [hr']; exact nofun,?_⟩,?_⟩
  · rcases hp.2 with hb | ⟨v,n,hv,hn,hb⟩
    · exact .inl (by rwa [ht])
    · obtain ⟨-,-,hi,hbit⟩ := hheld v n hv hn hb
      exact .inr ⟨_,_,hr',hi,hbit⟩
  · by_cases hh : i≤e ∧ w.getLsbD (e-i)=true
    · obtain ⟨-,-,hi,hbit⟩ := hheld w i hr hh.1 hh.2
      rw [rank_held hr hh.1 hh.2,rank_held hr' hi hbit]
      exact hlt
    · have hs : stepsLeft s e=2^x.bits+5+w.toNat := by
        have hc : (decide (i≤e) && w.getLsbD (e-i))=false := by
          rw [← Bool.not_eq_true,Bool.and_eq_true,decide_eq_true_iff]
          exact hh
        simp [stepsLeft,hr,hc]
      have := rank_loop_le (e := e) hr'
      omega

/-- A step of the receiver processes a waiting event or comes closer to it, unless it stops. -/
theorem receive_progress (hs : EventStep ops s .receive ev s') (hp : Waits s e)
    (hop : (ops e).isSome=true)
    (hhalt : ∀ i o,ops i=some o → o.halts=true → .processed i∉ev) :
    .processed e∈ev ∨ Waits s' e ∧ stepsLeft s' e < stepsLeft s e := by
  have hbit : (∀ w i,s.receiver≠.loop w i) → s.ipiType.getLsbD e=true := fun h =>
    hp.2.resolve_right fun ⟨w,i,hr,_⟩ => h w i hr
  cases hs with
  | trap hr hm =>
    refine .inr ⟨⟨nofun,.inl (hbit fun w i => by rw [hr]; exact nofun)⟩,?_⟩
    simp [stepsLeft,hr,hm]
  | clear hr =>
    refine .inr ⟨⟨nofun,.inl (hbit fun w i => by rw [hr]; exact nofun)⟩,?_⟩
    simp [stepsLeft,hr]
  | xchg hr =>
    have hb := hbit fun w i => by rw [hr]; exact nofun
    refine .inr ⟨⟨nofun,.inr ⟨_,_,rfl,Nat.zero_le e,hb⟩⟩,?_⟩
    rw [rank_held rfl (Nat.zero_le e) hb]
    have := s.ipiType.isLt
    simp only [stepsLeft,hr]
    omega
  | done i hr =>
    have hb : s.ipiType.getLsbD e=true := by
      refine hp.2.resolve_right ?_
      rintro ⟨w,n,hw,-,hb⟩
      rw [hr] at hw
      cases hw
      simp at hb
    refine .inr ⟨⟨nofun,.inl hb⟩,?_⟩
    simp only [stepsLeft,hr]
    split_ifs with h1 h2 <;> simp_all
  | process w i o hr hw hb ho =>
    by_cases hie : i=e
    · subst hie
      exact .inl List.mem_cons_self
    · have hno : o.halts=false := by
        rw [← Bool.not_eq_true]
        exact fun hh => hhalt i o ho hh List.mem_cons_self
      exact .inr (loop_next hr hw (by simp [hno]) rfl hp fun h => absurd h hie)
  | skip w i hr hw hb =>
    refine .inr (loop_next hr hw rfl rfl hp ?_)
    rintro rfl
    refine hb.resolve_right fun hn => ?_
    rw [hn] at hop
    cases hop

/-- A step of a sender moves nothing away. -/
theorem send_keeps (hs : EventStep ops s a ev s') (ha : a≠.receive) (hreg : Registered ops s)
    (hp : Waits s e) :
    Waits s' e ∧ stepsLeft s' e ≤ stepsLeft s e ∧ s'.receiver=s.receiver ∧
      (s.msip=true → s'.msip=true) := by
  have same : ∀ k p,Waits (s.setSender k p) e ∧ stepsLeft (s.setSender k p) e ≤ stepsLeft s e ∧
      (s.setSender k p).receiver=s.receiver ∧ (s.msip=true → (s.setSender k p).msip=true) :=
    fun k p => ⟨hp,Nat.le_refl _,rfl,id⟩
  cases hs with
  | send k e p hs hp => exact same k p
  | updated k e ret p hs hp => exact same k p
  | synced k e hs => exact same k _
  | post k i hs =>
    have hlt := (hreg k i (.inr hs)).1
    refine ⟨⟨hp.1,hp.2.imp_left fun hb => ?_⟩,Nat.le_refl _,rfl,id⟩
    simp only [BitVec.getLsbD_or,hb,Bool.true_or]
  | raise k i hs =>
    refine ⟨hp,?_,rfl,fun _ => rfl⟩
    unfold stepsLeft
    simp only [EventState.setSender]
    split <;> simp_all
    split_ifs <;> omega
  | _ => exact absurd rfl ha

/-- The receiver can go on with a waiting event, or a sender is about to raise the interrupt. -/
theorem pending_enabled (hinv : EventInv ops s) (hp : Waits s e) :
    ((s.receiver≠.lower ∨ s.msip=true) ∧
        ((eventMachine ops).step s .receive).isSome=true) ∨
      s.receiver=.lower ∧ s.msip=false ∧ ∃ k i,s.sender k=.raise i := by
  cases hr : s.receiver with
  | lower =>
    cases hm : s.msip with
    | true => exact .inl ⟨.inr rfl,by simp [eventMachine,receiveStep,hr,hm]⟩
    | false =>
      have hb : s.ipiType.getLsbD e=true :=
        by
        refine hp.2.resolve_right fun h => ?_
        obtain ⟨w,i,hw,-⟩ := h
        rw [hr] at hw
        cases hw
      rcases hinv.announced e hb with h | h | ⟨k,h⟩
      · rw [hm] at h; cases h
      · rw [hr] at h; cases h
      · exact .inr ⟨rfl,rfl,k,e,h⟩
  | clear => exact .inl ⟨.inl (by simp),by simp [eventMachine,receiveStep,hr]⟩
  | xchg => exact .inl ⟨.inl (by simp),by simp [eventMachine,receiveStep,hr]⟩
  | loop w i =>
    refine .inl ⟨.inl (by simp),?_⟩
    simp only [eventMachine,receiveStep,hr]
    split_ifs
    · rfl
    · cases ops i <;> rfl
    · rfl
  | stopped => exact absurd hr hp.1

/-- Before the interrupt is raised the receiver waits and the sender that will raise it stays where
it is. -/
theorem unraised_step {i : Nat} (hl : s.receiver=.lower) (hm : s.msip=false)
    (hk : s.sender k=.raise i) (hreg : Registered ops s) (hp : Waits s e)
    (hs : EventStep ops s a ev s') :
    Waits s' e ∧ (stepsLeft s' e < stepsLeft s e ∨ a≠.run k ∧ stepsLeft s' e=stepsLeft s e ∧
      s'.receiver=.lower ∧ s'.msip=false ∧ s'.sender k=.raise i) := by
  have stay : ∀ j p,s.sender j≠.raise i → (s.setSender j p).sender k=.raise i :=
    fun j p hj => setSender_raise hj hk
  have other : ∀ j,s.sender j≠.raise i → EventAction.run j≠.run k := by
    rintro j hj he
    cases he
    exact hj hk
  have ha : a≠.receive := by
    rintro rfl
    cases hs with
    | trap hr h => rw [hm] at h; cases h
    | _ => simp_all
  obtain ⟨hp',hle,hr',-⟩ := send_keeps hs ha hreg hp
  refine ⟨hp',?_⟩
  cases hs with
  | send j e' p hj hp =>
    exact .inr ⟨by simp,rfl,hl,hm,stay j p (by simp [hj])⟩
  | updated j e' ret p hj hp =>
    exact .inr ⟨by simp,rfl,hl,hm,stay j p (by simp [hj])⟩
  | post j e' hj =>
    have hne : s.sender j≠.raise i := by simp [hj]
    refine .inr ⟨other j hne,?_,hl,hm,stay j _ hne⟩
    simp only [stepsLeft,EventState.setSender,hl,hm]
  | raise j e' hj =>
    left
    simp [stepsLeft,EventState.setSender,hl,hm]
  | synced j e' hj =>
    have hne : s.sender j≠.raise i := by simp [hj]
    exact .inr ⟨other j hne,rfl,hl,hm,stay j _ hne⟩
  | _ => exact absurd rfl ha

section Liveness

variable {E : Execution (eventMachine (x := x) ops)}

/-- The steps of an execution with the inversion of the machine applied. -/
theorem execution_step (E : Execution (eventMachine (x := x) ops)) (n : Nat) :
    E.act n=none ∧ E.state (n+1)=E.state n ∨
      ∃ a,E.act n=some a ∧ EventStep ops (E.state n) a (E.ev n) (E.state (n+1)) := by
  cases ha : E.act n with
  | none => exact .inl ⟨rfl,(E.stutter n ha).1⟩
  | some a => exact .inr ⟨a,rfl,eventMachine_step (E.step n a ha)⟩

/-- A waiting event is processed, or comes closer to it, as long as nobody is treated unfairly. -/
theorem pending_advances (hinv : ∀ n,EventInv ops (E.state n))
    (hrecv : E.WeaklyFair fun a => a=.receive) (hsend : ∀ k,E.WeaklyFair fun a => a=.run k)
    (hhalt : ∀ n i o,ops i=some o → o.halts=true → .processed i∉E.ev n)
    (hop : (ops e).isSome=true) {n : Nat} (hn : Waits (E.state n) e) :
    ∃ m,n ≤ m ∧ (.processed e∈E.ev m ∨
      Waits (E.state (m+1)) e ∧ stepsLeft (E.state (m+1)) e < stepsLeft (E.state n) e) := by
  rcases pending_enabled (hinv n) hn with ⟨hgo,-⟩ | ⟨hl,hm,k,i,hk⟩
  · -- The receiver stays enabled until its next step.
    refine hrecv.leads (P := fun s => EventInv ops s ∧ Waits s e ∧
      stepsLeft s e=stepsLeft (E.state n) e ∧ (s.receiver≠.lower ∨ s.msip=true)) (fun m hP => ?_)
      (fun s hP => ?_) (fun m a hP ha hA => ?_) ⟨hinv n,hn,rfl,hgo⟩
    · obtain ⟨hi,hp,hr,hg⟩ := hP
      rcases execution_step E m with ⟨-,hs⟩ | ⟨a,-,hs⟩
      · rw [hs]
        exact .inr ⟨hi,hp,hr,hg⟩
      · by_cases ha : a=.receive
        · rw [ha] at hs
          have hstep := receive_progress hs hp hop (hhalt m)
          rw [hr] at hstep
          exact .inl hstep
        · obtain ⟨hp',hle,hrecv',hmsip⟩ := send_keeps hs ha hi.registered hp
          rcases Nat.lt_or_eq_of_le hle with hlt | heq
          · exact .inl (.inr ⟨hp',hr ▸ hlt⟩)
          · exact .inr ⟨hi.step hs,hp',heq.trans hr,by rw [hrecv']; exact hg.imp_right hmsip⟩
    · obtain ⟨hi,hp,-,hg⟩ := hP
      rcases pending_enabled hi hp with ⟨-,hen⟩ | ⟨hl,hm,-⟩
      · exact ⟨.receive,rfl,hen⟩
      · rcases hg with hg | hg
        · exact absurd hl hg
        · rw [hm] at hg; cases hg
    · obtain ⟨-,hp,hr,-⟩ := hP
      rcases execution_step E m with ⟨hnone,-⟩ | ⟨b,hb,hs⟩
      · rw [hnone] at ha; cases ha
      · rw [ha] at hb
        cases hb
        rw [hA] at hs
        have hstep := receive_progress hs hp hop (hhalt m)
        rwa [hr] at hstep
  · -- The interrupt is not pending yet: the sender that raises it is enabled until it does.
    refine (hsend k).leads (P := fun s => EventInv ops s ∧ Waits s e ∧
      stepsLeft s e=stepsLeft (E.state n) e ∧ s.receiver=.lower ∧ s.msip=false ∧
      s.sender k=.raise i)
      (fun m hP => ?_) (fun s hP => ?_) (fun m a hP ha hA => ?_) ⟨hinv n,hn,rfl,hl,hm,hk⟩
    · obtain ⟨hi,hp,hr,hl,hm,hk⟩ := hP
      rcases execution_step E m with ⟨-,hs⟩ | ⟨a,-,hs⟩
      · rw [hs]
        exact .inr ⟨hi,hp,hr,hl,hm,hk⟩
      · obtain ⟨hp',hlt | ⟨-,heq,hrest⟩⟩ := unraised_step hl hm hk hi.registered hp hs
        · exact .inl (.inr ⟨hp',hr ▸ hlt⟩)
        · exact .inr ⟨hi.step hs,hp',heq.trans hr,hrest⟩
    · obtain ⟨-,-,-,-,-,hk⟩ := hP
      exact ⟨.run k,rfl,by simp [eventMachine,hk]⟩
    · obtain ⟨hi,hp,hr,hl,hm,hk⟩ := hP
      rcases execution_step E m with ⟨hnone,-⟩ | ⟨b,hb,hs⟩
      · rw [hnone] at ha; cases ha
      · rw [ha] at hb
        cases hb
        obtain ⟨hp',hlt | ⟨hne,-⟩⟩ := unraised_step hl hm hk hi.registered hp hs
        · exact .inr ⟨hp',hr ▸ hlt⟩
        · exact absurd hA hne

/-- A posted event waits. -/
theorem posted_pending (hreg : Registered ops s) (hr : s.receiver≠.stopped)
    (hs : EventStep ops s a ev s') (hev : .posted k e∈ev) :
    Waits s' e ∧ (ops e).isSome=true := by
  cases hs with
  | post j i hj =>
    obtain ⟨hlt,ho⟩ := hreg j i (.inr hj)
    obtain ⟨rfl,rfl⟩ : k=j ∧ e=i := by simpa using hev
    exact ⟨⟨hr,.inl (by simp [Word.getLsbD_bit hlt])⟩,ho⟩
  | process w i o => simp at hev
  | _ => cases hev

/-- Without halt callbacks the receiver never stops. -/
theorem receiver_runs (h0 : (E.state 0).receiver≠.stopped)
    (hhalt : ∀ n i o,ops i=some o → o.halts=true → .processed i∉E.ev n) (n : Nat) :
    (E.state n).receiver≠.stopped := by
  induction n with
  | zero => exact h0
  | succ n ih =>
    rcases execution_step E n with ⟨-,hs⟩ | ⟨a,-,hs⟩
    · rwa [hs]
    · have hno := hhalt n
      generalize E.ev n=ev at hs hno
      generalize E.state (n+1)=s' at hs
      cases hs with
      | process w i o hr hw hb ho =>
        have hf : o.halts=false := by
          rw [← Bool.not_eq_true]
          exact fun hh => hno i o ho hh List.mem_cons_self
        simp [hf]
      | send k e p hs hp => exact ih
      | updated k e ret p hs hp => exact ih
      | post k e hs => exact ih
      | raise k e hs => exact ih
      | synced k e hs => exact ih
      | _ => exact nofun

end Liveness

/-- A set bit that no sender is about to announce has been announced, in every state of every run;
and when no halt callback is called, every posted event is processed later, as long as neither the
receiver nor a sender is kept from going on for ever. -/
theorem ipiEvent_notLost (ops : Nat → Option IpiEventOps) :
    (∀ (tr : List EventTrace) (s : EventState x),
      Machine.Run (eventMachine ops) Machine.anyStep EventState.initial tr s →
      ∀ e,s.ipiType.getLsbD e=true → (∀ k,s.sender k≠.raise e) →
        s.msip=true ∨ s.receiver=.xchg) ∧
    ∀ E : Execution (eventMachine (x := x) ops),E.state 0=EventState.initial →
      E.WeaklyFair (fun a => a=.receive) → (∀ k,E.WeaklyFair fun a => a=.run k) →
      (∀ n i o,ops i=some o → o.halts=true → .processed i∉E.ev n) →
      ∀ n k e,.posted k e∈E.ev n → ∃ m,n < m ∧ .processed e∈E.ev m := by
  have hstep : ∀ (s : EventState x) a s' ev,EventInv ops s →
      (eventMachine ops).step s a=some (s',ev) → EventInv ops s' :=
    fun s a s' ev hi hs => hi.step (eventMachine_step hs)
  refine ⟨fun tr s hrun e he hno => ?_,fun E h0 hrecv hsend hhalt n k e hpost => ?_⟩
  · have hinv := hrun.invariant (P := fun s => EventInv ops s)
      (fun s a s' ev hi hs _ => hstep s a s' ev hi hs) (eventInv_initial ops)
    rcases hinv.announced e he with h | h | ⟨k,h⟩
    · exact .inl h
    · exact .inr h
    · exact absurd h (hno k)
  · have hinv : ∀ m,EventInv ops (E.state m) :=
      Execution.invariant hstep (by rw [h0]; exact eventInv_initial ops)
    have hrun := receiver_runs (E := E) (by rw [h0]; exact nofun) hhalt
    rcases execution_step E n with ⟨hnone,-⟩ | ⟨a,-,hs⟩
    · rw [(E.stutter n hnone).2] at hpost
      cases hpost
    · obtain ⟨hp,hop⟩ := posted_pending (hinv n).registered (hrun n) hs hpost
      obtain ⟨m,hm,hproc⟩ := Execution.leads_of_rank (P := fun s => Waits s e)
        (fun s => stepsLeft s e) (fun j hj => pending_advances hinv hrecv hsend hhalt hop hj) hp
      exact ⟨m,hm,hproc⟩

/-- One event with an `update` callback, as for fence requests. -/
def fenceOps (e : Nat) : Option IpiEventOps := if e=2 then some ⟨true,false⟩ else none

/-- Sender 0 posts event 2; sender 1 does so while the receiver is between its clear and its
exchange, which takes both posts. -/
def twoSenders : List EventAction :=
  [.send 0 2,.updated 0 0,.run 0,.run 0,.send 1 2,.updated 1 1,.receive,.receive,.run 1,.run 1,
    .run 0,.run 1]++List.replicate 9 .receive

theorem twoSenders_notLost : ∃ (E : Execution (eventMachine (x := .rv64) fenceOps)) (n m : Nat),
    .posted 1 2∈E.ev n ∧ n < m ∧ .processed 2∈E.ev m := by
  have hrep : ((eventMachine (x := .rv64) fenceOps).replay (fun _ _ _ => true)
      EventState.initial twoSenders).any (fun r => decide (r.1.receiver=.lower ∧
        r.1.msip=false ∧ .posted 1 2∈r.2))=true := by
    decide +kernel
  have hidle : ∀ k,((eventMachine (x := .rv64) fenceOps).replay (fun _ _ _ => true)
      EventState.initial twoSenders).map (fun r => r.1.sender k)=some .idle
    | 0 => rfl
    | 1 => rfl
    | k+2 => rfl
  cases hr : (eventMachine (x := .rv64) fenceOps).replay (fun _ _ _ => true)
      EventState.initial twoSenders with
  | none => rw [hr] at hrep; cases hrep
  | some r =>
    obtain ⟨s,t⟩ := r
    rw [hr] at hrep hidle
    obtain ⟨hl,hm,hpost⟩ := of_decide_eq_true hrep
    simp only at hl hm
    obtain ⟨E,hE,-⟩ := Execution.exists_of_replay hr
    obtain ⟨n,hn⟩ := (hE.trace _).mp hpost
    have hrecv : E.WeaklyFair fun a => a=.receive := by
      refine hE.weaklyFair ?_
      rintro _ rfl
      simp [eventMachine,receiveStep,hl,hm]
    have hrun : ∀ k,E.WeaklyFair fun a => a=.run k := by
      intro k
      refine hE.weaklyFair ?_
      rintro _ rfl
      have hk : s.sender k=.idle := Option.some.inj (hidle k)
      simp [eventMachine,hk]
    have hhalt : ∀ n i o,fenceOps i=some o → o.halts=true → .processed i∉E.ev n := by
      intro n i o ho hh
      unfold fenceOps at ho
      split_ifs at ho
      cases ho
      cases hh
    obtain ⟨m,hm,hproc⟩ := (ipiEvent_notLost fenceOps).2 E hE.first hrecv hrun hhalt n 1 2 hn
    exact ⟨E,n,m,hn,hm,hproc⟩

end OpenSBI
