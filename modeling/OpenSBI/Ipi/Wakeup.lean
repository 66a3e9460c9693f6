import OpenSBI.Ipi.Refinement

namespace OpenSBI

open Framework

variable {x : Xlen}

/-- A hart in `sbi_ipi_exit()` before it takes its event word for the last time. -/
def Pc.exiting : Pc x → Bool
  | .ipiClear true => true
  | .ipiXchg true => true
  | _ => false

/-- A hart that does not look at its FIFO any more before `sbi_tlb_init()` empties it. -/
def Pc.deaf : Pc x → Bool
  | .ipiLoop ex w => ex && !w.tlb
  | .hsmExit => true
  | .hartWait => true
  | .ipiInitWord => true
  | .ipiInitClear => true
  | .tlbInitSync => true
  | .tlbInitFifo => true
  | .hang => true
  | _ => false

def Caller.inIpi : Caller x → Bool
  | .ipi _ _ => true
  | _ => false

/-- A hart that is about to empty its FIFO in `tlb_process()`. A halt event in the same word comes
first, and does not return on a started hart. -/
def Pc.draining : Pc x → Bool
  | .ipiLoop ex w => w.tlb && (!w.halt || ex)
  | .dequeue r _ => r.inIpi
  | .localFn r _ _ => r.inIpi
  | .ack r _ _ _ => r.inIpi
  | _ => false

/-- The hart waited for once the event bit of the request is set. -/
def Pc.posted : Pc x → Option Nat
  | .setBit _ => none
  | p => p.waiting

/-- The interrupt of hart `b` is the next step. -/
def Pc.raises (b : Nat) : Pc x → Prop
  | .raise k => k.target=b
  | _ => False

/-- The entry of hart `a` is in the FIFO of hart `b`. -/
def Queued (s : IpiState x) (a b : Nat) : Prop :=
  ∃ e∈(s.tlbFifo b).toList,sbiHartmaskTestHart a e.smask=true

/-- Hart `b` has, or will get, an interrupt for the events in its word. -/
def Pending (c : Harts x) (s : IpiState x) (b : Nat) : Prop :=
  s.msip b=true ∨ (∃ d,c.scratch d=true ∧ (s.pc d).raises b) ∨ ∃ ex,s.pc b=.ipiXchg ex

/-- Hart `b` will come to empty its FIFO. -/
def Woken (c : Harts x) (s : IpiState x) (b : Nat) : Prop :=
  ((s.ipiType b).tlb=true ∧ ((s.ipiType b).halt=true → (s.pc b).exiting=true) ∧ Pending c s b) ∨
  (s.pc b).draining=true

/-- Hart `b` hears of what is put into its FIFO. -/
structure Heard (c : Harts x) (s : IpiState x) (b : Nat) : Prop where
  awake : (s.tlbFifo b).toList≠[] → (s.pc b).deaf=false
  woken : ∀ a,(s.pc a).posted=some b → Queued s a b → Woken c s b

/-- What keeps the next step of hart `h` from cutting hart `b` off from its requests: it enters no
request into the FIFO of a hart that does not look at it any more, it does not take its last event
word between the entering of a request and the setting of its bit, and it does not bring a halt and
a fence event together in the word of a hart with entries in its FIFO. -/
def Heeds (s : IpiState x) (h b : Nat) : Prop :=
  match s.pc h with
  | .enqueue k => k.target=b → (s.pc b).deaf=false
  | .ipiXchg true => h=b → (s.ipiType b).tlb=false → (s.tlbFifo b).toList=[]
  | .setBit k => k.target=b → k.event≠.smode → ((s.ipiType b).setBit k.event).tlb=true →
      ((s.ipiType b).setBit k.event).halt=true →
      (s.pc b).exiting=true ∨ (s.pc b).draining=true ∨ (s.tlbFifo b).toList=[]
  | _ => True

variable {c : Harts x} {s s' : IpiState x} {h b : Nat} {ev : List (IpiTrace x)}

/-- What a step of hart `h` does to the words of another hart `b`. -/
structure TouchOther (s s' : IpiState x) (h b : Nat) : Prop where
  pc : s'.pc b=s.pc b
  fifo : s'.tlbFifo b=s.tlbFifo b ∨
    ((s.tlbFifo b).toList≠[] ∨ ∃ k,s.pc h=.enqueue k ∧ k.target=b) ∧ (s'.pc h).posted=none ∧
      ∀ a,Queued s' a b → a=h ∨ Queued s a b
  ipiType : s'.ipiType b=s.ipiType b ∨
    ∃ k,s.pc h=.setBit k ∧ k.target=b ∧ s'.ipiType b=(s.ipiType b).setBit k.event
  msip : s.msip b=true ∨ (s.pc h).raises b → s'.msip b=true

theorem queued_merge {k : Sending x} {f : SbiFifo (TlbInfo x)} {pre post : List (TlbInfo x)}
    {e e' : TlbInfo x} {d : Hartmask} (hf : (s.tlbFifo k.target).toList=pre++e::post)
    (hf' : f.toList=pre++e'::post) (he : e'.smask=sbiHartmaskOr e.smask d)
    (hd : d=sbiHartmaskInitExcept h) {a : Nat}
    (hq : ∃ i∈f.toList,sbiHartmaskTestHart a i.smask=true) : a=h ∨ Queued s a k.target := by
  obtain ⟨i,hi,ha⟩ := hq
  unfold Queued
  rw [hf]
  rw [hf',List.mem_append,List.mem_cons] at hi
  rcases hi with hi | rfl | hi
  · exact .inr ⟨i,by simp [hi],ha⟩
  · rw [he,hd,testHart_or,testHart_initExcept,Bool.or_eq_true,Bool.and_eq_true,
      decide_eq_true_iff,decide_eq_true_iff] at ha
    rcases ha with ha | ha
    · exact .inr ⟨e,by simp,ha⟩
    · exact .inl ha.2
  · exact .inr ⟨i,by simp [hi],ha⟩

theorem queued_push {k : Sending x} {f : SbiFifo (TlbInfo x)}
    (hf : f.toList=(s.tlbFifo k.target).toList++[k.data])
    (hd : k.data.smask=sbiHartmaskInitExcept h) {a : Nat}
    (hq : ∃ i∈f.toList,sbiHartmaskTestHart a i.smask=true) : a=h ∨ Queued s a k.target := by
  obtain ⟨i,hi,ha⟩ := hq
  rw [hf,List.mem_append,List.mem_singleton] at hi
  rcases hi with hi | rfl
  · exact .inr ⟨i,hi,ha⟩
  · rw [hd,testHart_initExcept,Bool.and_eq_true,decide_eq_true_iff,decide_eq_true_iff] at ha
    exact .inl ha.2

theorem IpiStep.touchOther (hs : IpiStep c s h ev s') (hp : Placed s) (hb : b≠h) :
    TouchOther s s' h b := by
  have hok := hp h
  have hpc := (step_other hs hb).1
  cases hs with
  | merge k d hk ht hd f pre post e e' hf hf' he =>
    rw [hk] at hok
    refine ⟨hpc,?_,.inl rfl,?_⟩
    · by_cases hbt : k.target=b
      · subst hbt
        refine .inr ⟨.inl (by simp [hf]),by simp [Pc.posted],fun a hq => ?_⟩
        simp only [Queued,Function.update_self] at hq
        refine queued_merge hf hf' he ?_ hq
        rw [hd,limitRange_smask]
        exact hok.2.sourced hok.2.event
      · exact .inl (Function.update_of_ne (Ne.symm hbt) _ _)
    · rintro (hm | hr)
      · exact hm
      · rw [hk] at hr; exact hr.elim
  | enqueue k hk f hf =>
    rw [hk] at hok
    refine ⟨hpc,?_,.inl rfl,?_⟩
    · by_cases hbt : k.target=b
      · refine .inr ⟨.inr ⟨k,hk,hbt⟩,by simp [Pc.posted],fun a hq => ?_⟩
        subst hbt
        simp only [Queued,Function.update_self] at hq
        exact queued_push hf (hok.2.sourced hok.2.event) hq
      · exact .inl (Function.update_of_ne (Ne.symm hbt) _ _)
    · rintro (hm | hr)
      · exact hm
      · rw [hk] at hr; exact hr.elim
  | setBit k hk =>
    refine ⟨hpc,.inl rfl,?_,?_⟩
    · by_cases hbt : k.target=b
      · subst hbt
        exact .inr ⟨k,hk,rfl,Function.update_self _ _ _⟩
      · exact .inl (Function.update_of_ne (Ne.symm hbt) _ _)
    · rintro (hm | hr)
      · exact hm
      · rw [hk] at hr; exact hr.elim
  | raise k hk =>
    refine ⟨hpc,.inl rfl,.inl rfl,?_⟩
    intro hm
    by_cases hbt : k.target=b
    · subst hbt; exact Function.update_self _ _ _
    · simp only [Function.update_of_ne (Ne.symm hbt)]
      rcases hm with hm | hr
      · exact hm
      · rw [hk] at hr; exact absurd hr hbt
  | startKick t hk =>
    refine ⟨hpc,.inl rfl,.inl rfl,?_⟩
    intro hm
    by_cases hbt : b=t
    · subst hbt; exact Function.update_self _ _ _
    · simp only [Function.update_of_ne hbt]
      rcases hm with hm | hr
      · exact hm
      · rw [hk] at hr; exact hr.elim
  | _ =>
    refine ⟨hpc,.inl ?_,.inl ?_,?_⟩ <;>
      simp_all [IpiState.setPc,Pc.raises]

/-- A hart that waits for another one waits for a hart other than itself. -/
theorem Placed.posted_ne (hp : Placed s) {a : Nat} (ha : (s.pc a).posted=some b) : a≠b := by
  have hok := hp a
  cases hpc : s.pc a with
  | raise k =>
    rw [hpc] at ha hok
    simp only [Pc.posted,Pc.waiting] at ha
    split_ifs at ha with he
    exact Option.some.inj ha ▸ (hok.2.2 (by rw [he]; decide)).symm
  | sync k =>
    rw [hpc] at ha hok
    exact Option.some.inj ha ▸ hok.2.away.symm
  | dequeue r n =>
    rw [hpc] at ha hok
    cases r <;> first | exact Option.some.inj ha ▸ hok.2.away.symm | cases ha
  | localFn r n e =>
    rw [hpc] at ha hok
    cases r <;> first | exact Option.some.inj ha ▸ hok.2.away.symm | cases ha
  | ack r n e i =>
    rw [hpc] at ha hok
    cases r <;> first | exact Option.some.inj ha ▸ hok.2.away.symm | cases ha
  | _ => rw [hpc] at ha; cases ha

@[simp] theorem Caller.resume_posted (r : Caller x) : r.resume.posted=r.waiting := by
  cases r <;> rfl

@[simp] theorem Caller.processed_posted (r : Caller x) (n : Nat) :
    (r.processed n).posted=r.waiting := by
  cases r <;> simp only [Caller.processed] <;> (try split_ifs) <;> rfl

@[simp] theorem maskEntry_posted (k : Sending x) : (maskEntry c k).posted=none := by
  unfold maskEntry
  split_ifs <;> rfl

/-- A request becomes posted when its bit is set. -/
theorem IpiStep.posted (hs : IpiStep c s h ev s') (hb : (s'.pc h).posted=some b) :
    (s.pc h).posted=some b ∨
      ∃ k,s.pc h=.setBit k ∧ k.target=b ∧ k.event=.tlb ∧ s'=
        { s with
          ipiType := Function.update s.ipiType k.target ((s.ipiType k.target).setBit k.event)
          pc := Function.update s.pc h (.raise k) } := by
  cases hs with
  | setBit k hp =>
    simp only [Function.update_self,Pc.posted,Pc.waiting] at hb
    split_ifs at hb with he
    exact .inr ⟨k,hp,Option.some.inj hb,he,rfl⟩
  | refused hp => exact .inl hb
  | ackSpin r n e i hp => exact .inl hb
  | hartWait hp => exact .inl hb
  | raise k hp =>
    refine .inl ?_
    rw [hp]
    simp only [Function.update_self] at hb
    split_ifs at hb with he
    · simpa [Pc.posted,Pc.waiting,he] using hb
    · cases hb
  | ipiDone ex w hp => cases ex <;> simp [IpiState.setPc,Pc.posted,Pc.waiting] at hb
  | call k hp => simp [IpiState.setPc] at hb
  | sendWindow k hp => simp [IpiState.setPc] at hb
  | dequeueEmpty r n hp =>
    simp only [IpiState.setPc,Function.update_self,Caller.resume_posted] at hb
    rw [hp]
    exact .inl hb
  | ackDone r n e i hp =>
    simp only [IpiState.setPc,Function.update_self,Caller.processed_posted] at hb
    rw [hp]
    exact .inl hb
  | _ => simp_all [IpiState.setPc,Pc.posted,Pc.waiting,Caller.waiting]

/-- Steps of another hart keep hart `b` on its way to its FIFO. -/
private theorem Woken.step_other (hw : Woken c s b) (ht : TouchOther s s' h b)
    (hs : IpiStep c s h ev s') (hh : Heeds s h b) (hf : (s.tlbFifo b).toList≠[]) :
    Woken c s' b := by
  rcases hw with ⟨htlb,hhalt,hpend⟩ | hd
  · have hpend' : Pending c s' b := by
      rcases hpend with hm | ⟨d,hd,hr⟩ | ⟨ex,hx⟩
      · exact .inl (ht.msip (.inl hm))
      · by_cases hdh : d=h
        · exact .inl (ht.msip (.inr (hdh ▸ hr)))
        · exact .inr (.inl ⟨d,hd,by rw [(OpenSBI.step_other hs hdh).1]; exact hr⟩)
      · exact .inr (.inr ⟨ex,by rw [ht.pc]; exact hx⟩)
    rcases ht.ipiType with hty | ⟨k,hk,hkb,hty⟩
    · exact .inl ⟨by rw [hty]; exact htlb,by rw [hty,ht.pc]; exact hhalt,hpend'⟩
    · have htlb' : ((s.ipiType b).setBit k.event).tlb=true := by
        cases hev : k.event <;> simp [IpiType.setBit,htlb]
      simp only [Heeds,hk] at hh
      by_cases hsm : k.event=.smode
      · refine .inl ⟨by rw [hty]; exact htlb',?_,hpend'⟩
        rw [hty,ht.pc,hsm]
        exact hhalt
      · by_cases hha : ((s.ipiType b).setBit k.event).halt=true
        · rcases hh hkb hsm htlb' hha with hex | hdr | hnil
          · exact .inl ⟨by rw [hty]; exact htlb',fun _ => by rw [ht.pc]; exact hex,hpend'⟩
          · exact .inr (by rw [ht.pc]; exact hdr)
          · exact absurd hnil hf
        · exact .inl ⟨by rw [hty]; exact htlb',fun he => absurd (hty ▸ he) hha,hpend'⟩
  · exact .inr (by rw [ht.pc]; exact hd)

private theorem Heard.step_other (hr : Heard c s b) (hs : IpiStep c s h ev s') (hp : Placed s)
    (hsc : c.scratch h=true) (hb : b≠h) (hh : Heeds s h b) : Heard c s' b := by
  have ht := hs.touchOther hp hb
  refine ⟨fun hne => ?_,fun a ha hq => ?_⟩
  · rw [ht.pc]
    rcases ht.fifo with hf | ⟨hne' | ⟨k,hk,hkb⟩,-,-⟩
    · exact hr.awake (hf ▸ hne)
    · exact hr.awake hne'
    · simp only [Heeds,hk] at hh
      exact hh hkb
  · by_cases hah : a=h
    · subst hah
      -- the calling hart: its request was posted before, or is posted by this step
      rcases hs.posted ha with ha0 | ⟨k,hk,hkb,he,rfl⟩
      · have hfifo : s'.tlbFifo b=s.tlbFifo b := by
          rcases ht.fifo with hf | ⟨-,hnone,-⟩
          · exact hf
          · rw [hnone] at ha; cases ha
        have hq0 : Queued s a b := by unfold Queued at hq ⊢; rwa [hfifo] at hq
        exact (hr.woken a ha0 hq0).step_other ht hs hh (List.ne_nil_of_mem hq0.choose_spec.1)
      · have hne : (s.tlbFifo b).toList≠[] := List.ne_nil_of_mem hq.choose_spec.1
        simp only [Heeds,hk] at hh
        subst hkb
        have hpc : Function.update s.pc a (.raise k) k.target=s.pc k.target :=
          Function.update_of_ne hb _ _
        have hpend : Pending c { s with
            ipiType := Function.update s.ipiType k.target ((s.ipiType k.target).setBit k.event)
            pc := Function.update s.pc a (.raise k) } k.target :=
          .inr (.inl ⟨a,hsc,by simp [Pc.raises]⟩)
        have htlb : ((s.ipiType k.target).setBit k.event).tlb=true := by rw [he]; rfl
        by_cases hha : ((s.ipiType k.target).setBit k.event).halt=true
        · rcases hh rfl (by rw [he]; decide) htlb hha with hex | hdr | hnil
          · exact .inl ⟨by simpa using htlb,fun _ => by simpa only [hpc] using hex,hpend⟩
          · exact .inr (by simpa only [hpc] using hdr)
          · exact absurd hnil hne
        · exact .inl ⟨by simpa using htlb,fun he => absurd (by simpa using he) hha,hpend⟩
    · have hpca := (OpenSBI.step_other hs hah).1
      rw [hpca] at ha
      have hq0 : Queued s a b := by
        rcases ht.fifo with hf | ⟨-,-,hsub⟩
        · unfold Queued at hq ⊢; rwa [hf] at hq
        · exact (hsub a hq).resolve_left hah
      exact (hr.woken a ha hq0).step_other ht hs hh (List.ne_nil_of_mem hq0.choose_spec.1)

/-- Hart `b` moves on by itself, without a look at its event word. -/
private theorem Woken.own {p p' : Pc x} (hw : Woken c s b) (hp : s.pc b=p)
    (hp' : s'.pc=Function.update s.pc b p')
    (htlb : (s'.ipiType b).tlb=(s.ipiType b).tlb) (hhalt : (s'.ipiType b).halt=(s.ipiType b).halt)
    (hm : s.msip b=true ∨ p.raises b → s'.msip b=true) (hx : ∀ ex,p≠.ipiXchg ex)
    (hd : p.draining=true → p'.draining=true) (he : p.exiting=true → p'.exiting=true) :
    Woken c s' b := by
  have hpb : s'.pc b=p' := by rw [hp',Function.update_self]
  unfold Woken at hw ⊢
  rw [hp] at hw
  rw [htlb,hhalt,hpb]
  rcases hw with ⟨ht,hh,hpend⟩ | hdr
  · refine .inl ⟨ht,fun ha => he (hh ha),?_⟩
    rcases hpend with hms | ⟨d,hdsc,hr⟩ | ⟨ex,hex⟩
    · exact .inl (hm (.inl hms))
    · by_cases hdb : d=b
      · subst hdb
        exact .inl (hm (.inr (hp ▸ hr)))
      · exact .inr (.inl ⟨d,hdsc,by rw [hp',Function.update_of_ne hdb]; exact hr⟩)
    · exact absurd (hp.symm.trans hex) (hx ex)
  · exact .inr (hd hdr)

@[simp] theorem Caller.resume_deaf (k : Sending x) :
    (Caller.full k).resume.deaf=false ∧ (Caller.wait k).resume.deaf=false := ⟨rfl,rfl⟩

@[simp] theorem Caller.processed_deaf (r : Caller x) (n : Nat) : (r.processed n).deaf=false := by
  cases r <;> simp only [Caller.processed] <;> (try split_ifs) <;> rfl

@[simp] theorem maskEntry_deaf (k : Sending x) : (maskEntry c k).deaf=false := by
  unfold maskEntry
  split_ifs <;> rfl

/-- A hart does not go where it is deaf with entries in its FIFO. -/
private theorem Heard.awake_self (hr : Heard c s b) (hs : IpiStep c s b ev s') (hp : Placed s)
    (hh : Heeds s b b) (hne : (s'.tlbFifo b).toList≠[]) : (s'.pc b).deaf=false := by
  have haw := hr.awake
  have hok := hp b
  cases hs with
  | refused hp => exact haw hne
  | ackSpin r n e i hp => exact haw hne
  | hartWait hp => exact haw hne
  | call k hp => simp [IpiState.setPc]
  | sendWindow k hp => simp [IpiState.setPc]
  | raise k hp => simp only [Function.update_self]; split_ifs <;> rfl
  | ackDone r n e i hp => simp [IpiState.setPc]
  | dequeueEmpty r n hp hf => exact absurd hf hne
  | ipiXchg ex hp =>
    cases ex with
    | false => simp [Pc.deaf]
    | true =>
      simp only [Heeds,hp] at hh
      cases ht : (s.ipiType b).tlb with
      | true => simp [Pc.deaf,ht]
      | false => exact absurd (hh trivial ht) hne
  | tlbInitFifo hp f hf => simp [Pc.deaf]
  | prepareJumpHang hp hst => rw [hp] at hok; exact absurd hok hst
  | ipiDone ex w hp hsm hhalt hw =>
    have := haw hne
    cases ex <;> simp_all [IpiState.setPc,Pc.deaf]
  | _ => simp_all [IpiState.setPc,Pc.deaf]

private theorem queued_self (hs : IpiStep c s b ev s') (hp : Placed s) {a : Nat}
    (hq : Queued s' a b) : Queued s a b := by
  have hok := hp b
  cases hs with
  | merge k d hk ht hd f =>
    have hsame : Function.update s.tlbFifo k.target f b=s.tlbFifo b :=
      Function.update_of_ne (Ne.symm ht) _ _
    simpa only [Queued,hsame] using hq
  | enqueue k hk f =>
    rw [hk] at hok
    have hsame : Function.update s.tlbFifo k.target f b=s.tlbFifo b :=
      Function.update_of_ne (Ne.symm hok.2.away) _ _
    simpa only [Queued,hsame] using hq
  | dequeue r n hk e f hf =>
    unfold Queued at hq ⊢
    rw [hf]
    obtain ⟨e',he',ha⟩ := hq
    exact ⟨e',List.mem_cons_of_mem _ (by simpa using he'),ha⟩
  | tlbInitFifo hk f hf =>
    obtain ⟨e',he',-⟩ := hq
    simp [hf] at he'
  | _ => exact hq

private theorem Caller.processed_draining {r : Caller x} (n : Nat) (h : r.inIpi=true) :
    (r.processed n).draining=true := by
  cases r <;> first | rfl | cases h

private theorem msip_update {t : Nat} (h : s.msip b=true ∨ t=b) :
    Function.update s.msip t true b=true := by
  by_cases hb : t=b
  · rw [hb,Function.update_self]
  · rw [Function.update_of_ne (Ne.symm hb)]
    exact h.resolve_right hb

/-- A step of hart `b` itself keeps it on its way to its FIFO. -/
private theorem Woken.step_self (hw : Woken c s b) (hs : IpiStep c s b ev s') (hp : Placed s)
    (hr : Heard c s b) (hne : (s.tlbFifo b).toList≠[]) : Woken c s' b := by
  have hok := hp b
  have hdeaf := hr.awake hne
  cases hs with
  | refused hpc => exact hw
  | ackSpin r n e i hpc => exact hw
  | hartWait hpc => exact hw
  | dequeueEmpty r n hpc hf => exact absurd hf hne
  | ipiClear ex hpc =>
    rcases hw with ⟨ht,hh,-⟩ | hd
    · refine .inl ⟨ht,fun ha => ?_,.inr (.inr ⟨ex,by simp⟩)⟩
      have := hh ha
      rw [hpc] at this
      simp only [Function.update_self]
      cases ex <;> simp_all [Pc.exiting]
    · rw [hpc] at hd; cases hd
  | ipiXchg ex hpc =>
    rcases hw with ⟨ht,hh,-⟩ | hd
    · refine .inr ?_
      rw [hpc] at hh
      cases hha : (s.ipiType b).halt <;> cases ex <;> simp_all [Pc.draining,Pc.exiting]
    · rw [hpc] at hd; cases hd
  | setBit k hpc =>
    rw [hpc] at hok
    refine hw.own hpc rfl ?_ ?_ (fun hm => hm.resolve_right id) (by simp) (by simp [Pc.draining])
      (by simp [Pc.exiting]) <;>
    · by_cases hkb : k.target=b
      · have hsm : k.event=.smode := by
          by_contra hne
          exact hok.2.2 hne hkb
        subst hkb
        simp [hsm,IpiType.setBit]
      · simp [Function.update_of_ne (Ne.symm hkb)]
  | ipiInitWord hpc => rw [hpc] at hdeaf; cases hdeaf
  | ipiInitClear hpc => rw [hpc] at hdeaf; cases hdeaf
  | tlbInitSync hpc => rw [hpc] at hdeaf; cases hdeaf
  | tlbInitFifo hpc => rw [hpc] at hdeaf; cases hdeaf
  | hsmExit hpc => rw [hpc] at hdeaf; cases hdeaf
  | hsmExitHang hpc => rw [hpc] at hdeaf; cases hdeaf
  | hartWaitDone hpc => rw [hpc] at hdeaf; cases hdeaf
  | prepareJumpHang hpc hst => rw [hpc] at hok; exact absurd hok hst
  | raise k hpc =>
    refine hw.own hpc rfl rfl rfl msip_update ?_ ?_ ?_ <;> simp [Pc.draining,Pc.exiting]
  | startKick t hpc =>
    refine hw.own hpc rfl rfl rfl (fun hm => msip_update (hm.imp_right False.elim)) ?_ ?_ ?_ <;>
      simp [Pc.draining,Pc.exiting]
  | ackDone r n e i hpc =>
    exact hw.own hpc rfl rfl rfl (fun hm => hm.resolve_right id) (by simp)
      (Caller.processed_draining n) (by simp [Pc.exiting])
  | ipiHalt ex w hpc hsm hha hst =>
    rw [hpc,hst] at hok
    cases ex with
    | true => cases hok
    | false =>
      refine hw.own hpc rfl rfl rfl (fun hm => hm.resolve_right id) (by simp) ?_ (fun _ => rfl)
      simp [Pc.draining,hha]
  | ipiHaltRefused ex w hpc hsm hha hst =>
    rw [hpc] at hok
    cases ex with
    | false => exact absurd hok hst
    | true =>
      refine hw.own hpc rfl rfl rfl (fun hm => hm.resolve_right id) (by simp) ?_
        (by simp [Pc.exiting])
      simp [Pc.draining]
  | _ =>
    refine hw.own rfl rfl rfl rfl ?_ ?_ ?_ ?_ <;>
      simp_all [IpiState.setPc,Pc.draining,Pc.exiting,Pc.raises,Pc.deaf,Caller.inIpi]

private theorem Heard.step_self (hr : Heard c s b) (hs : IpiStep c s b ev s') (hp : Placed s)
    (hh : Heeds s b b) : Heard c s' b := by
  refine ⟨hr.awake_self hs hp hh,fun a ha hq => ?_⟩
  have hab : a≠b := (hp.step hs).posted_ne ha
  rw [(OpenSBI.step_other hs hab).1] at ha
  have hq0 := queued_self hs hp hq
  exact (hr.woken a ha hq0).step_self hs hp hr (List.ne_nil_of_mem hq0.choose_spec.1)

/-- Every step that heeds hart `b` leaves it hearing of its requests. -/
theorem Heard.step (hr : Heard c s b) (hs : IpiStep c s h ev s') (hp : Placed s)
    (hsc : c.scratch h=true) (hh : Heeds s h b) : Heard c s' b := by
  by_cases hb : b=h
  · subst hb
    exact hr.step_self hs hp hh
  · exact hr.step_other hs hp hsc hb hh

theorem IpiState.Initial.heard (hi : s.Initial) : Heard c s b := by
  refine ⟨fun hne => absurd (hi.tlbFifo b) hne,?_⟩
  rintro a - ⟨e,he,-⟩
  rw [hi.tlbFifo b] at he
  cases he

/-- A hart that re-initialises its FIFO finds it empty. -/
theorem Heard.not_reset (hr : Heard c s b) (hpc : s.pc b=.tlbInitFifo) :
    (s.tlbFifo b).toList=[] := by
  by_contra hne
  have := hr.awake hne
  rw [hpc] at this
  cases this

end OpenSBI
