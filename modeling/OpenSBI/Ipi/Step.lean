import OpenSBI.Ipi.Machine

namespace OpenSBI

open Framework

variable {x : Xlen}

/-- Calls a hart can start from S-mode: a halt request leaves out the hart itself. -/
structure Sending.Fresh (k : Sending x) (h : Nat) : Prop where
  halt : k.event=.halt → k.all=false ∧
    ∀ j,j<x.bits → k.base+j=h → k.hmask.getLsbD j=false
  smask : k.event=.tlb → k.data.smask=sbiHartmaskInitExcept h

/-- What one step of hart `h` can do, each case with its guard and its effect. -/
inductive IpiStep (c : Harts x) (s : IpiState x) (h : Nat) :
    List (IpiTrace x) → IpiState x → Prop where
  | trap (hp : s.pc h=.smode) (hm : s.msip h=true) : IpiStep c s h [] (s.setPc h (.ipiClear false))
  | call (k : Sending x) (hp : s.pc h=.smode) (hk : k.Fresh h) :
      IpiStep c s h [] (s.setPc h (maskEntry c k))
  | hartStop (hp : s.pc h=.smode) (hst : s.hsm h=.started) : IpiStep c s h [] { s with
      hsm := Function.update s.hsm h .stopPending
      pc := Function.update s.pc h (.ipiClear true) }
  | hartStart (t : Nat) (hp : s.pc h=.smode) (ht : c.scratch t=true) (hst : s.hsm t=.stopped) :
      IpiStep c s h [] { s with
        hsm := Function.update s.hsm t .startPending
        pc := Function.update s.pc h (.startKick t) }
  | refused (hp : s.pc h=.smode) : IpiStep c s h [] s
  | maskRead (k : Sending x) (m : Word x) (hp : s.pc h=.mask k) (hlt : k.target < maskEnd c k) :
      IpiStep c s h [] (s.setPc h (.mask { k with i := k.i+1,m := m }))
  | maskDone (k : Sending x) (m : Word x) (hp : s.pc h=.mask k)
      (hge : ¬k.target < maskEnd c k) (hm : m=if k.all then k.m else k.m &&& k.hmask) :
      IpiStep c s h [] (s.setPc h (.send { k with i := 0,m := m }))
  | sendWindow (k : Sending x) (hp : s.pc h=.send k) (hm : k.m=0) (hall : k.all=true) :
      IpiStep c s h [] (s.setPc h (maskEntry c { k with base := k.base+x.bits }))
  | sendEnd (k : Sending x) (hp : s.pc h=.send k) (hm : k.m=0) (hall : k.all=false) :
      IpiStep c s h [] (s.setPc h .smode)
  | sendTlb (k : Sending x) (hp : s.pc h=.send k) (hm : k.m.getLsbD 0=true)
      (ht : c.scratch k.target=true) (he : k.event=.tlb) :
      IpiStep c s h [] (s.setPc h (.update k))
  | sendEvent (k : Sending x) (hp : s.pc h=.send k) (hm : k.m.getLsbD 0=true)
      (ht : c.scratch k.target=true) (he : k.event≠.tlb) :
      IpiStep c s h [] (s.setPc h (.setBit k))
  | sendSkip (k : Sending x) (hp : s.pc h=.send k) (hm : k.m≠0) :
      IpiStep c s h [] (s.setPc h (.send k.next))
  | updateSelf (k : Sending x) (d : TlbInfo x) (hp : s.pc h=.update k) (ht : k.target=h)
      (hd : d=tlbLimitRange c.tlbRangeFlushLimit k.data) :
      IpiStep c s h [] (s.setPc h (.send { k with data := d }.next))
  | updateNone (k : Sending x) (d : TlbInfo x) (hp : s.pc h=.update k) (ht : k.target≠h)
      (hd : d=tlbLimitRange c.tlbRangeFlushLimit k.data) :
      IpiStep c s h [] (s.setPc h (.enqueue { k with data := d }))
  | merge (k : Sending x) (d : TlbInfo x) (hp : s.pc h=.update k) (ht : k.target≠h)
      (hd : d=tlbLimitRange c.tlbRangeFlushLimit k.data) (f : SbiFifo (TlbInfo x))
      (pre post : List (TlbInfo x)) (e e' : TlbInfo x)
      (hf : (s.tlbFifo k.target).toList=pre++e::post) (hf' : f.toList=pre++e'::post)
      (he : e'.smask=sbiHartmaskOr e.smask d.smask) :
      IpiStep c s h [.enter h k.target] { s with
        tlbFifo := Function.update s.tlbFifo k.target f
        pc := Function.update s.pc h (.setBit { k with data := d }) }
  | enqueue (k : Sending x) (hp : s.pc h=.enqueue k) (f : SbiFifo (TlbInfo x))
      (hf : f.toList=(s.tlbFifo k.target).toList++[k.data]) :
      IpiStep c s h [.enter h k.target] { s with
        tlbFifo := Function.update s.tlbFifo k.target f
        pc := Function.update s.pc h (.setBit k) }
  | enqueueFull (k : Sending x) (hp : s.pc h=.enqueue k)
      (hf : (s.tlbFifo k.target).toList≠[]) :
      IpiStep c s h [] (s.setPc h (.dequeue (.full k) 0))
  | setBit (k : Sending x) (hp : s.pc h=.setBit k) : IpiStep c s h [] { s with
      ipiType := Function.update s.ipiType k.target ((s.ipiType k.target).setBit k.event)
      pc := Function.update s.pc h (.raise k) }
  | raise (k : Sending x) (hp : s.pc h=.raise k) : IpiStep c s h [] { s with
      msip := Function.update s.msip k.target true
      pc := Function.update s.pc h (if k.event=.tlb then .sync k else .send k.next) }
  | ret (k : Sending x) (hp : s.pc h=.sync k) (hs : s.tlbSync h=true) :
      IpiStep c s h [.ret h k.target] { s with
        tlbSync := Function.update s.tlbSync h false
        pc := Function.update s.pc h (.send k.next) }
  | poll (k : Sending x) (hp : s.pc h=.sync k) (hs : s.tlbSync h=false) :
      IpiStep c s h [] (s.setPc h (.dequeue (.wait k) 0))
  | dequeue (r : Caller x) (n : Nat) (hp : s.pc h=.dequeue r n) (e : TlbInfo x)
      (f : SbiFifo (TlbInfo x)) (hf : (s.tlbFifo h).toList=e::f.toList) :
      IpiStep c s h [] { s with
        tlbFifo := Function.update s.tlbFifo h f
        pc := Function.update s.pc h (.localFn r n e) }
  | dequeueEmpty (r : Caller x) (n : Nat) (hp : s.pc h=.dequeue r n)
      (hf : (s.tlbFifo h).toList=[]) : IpiStep c s h [] (s.setPc h r.resume)
  | exec (r : Caller x) (n : Nat) (e : TlbInfo x) (hp : s.pc h=.localFn r n e) :
      IpiStep c s h [.exec h e] (s.setPc h (.ack r n e 0))
  | ack (r : Caller x) (n : Nat) (e : TlbInfo x) (i : Nat) (hp : s.pc h=.ack r n e i)
      (hi : i<SBI_HARTMASK_MAX_BITS) (ht : sbiHartmaskTestHart i e.smask=true)
      (hsc : c.scratch i=true) (hs : s.tlbSync i=false) :
      IpiStep c s h [.ack h i] { s with
        tlbSync := Function.update s.tlbSync i true
        pc := Function.update s.pc h (.ack r n e (i+1)) }
  | ackSpin (r : Caller x) (n : Nat) (e : TlbInfo x) (i : Nat) (hp : s.pc h=.ack r n e i)
      (hi : i<SBI_HARTMASK_MAX_BITS) (ht : sbiHartmaskTestHart i e.smask=true)
      (hsc : c.scratch i=true) (hs : s.tlbSync i=true) : IpiStep c s h [] s
  | ackSkip (r : Caller x) (n : Nat) (e : TlbInfo x) (i : Nat) (hp : s.pc h=.ack r n e i)
      (hi : i<SBI_HARTMASK_MAX_BITS)
      (ht : ¬(sbiHartmaskTestHart i e.smask=true ∧ c.scratch i=true)) :
      IpiStep c s h [] (s.setPc h (.ack r n e (i+1)))
  | ackDone (r : Caller x) (n : Nat) (e : TlbInfo x) (i : Nat) (hp : s.pc h=.ack r n e i)
      (hi : SBI_HARTMASK_MAX_BITS ≤ i) : IpiStep c s h [] (s.setPc h (r.processed n))
  | ipiClear (ex : Bool) (hp : s.pc h=.ipiClear ex) : IpiStep c s h [] { s with
      msip := Function.update s.msip h false
      pc := Function.update s.pc h (.ipiXchg ex) }
  | ipiXchg (ex : Bool) (hp : s.pc h=.ipiXchg ex) : IpiStep c s h [] { s with
      ipiType := Function.update s.ipiType h .none
      pc := Function.update s.pc h (.ipiLoop ex (s.ipiType h)) }
  | ipiSmode (ex : Bool) (w : IpiType) (hp : s.pc h=.ipiLoop ex w) (hw : w.smode=true) :
      IpiStep c s h [] (s.setPc h (.ipiLoop ex { w with smode := false }))
  | ipiHalt (ex : Bool) (w : IpiType) (hp : s.pc h=.ipiLoop ex w) (hs : w.smode=false)
      (hw : w.halt=true) (hst : s.hsm h=.started) : IpiStep c s h [] { s with
        hsm := Function.update s.hsm h .stopPending
        pc := Function.update s.pc h (.ipiClear true) }
  | ipiHaltRefused (ex : Bool) (w : IpiType) (hp : s.pc h=.ipiLoop ex w) (hs : w.smode=false)
      (hw : w.halt=true) (hst : s.hsm h≠.started) :
      IpiStep c s h [] (s.setPc h (.ipiLoop ex { w with halt := false }))
  | ipiTlb (ex : Bool) (w : IpiType) (hp : s.pc h=.ipiLoop ex w) (hs : w.smode=false)
      (hh : w.halt=false) (hw : w.tlb=true) :
      IpiStep c s h [] (s.setPc h (.dequeue (.ipi ex { w with tlb := false }) 0))
  | ipiDone (ex : Bool) (w : IpiType) (hp : s.pc h=.ipiLoop ex w) (hs : w.smode=false)
      (hh : w.halt=false) (hw : w.tlb=false) :
      IpiStep c s h [] (s.setPc h (if ex then .hsmExit else .smode))
  | hsmExit (hp : s.pc h=.hsmExit) (hst : s.hsm h=.stopPending) : IpiStep c s h [] { s with
      hsm := Function.update s.hsm h .stopped
      pc := Function.update s.pc h .hartWait }
  | hsmExitHang (hp : s.pc h=.hsmExit) (hst : s.hsm h≠.stopPending) :
      IpiStep c s h [] (s.setPc h .hang)
  | hartWaitDone (hp : s.pc h=.hartWait) (hst : s.hsm h=.startPending) :
      IpiStep c s h [] (s.setPc h .ipiInitWord)
  | hartWait (hp : s.pc h=.hartWait) : IpiStep c s h [] s
  | ipiInitWord (hp : s.pc h=.ipiInitWord) : IpiStep c s h [] { s with
      ipiType := Function.update s.ipiType h .none
      pc := Function.update s.pc h .ipiInitClear }
  | ipiInitClear (hp : s.pc h=.ipiInitClear) : IpiStep c s h [] { s with
      msip := Function.update s.msip h false
      pc := Function.update s.pc h .tlbInitSync }
  | tlbInitSync (hp : s.pc h=.tlbInitSync) : IpiStep c s h [] { s with
      tlbSync := Function.update s.tlbSync h false
      pc := Function.update s.pc h .tlbInitFifo }
  | tlbInitFifo (hp : s.pc h=.tlbInitFifo) (f : SbiFifo (TlbInfo x)) (hf : f.toList=[]) :
      IpiStep c s h [] { s with
        tlbFifo := Function.update s.tlbFifo h f
        pc := Function.update s.pc h .prepareJump }
  | prepareJump (hp : s.pc h=.prepareJump) (hst : s.hsm h=.startPending) :
      IpiStep c s h [] { s with
        hsm := Function.update s.hsm h .started
        pc := Function.update s.pc h .smode }
  | prepareJumpHang (hp : s.pc h=.prepareJump) (hst : s.hsm h≠.startPending) :
      IpiStep c s h [] (s.setPc h .hang)
  | startKick (t : Nat) (hp : s.pc h=.startKick t) : IpiStep c s h [] { s with
      msip := Function.update s.msip t true
      pc := Function.update s.pc h .smode }

/-- A request that does change a queued entry adds its mask to it. -/
theorem updateFirst_tlbUpdateCb {next : TlbInfo x} {q : List (TlbInfo x)}
    (h : (updateFirst tlbUpdateCb next q).1≠.unchanged) :
    ∃ pre e e' post,q=pre++e::post ∧ (updateFirst tlbUpdateCb next q).2=pre++e'::post ∧
      e'.smask=sbiHartmaskOr e.smask next.smask := by
  rcases merge_cases next q with hall | ⟨pre,e,post,rfl,hpre,hw | hs⟩
  · rw [updateFirst_of_unchanged fun e he => tlbUpdateCb_passedOver (hall e he)] at h
    exact absurd rfl h
  · have hu : updateFirst tlbUpdateCb next (pre++e::post)=(.updated,pre++e.widened next::post) :=
      updateFirst_at (fun o ho => tlbUpdateCb_passedOver (hpre o ho)) (tlbUpdateCb_widens hw)
        (by decide)
    exact ⟨pre,e,e.widened next,post,rfl,by rw [hu],rfl⟩
  · have hu : updateFirst tlbUpdateCb next (pre++e::post)=(.skip,pre++e.joined next::post) :=
      updateFirst_at (fun o ho => tlbUpdateCb_passedOver (hpre o ho)) (tlbUpdateCb_skips hs)
        (by decide)
    exact ⟨pre,e,e.joined next,post,rfl,by rw [hu],rfl⟩

theorem othersMask_self (h : Nat) (hmask hbase : Word x) {j : Nat} (hj : j<x.bits)
    (he : hbase.toNat+j=h) : (othersMask h hmask hbase).getLsbD j=false := by
  have hsub : h-hbase.toNat=j := by omega
  rw [othersMask,if_pos (by omega),hsub,BitVec.getLsbD_and,BitVec.getLsbD_not,
    Word.getLsbD_bit hj]
  simp [hj]

private theorem smodeStep_cases {c : Harts x} {s s' : IpiState x} {h : Nat} {a : Action x}
    {ev : List (IpiTrace x)} (hp : s.pc h=.smode) (hs : smodeStep c s h a=some (s',ev)) :
    IpiStep c s h ev s' := by
  cases a with
  | run => cases hs
  | trap =>
    simp only [smodeStep] at hs
    split_ifs at hs with hm
    obtain ⟨rfl,rfl⟩ := Prod.mk.inj (Option.some.inj hs)
    exact .trap hp hm
  | tlbRequest hmask hbase data =>
    obtain ⟨rfl,rfl⟩ := Prod.mk.inj (Option.some.inj hs)
    exact .call _ hp ⟨fun he => by simp [sendMany] at he,fun _ => rfl⟩
  | sendSmode hmask hbase =>
    obtain ⟨rfl,rfl⟩ := Prod.mk.inj (Option.some.inj hs)
    exact .call _ hp ⟨fun he => by simp [sendMany] at he,fun he => by simp [sendMany] at he⟩
  | sendHalt hmask hbase =>
    simp only [smodeStep] at hs
    split_ifs at hs with hb
    obtain ⟨rfl,rfl⟩ := Prod.mk.inj (Option.some.inj hs)
    refine .call _ hp ⟨fun _ => ⟨by simp [sendMany,hb],fun j hj he => ?_⟩,
      fun he => by simp [sendMany] at he⟩
    simp only [sendMany,hb,if_false] at he ⊢
    exact othersMask_self h hmask hbase hj he
  | hartStop =>
    simp only [smodeStep] at hs
    split_ifs at hs with hst <;> obtain ⟨rfl,rfl⟩ := Prod.mk.inj (Option.some.inj hs)
    · exact .hartStop hp hst
    · exact .refused hp
  | hartStart t =>
    simp only [smodeStep] at hs
    split_ifs at hs with hst <;> obtain ⟨rfl,rfl⟩ := Prod.mk.inj (Option.some.inj hs)
    · simp only [Bool.and_eq_true,decide_eq_true_iff] at hst
      exact .hartStart t hp hst.1 hst.2
    · exact .refused hp

private theorem runStep_cases {c : Harts x} {s s' : IpiState x} {h : Nat}
    {ev : List (IpiTrace x)} {p : Pc x} (hp : s.pc h=p) (hs : runStep c s h p=some (s',ev)) :
    IpiStep c s h ev s' := by
  have inj : ∀ {r : IpiState x × List (IpiTrace x)},some r=some (s',ev) → r.1=s' ∧ r.2=ev :=
    fun he => by cases he; exact ⟨rfl,rfl⟩
  cases p <;> simp only [runStep] at hs
  case smode => cases hs
  case hang => cases hs
  case mask k =>
    by_cases hlt : k.target < maskEnd c k
    · rw [if_pos hlt] at hs
      obtain ⟨rfl,rfl⟩ := inj hs
      exact .maskRead k _ hp hlt
    · rw [if_neg hlt] at hs
      obtain ⟨rfl,rfl⟩ := inj hs
      exact .maskDone k _ hp hlt rfl
  case send k =>
    by_cases hm : k.m=0
    · rw [if_pos hm] at hs
      obtain ⟨rfl,rfl⟩ := inj hs
      cases hall : k.all with
      | true => simpa [hall] using IpiStep.sendWindow (c := c) k hp hm hall
      | false => simpa [hall] using IpiStep.sendEnd (c := c) k hp hm hall
    rw [if_neg hm] at hs
    by_cases ht : (k.m.getLsbD 0 && c.scratch k.target)=true
    · rw [if_pos ht] at hs
      rw [Bool.and_eq_true] at ht
      obtain ⟨rfl,rfl⟩ := inj hs
      by_cases he : k.event=.tlb
      · simpa [he] using IpiStep.sendTlb k hp ht.1 ht.2 he
      · simpa [he] using IpiStep.sendEvent k hp ht.1 ht.2 he
    · rw [if_neg ht] at hs
      obtain ⟨rfl,rfl⟩ := inj hs
      exact .sendSkip k hp hm
  case update k =>
    have htgt : ∀ d,Sending.target { k with data := d }=k.target := fun _ => rfl
    simp only [htgt] at hs
    by_cases ht : k.target=h
    · rw [if_pos ht] at hs
      obtain ⟨rfl,rfl⟩ := inj hs
      exact .updateSelf k _ hp ht rfl
    rw [if_neg ht] at hs
    obtain ⟨hret,hlist⟩ := sbiFifoInplaceUpdate_spec (s.tlbFifo k.target)
      (tlbLimitRange c.tlbRangeFlushLimit k.data) tlbUpdateCb
    by_cases hu : (sbiFifoInplaceUpdate (s.tlbFifo k.target)
        (tlbLimitRange c.tlbRangeFlushLimit k.data) tlbUpdateCb).1=.unchanged
    · rw [if_pos hu] at hs
      obtain ⟨rfl,rfl⟩ := inj hs
      exact .updateNone k _ hp ht rfl
    · rw [if_neg hu] at hs
      obtain ⟨rfl,rfl⟩ := inj hs
      rw [hret] at hu
      obtain ⟨pre,e,e',post,hq,hq',he⟩ := updateFirst_tlbUpdateCb hu
      exact .merge k _ hp ht rfl _ pre post e e' hq (hlist.trans hq') he
  case enqueue k =>
    cases henq : sbiFifoEnqueue (s.tlbFifo k.target) k.data with
    | error e =>
      rw [henq] at hs
      obtain ⟨rfl,rfl⟩ := inj hs
      refine .enqueueFull k hp fun hnil => ?_
      have hlen := (sbiFifoEnqueue_error henq).1
      have hpos := (s.tlbFifo k.target).tail_lt
      rw [hnil] at hlen
      simp only [List.length_nil] at hlen
      omega
    | ok f =>
      rw [henq] at hs
      obtain ⟨rfl,rfl⟩ := inj hs
      exact .enqueue k hp f (sbiFifoEnqueue_spec henq).1
  case setBit k => obtain ⟨rfl,rfl⟩ := inj hs; exact .setBit k hp
  case raise k => obtain ⟨rfl,rfl⟩ := inj hs; exact .raise k hp
  case sync k =>
    split_ifs at hs with hf <;> obtain ⟨rfl,rfl⟩ := inj hs
    · exact .ret k hp hf
    · exact .poll k hp (by simpa using hf)
  case dequeue r n =>
    cases hd : sbiFifoDequeue (s.tlbFifo h) with
    | error e =>
      rw [hd] at hs
      obtain ⟨rfl,rfl⟩ := inj hs
      exact .dequeueEmpty r n hp (sbiFifoDequeue_error hd).1
    | ok ef =>
      obtain ⟨e,f⟩ := ef
      rw [hd] at hs
      obtain ⟨rfl,rfl⟩ := inj hs
      exact .dequeue r n hp e f (sbiFifoDequeue_spec hd).1
  case localFn r n e => obtain ⟨rfl,rfl⟩ := inj hs; exact .exec r n e hp
  case ack r n e i =>
    by_cases hi : SBI_HARTMASK_MAX_BITS ≤ i
    · rw [if_pos hi] at hs
      obtain ⟨rfl,rfl⟩ := inj hs
      exact .ackDone r n e i hp hi
    rw [if_neg hi] at hs
    by_cases ht : (sbiHartmaskTestHart i e.smask && c.scratch i)=true
    · rw [if_pos ht] at hs
      rw [Bool.and_eq_true] at ht
      split_ifs at hs with hf <;> obtain ⟨rfl,rfl⟩ := inj hs
      · exact .ackSpin r n e i hp (Nat.lt_of_not_le hi) ht.1 ht.2 hf
      · exact .ack r n e i hp (Nat.lt_of_not_le hi) ht.1 ht.2 (by simpa using hf)
    · rw [if_neg ht] at hs
      obtain ⟨rfl,rfl⟩ := inj hs
      rw [Bool.and_eq_true] at ht
      exact .ackSkip r n e i hp (Nat.lt_of_not_le hi) ht
  case ipiClear ex => obtain ⟨rfl,rfl⟩ := inj hs; exact .ipiClear ex hp
  case ipiXchg ex => obtain ⟨rfl,rfl⟩ := inj hs; exact .ipiXchg ex hp
  case ipiLoop ex w =>
    by_cases hsm : w.smode=true
    · rw [if_pos hsm] at hs
      obtain ⟨rfl,rfl⟩ := inj hs
      exact .ipiSmode ex w hp hsm
    rw [if_neg hsm] at hs
    rw [Bool.not_eq_true] at hsm
    by_cases hh : w.halt=true
    · rw [if_pos hh] at hs
      split_ifs at hs with hst <;> obtain ⟨rfl,rfl⟩ := inj hs
      · exact .ipiHalt ex w hp hsm hh hst
      · exact .ipiHaltRefused ex w hp hsm hh hst
    rw [if_neg hh] at hs
    rw [Bool.not_eq_true] at hh
    by_cases ht : w.tlb=true
    · rw [if_pos ht] at hs
      obtain ⟨rfl,rfl⟩ := inj hs
      exact .ipiTlb ex w hp hsm hh ht
    · rw [if_neg ht] at hs
      obtain ⟨rfl,rfl⟩ := inj hs
      exact .ipiDone ex w hp hsm hh (by simpa using ht)
  case hsmExit =>
    split_ifs at hs with hst <;> obtain ⟨rfl,rfl⟩ := inj hs
    · exact .hsmExit hp hst
    · exact .hsmExitHang hp hst
  case hartWait =>
    split_ifs at hs with hst <;> obtain ⟨rfl,rfl⟩ := inj hs
    · exact .hartWaitDone hp hst
    · exact .hartWait hp
  case ipiInitWord => obtain ⟨rfl,rfl⟩ := inj hs; exact .ipiInitWord hp
  case ipiInitClear => obtain ⟨rfl,rfl⟩ := inj hs; exact .ipiInitClear hp
  case tlbInitSync => obtain ⟨rfl,rfl⟩ := inj hs; exact .tlbInitSync hp
  case tlbInitFifo => obtain ⟨rfl,rfl⟩ := inj hs; exact .tlbInitFifo hp _ rfl
  case prepareJump =>
    split_ifs at hs with hst <;> obtain ⟨rfl,rfl⟩ := inj hs
    · exact .prepareJump hp hst
    · exact .prepareJumpHang hp hst
  case startKick t => obtain ⟨rfl,rfl⟩ := inj hs; exact .startKick t hp

/-- The inversion of the machine's step: everything a hart can do. -/
theorem ipiMachine_step {c : Harts x} {s s' : IpiState x} {l : Nat × Action x}
    {ev : List (IpiTrace x)} (hs : (ipiMachine c).step s l=some (s',ev)) :
    c.scratch l.1=true ∧ IpiStep c s l.1 ev s' := by
  obtain ⟨h,a⟩ := l
  simp only [ipiMachine] at hs
  split_ifs at hs with hsc
  refine ⟨hsc,?_⟩
  split at hs
  · rename_i hp; exact smodeStep_cases hp hs
  · rename_i hp; exact runStep_cases rfl hs
  · cases hs

end OpenSBI
