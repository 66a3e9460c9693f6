import OpenSBI.Ipi.Ecall

namespace OpenSBI

open Framework

variable {x : Xlen}

namespace Sending

/-- The targets left in the send loop belong to the domain of hart `h`. -/
def Filtered (c : Harts x) (h : Nat) (k : Sending x) : Prop :=
  ∀ j,k.m.getLsbD j=true → c.assigned h (k.target+j)=true

/-- So does the target it is at. -/
def Aimed (c : Harts x) (h : Nat) (k : Sending x) : Prop :=
  c.assigned h k.target=true ∧ k.Filtered c h

variable {c : Harts x} {h : Nat} {k : Sending x}

theorem Filtered.next (hk : k.Filtered c h) : k.next.Filtered c h := by
  intro j hj
  have hbit : k.m.getLsbD (1+j)=true := by
    simpa [Sending.next,BitVec.getLsbD_ushiftRight] using hj
  have ha := hk (1+j) hbit
  rwa [← Nat.add_assoc] at ha

theorem Filtered.aimed (hk : k.Filtered c h) (hm : k.m.getLsbD 0=true) : k.Aimed c h :=
  ⟨hk 0 hm,hk⟩

end Sending

def Caller.Filtered (c : Harts x) (h : Nat) : Caller x → Prop
  | .full k => k.Aimed c h
  | .wait k => k.Aimed c h
  | .ipi _ _ => True

/-- The requests under way go to harts of the domain of hart `h`. -/
def Pc.Filtered (c : Harts x) (h : Nat) : Pc x → Prop
  | .mask k => ∀ j,k.m.getLsbD j=true → c.assigned h (k.base+j)=true
  | .send k => k.Filtered c h
  | .update k => k.Aimed c h
  | .enqueue k => k.Aimed c h
  | .setBit k => k.Aimed c h
  | .raise k => k.Aimed c h
  | .sync k => k.Aimed c h
  | .dequeue r _ => r.Filtered c h
  | .localFn r _ _ => r.Filtered c h
  | .ack r _ _ _ => r.Filtered c h
  | _ => True

/-- The words of hart `t` that other harts must not change. -/
structure Untouched (s s' : IpiState x) (t : Nat) : Prop where
  hsm : s'.hsm t=s.hsm t
  ipiType : s'.ipiType t=s.ipiType t
  tlbFifo : s'.tlbFifo t=s.tlbFifo t

theorem Untouched.refl (s : IpiState x) (t : Nat) : Untouched s s t := ⟨rfl,rfl,rfl⟩

theorem Untouched.trans {s s1 s2 : IpiState x} {t : Nat} (h1 : Untouched s s1 t)
    (h2 : Untouched s1 s2 t) : Untouched s s2 t :=
  ⟨h2.hsm.trans h1.hsm,h2.ipiType.trans h1.ipiType,h2.tlbFifo.trans h1.tlbFifo⟩

/-- A step of hart `h` that keeps to its domain; `owned` says that it has one. -/
structure Confined (c : Harts x) (owned : Prop) (s s' : IpiState x) (h : Nat) : Prop where
  pc : ∀ j,j≠h → s'.pc j=s.pc j
  filtered : (s'.pc h).Filtered c h
  others : owned → ∀ t,t≠h → c.assigned h t≠true → Untouched s s' t

section Steps

variable {c : Harts x} {owned : Prop} {s s' : IpiState x} {h t : Nat} {p : Pc x}
  {ev : List (IpiTrace x)}

theorem Confined.idle (hp : (s.pc h).Filtered c h) : Confined c owned s s h :=
  ⟨fun _ _ => rfl,hp,fun _ t _ _ => .refl s t⟩

theorem Confined.setPc (hp : p.Filtered c h) : Confined c owned s (s.setPc h p) h where
  pc j hj := Function.update_of_ne hj _ _
  filtered := by simpa only [IpiState.setPc,Function.update_self] using hp
  others _ _ _ _ := ⟨rfl,rfl,rfl⟩

/-- A step that changes words of hart `t` only, which is `h` itself or of its domain. -/
theorem Confined.at (p : Pc x) (t : Nat) (hp : p.Filtered c h) (ht : owned → t=h ∨ c.assigned h t=true)
    (hpc : s'.pc=Function.update s.pc h p) (h1 : ∀ j,j≠t → s'.hsm j=s.hsm j)
    (h2 : ∀ j,j≠t → s'.ipiType j=s.ipiType j) (h3 : ∀ j,j≠t → s'.tlbFifo j=s.tlbFifo j) :
    Confined c owned s s' h where
  pc j hj := by rw [hpc,Function.update_of_ne hj]
  filtered := by rwa [hpc,Function.update_self]
  others ho j hj hna := by
    have hne : j≠t := by
      rintro rfl
      rcases ht ho with he | ha
      · exact hj he
      · exact hna ha
    exact ⟨h1 j hne,h2 j hne,h3 j hne⟩

theorem maskEntry_filtered (c : Harts x) (h : Nat) (k : Sending x) :
    (maskEntry c k).Filtered c h := by
  unfold maskEntry
  split_ifs
  · exact trivial
  · intro j hj
    simp at hj

theorem Caller.Filtered.resume {r : Caller x} (hr : r.Filtered c h) : r.resume.Filtered c h := by
  cases r <;> exact hr

theorem Caller.Filtered.processed {r : Caller x} {n : Nat} (hr : r.Filtered c h) :
    (r.processed n).Filtered c h := by
  cases r with
  | ipi ex w => exact hr
  | full k => unfold Caller.processed; simp only; split_ifs; exacts [hr.resume,hr]
  | wait k => unfold Caller.processed; simp only; split_ifs; exacts [hr.resume,hr]

/-- A call enters the firmware with no target selected; only a start acts on one at once. -/
theorem smodeStep_confined {a : Action x} (hp : (s.pc h).Filtered c h)
    (ha : ∀ t,a=.hartStart t → owned → c.assigned h t=true)
    (hs : smodeStep c s h a=some (s',ev)) : Confined c owned s s' h := by
  cases a with
  | run => cases hs
  | trap =>
    simp only [smodeStep] at hs
    split_ifs at hs
    cases hs
    exact .setPc trivial
  | tlbRequest hmask hbase data =>
    cases hs
    exact .setPc (maskEntry_filtered c h _)
  | sendSmode hmask hbase =>
    cases hs
    exact .setPc (maskEntry_filtered c h _)
  | sendHalt hmask hbase =>
    simp only [smodeStep] at hs
    split_ifs at hs
    cases hs
    exact .setPc (maskEntry_filtered c h _)
  | hartStop =>
    simp only [smodeStep] at hs
    split_ifs at hs <;> cases hs
    · exact .at (.ipiClear true) h trivial (fun _ => .inl rfl) rfl
        (fun j hj => Function.update_of_ne hj _ _) (fun _ _ => rfl) fun _ _ => rfl
    · exact .idle hp
  | hartStart t =>
    simp only [smodeStep] at hs
    split_ifs at hs <;> cases hs
    · exact .at (.startKick t) t trivial (fun ho => .inr (ha t rfl ho)) rfl
        (fun j hj => Function.update_of_ne hj _ _) (fun _ _ => rfl) fun _ _ => rfl
    · exact .idle hp

theorem mask_inWindow {k : Sending x} (hlt : k.target < maskEnd c k) : k.i<x.bits := by
  unfold Sending.target maskEnd at hlt
  split_ifs at hlt <;> omega

/-- The firmware keeps to the targets its masks selected. -/
theorem runStep_confined (hp : s.pc h=p) (hf : p.Filtered c h)
    (hs : runStep c s h p=some (s',ev)) : Confined c owned s s' h := by
  have hself : (s.pc h).Filtered c h := by rwa [hp]
  have own : ∀ q : Pc x,q.Filtered c h → s'.pc=Function.update s.pc h q →
      (∀ j,j≠h → s'.hsm j=s.hsm j) → (∀ j,j≠h → s'.ipiType j=s.ipiType j) →
      (∀ j,j≠h → s'.tlbFifo j=s.tlbFifo j) → Confined c owned s s' h :=
    fun q hq => .at q h hq fun _ => .inl rfl
  have upd : ∀ {α : Type} (f : Nat → α) (t : Nat) (v : α) (j : Nat),j≠t →
      Function.update f t v j=f j := fun f t v j hj => Function.update_of_ne hj v f
  cases p <;> simp only [runStep] at hs
  case smode => cases hs
  case hang => cases hs
  case mask k =>
    by_cases hlt : k.target < maskEnd c k
    · rw [if_pos hlt] at hs
      cases hs
      refine .setPc fun j hj => ?_
      simp only at hj
      split_ifs at hj with hbit
      · -- The bit set in this round is the one of a hart of the domain.
        simp only [Bool.and_eq_true] at hbit
        rw [BitVec.getLsbD_or,Word.getLsbD_bit (mask_inWindow hlt),Bool.or_eq_true,
          decide_eq_true_iff] at hj
        rcases hj with hj | rfl
        · exact hf j hj
        · exact hbit.1.1
      · exact hf j hj
    · rw [if_neg hlt] at hs
      cases hs
      refine .setPc fun j hj => hf j ?_
      simp only at hj
      split_ifs at hj
      · exact hj
      · rw [BitVec.getLsbD_and,Bool.and_eq_true] at hj
        exact hj.1
  case send k =>
    split_ifs at hs with hm hall ht he <;> cases hs
    · exact .setPc (maskEntry_filtered c h _)
    · exact .setPc trivial
    · rw [Bool.and_eq_true] at ht
      exact .setPc (hf.aimed ht.1)
    · rw [Bool.and_eq_true] at ht
      exact .setPc (hf.aimed ht.1)
    · exact .setPc hf.next
  case update k =>
    split_ifs at hs with ht hu <;> cases hs
    · exact .setPc hf.2.next
    · exact .setPc hf
    · exact .at (.setBit { k with data := tlbLimitRange c.tlbRangeFlushLimit k.data }) k.target hf
        (fun _ => .inr hf.1) rfl (fun _ _ => rfl) (fun _ _ => rfl) (upd s.tlbFifo _ _)
  case enqueue k =>
    cases henq : sbiFifoEnqueue (s.tlbFifo k.target) k.data with
    | error e =>
      rw [henq] at hs
      cases hs
      exact .setPc hf
    | ok f =>
      rw [henq] at hs
      cases hs
      exact .at (.setBit k) k.target hf (fun _ => .inr hf.1) rfl (fun _ _ => rfl) (fun _ _ => rfl)
        (upd s.tlbFifo _ _)
  case setBit k =>
    cases hs
    exact .at (.raise k) k.target hf (fun _ => .inr hf.1) rfl (fun _ _ => rfl) (upd s.ipiType _ _)
      (fun _ _ => rfl)
  case raise k =>
    cases hs
    refine own _ ?_ rfl (fun _ _ => rfl) (fun _ _ => rfl) (fun _ _ => rfl)
    split_ifs
    · exact hf
    · exact hf.2.next
  case sync k =>
    split_ifs at hs <;> cases hs
    · exact own (.send k.next) hf.2.next rfl (fun _ _ => rfl) (fun _ _ => rfl) (fun _ _ => rfl)
    · exact .setPc hf
  case dequeue r n =>
    cases hd : sbiFifoDequeue (s.tlbFifo h) with
    | error e =>
      rw [hd] at hs
      cases hs
      exact .setPc hf.resume
    | ok ef =>
      rw [hd] at hs
      cases hs
      exact own (.localFn r n ef.1) hf rfl (fun _ _ => rfl) (fun _ _ => rfl) (upd s.tlbFifo _ _)
  case localFn r n e => cases hs; exact .setPc hf
  case ack r n e i =>
    split_ifs at hs <;> cases hs
    · exact .setPc hf.processed
    · exact .idle hself
    · exact own (.ack r n e (i+1)) hf rfl (fun _ _ => rfl) (fun _ _ => rfl) (fun _ _ => rfl)
    · exact .setPc hf
  case ipiClear ex =>
    cases hs
    exact own (.ipiXchg ex) trivial rfl (fun _ _ => rfl) (fun _ _ => rfl) (fun _ _ => rfl)
  case ipiXchg ex =>
    cases hs
    exact own (.ipiLoop ex _) trivial rfl (fun _ _ => rfl) (upd s.ipiType _ _) (fun _ _ => rfl)
  case ipiLoop ex w =>
    split_ifs at hs <;> cases hs
    · exact .setPc trivial
    · exact own (.ipiClear true) trivial rfl (upd s.hsm _ _) (fun _ _ => rfl) (fun _ _ => rfl)
    · exact .setPc trivial
    · exact .setPc trivial
    · exact .setPc trivial
    · exact .setPc trivial
  case hsmExit =>
    split_ifs at hs <;> cases hs
    · exact own .hartWait trivial rfl (upd s.hsm _ _) (fun _ _ => rfl) (fun _ _ => rfl)
    · exact .setPc trivial
  case hartWait =>
    split_ifs at hs <;> cases hs
    · exact .setPc trivial
    · exact .idle hself
  case ipiInitWord =>
    cases hs
    exact own .ipiInitClear trivial rfl (fun _ _ => rfl) (upd s.ipiType _ _) (fun _ _ => rfl)
  case ipiInitClear =>
    cases hs
    exact own .tlbInitSync trivial rfl (fun _ _ => rfl) (fun _ _ => rfl) (fun _ _ => rfl)
  case tlbInitSync =>
    cases hs
    exact own .tlbInitFifo trivial rfl (fun _ _ => rfl) (fun _ _ => rfl) (fun _ _ => rfl)
  case tlbInitFifo =>
    cases hs
    exact own .prepareJump trivial rfl (fun _ _ => rfl) (fun _ _ => rfl) (upd s.tlbFifo _ _)
  case prepareJump =>
    split_ifs at hs <;> cases hs
    · exact own .smode trivial rfl (upd s.hsm _ _) (fun _ _ => rfl) (fun _ _ => rfl)
    · exact .setPc trivial
  case startKick t =>
    cases hs
    exact own .smode trivial rfl (fun _ _ => rfl) (fun _ _ => rfl) (fun _ _ => rfl)

end Steps

/-! ## The handlers -/

section Handlers

variable {c : Firmware x} {s s' : EcallState x} {h : Nat} {ev : List (IpiTrace x)}
  {call : Ecall x}

/-- Hart `h` has a domain. -/
def Firmware.Owned (c : Firmware x) (h : Nat) : Prop := ∃ d,c.table.domainOf h=some d

/-- A step of hart `h` in the machine of the calls. -/
abbrev EcallConfined (c : Firmware x) (s s' : EcallState x) (h : Nat) : Prop :=
  Confined c.toHarts (c.Owned h) s.ipi s'.ipi h

theorem setHsm_confined {st : HsmState} (hp : (s.ipi.pc h).Filtered c.toHarts h) :
    EcallConfined c s (s.setHsm h st) h :=
  .at (s.ipi.pc h) h hp (fun _ => .inl rfl) (Function.update_eq_self h s.ipi.pc).symm
    (fun _ hj => Function.update_of_ne hj _ _) (fun _ _ => rfl) fun _ _ => rfl

theorem enter_confined {a : Action x} (hp : (s.ipi.pc h).Filtered c.toHarts h)
    (hs : s.enter c h a=some (s',ev))
    (ha : ∀ t,a=.hartStart t → c.Owned h → c.assigned h t=true) : EcallConfined c s s' h := by
  obtain ⟨r,hr,he⟩ := Option.map_eq_some_iff.mp hs
  cases he
  exact smodeStep_confined hp ha hr

theorem LegacyCall.action_start (legacy : LegacyCall x) (hmask : Word x) (t : Nat) :
    legacy.action hmask≠.hartStart t := by
  cases legacy <;> exact nofun

theorem legacyLoad_confined {legacy : LegacyCall x} (hp : (s.ipi.pc h).Filtered c.toHarts h)
    (hs : legacyLoad c s h call legacy=some (s',ev)) : EcallConfined c s s' h := by
  unfold legacyLoad at hs
  split_ifs at hs with h0
  · cases hl : call.loadUlong call.a0 with
    | none =>
      rw [hl] at hs
      cases hs
      exact .idle hp
    | some mask =>
      rw [hl] at hs
      exact enter_confined hp hs fun t ht => absurd ht (legacy.action_start mask t)
  · cases hs
    exact .idle hp

theorem legacyHandler_confined (hp : (s.ipi.pc h).Filtered c.toHarts h)
    (hs : sbiEcallLegacyHandler c s h call=some (s',ev)) : EcallConfined c s s' h := by
  unfold sbiEcallLegacyHandler at hs
  split_ifs at hs
  · exact legacyLoad_confined hp hs
  · exact legacyLoad_confined hp hs
  · exact legacyLoad_confined hp hs
  · exact legacyLoad_confined hp hs
  · cases hs; exact .idle hp
  · cases hs; exact .idle hp

theorem rfenceHandler_confined (hp : (s.ipi.pc h).Filtered c.toHarts h)
    (hs : sbiEcallRfenceHandler c s h call=some (s',ev)) : EcallConfined c s s' h := by
  unfold sbiEcallRfenceHandler at hs
  split_ifs at hs
  · cases hs; exact .idle hp
  · cases hd : rfenceInfo call with
    | none =>
      rw [hd] at hs
      cases hs
      exact .idle hp
    | some data =>
      rw [hd] at hs
      exact enter_confined hp hs nofun

theorem ipiHandler_confined (hp : (s.ipi.pc h).Filtered c.toHarts h)
    (hs : sbiEcallIpiHandler c s h call=some (s',ev)) : EcallConfined c s s' h := by
  unfold sbiEcallIpiHandler at hs
  split_ifs at hs
  · exact enter_confined hp hs nofun
  · cases hs; exact .idle hp

/-- The target of a start has passed the test for the domain of the caller. -/
theorem hsmHandler_confined (hp : (s.ipi.pc h).Filtered c.toHarts h)
    (hs : sbiEcallHsmHandler c s h call=some (s',ev)) : EcallConfined c s s' h := by
  unfold sbiEcallHsmHandler at hs
  split at hs
  · simp only at hs
    split_ifs at hs with hc
    · cases hs; exact .idle hp
    · rw [not_not] at hc
      refine enter_confined hp hs fun t ht ho => ?_
      obtain ⟨d,hd⟩ := ho
      cases ht
      rw [c.assigned_eq,hd]
      exact ((hartStartCheck_ok_iff _ _ _).mp hc).assigned d hd
  · split_ifs at hs
    · cases hs; exact .idle hp
    · exact enter_confined hp hs nofun
  · unfold hartSuspend at hs
    split_ifs at hs <;> cases hs
    · exact .idle hp
    · exact setHsm_confined hp
    · exact .idle hp
  · cases hs; exact .idle hp

theorem srstHandler_confined (hp : (s.ipi.pc h).Filtered c.toHarts h)
    (hs : sbiEcallSrstHandler c s h call=some (s',ev)) : EcallConfined c s s' h := by
  unfold sbiEcallSrstHandler at hs
  split_ifs at hs <;> cases hs <;> exact .idle hp

theorem sbiEcallHandler_confined (hp : (s.ipi.pc h).Filtered c.toHarts h)
    (hs : sbiEcallHandler c s h call=some (s',ev)) : EcallConfined c s s' h := by
  unfold sbiEcallHandler at hs
  split_ifs at hs
  · exact rfenceHandler_confined hp hs
  · exact ipiHandler_confined hp hs
  · exact hsmHandler_confined hp hs
  · exact srstHandler_confined hp hs
  · exact legacyHandler_confined hp hs
  · cases hs; exact .idle hp

theorem frameStep_confined {f : Frame x} (hp : (s.ipi.pc h).Filtered c.toHarts h)
    (hs : frameStep c s h f=some (s',ev)) : EcallConfined c s s' h := by
  cases f <;> simp only [frameStep] at hs
  case idle => cases hs
  case hang => cases hs
  case legacyMask legacy i mask =>
    split_ifs at hs
    · cases hs; exact .idle hp
    · exact enter_confined (s := s.setFrame h .idle) hp hs
        fun t ht => absurd ht (legacy.action_start mask t)
  case resetMask ty re hbase i hmask =>
    split_ifs at hs
    · cases hs; exact .idle hp
    · cases hs; exact .idle hp
    · exact enter_confined (s := s.setFrame h (resetWindow c ty re (hbase+x.bits))) hp hs nofun
  case resetStop ty re =>
    split_ifs at hs <;> cases hs
    · exact setHsm_confined (s := s) hp
    · exact .idle hp
  case resetDevice ty re =>
    split_ifs at hs
    cases hs
    exact .idle hp
  case resetExit =>
    cases hs
    exact .setPc trivial
  case suspended =>
    split_ifs at hs <;> cases hs
    · exact setHsm_confined (s := s) hp
    · exact .idle hp
  case resumeStart =>
    split_ifs at hs <;> cases hs
    · exact setHsm_confined (s := s) hp
    · exact .idle hp
  case resumeFinish =>
    split_ifs at hs <;> cases hs
    · exact setHsm_confined (s := s) hp
    · exact .idle hp

theorem hartStep_confined {a : EcallAction x} (hp : (s.ipi.pc h).Filtered c.toHarts h)
    (hs : hartStep c s h a=some (s',ev)) : EcallConfined c s s' h := by
  cases a <;> simp only [hartStep] at hs
  case run =>
    unfold firmwareStep at hs
    split at hs
    · exact frameStep_confined hp hs
    · obtain ⟨r,hr,he⟩ := Option.map_eq_some_iff.mp hs
      cases he
      exact runStep_confined rfl hp hr
  case trap =>
    split at hs
    · exact enter_confined hp hs nofun
    · cases hs
  case ecall call =>
    split at hs
    · exact sbiEcallHandler_confined hp hs
    · cases hs
  case deviceReturns =>
    split at hs
    · cases hs; exact .idle hp
    · cases hs
  case warmBoot =>
    split at hs
    · split_ifs at hs <;> cases hs
      · exact .idle hp
      · exact .setPc trivial
    · cases hs

end Handlers

/-! ## Runs -/

/-- All requests under way keep to the domains of their senders. -/
def EcallState.Filtered (c : Firmware x) (s : EcallState x) : Prop :=
  ∀ h,(s.ipi.pc h).Filtered c.toHarts h

theorem EcallState.Initial.filtered {c : Firmware x} {s : EcallState x} (hs : s.Initial) :
    s.Filtered c := by
  intro h
  rcases hs.ipi.place h with ⟨-,hp⟩ | ⟨-,hp⟩ <;> rw [hp] <;> exact trivial

theorem ecallMachine_step {c : Firmware x} {s s' : EcallState x} {l : Nat × EcallAction x}
    {ev : List (IpiTrace x)} (hf : s.Filtered c)
    (hs : (ecallMachine c).step s l=some (s',ev)) : EcallConfined c s s' l.1 := by
  simp only [ecallMachine] at hs
  split_ifs at hs
  exact hartStep_confined (hf l.1) hs

theorem EcallState.Filtered.step {c : Firmware x} {s s' : EcallState x}
    {l : Nat × EcallAction x} {ev : List (IpiTrace x)} (hf : s.Filtered c)
    (hs : (ecallMachine c).step s l=some (s',ev)) : s'.Filtered c := by
  have hc := ecallMachine_step hf hs
  intro j
  by_cases hj : j=l.1
  · rw [hj]
    exact hc.filtered
  · rw [hc.pc j hj]
    exact hf j

/-- The steps of the harts of the domain at `p`. -/
def Firmware.ByDomain (c : Firmware x) (p : Nat) (_ : EcallState x) (l : Nat × EcallAction x)
    (_ : EcallState x) : Prop :=
  c.table.hartidToDomain l.1=some p

/-- A hart outside a domain is not among the harts its masks select. -/
theorem Firmware.not_assigned {c : Firmware x} {p h t : Nat}
    (hh : c.table.hartidToDomain h=some p) (ht : c.table.hartidToDomain t≠some p) :
    c.Owned h ∧ t≠h ∧ c.assigned h t≠true := by
  have hdom : c.table.domainOf h=some (c.table.store p) := by rw [DomainTable.domainOf,hh]; rfl
  refine ⟨⟨_,hdom⟩,by rintro rfl; exact ht hh,fun ha => ht ?_⟩
  rw [c.assigned_eq,hdom] at ha
  exact c.consistent.assigned p (c.consistent.owner h p hh).1 t ha

/-- Whatever the harts of a domain do in a state the firmware can reach, the hart states, event
words and fence queues of all other harts stay as they are. -/
theorem ecallMachine_isolated (c : Firmware x) (s0 s s' : EcallState x)
    (tr tr' : List (IpiTrace x)) (p : Nat) (hinit : s0.Initial)
    (hrun : Machine.Run (ecallMachine c) Machine.anyStep s0 tr s)
    (hcalls : Machine.Run (ecallMachine c) (c.ByDomain p) s tr' s') (t : Nat)
    (ht : c.table.hartidToDomain t≠some p) : Untouched s.ipi s'.ipi t := by
  have hf : s.Filtered c :=
    hrun.invariant (P := fun s => s.Filtered c) (fun _ _ _ _ hf hs _ => hf.step hs) hinit.filtered
  refine (hcalls.invariant (P := fun s1 => s1.Filtered c ∧ Untouched s.ipi s1.ipi t)
    (fun s1 l s2 ev h1 hs hby => ?_) ⟨hf,.refl _ t⟩).2
  obtain ⟨howned,hne,hna⟩ := Firmware.not_assigned hby ht
  exact ⟨h1.1.step hs,h1.2.trans ((ecallMachine_step h1.1 hs).others howned t hne hna)⟩

/-- The table of two harts, hart 1 in a domain of its own. -/
def splitTable : DomainTable .rv64 :=
  (bootCall bootHarts (rootFwRegion bootScratch) 0
    (sbiDomainInit bootHarts bootScratch 0 fun _ => tableDomain []).2
    (.register 1 { tableDomain [rootFwRegion bootScratch,⟨64,0,7⟩] with
      possibleHarts := some 2 } 2)).2

def splitHarts : Firmware .rv64 where
  lastHartid := 1
  scratch h := decide (h<2)
  scratch_lt h hh := Nat.lt_trans (of_decide_eq_true hh) (by decide)
  assigned h j := sbiDomainIsAssignedHart (splitTable.domainOf h) j
  tlbRangeFlushLimit := 0
  tlbFifoEntries := 8
  tlbFifoEntries_pos := by decide
  table := splitTable
  coldHartid := 0
  consistent := ((DomainTable.consistent_empty _ 0 2).register _ _ _ _).call _
  assigned_eq _ _ := rfl
  resetSupported _ _ := false

def splitState : EcallState .rv64 where
  ipi := {
    hsm := fun _ => .started
    ipiType := fun _ => .none
    msip := fun _ => false
    tlbSync := fun _ => false
    tlbFifo := fun _ => sbiFifoInit zeroTlbInfo 8 (by decide)
    pc := fun _ => .smode }
  frame _ := .idle

/-- The call of the IPI extension for all harts. -/
def sendIpiAll : Ecall .rv64 :=
  ⟨0,Word.max,0,0,0,0,BitVec.ofNat 64 SBI_EXT_IPI,PRV_S,0,false,fun _ => none⟩

/-- Hart 0 posts an interrupt to all harts it can reach: to itself, and hart 1 sees nothing. -/
theorem sendIpiAll_isolated : ∃ s tr,
    Machine.Run (ecallMachine splitHarts) (splitHarts.ByDomain ROOT) splitState tr s ∧
      (s.ipi.ipiType 0).smode=true ∧ Untouched splitState.ipi s.ipi 1 := by
  have hreplay : ((ecallMachine splitHarts).replay
      (fun _ l _ => decide (splitTable.hartidToDomain l.1=some ROOT)) splitState
      ((0,.ecall sendIpiAll)::List.replicate 5 (0,.run))).any
        (fun r => (r.1.ipi.ipiType 0).smode)=true := by
    decide +kernel
  obtain ⟨s,tr,hrun,hset⟩ := Machine.exists_run
    (p := fun (s : EcallState .rv64) _ => (s.ipi.ipiType 0).smode) hreplay
  have hby : Machine.Run (ecallMachine splitHarts) (splitHarts.ByDomain ROOT) splitState tr s :=
    hrun.mono fun _ _ _ => of_decide_eq_true
  have hinit : splitState.Initial :=
    ⟨⟨fun _ => .inl ⟨rfl,rfl⟩,fun _ => rfl,fun _ => rfl,fun _ => rfl,fun _ => rfl⟩,fun _ => rfl⟩
  exact ⟨s,tr,hby,hset,
    ecallMachine_isolated splitHarts splitState splitState s [] tr ROOT hinit .nil hby 1
      (by decide)⟩

end OpenSBI
