import OpenSBI.Hsm.Machine

namespace OpenSBI

open Framework

variable {x : Xlen} {c : HsmConfig x} {h : Nat} {done : Bool} {me me' : HsmHart x}
  {a : HsmAction x} {ev : List (HsmEvent x)}

/-- The state word a sanity branch guards, at the position where it is looked at. -/
def SanityBranch.Guards (b : SanityBranch) (p : HsmPc x) (st : HsmState) : Prop :=
  match b with
  | .exitState => p=.exit .hsmExit ∧ st=.stopPending
  | .prepareNextJump => p=.warm .prepareNextJump ∧ st=.startPending
  | .resumeStart => p=.resume .resumeStart ∧ st=.suspended
  | .resumeFinish => p=.resume .resumeFinish ∧ st=.resumePending
  | .suspendState => (∃ k,p=.suspend k .suspend) ∧ st=.started
  | .suspendRestore => (∃ k,p=.suspend k .restore) ∧ st=.suspended
  | .exitReturned => False
  | .stopState => False

/-- Positions from which a hart goes to `sbi_hart_hang()` for another reason than its state word. -/
def HsmPc.mayHang : HsmPc x → Bool
  | .warm .sbiInit => true
  | .warm .getState => true
  | .warm .platformInit => true
  | .resume .reinit => true
  | .switch _ (.switchMode _ _ _) => true
  | .exit .hsmExit => true
  | .cold .platformInit => true
  | _ => false

/-- Positions at which `sbi_hsm_hart_stop()` can be called: a halt IPI is also processed on the way
out. -/
def HsmPc.stoppable : HsmPc x → Bool
  | .lower _ => true
  | .exit .hsmExit => true
  | _ => false

/-- The loop of `sbi_domain_finalize()` has a start to make for the domain at `p`. -/
structure HsmConfig.Boots (c : HsmConfig x) (p : Nat) : Prop where
  lt : (c.table.store p).bootHartid<SBI_HARTMASK_MAX_BITS
  possible : (c.table.store p).possibleHarts.any
    (sbiHartmaskTestHart (c.table.store p).bootHartid)=true
  domain : c.table.hartidToDomain (c.table.store p).bootHartid=some p
  assigned : sbiHartmaskTestHart (c.table.store p).bootHartid (c.table.store p).assignedHarts=true

/-- The call `sbi_domain_finalize()` makes for a domain. -/
def SbiDomain.bootCall (d : SbiDomain x) : StartCall x :=
  ⟨d.bootHartid,d.nextAddr,d.nextMode,d.nextArg1⟩

/-- What one step of hart `h` can do to the hart itself, each case with its guard and effect. -/
inductive OwnStep (c : HsmConfig x) (h : Nat) (done : Bool) (me : HsmHart x) :
    List (HsmEvent x) → HsmHart x → Prop where
  | powerUp (hp : me.pc=.warm .off) : OwnStep c h done me [] (me.goto (.warm .sbiInit))
  | sbiInit (hp : me.pc=.warm .sbiInit) (hs : c.scratch h=true) :
      OwnStep c h done me [] (me.goto (.warm .waitForColdboot))
  | coldbootDone (hp : me.pc=.warm .waitForColdboot) (hd : done=true) :
      OwnStep c h done me [] (me.goto (.warm .getState))
  | getState (hp : me.pc=.warm .getState) (hst : me.state≠.suspended)
      (ha : sbiDomainIsAssignedHart (c.table.domainOf h) h=true) :
      OwnStep c h done me [] (me.goto (.warm .hartWait))
  | getSuspended (hp : me.pc=.warm .getState) (hst : me.state=.suspended)
      (ha : sbiDomainIsAssignedHart (c.table.domainOf h) h=true) :
      OwnStep c h done me [] (me.goto (.resume .resumeStart))
  | claimed (hp : me.pc=.warm .hartWait) (hst : me.state=.startPending) :
      OwnStep c h done me [] (me.goto (.warm .platformInit))
  | sleep (hp : me.pc=.warm .hartWait) (hst : me.state≠.startPending) :
      OwnStep c h done me [] (me.goto (.warm .wfi))
  | wake (hp : me.pc=.warm .wfi) : OwnStep c h done me [] (me.goto (.warm .hartWait))
  | platformInit (hp : me.pc=.warm .platformInit) :
      OwnStep c h done me [] { me with wakeup := false,pc := .warm .initCount }
  | initCount (hp : me.pc=.warm .initCount) :
      OwnStep c h done me [] { me with initCount := me.initCount+1,pc := .warm .prepareNextJump }
  | prepareNextJump (hp : me.pc=.warm .prepareNextJump) (hst : me.state=.startPending) :
      OwnStep c h done me [] (me.jump false)
  | resumeStart (hp : me.pc=.resume .resumeStart) (hst : me.state=.suspended) :
      OwnStep c h done me [] { me with state := .resumePending,pc := .resume .reinit }
  | reinit (hp : me.pc=.resume .reinit) : OwnStep c h done me [] (me.goto (.resume .resumeFinish))
  | resumeFinish (hp : me.pc=.resume .resumeFinish) (hst : me.state=.resumePending) :
      OwnStep c h done me [] (me.jump true)
  | loadArg1 (r : Bool) (hp : me.pc=.switch r .nextArg1) :
      OwnStep c h done me [] (me.goto (.switch r (.nextAddr me.nextArg1)))
  | loadAddr (r : Bool) (arg1 : Word x) (hp : me.pc=.switch r (.nextAddr arg1)) :
      OwnStep c h done me [] (me.goto (.switch r (.nextMode arg1 me.nextAddr)))
  | loadMode (r : Bool) (arg1 addr : Word x) (hp : me.pc=.switch r (.nextMode arg1 addr)) :
      OwnStep c h done me [] (me.goto (.switch r (.switchMode arg1 addr me.nextMode)))
  | enter (r : Bool) (arg1 addr : Word x) (mode : Nat)
      (hp : me.pc=.switch r (.switchMode arg1 addr mode))
      (hm : mode=PRV_M ∨ mode=PRV_S ∨ mode=PRV_U) :
      OwnStep c h done me [.enter h r arg1 addr mode] (me.goto (.lower mode))
  | hang (hp : me.pc.mayHang=true) : OwnStep c h done me [] (me.goto .hang)
  | fail (b : SanityBranch) (st : HsmState) (hb : b.Guards me.pc st) (hst : me.state≠st) :
      OwnStep c h done me [.sanity h b] (me.goto .hang)
  | stopReturned (hp : me.pc=.exit .hartStop) :
      OwnStep c h done me [.sanity h .exitReturned] (me.goto .hang)
  | visitSkip (p : Nat) (rest : List Nat) (hp : me.pc=.cold (.finalize (p::rest)))
      (hb : ¬c.Boots p) : OwnStep c h done me [] (me.goto (.cold (.finalize rest)))
  | visitOwn (p : Nat) (rest : List Nat) (hp : me.pc=.cold (.finalize (p::rest))) (hb : c.Boots p)
      (hd : (c.table.store p).bootHartid=c.coldHartid) :
      OwnStep c h done me [] { me with
        nextAddr := (c.table.store p).nextAddr,nextMode := (c.table.store p).nextMode
        nextArg1 := (c.table.store p).nextArg1,pc := .cold (.finalize rest) }
  | visitStart (p : Nat) (rest : List Nat) (hp : me.pc=.cold (.finalize (p::rest)))
      (hb : c.Boots p) (hd : (c.table.store p).bootHartid≠c.coldHartid)
      (hc : hartStartCheck none c.scratch (c.table.store p).bootCall=SBI_OK) :
      OwnStep c h done me [.call h (c.table.store p).bootCall SBI_OK]
        (me.goto (.start ⟨(c.table.store p).bootCall,.finalize rest,.claim⟩))
  | visitRefused (p : Nat) (rest : List Nat) (call : StartCall x) (rc : Int)
      (hp : me.pc=.cold (.finalize (p::rest))) (hc : hartStartCheck none c.scratch call=rc)
      (hrc : rc≠SBI_OK) : OwnStep c h done me [.call h call rc,.ret h call rc] (me.goto .hang)
  | visited (hp : me.pc=.cold (.finalize [])) :
      OwnStep c h done me [] (me.goto (.cold .platformInit))
  | coldInit (hp : me.pc=.cold .platformInit) : OwnStep c h done me [] (me.goto (.cold .wakeHarts))
  | stay (hp : me.pc.stoppable=true) : OwnStep c h done me [] me
  | refused (mode : Nat) (call : StartCall x) (rc : Int) (hp : me.pc=.lower mode)
      (hc : hartStartCheck (c.table.domainOf h) c.scratch call=rc) (hrc : rc≠SBI_OK) :
      OwnStep c h done me [.call h call rc,.ret h call rc] me
  | hartStart (mode : Nat) (call : StartCall x) (hp : me.pc=.lower mode) (hm : call.smode=mode)
      (hc : hartStartCheck (c.table.domainOf h) c.scratch call=SBI_OK) :
      OwnStep c h done me [.call h call SBI_OK] (me.goto (.start ⟨call,.ecall mode,.claim⟩))
  | hartStop (hp : me.pc.stoppable=true) (hst : me.state=.started) :
      OwnStep c h done me [] { me with state := .stopPending,pc := .exit .hsmExit }
  | stopRefused (hp : me.pc.stoppable=true) (hst : me.state≠.started) :
      OwnStep c h done me [.sanity h .stopState] me
  | systemReset (mode : Nat) (hp : me.pc=.lower mode) (hst : me.state=.started) :
      OwnStep c h done me [] { me with state := .stopPending,pc := .exit .systemReset }
  | resetRefused (mode : Nat) (hp : me.pc=.lower mode) (hst : me.state≠.started) :
      OwnStep c h done me [.sanity h .stopState] (me.goto (.exit .systemReset))
  | hartSuspend (k : Suspending x) (hp : me.pc=.lower k.rmode)
      (hk : hartSuspendCheck (c.table.domainOf h) k.suspendType k.raddr k.rmode=SBI_OK) :
      OwnStep c h done me [] (me.goto (.suspend k .nextArg1))
  | storeArg1 (k : Suspending x) (hp : me.pc=.suspend k .nextArg1) :
      OwnStep c h done me [] { me with nextArg1 := k.priv,pc := .suspend k .nextAddr }
  | storeAddr (k : Suspending x) (hp : me.pc=.suspend k .nextAddr) :
      OwnStep c h done me [] { me with nextAddr := k.raddr,pc := .suspend k .nextMode }
  | storeMode (k : Suspending x) (hp : me.pc=.suspend k .nextMode) :
      OwnStep c h done me [] { me with nextMode := k.rmode,pc := .suspend k .suspend }
  | suspended (k : Suspending x) (hp : me.pc=.suspend k .suspend) (hst : me.state=.started) :
      OwnStep c h done me [] { me with state := .suspended,pc := .suspend k .device }
  | suspendRefused (k : Suspending x) (hp : me.pc=.suspend k .suspend) (hst : me.state≠.started) :
      OwnStep c h done me [.sanity h .suspendState] (me.goto (.suspend k .restore))
  | deviceReturned (k : Suspending x) (hp : me.pc=.suspend k .device) :
      OwnStep c h done me [] (me.goto (.suspend k .restore))
  | deviceResumed (k : Suspending x) (hp : me.pc=.suspend k .device)
      (hn : nonRetentive k.suspendType=true) : OwnStep c h done me [] (me.goto (.warm .sbiInit))
  | restored (k : Suspending x) (hp : me.pc=.suspend k .restore) (hst : me.state=.suspended) :
      OwnStep c h done me [] { me with state := .started,pc := .lower k.rmode }
  | resetReturned (hp : me.pc=.exit .systemReset) :
      OwnStep c h done me [] (me.goto (.exit .hsmExit))
  | stopped (p : HsmPc x) (hp : me.pc=.exit .hsmExit) (hst : me.state=.stopPending)
      (hq : p=.exit .hartStop ∨ p=.warm .sbiInit) :
      OwnStep c h done me [] { me with state := .stopped,pc := p }
  | powerDown (hp : me.pc=.exit .hartStop) : OwnStep c h done me [] (me.goto (.warm .off))

theorem warmStep_own {p : WarmPc} (hp : me.pc=.warm p)
    (hs : warmStep c h done me p a=some (me',ev)) : OwnStep c h done me ev me' := by
  cases p <;> cases a <;> simp only [warmStep,reduceCtorEq] at hs
  case off.powerUp => cases hs; exact .powerUp hp
  case off.run => split_ifs at hs; cases hs; exact .powerUp hp
  case sbiInit.run =>
    split_ifs at hs with h1 h2
    · cases hs; exact .hang (by rw [hp]; rfl)
    · cases hs; exact .sbiInit hp (by simpa using h1)
    · cases hs; exact .hang (by rw [hp]; rfl)
  case waitForColdboot.run => split_ifs at hs with h1; cases hs; exact .coldbootDone hp h1
  case getState.run =>
    split_ifs at hs with h1 h2
    · cases hs; exact .hang (by rw [hp]; rfl)
    · cases hs
      simp only [Bool.not_eq_true',Bool.not_eq_false,Bool.and_eq_true] at h1
      exact .getSuspended hp h2 h1.1
    · cases hs
      simp only [Bool.not_eq_true',Bool.not_eq_false,Bool.and_eq_true] at h1
      exact .getState hp h2 h1.1
  case hartWait.run =>
    split_ifs at hs with h1
    · cases hs; exact .claimed hp h1
    · cases hs; exact .sleep hp h1
  case wfi.run => split_ifs at hs; cases hs; exact .wake hp
  case wfi.interrupt => cases hs; exact .wake hp
  case platformInit.run => cases hs; exact .platformInit hp
  case platformInit.initFails => cases hs; exact .hang (by rw [hp]; rfl)
  case initCount.run => cases hs; exact .initCount hp
  case prepareNextJump.run =>
    split_ifs at hs with h1
    · cases hs; exact .prepareNextJump hp h1
    · cases hs; exact .fail .prepareNextJump .startPending ⟨hp,rfl⟩ h1

theorem resumeStep_own {p : ResumePc} (hp : me.pc=.resume p)
    (hs : resumeStep h me p a=some (me',ev)) : OwnStep c h done me ev me' := by
  cases p <;> cases a <;> simp only [resumeStep,reduceCtorEq] at hs
  case resumeStart.run =>
    split_ifs at hs with h1
    · cases hs; exact .resumeStart hp h1
    · cases hs; exact .fail .resumeStart .suspended ⟨hp,rfl⟩ h1
  case reinit.run => cases hs; exact .reinit hp
  case reinit.initFails => cases hs; exact .hang (by rw [hp]; rfl)
  case resumeFinish.run =>
    split_ifs at hs with h1
    · cases hs; exact .resumeFinish hp h1
    · cases hs; exact .fail .resumeFinish .resumePending ⟨hp,rfl⟩ h1

theorem switchStep_own {r : Bool} {st : SwitchStage x} (hp : me.pc=.switch r st)
    (hs : switchStep c h me r st a=some (me',ev)) : OwnStep c h done me ev me' := by
  cases st <;> cases a <;> simp only [switchStep,reduceCtorEq] at hs
  case nextArg1.run => cases hs; exact .loadArg1 r hp
  case nextAddr.run => cases hs; exact .loadAddr r _ hp
  case nextMode.run => cases hs; exact .loadMode r _ _ hp
  case switchMode.run =>
    split_ifs at hs with h1
    · cases hs; exact .enter r _ _ _ hp (h1.imp_right And.left)
    · cases hs; exact .hang (by rw [hp]; rfl)

theorem suspendStep_own {k : Suspending x} {st : SuspendStage} (hp : me.pc=.suspend k st)
    (hs : suspendStep c h me k st a=some (me',ev)) : OwnStep c h done me ev me' := by
  cases st <;> cases a <;> simp only [suspendStep,reduceCtorEq] at hs
  case nextArg1.run => cases hs; exact .storeArg1 k hp
  case nextAddr.run => cases hs; exact .storeAddr k hp
  case nextMode.run => cases hs; exact .storeMode k hp
  case suspend.run =>
    split_ifs at hs with h1
    · cases hs; exact .suspended k hp h1
    · cases hs; exact .suspendRefused k hp h1
  case device.deviceReturns ret =>
    split_ifs at hs with h1 h2
    · cases hs; exact .deviceResumed k hp (by rw [h2.2]; decide)
    · cases hs; exact .deviceReturned k hp
  case device.deviceResumes => split_ifs at hs with h1; cases hs; exact .deviceResumed k hp h1.2
  case restore.run =>
    split_ifs at hs with h1
    · cases hs; exact .restored k hp h1
    · cases hs; exact .fail .suspendRestore .suspended ⟨⟨k,hp⟩,rfl⟩ h1

theorem hartStop_own (hp : me.pc.stoppable=true) (hs : hartStop c h me=(me',ev)) :
    OwnStep c h done me ev me' := by
  unfold hartStop at hs
  split_ifs at hs with h1 h2
  · cases hs; exact .stay hp
  · cases hs; exact .hartStop hp h2
  · cases hs; exact .stopRefused hp h2

theorem exitStep_own {p : ExitPc} (hp : me.pc=.exit p) (hs : exitStep c h me p a=some (me',ev)) :
    OwnStep c h done me ev me' := by
  cases p <;> cases a <;> simp only [exitStep,reduceCtorEq] at hs
  case systemReset.run => cases hs; exact .resetReturned hp
  case hsmExit.run =>
    split_ifs at hs with h1 h2 h3
    · cases hs; exact .hang (by rw [hp]; rfl)
    · cases hs; exact .stopped _ hp h2 (.inl rfl)
    · cases hs; exact .stopped _ hp h2 (.inr rfl)
    · cases hs; exact .fail .exitState .stopPending ⟨hp,rfl⟩ h2
  case hsmExit.hartStop => exact hartStop_own (by rw [hp]; rfl) (Option.some.inj hs)
  case hartStop.run => cases hs; exact .powerDown hp
  case hartStop.stopReturns => cases hs; exact .stopReturned hp

theorem lowerStep_own {mode : Nat} (hp : me.pc=.lower mode)
    (hs : lowerStep c h me mode a=some (me',ev)) : OwnStep c h done me ev me' := by
  have hstop : me.pc.stoppable=true := by rw [hp]; rfl
  cases a <;> simp only [lowerStep,reduceCtorEq] at hs
  case hartStart a0 a1 a2 =>
    split_ifs at hs with h1
    · cases hs
      rw [h1]
      exact .hartStart mode _ hp rfl h1
    · cases hs; exact .refused mode _ _ hp rfl h1
  case hartStop => exact hartStop_own hstop (Option.some.inj hs)
  case systemReset =>
    split_ifs at hs with h1 h2
    · cases hs; exact .systemReset mode hp h2
    · cases hs; exact .resetRefused mode hp h2
  case hartSuspend a0 a1 a2 =>
    split_ifs at hs with h1
    · cases hs; exact .hartSuspend ⟨toU32 a0,a1,mode,a2⟩ hp h1
    · cases hs; exact .stay hstop

theorem finalizeDomain_own {p : Nat} {rest : List Nat} (hp : me.pc=.cold (.finalize (p::rest)))
    (hs : finalizeDomain c h me p rest=(me',ev)) : OwnStep c h done me ev me' := by
  unfold finalizeDomain at hs
  simp only at hs
  split_ifs at hs with h1 h2 h3 h4 h5
  · cases hs; exact .visitSkip p rest hp fun hb => absurd hb.lt (Nat.not_lt.mpr h1)
  · cases hs; exact .visitSkip p rest hp fun hb => by simp [hb.possible] at h2
  · cases hs; exact .visitSkip p rest hp fun hb => by simp [hb.domain,hb.assigned] at h3
  all_goals
    have hb : c.Boots p := by
      simp only [not_or,Decidable.not_not,Bool.not_eq_true',Bool.not_eq_false] at h3 h2
      exact ⟨Nat.lt_of_not_le h1,h2,h3.1,h3.2⟩
  · cases hs; exact .visitOwn p rest hp hb h4
  · cases hs
    rw [h5]
    exact .visitStart p rest hp hb h4 h5
  · cases hs; exact .visitRefused p rest _ _ hp rfl h5

theorem coldStep_own {p : ColdPc} (hp : me.pc=.cold p)
    (hs : coldStep c h me p a=some (me',ev)) : OwnStep c h done me ev me' := by
  cases p with
  | finalize l =>
    cases l with
    | nil =>
      cases a <;> simp only [coldStep,reduceCtorEq] at hs
      cases hs; exact .visited hp
    | cons q rest =>
      cases a <;> simp only [coldStep,reduceCtorEq] at hs
      exact finalizeDomain_own hp (Option.some.inj hs)
  | platformInit =>
    cases a <;> simp only [coldStep,reduceCtorEq] at hs
    · cases hs; exact .coldInit hp
    · cases hs; exact .hang (by rw [hp]; rfl)
  | wakeHarts => cases a <;> simp only [coldStep,reduceCtorEq] at hs

theorem ownStep_own {p : HsmPc x} (hp : me.pc=p) (hs : ownStep c h done me p a=some (me',ev)) :
    OwnStep c h done me ev me' := by
  cases p with
  | lower mode => exact lowerStep_own hp hs
  | start k => cases hs
  | suspend k st => exact suspendStep_own hp hs
  | exit p => exact exitStep_own hp hs
  | warm p => exact warmStep_own hp hs
  | resume p => exact resumeStep_own hp hs
  | switch r st => exact switchStep_own hp hs
  | cold p => exact coldStep_own hp hs
  | hang => cases hs

namespace HsmSystem

variable {s : HsmSystem x} {i j t : Nat} {p : HsmPc x}

theorem hart_put (s : HsmSystem x) (t : Nat) (me : HsmHart x) (j : Nat) :
    (s.put t me).hart j=if j=t then me else s.hart j := Function.update_apply _ _ _ _

@[simp] theorem hart_put_self (s : HsmSystem x) (t : Nat) (me : HsmHart x) :
    (s.put t me).hart t=me := Function.update_self _ _ _

theorem hart_put_of_ne (hj : j≠t) : (s.put t me).hart j=s.hart j := Function.update_of_ne hj _ _

@[simp] theorem put_coldbootDone : (s.put t me).coldbootDone=s.coldbootDone := rfl

theorem hart_goto (s : HsmSystem x) (i : Nat) (p : HsmPc x) (j : Nat) :
    (s.goto i p).hart j={ s.hart j with pc := if j=i then p else (s.hart j).pc } := by
  rw [goto,hart_put]
  split_ifs with hj
  · rw [hj]; rfl
  · rfl

@[simp] theorem pc_goto_self (s : HsmSystem x) (i : Nat) (p : HsmPc x) :
    ((s.goto i p).hart i).pc=p := by
  rw [hart_goto,if_pos rfl]

@[simp] theorem goto_coldbootDone : (s.goto i p).coldbootDone=s.coldbootDone := rfl

/-- An update of a hart that is not about its position, in front of a `goto`. -/
theorem pc_goto_put (hme : me.pc=(s.hart t).pc) (j : Nat) :
    (((s.put t me).goto i p).hart j).pc=if j=i then p else (s.hart j).pc := by
  rw [hart_goto,hart_put]
  by_cases hj : j=t
  · subst hj; simp [hme]
  · simp [hj]

theorem state_goto_put (hme : me.state=(s.hart t).state) (j : Nat) :
    (((s.put t me).goto i p).hart j).state=(s.hart j).state := by
  rw [hart_goto,hart_put]
  by_cases hj : j=t
  · subst hj; simp [hme]
  · simp [hj]

theorem put_self (s : HsmSystem x) (t : Nat) : s.put t (s.hart t)=s := by
  rw [put,Function.update_eq_self]

end HsmSystem

/-- One shared access of the call `k` of hart `i`. -/
inductive StartStep (c : HsmConfig x) (s : HsmSystem x) (i : Nat) (k : Starting x) :
    List (HsmEvent x) → HsmSystem x → Prop where
  | claimed (hk : k.stage=.claim) (hst : (s.hart k.call.hartid).state=.stopped) :
      StartStep c s i k []
        ((s.put k.call.hartid { s.hart k.call.hartid with state := .startPending }).goto i
          (.start { k with stage := .initCount }))
  | busy (rc : Int) (hk : k.stage=.claim) (hst : (s.hart k.call.hartid).state≠.stopped)
      (hrc : rc=SBI_EALREADY ∨ rc=SBI_EINVAL) :
      StartStep c s i k [.ret i k.call rc] (s.goto i (k.origin.back rc))
  | count (n : Word x) (hk : k.stage=.initCount) :
      StartStep c s i k [] (s.goto i (.start { k with stage := .nextArg1 n }))
  | storeArg1 (n : Word x) (hk : k.stage=.nextArg1 n) :
      StartStep c s i k []
        ((s.put k.call.hartid { s.hart k.call.hartid with nextArg1 := k.call.priv }).goto i
          (.start { k with stage := .nextAddr n }))
  | storeAddr (n : Word x) (hk : k.stage=.nextAddr n) :
      StartStep c s i k []
        ((s.put k.call.hartid { s.hart k.call.hartid with nextAddr := k.call.saddr }).goto i
          (.start { k with stage := .nextMode n }))
  | storeMode (n : Word x) (hk : k.stage=.nextMode n) :
      StartStep c s i k []
        ((s.put k.call.hartid { s.hart k.call.hartid with nextMode := k.call.smode }).goto i
          (.start { k with stage := .launch n }))
  | launched (n : Word x) (hk : k.stage=.launch n) :
      StartStep c s i k [.ret i k.call SBI_OK]
        ((s.put k.call.hartid { s.hart k.call.hartid with wakeup := true }).goto i
          (k.origin.back SBI_OK))
  | launchFailed (n : Word x) (rc : Int) (hk : k.stage=.launch n) (hrc : rc≠SBI_OK)
      (hd : rc=HsmDevice.hartStartDevice c.dev k.call.hartid (c.warmbootAddr i))
      (hp : HsmDevice.powersUp c.dev n=true) :
      StartStep c s i k [.ret i k.call rc] (s.goto i (k.origin.back rc))

theorem startStep_cases (c : HsmConfig x) (s : HsmSystem x) (i : Nat) (k : Starting x) :
    StartStep c s i k (startStep c s i k).2 (startStep c s i k).1 := by
  unfold startStep
  cases hk : k.stage with
  | claim =>
    by_cases hst : (s.hart k.call.hartid).state=.stopped
    · simp only [hst,hartStartClaim,if_true]
      exact .claimed hk hst
    · have hne : (hartStartClaim (s.hart k.call.hartid).state).2≠SBI_OK :=
        mt (hartStartClaim_ok_iff _).mp hst
      have hkeep : (hartStartClaim (s.hart k.call.hartid).state).1=(s.hart k.call.hartid).state := by
        cases hs : (s.hart k.call.hartid).state <;> first | exact absurd hs hst | rfl
      have hrc : (hartStartClaim (s.hart k.call.hartid).state).2=SBI_EALREADY ∨
          (hartStartClaim (s.hart k.call.hartid).state).2=SBI_EINVAL := by
        cases hs : (s.hart k.call.hartid).state <;>
          first | exact absurd hs hst | exact .inl rfl | exact .inr rfl
      simp only [hne,if_false,hkeep]
      rw [HsmSystem.put_self s k.call.hartid]
      exact .busy _ hk hst hrc
  | initCount => exact .count _ hk
  | nextArg1 n => exact .storeArg1 n hk
  | nextAddr n => exact .storeAddr n hk
  | nextMode n => exact .storeMode n hk
  | launch n =>
    by_cases hp : HsmDevice.powersUp c.dev n=true
    · by_cases hrc : HsmDevice.hartStartDevice c.dev k.call.hartid (c.warmbootAddr i)=SBI_OK
      · simp only [hp,hrc,if_true]
        exact .launched n hk
      · simp only [hp,hrc,if_true,if_false]
        exact .launchFailed n _ hk hrc rfl hp
    · simp only [hp]
      exact .launched n hk

/-- What one step of hart `i` can do: a shared access of `sbi_hsm_hart_start()`, the end of cold
boot, or a step of its own. -/
inductive HsmStep (c : HsmConfig x) (s : HsmSystem x) (i : Nat) :
    List (HsmEvent x) → HsmSystem x → Prop where
  | start (k : Starting x) (hp : (s.hart i).pc=.start k) (ev : List (HsmEvent x))
      (s' : HsmSystem x) (hs : StartStep c s i k ev s') : HsmStep c s i ev s'
  | wakeHarts (hp : (s.hart i).pc=.cold .wakeHarts) :
      HsmStep c s i [] { s.goto i (.warm .initCount) with coldbootDone := true }
  | own (me : HsmHart x) (ev : List (HsmEvent x))
      (hs : OwnStep c i s.coldbootDone (s.hart i) ev me) : HsmStep c s i ev (s.put i me)

theorem hsmMachine_step {s s' : HsmSystem x} {l : Nat × HsmAction x}
    (hs : (hsmMachine c).step s l=some (s',ev)) : HsmStep c s l.1 ev s' := by
  have hs : hsmStep c s l.1 l.2=some (s',ev) := hs
  unfold hsmStep at hs
  split at hs
  · next k hp ha =>
    have he : startStep c s l.1 k=(s',ev) := Option.some.inj hs
    have hk := startStep_cases c s l.1 k
    rw [he] at hk
    exact .start k hp ev s' hk
  · next hp ha => cases hs; exact .wakeHarts hp
  · obtain ⟨r,hr,he⟩ := Option.map_eq_some_iff.mp hs
    cases he
    exact .own r.1 r.2 (ownStep_own rfl hr)

end OpenSBI
