import OpenSBI.Hsm.Handover

namespace OpenSBI

open Framework

variable {x : Xlen} {c : HsmConfig x} {h i : Nat} {done : Bool} {me me' : HsmHart x}
  {s s' : HsmSystem x} {ev : List (HsmEvent x)} {call : StartCall x} {f : JumpField}

namespace HsmHart

/-- The hart is on its way to a jump by its scratch fields. -/
def consumes (me : HsmHart x) : Bool :=
  match me.pc with
  | .switch _ _ => true
  | .suspend k _ => nonRetentive k.suspendType
  | .warm _ => decide (me.state≠.stopped)
  | .resume _ => decide (me.state≠.stopped)
  | .exit .hartStop => decide (me.state≠.stopped)
  | .cold .platformInit => true
  | .cold .wakeHarts => true
  | _ => false

/-- The jump still depends on the field in the scratch space. -/
def needs (me : HsmHart x) (f : JumpField) : Bool :=
  match me.pc with
  | .switch _ st => st.awaits f
  | .suspend _ st => st.stored f
  | _ => true

/-- What the hart has of the jump in its registers is what the call says. -/
def Carries (me : HsmHart x) (call : StartCall x) : Prop :=
  match me.pc with
  | .switch _ st => st.Loaded call
  | .suspend k _ => k.priv=call.priv ∧ k.raddr=call.saddr ∧ k.rmode=call.smode
  | _ => True

end HsmHart

/-- The next jump of hart `h` is the one the call describes, as far as the fields are stored; the
others have a call to store them. -/
structure Ready (s : HsmSystem x) (h : Nat) (call : StartCall x) : Prop where
  carries : (s.hart h).Carries call
  held : ∀ f,(s.hart h).needs f=true → (s.hart h).Holds call f ∨
    ∃ j k,(s.hart j).pc=.start k ∧ k.call=call ∧ call.hartid=h ∧ k.stage.lacks f=true
  writer : ∀ j k f,(s.hart j).pc=.start k → k.call.hartid=h → k.stage.lacks f=true → k.call=call

theorem HsmHart.Placed.consumes_state (hm : me.Placed) (hc : me.consumes=true) :
    me.state≠.stopped := by
  obtain ⟨state,nextArg1,nextAddr,nextMode,initCount,wakeup,pc⟩ := me
  intro hst
  cases hst
  cases pc with
  | suspend k st => cases st <;> cases hm
  | exit p => cases p <;> simp [HsmHart.consumes] at hc
  | cold p => cases hm
  | switch r st => cases hm
  | _ => cases hc

theorem consumes_start {k : Starting x} (hp : me.pc=.start k) : me.consumes=false := by
  rw [HsmHart.consumes,hp]

theorem consumes_stoppable (hp : me.pc.stoppable=true) : me.consumes=false := by
  unfold HsmHart.consumes
  cases hpc : me.pc with
  | lower mode => rfl
  | exit p => cases p <;> simp_all [HsmPc.stoppable]
  | _ => simp_all [HsmPc.stoppable]

/-- A step of a hart on its way to the jump keeps what it carries, and every field it needs
afterwards it has stored itself or needed before. -/
theorem OwnStep.carries (hs : OwnStep c h done me ev me') (hc : me.consumes=true)
    (hc' : me'.consumes=true) (hcar : me.Carries call)
    (hload : ∀ r st f,me.pc=.switch r st → st.loads=some f → me.Holds call f) :
    me'.Carries call ∧ ∀ f,me'.needs f=true → me'.Holds call f ∨
      me.needs f=true ∧ (me.Holds call f → me'.Holds call f) := by
  have hkeep : ∀ me'' : HsmHart x,me''.Carries call → (∀ f,me.needs f=true) →
      (∀ f,me.Holds call f → me''.Holds call f) → me''.Carries call ∧
      ∀ f,me''.needs f=true → me''.Holds call f ∨
        me.needs f=true ∧ (me.Holds call f → me''.Holds call f) :=
    fun me'' h1 h2 h3 => ⟨h1,fun f _ => .inr ⟨h2 f,h3 f⟩⟩
  cases hs with
  | loadArg1 r hp =>
    have h1 := hload r _ .arg1 hp rfl
    refine ⟨h1,fun f hf => .inr ⟨?_,fun hh => by cases f <;> exact hh⟩⟩
    simp [HsmHart.needs,hp,SwitchStage.awaits]
  | loadAddr r arg1 hp =>
    have h1 := hload r _ .addr hp rfl
    simp only [HsmHart.Carries,hp] at hcar
    refine ⟨⟨hcar,h1⟩,fun f hf => .inr ⟨?_,fun hh => by cases f <;> exact hh⟩⟩
    cases f <;> simp_all [HsmHart.needs,HsmHart.goto,SwitchStage.awaits]
  | loadMode r arg1 addr hp =>
    have h1 := hload r _ .mode hp rfl
    simp only [HsmHart.Carries,hp] at hcar
    refine ⟨⟨hcar.1,hcar.2,h1⟩,fun f hf => ?_⟩
    cases f <;> cases hf
  | storeArg1 k hp =>
    simp only [HsmHart.Carries,hp] at hcar
    refine ⟨hcar,fun f hf => .inl ?_⟩
    cases f <;> first | exact hcar.1 | cases hf
  | storeAddr k hp =>
    simp only [HsmHart.Carries,hp] at hcar
    refine ⟨hcar,fun f hf => ?_⟩
    cases f
    · exact .inr ⟨by rw [HsmHart.needs,hp]; rfl,id⟩
    · exact .inl hcar.2.1
    · cases hf
  | storeMode k hp =>
    simp only [HsmHart.Carries,hp] at hcar
    refine ⟨hcar,fun f hf => ?_⟩
    cases f
    · exact .inr ⟨by rw [HsmHart.needs,hp]; rfl,id⟩
    · exact .inr ⟨by rw [HsmHart.needs,hp]; rfl,id⟩
    · exact .inl hcar.2.2
  | suspended k hp hst =>
    simp only [HsmHart.Carries,hp] at hcar
    exact ⟨hcar,fun f _ => .inr ⟨by rw [HsmHart.needs,hp]; cases f <;> rfl,by cases f <;> exact id⟩⟩
  | deviceReturned k hp =>
    simp only [HsmHart.Carries,hp] at hcar
    exact ⟨hcar,fun f _ => .inr ⟨by rw [HsmHart.needs,hp]; cases f <;> rfl,by cases f <;> exact id⟩⟩
  | suspendRefused k hp hst =>
    simp only [HsmHart.Carries,hp] at hcar
    exact ⟨hcar,fun f _ => .inr ⟨by rw [HsmHart.needs,hp]; cases f <;> rfl,by cases f <;> exact id⟩⟩
  | deviceResumed k hp hn =>
    exact hkeep _ trivial (fun f => by rw [HsmHart.needs,hp]; cases f <;> rfl)
      fun f hh => by cases f <;> exact hh
  | stay hp => rw [consumes_stoppable hp] at hc; cases hc
  | hartStop hp => rw [consumes_stoppable hp] at hc; cases hc
  | stopRefused hp => rw [consumes_stoppable hp] at hc; cases hc
  | enter => cases hc'
  | hang => cases hc'
  | fail => cases hc'
  | stopReturned => cases hc'
  | visitSkip => cases hc'
  | visitOwn => cases hc'
  | visitStart => cases hc'
  | visitRefused => cases hc'
  | restored => cases hc'
  | resetReturned => cases hc'
  | visited hp => rw [HsmHart.consumes,hp] at hc; cases hc
  | refused mode call rc hp => rw [HsmHart.consumes,hp] at hc; cases hc
  | hartStart mode call hp => rw [HsmHart.consumes,hp] at hc; cases hc
  | systemReset mode hp => rw [HsmHart.consumes,hp] at hc; cases hc
  | resetRefused mode hp => rw [HsmHart.consumes,hp] at hc; cases hc
  | hartSuspend k hp => rw [HsmHart.consumes,hp] at hc; cases hc
  | stopped p hp => rw [HsmHart.consumes,hp] at hc; cases hc
  | _ =>
    -- The warm boot path leaves the fields alone.
    exact hkeep _ trivial (fun f => by simp_all [HsmHart.needs]) fun f hh => by cases f <;> exact hh

theorem holds_goto (s : HsmSystem x) (i h : Nat) (p : HsmPc x) :
    ((s.goto i p).hart h).Holds call f ↔ (s.hart h).Holds call f := by
  rw [HsmSystem.hart_goto]
  cases f <;> exact Iff.rfl

/-- A shared access of a call keeps a field, unless it is a store of another value. -/
theorem StartStep.holds {k : Starting x} (hs : StartStep c s i k ev s')
    (hcall : k.call.hartid=h → (∃ f,k.stage.lacks f=true) → k.call=call)
    (hh : (s.hart h).Holds call f) : (s'.hart h).Holds call f := by
  have hwrite : ∀ g n,k.stage=n → n.lacks g=true → h=k.call.hartid → k.call=call :=
    fun g n hk hl ht => hcall ht.symm ⟨g,by rw [hk]; exact hl⟩
  cases hs with
  | busy rc => rwa [holds_goto]
  | launchFailed n rc => rwa [holds_goto]
  | count n => rwa [holds_goto]
  | claimed hk hst =>
    rw [holds_goto,HsmSystem.hart_put]
    split_ifs with ht
    · rw [ht] at hh
      cases f <;> exact hh
    · exact hh
  | launched n hk =>
    rw [holds_goto,HsmSystem.hart_put]
    split_ifs with ht
    · rw [ht] at hh
      cases f <;> exact hh
    · exact hh
  | storeArg1 n hk =>
    rw [holds_goto,HsmSystem.hart_put]
    split_ifs with ht
    · have he := hwrite .arg1 _ hk rfl ht
      rw [ht] at hh
      cases f <;> first | exact congrArg StartCall.priv he | exact hh
    · exact hh
  | storeAddr n hk =>
    rw [holds_goto,HsmSystem.hart_put]
    split_ifs with ht
    · have he := hwrite .addr _ hk rfl ht
      rw [ht] at hh
      cases f <;> first | exact congrArg StartCall.saddr he | exact hh
    · exact hh
  | storeMode n hk =>
    rw [holds_goto,HsmSystem.hart_put]
    split_ifs with ht
    · have he := hwrite .mode _ hk rfl ht
      rw [ht] at hh
      cases f <;> first | exact congrArg StartCall.smode he | exact hh
    · exact hh

/-- A field a call lacks it still lacks after the access, or it has been stored. -/
theorem StartStep.stores {k : Starting x} (hs : StartStep c s i k ev s')
    (hl : k.stage.lacks f=true) :
    (s'.hart k.call.hartid).Holds k.call f ∨
      ∃ k',(s'.hart i).pc=.start k' ∧ k'.call=k.call ∧ k'.stage.lacks f=true := by
  cases hs with
  | claimed hk => rw [hk] at hl; cases hl
  | busy rc hk => rw [hk] at hl; cases hl
  | launched n hk => rw [hk] at hl; cases hl
  | launchFailed n rc hk => rw [hk] at hl; cases hl
  | count n hk => exact .inr ⟨_,HsmSystem.pc_goto_self _ _ _,rfl,rfl⟩
  | storeArg1 n hk =>
    cases f
    · rw [HsmSystem.hart_goto,HsmSystem.hart_put_self]
      exact .inl rfl
    · exact .inr ⟨_,HsmSystem.pc_goto_self _ _ _,rfl,rfl⟩
    · exact .inr ⟨_,HsmSystem.pc_goto_self _ _ _,rfl,rfl⟩
  | storeAddr n hk =>
    cases f
    · rw [hk] at hl; cases hl
    · rw [HsmSystem.hart_goto,HsmSystem.hart_put_self]
      exact .inl rfl
    · exact .inr ⟨_,HsmSystem.pc_goto_self _ _ _,rfl,rfl⟩
  | storeMode n hk =>
    cases f
    · rw [hk] at hl; cases hl
    · rw [hk] at hl; cases hl
    · rw [HsmSystem.hart_goto,HsmSystem.hart_put_self]
      exact .inl rfl

theorem StartStep.ready {k : Starting x} (hs : StartStep c s i k ev s')
    (hp : (s.hart i).pc=.start k) (hall : s.Placed) (hc : (s.hart h).consumes=true)
    (hr : Ready s h call) : Ready s' h call := by
  have hne : h≠i := by
    rintro rfl
    rw [consumes_start hp] at hc
    cases hc
  have hpc : (s'.hart h).pc=(s.hart h).pc := hs.pc_other hne
  have hcall : k.call.hartid=h → (∃ f,k.stage.lacks f=true) → k.call=call :=
    fun ht hl => hl.elim fun f hf => hr.writer i k f hp ht hf
  -- A stopped hart is not on its way to a jump, so it is not claimed here.
  have hlacks : ∀ k' f,(s'.hart i).pc=.start k' → k'.call.hartid=h → k'.stage.lacks f=true →
      k'.call=k.call ∧ k.stage.lacks f=true := by
    intro k' f hk' ht hf
    obtain ⟨he,-,hold | ⟨-,hst,-⟩⟩ := hs.lacks hk'
    · exact ⟨he,hold f hf⟩
    · rw [he] at ht
      rw [ht] at hst
      exact absurd hst ((hall h).consumes_state hc)
  refine ⟨?_,fun f hf => ?_,fun j k' f hk' ht hf => ?_⟩
  · have := hr.carries
    unfold HsmHart.Carries at this ⊢
    rwa [hpc]
  · have hneed : (s.hart h).needs f=true := by
      unfold HsmHart.needs at hf ⊢
      rwa [hpc] at hf
    rcases hr.held f hneed with hh | ⟨j,k1,hk1,rfl,ht,hl⟩
    · exact .inl (hs.holds hcall hh)
    · by_cases hji : j=i
      · subst hji
        rw [hp] at hk1
        cases hk1
        rcases hs.stores hl with hh | ⟨k',hk',he,hl'⟩
        · exact .inl (ht ▸ hh)
        · exact .inr ⟨j,k',hk',he,ht,hl'⟩
      · exact .inr ⟨j,k1,by rw [hs.pc_other hji]; exact hk1,rfl,ht,hl⟩
  · by_cases hji : j=i
    · subst hji
      obtain ⟨he,hl⟩ := hlacks k' f hk' ht hf
      rw [he]
      rw [he] at ht
      exact hcall ht ⟨f,hl⟩
    · rw [hs.pc_other hji] at hk'
      exact hr.writer j k' f hk' ht hf

/-- The calls in progress, as far as they have a target claimed, are the same in both states. -/
theorem Ready.of_eq (hr : Ready s h call) (hh : s'.hart h=s.hart h)
    (hw : ∀ j k f,k.stage.lacks f=true → ((s'.hart j).pc=.start k ↔ (s.hart j).pc=.start k)) :
    Ready s' h call := by
  refine ⟨by rw [hh]; exact hr.carries,fun f hf => ?_,fun j k f hk ht hf => ?_⟩
  · rw [hh] at hf ⊢
    refine (hr.held f hf).imp_right ?_
    rintro ⟨j,k,hk,he,ht,hl⟩
    exact ⟨j,k,(hw j k f hl).mpr hk,he,ht,hl⟩
  · exact hr.writer j k f ((hw j k f hf).mp hk) ht hf

/-- A step of its own leaves the claims of a hart alone. -/
theorem OwnStep.claims (hs : OwnStep c i done (s.hart i) ev me') (j : Nat) (k : Starting x)
    (hl : k.stage.lacks f=true) :
    ((s.put i me').hart j).pc=.start k ↔ (s.hart j).pc=.start k := by
  rw [HsmSystem.hart_put]
  split_ifs with hj
  · subst hj
    refine iff_of_false (fun hk => ?_) (hs.pc_ne_start k)
    rw [hs.start_claim hk] at hl
    cases hl
  · exact Iff.rfl

theorem OwnStep.ready (hs : OwnStep c i done (s.hart i) ev me') (hset : i=h → Settled s h)
    (hc : (s.hart h).consumes=true) (hc' : ((s.put i me').hart h).consumes=true)
    (hr : Ready s h call) : Ready (s.put i me') h call := by
  by_cases hhi : h=i
  · subst hhi
    rw [HsmSystem.hart_put_self] at hc'
    -- What is loaded is what the scratch space holds, since no store is outstanding.
    have hload : ∀ r st f,(s.hart h).pc=.switch r st → st.loads=some f →
        (s.hart h).Holds call f := by
      intro r st f hp hf
      refine (hr.held f ?_).resolve_right ?_
      · rw [HsmHart.needs,hp]
        exact SwitchStage.loads_awaits hf
      · rintro ⟨j,k,hk,rfl,ht,hl⟩
        have := hset rfl j k r st f hk ht hp hf
        rw [hl] at this
        cases this
    obtain ⟨hcar,hheld⟩ := hs.carries hc hc' hr.carries hload
    refine ⟨by rwa [HsmSystem.hart_put_self],fun f hf => ?_,fun j k f hk ht hl => ?_⟩
    · rw [HsmSystem.hart_put_self] at hf ⊢
      rcases hheld f hf with hh | ⟨hneed,hkeep⟩
      · exact .inl hh
      · refine (hr.held f hneed).imp hkeep ?_
        rintro ⟨j,k,hk,he,ht,hl⟩
        exact ⟨j,k,(hs.claims j k hl).mpr hk,he,ht,hl⟩
    · exact hr.writer j k f ((hs.claims j k hl).mp hk) ht hl
  · exact hr.of_eq (HsmSystem.hart_put_of_ne hhi) fun j k f hl => hs.claims j k hl

/-- A hart on its way to a jump stays ready for the same jump. -/
theorem HsmStep.ready (hs : HsmStep c s i ev s') (hall : s.Placed) (hset : i=h → Settled s h)
    (hc : (s.hart h).consumes=true) (hc' : (s'.hart h).consumes=true) (hr : Ready s h call) :
    Ready s' h call := by
  cases hs with
  | start k hp ev s' hs => exact hs.ready hp hall hc hr
  | own me ev hs => exact hs.ready hset hc hc' hr
  | wakeHarts hp =>
    have hw : ∀ j k,((s.goto i (.warm .initCount)).hart j).pc=.start k ↔
        (s.hart j).pc=.start k := by
      intro j k
      rw [HsmSystem.hart_goto]
      by_cases hj : j=i
      · subst hj; simp [hp]
      · simp [hj]
    by_cases hhi : h=i
    · subst hhi
      refine ⟨?_,fun f _ => ?_,fun j k f hk ht hl => hr.writer j k f ((hw j k).mp hk) ht hl⟩
      · simp [HsmHart.Carries]
      · refine (hr.held f (by rw [HsmHart.needs,hp])).imp (fun hh => ?_) ?_
        · simp only [HsmSystem.hart_goto]
          cases f <;> exact hh
        · rintro ⟨j,k,hk,he,ht,hl⟩
          exact ⟨j,k,(hw j k).mpr hk,he,ht,hl⟩
    · refine hr.of_eq ?_ fun j k f _ => hw j k
      simp [HsmSystem.hart_goto,hhi]

/-- The claim of a stopped hart makes it ready for the jump of the call. -/
theorem StartStep.claimed_ready {k : Starting x} (hs : StartStep c s i k ev s')
    (hp : (s.hart i).pc=.start k) (hall : s.Placed) (hk : k.stage=.claim)
    (hst : (s.hart k.call.hartid).state=.stopped)
    (hnone : ∀ j k' f,(s.hart j).pc=.start k' → k'.call.hartid=k.call.hartid →
      k'.stage.lacks f=false) : Ready s' k.call.hartid k.call := by
  have hw := (hall k.call.hartid).waiting hst
  have hne : k.call.hartid≠i := by
    intro he
    rw [he,hp] at hw
    cases hw
  have hother : ∀ j,j≠i → (s'.hart j).pc=(s.hart j).pc := fun j hj => hs.pc_other hj
  cases hs with
  | claimed =>
    refine ⟨?_,fun f _ => .inr ⟨i,_,HsmSystem.pc_goto_self _ _ _,rfl,rfl,rfl⟩,
      fun j k' f hk' ht hf => ?_⟩
    · rw [HsmHart.Carries,hother _ hne]
      cases hpc : (s.hart k.call.hartid).pc <;> first | trivial | (rw [hpc] at hw; cases hw)
    · by_cases hji : j=i
      · subst hji
        rw [HsmSystem.pc_goto_self] at hk'
        cases hk'
        rfl
      · rw [hother j hji] at hk'
        rw [hnone j k' f hk' ht] at hf
        cases hf
  | busy rc _ hst' => exact absurd hst hst'
  | count n hk' => rw [hk] at hk'; cases hk'
  | storeArg1 n hk' => rw [hk] at hk'; cases hk'
  | storeAddr n hk' => rw [hk] at hk'; cases hk'
  | storeMode n hk' => rw [hk] at hk'; cases hk'
  | launched n hk' => rw [hk] at hk'; cases hk'
  | launchFailed n rc hk' => rw [hk] at hk'; cases hk'

/-- A hart sets out for a jump itself when it begins a non-retentive suspend, or at the end of
`sbi_domain_finalize()`. -/
theorem OwnStep.fresh (hs : OwnStep c h done me ev me') (hc : me.consumes=false)
    (hc' : me'.consumes=true) :
    (∃ k,me.pc=.lower k.rmode ∧ nonRetentive k.suspendType=true ∧
        hartSuspendCheck (c.table.domainOf h) k.suspendType k.raddr k.rmode=SBI_OK ∧
        me'=me.goto (.suspend k .nextArg1)) ∨
      me.pc=.cold (.finalize []) ∧ me'=me.goto (.cold .platformInit) := by
  cases hs with
  | hartSuspend k hp hk => exact .inl ⟨k,hp,hc',hk,rfl⟩
  | visited hp => exact .inr ⟨hp,rfl⟩
  | stay hp => rw [hc] at hc'; cases hc'
  | refused mode call rc hp => rw [hc] at hc'; cases hc'
  | stopRefused hp => rw [hc] at hc'; cases hc'
  | stopped p hp hst hq => rcases hq with rfl | rfl <;> simp [HsmHart.consumes] at hc'
  | _ => simp_all [HsmHart.consumes,HsmHart.goto]

/-- Where the description of a jump comes from: a call, a non-retentive suspend, or what the cold
boot hart has in its scratch space after `sbi_domain_finalize()`. -/
inductive JumpSource (c : HsmConfig x) (s : HsmSystem x) (i h : Nat) : StartCall x → Prop where
  | start (k : Starting x) (hp : (s.hart i).pc=.start k) (ht : k.call.hartid=h) :
      JumpSource c s i h k.call
  | suspend (k : Suspending x) (hn : nonRetentive k.suspendType=true)
      (hk : hartSuspendCheck (c.table.domainOf h) k.suspendType k.raddr k.rmode=SBI_OK) :
      JumpSource c s i h ⟨h,k.raddr,k.rmode,k.priv⟩
  | boot (hp : (s.hart h).pc=.cold (.finalize [])) :
      JumpSource c s i h ⟨h,(s.hart h).nextAddr,(s.hart h).nextMode,(s.hart h).nextArg1⟩

theorem JumpSource.hartid (hs : JumpSource c s i h call) : call.hartid=h := by
  cases hs with
  | start k hp ht => exact ht
  | suspend k => rfl
  | boot => rfl

theorem HsmStep.fresh (hs : HsmStep c s i ev s') (hall : s.Placed) (ha : Awaited s)
    (hc : (s.hart h).consumes=false) (hc' : (s'.hart h).consumes=true) :
    ∃ call,JumpSource c s i h call ∧ Ready s' h call := by
  -- A hart that a call has claimed for good is awaited, which this one is not.
  have hnone : ∀ j k f,(s.hart j).pc=.start k → k.call.hartid=h → k.stage.lacks f=true →
      (s.hart h).Awaits f := fun j k f hk ht hf => ht ▸ ha j k f hk hf
  cases hs with
  | start k hp ev s' hs =>
    have hne : h≠i := by
      rintro rfl
      obtain ⟨p,hpc,hform⟩ := hs.pc
      have hph := hpc h
      rw [if_pos rfl] at hph
      rcases hform with ⟨st,rfl⟩ | ⟨rc,rfl⟩
      · rw [consumes_start hph] at hc'
        cases hc'
      · cases ho : k.origin with
        | ecall mode => simp [HsmHart.consumes,hph,ho,StartOrigin.back] at hc'
        | finalize rest =>
          simp only [HsmHart.consumes,hph,ho,StartOrigin.back] at hc'
          split_ifs at hc'
    have hpc := hs.pc_other hne
    rcases hs.state h with hst | ⟨rfl,hst,-⟩
    · simp only [HsmHart.consumes,hpc,hst] at hc' hc
      rw [hc] at hc'
      cases hc'
    · have hk : k.stage=.claim := by
        by_contra hk
        cases hs with
        | claimed hk' => exact hk hk'
        | busy rc hk' => exact hk hk'
        | _ => simp_all [HsmSystem.hart_goto,HsmHart.consumes]
      refine ⟨k.call,.start k hp rfl,hs.claimed_ready hp hall hk hst fun j k' f hk' ht => ?_⟩
      by_contra hf
      rw [Bool.not_eq_false] at hf
      exact (hnone j k' f hk' ht hf).state_ne (hall _) hst
  | wakeHarts hp =>
    simp only [HsmHart.consumes,HsmSystem.hart_goto] at hc'
    by_cases hhi : h=i
    · subst hhi
      rw [HsmHart.consumes,hp] at hc
      cases hc
    · rw [HsmHart.consumes] at hc
      rw [if_neg hhi,hc] at hc'
      cases hc'
  | own me ev hs =>
    by_cases hhi : h=i
    · subst hhi
      rw [HsmSystem.hart_put_self] at hc'
      rcases hs.fresh hc hc' with ⟨k,hp,hn,hk,rfl⟩ | ⟨hp,rfl⟩
      · refine ⟨_,.suspend k hn hk,?_,fun f hf => ?_,fun j k' f hk' ht hl => ?_⟩
        · rw [HsmSystem.hart_put_self]
          exact ⟨rfl,rfl,rfl⟩
        · rw [HsmSystem.hart_put_self] at hf
          cases hf
        · have := hnone j k' f ((hs.claims j k' hl).mp hk') ht hl
          rcases this with ⟨-,hw⟩ | ⟨st,hsw,-⟩
          · rw [hp] at hw; cases hw
          · rw [hp] at hsw; cases hsw
      · refine ⟨_,.boot hp,?_,fun f hf => .inl ?_,fun j k' f hk' ht hl => ?_⟩
        · rw [HsmSystem.hart_put_self]
          trivial
        · rw [HsmSystem.hart_put_self]
          cases f <;> rfl
        · have := hnone j k' f ((hs.claims j k' hl).mp hk') ht hl
          rcases this with ⟨-,hw⟩ | ⟨st,hsw,-⟩
          · rw [hp] at hw; cases hw
          · rw [hp] at hsw; cases hsw
    · rw [HsmSystem.hart_put_of_ne hhi,hc] at hc'
      cases hc'

end OpenSBI
