import OpenSBI.Hsm.Place

namespace OpenSBI

open Framework

variable {x : Xlen} {c : HsmConfig x} {h i : Nat} {done : Bool} {me me' : HsmHart x}
  {s s' : HsmSystem x} {ev : List (HsmEvent x)} {call : StartCall x} {f : JumpField}

/-- The scratch fields that describe the next jump of a hart. -/
inductive JumpField where
  | arg1
  | addr
  | mode
  deriving DecidableEq

/-- A call at this stage has claimed its target and not yet stored the field. -/
def StartStage.lacks : StartStage x → JumpField → Bool
  | .initCount,_ => true
  | .nextArg1 _,_ => true
  | .nextAddr _,.addr => true
  | .nextAddr _,.mode => true
  | .nextMode _,.mode => true
  | _,_ => false

def SuspendStage.stored : SuspendStage → JumpField → Bool
  | .nextArg1,_ => false
  | .nextAddr,.arg1 => true
  | .nextMode,.arg1 => true
  | .nextMode,.addr => true
  | .nextAddr,_ => false
  | .nextMode,_ => false
  | _,_ => true

/-- The field a hart is about to load. -/
def SwitchStage.loads : SwitchStage x → Option JumpField
  | .nextArg1 => some .arg1
  | .nextAddr _ => some .addr
  | .nextMode _ _ => some .mode
  | .switchMode _ _ _ => none

/-- The fields a hart has still to load. -/
def SwitchStage.awaits : SwitchStage x → JumpField → Bool
  | .nextArg1,_ => true
  | .nextAddr _,.arg1 => false
  | .nextAddr _,_ => true
  | .nextMode _ _,.mode => true
  | _,_ => false

/-- The values a hart has loaded are those of the call. -/
def SwitchStage.Loaded (call : StartCall x) : SwitchStage x → Prop
  | .nextArg1 => True
  | .nextAddr arg1 => arg1=call.priv
  | .nextMode arg1 addr => arg1=call.priv ∧ addr=call.saddr
  | .switchMode arg1 addr mode => arg1=call.priv ∧ addr=call.saddr ∧ mode=call.smode

namespace HsmHart

/-- The field in the scratch space is the one of the call. -/
def Holds (me : HsmHart x) (call : StartCall x) : JumpField → Prop
  | .arg1 => me.nextArg1=call.priv
  | .addr => me.nextAddr=call.saddr
  | .mode => me.nextMode=call.smode

end HsmHart

/-- Positions of a hart that another hart can claim. -/
def HsmPc.waiting : HsmPc x → Bool
  | .warm _ => true
  | .exit .hartStop => true
  | .hang => true
  | _ => false

/-- A claimed hart that has not loaded the field yet. -/
def HsmHart.Awaits (me : HsmHart x) (f : JumpField) : Prop :=
  me.state=.startPending ∧ me.pc.waiting=true ∨
    ∃ st,me.pc=.switch false st ∧ st.awaits f=true

/-- A step loads a field of the next jump only if no call between its claim of the hart and its
store of the field is left. -/
def Settled (s : HsmSystem x) (i : Nat) : Prop :=
  ∀ j k r st f,(s.hart j).pc=.start k → k.call.hartid=i → (s.hart i).pc=.switch r st →
    st.loads=some f → k.stage.lacks f=false

/-- Every field a call has still to store is awaited by its target. -/
def Awaited (s : HsmSystem x) : Prop :=
  ∀ j k f,(s.hart j).pc=.start k → k.stage.lacks f=true → (s.hart k.call.hartid).Awaits f

theorem SwitchStage.loads_awaits {st : SwitchStage x} (hf : st.loads=some f) :
    st.awaits f=true := by
  cases st <;> cases hf <;> rfl

theorem HsmHart.Placed.waiting (hm : me.Placed) (hst : me.state=.stopped) :
    me.pc.waiting=true := by
  obtain ⟨state,nextArg1,nextAddr,nextMode,initCount,wakeup,pc⟩ := me
  cases hst
  cases pc with
  | start k => obtain ⟨call,origin,stage⟩ := k; cases origin <;> cases hm
  | suspend k st => cases st <;> cases hm
  | exit p => cases p <;> first | rfl | cases hm
  | resume p => cases p <;> cases hm
  | warm p => rfl
  | hang => rfl
  | _ => cases hm

theorem OwnStep.pc_ne_start (hs : OwnStep c h done me ev me') (k : Starting x) :
    me.pc≠.start k := by
  intro hk
  cases hs with
  | hang hp => rw [hk] at hp; cases hp
  | stay hp => rw [hk] at hp; cases hp
  | hartStop hp => rw [hk] at hp; cases hp
  | stopRefused hp => rw [hk] at hp; cases hp
  | fail b st hb hst => rw [hk] at hb; cases b <;> simp [SanityBranch.Guards] at hb
  | _ => simp_all

/-- A hart that begins a call has not claimed the target yet. -/
theorem OwnStep.start_claim (hs : OwnStep c h done me ev me') {k : Starting x}
    (hk : me'.pc=.start k) : k.stage=.claim := by
  have hne := hs.pc_ne_start k
  cases hs with
  | visitStart p rest hp => cases hk; rfl
  | hartStart mode call hp => cases hk; rfl
  | stopped p hp hst hq => rcases hq with rfl | rfl <;> cases hk
  | stay hp => exact absurd hk hne
  | refused mode call rc hp => exact absurd hk hne
  | stopRefused hp => exact absurd hk hne
  | _ => cases hk

/-- A hart gives up awaiting a field only by loading it. -/
theorem OwnStep.awaits (hs : OwnStep c h done me ev me') (ha : me.Awaits f)
    (hload : ∀ r st,me.pc=.switch r st → st.loads≠some f) : me'.Awaits f := by
  rcases ha with ⟨hst,hw⟩ | ⟨st,hp,hf⟩
  · cases hs with
    | prepareNextJump hp hst' => exact .inr ⟨_,rfl,rfl⟩
    | hang hp => exact .inl ⟨hst,rfl⟩
    | fail b st hb hne => exact .inl ⟨hst,rfl⟩
    | stopReturned hp => exact .inl ⟨hst,rfl⟩
    | stay hp => exact .inl ⟨hst,hw⟩
    | stopRefused hp => exact .inl ⟨hst,hw⟩
    | getSuspended hp hst' => exact absurd (hst.symm.trans hst') (by decide)
    | sleep hp hne => exact absurd hst hne
    | _ => simp_all [HsmHart.Awaits,HsmHart.goto,HsmPc.waiting]
  · cases hs with
    | loadArg1 r hp' =>
      rw [hp] at hp'
      cases hp'
      have hne := hload _ _ hp
      refine .inr ⟨_,rfl,?_⟩
      cases f <;> simp_all [SwitchStage.loads,SwitchStage.awaits]
    | loadAddr r arg1 hp' =>
      rw [hp] at hp'
      cases hp'
      have hne := hload _ _ hp
      refine .inr ⟨_,rfl,?_⟩
      cases f <;> simp_all [SwitchStage.loads,SwitchStage.awaits]
    | loadMode r arg1 addr hp' =>
      rw [hp] at hp'
      cases hp'
      have hne := hload _ _ hp
      cases f <;> simp_all [SwitchStage.loads,SwitchStage.awaits]
    | enter r arg1 addr mode hp' =>
      rw [hp] at hp'
      cases hp'
      cases hf
    | hang hp' =>
      rw [hp] at hp'
      cases st <;> cases hp'
      cases hf
    | fail b st' hb hne => cases b <;> simp_all [SanityBranch.Guards]
    | stay hp' => rw [hp] at hp'; cases hp'
    | hartStop hp' => rw [hp] at hp'; cases hp'
    | stopRefused hp' => rw [hp] at hp'; cases hp'
    | _ => simp_all

theorem HsmHart.Awaits.of_eq (ha : me.Awaits f) (hst : me'.state=me.state)
    (hp : me'.pc=me.pc) : me'.Awaits f := by
  unfold HsmHart.Awaits at ha ⊢
  rwa [hst,hp]

/-- A hart that awaits a field is not stopped, and makes no call. -/
theorem HsmHart.Awaits.state_ne (ha : me.Awaits f) (hm : me.Placed) : me.state≠.stopped := by
  rcases ha with ⟨hst,-⟩ | ⟨st,hp,-⟩
  · rw [hst]; decide
  · rw [HsmHart.Placed,hp] at hm
    rw [show me.state=.started from hm]
    decide

theorem HsmHart.Awaits.pc_ne (ha : me.Awaits f) (k : Starting x) : me.pc≠.start k := by
  intro hk
  rcases ha with ⟨-,hw⟩ | ⟨st,hp,-⟩
  · rw [hk] at hw; cases hw
  · rw [hk] at hp; cases hp

/-- A return leaves no call of the hart in progress. -/
theorem StartOrigin.back_ne (o : StartOrigin) (rc : Int) (k : Starting x) :
    o.back rc≠HsmPc.start k := by
  cases o with
  | ecall mode => simp [StartOrigin.back]
  | finalize rest => simp only [StartOrigin.back]; split_ifs <;> simp

/-- Where a shared access leaves the call: what it lacks it lacked before, or it has just claimed a
stopped hart. -/
theorem StartStep.lacks {k k' : Starting x} (hs : StartStep c s i k ev s')
    (hk' : (s'.hart i).pc=.start k') :
    k'.call=k.call ∧ (k'.origin=k.origin) ∧ ((∀ f,k'.stage.lacks f=true → k.stage.lacks f=true) ∨
      k.stage=.claim ∧ (s.hart k.call.hartid).state=.stopped ∧
        (s'.hart k.call.hartid).state=.startPending) := by
  have hback : ∀ rc,k.origin.back (x := x) rc≠.start k' := fun rc => k.origin.back_ne rc k'
  cases hs with
  | claimed hk hst =>
    rw [HsmSystem.pc_goto_self] at hk'
    cases hk'
    refine ⟨rfl,rfl,.inr ⟨hk,hst,?_⟩⟩
    rw [HsmSystem.hart_goto,HsmSystem.hart_put_self]
  | busy rc =>
    rw [HsmSystem.pc_goto_self] at hk'
    exact absurd hk' (hback rc)
  | launchFailed n rc =>
    rw [HsmSystem.pc_goto_self] at hk'
    exact absurd hk' (hback rc)
  | launched n =>
    rw [HsmSystem.pc_goto_self] at hk'
    exact absurd hk' (hback SBI_OK)
  | count n hk =>
    rw [HsmSystem.pc_goto_self] at hk'
    cases hk'
    exact ⟨rfl,rfl,.inl fun f _ => by rw [hk]; rfl⟩
  | storeArg1 n hk =>
    rw [HsmSystem.pc_goto_self] at hk'
    cases hk'
    exact ⟨rfl,rfl,.inl fun f _ => by rw [hk]; rfl⟩
  | storeAddr n hk =>
    rw [HsmSystem.pc_goto_self] at hk'
    cases hk'
    refine ⟨rfl,rfl,.inl fun f hf => ?_⟩
    rw [hk]
    cases f <;> first | rfl | cases hf
  | storeMode n hk =>
    rw [HsmSystem.pc_goto_self] at hk'
    cases hk'
    exact ⟨rfl,rfl,.inl fun f hf => by cases hf⟩

/-- What a shared access of a call leaves as it was, for the other harts. -/
theorem StartStep.pc_other {k : Starting x} (hs : StartStep c s i k ev s') {j : Nat}
    (hj : j≠i) : (s'.hart j).pc=(s.hart j).pc := by
  obtain ⟨p,hp,-⟩ := hs.pc
  rw [hp,if_neg hj]

theorem HsmStep.pc_other (hs : HsmStep c s i ev s') {j : Nat} (hj : j≠i) :
    (s'.hart j).pc=(s.hart j).pc := by
  cases hs with
  | start k hp ev s' hs => exact hs.pc_other hj
  | wakeHarts hp =>
    simp only [HsmSystem.hart_goto]
    exact if_neg hj
  | own me ev hs => rw [HsmSystem.hart_put_of_ne hj]

theorem StartStep.awaited {k : Starting x} (hs : StartStep c s i k ev s')
    (hp : (s.hart i).pc=.start k) (hall : s.Placed) (ha : Awaited s) : Awaited s' := by
  intro j k' f hk' hf
  -- A hart that awaited the field before still does: nobody claims it, and it makes no call.
  have hkeep : ∀ t,(s.hart t).Awaits f → (s'.hart t).Awaits f := by
    intro t ht
    have hne : t≠i := by rintro rfl; exact ht.pc_ne k hp
    refine ht.of_eq ((hs.state t).resolve_right fun hc => ?_) (hs.pc_other hne)
    exact ht.state_ne (hall t) hc.2.1
  by_cases hji : j=i
  · subst hji
    obtain ⟨hcall,-,hold | ⟨hclaim,hstop,hpend⟩⟩ := hs.lacks hk'
    · rw [hcall]
      exact hkeep _ (ha j k f hp (hold f hf))
    · rw [hcall]
      have hw := (hall k.call.hartid).waiting hstop
      have hne : k.call.hartid≠j := by
        intro he
        rw [he,hp] at hw
        cases hw
      exact .inl ⟨hpend,by rw [hs.pc_other hne]; exact hw⟩
  · rw [hs.pc_other hji] at hk'
    exact hkeep _ (ha j k' f hk' hf)

theorem HsmStep.awaited (hs : HsmStep c s i ev s') (hall : s.Placed) (ha : Awaited s)
    (hset : Settled s i) : Awaited s' := by
  cases hs with
  | start k hp ev s' hs => exact hs.awaited hp hall ha
  | wakeHarts hp =>
    intro j k f hk hf
    simp only [HsmSystem.hart_goto] at hk ⊢
    by_cases hji : j=i
    · simp [hji] at hk
    · rw [if_neg hji] at hk
      have hold := ha j k f hk hf
      refine hold.of_eq rfl (if_neg fun he => ?_)
      rw [he] at hold
      rcases hold with ⟨-,hw⟩ | ⟨st,hsw,-⟩
      · rw [hp] at hw; cases hw
      · rw [hp] at hsw; cases hsw
  | own me ev hs =>
    intro j k f hk hf
    rw [HsmSystem.hart_put] at hk ⊢
    by_cases hji : j=i
    · rw [if_pos hji] at hk
      rw [hs.start_claim hk] at hf
      cases hf
    · rw [if_neg hji] at hk
      have hold := ha j k f hk hf
      split_ifs with ht
      · rw [ht] at hold
        refine hs.awaits hold fun r st hsw hl => ?_
        have hno := hset j k r st f hk ht hsw hl
        rw [hf] at hno
        cases hno
      · exact hold

end OpenSBI
