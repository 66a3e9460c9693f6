import OpenSBI.Hsm.Jump

namespace OpenSBI

open Framework

variable {x : Xlen} {c : HsmConfig x} {h i d : Nat} {done : Bool} {me me' : HsmHart x}
  {s0 s s' : HsmSystem x} {ev t : List (HsmEvent x)} {call : StartCall x}

/-- The caller and the call, for a return with `SBI_OK` of a call that aims at hart `d`. -/
def successOf (d : Nat) : HsmEvent x → Option (Nat × StartCall x)
  | .ret i call rc => if call.hartid=d ∧ rc=SBI_OK then some (i,call) else none
  | _ => none

def successes (d : Nat) (t : List (HsmEvent x)) : List (Nat × StartCall x) :=
  t.filterMap (successOf d)

/-- The arguments with which hart `d` enters its next stage after a start. -/
def entryOf (d : Nat) : HsmEvent x → Option (Word x × Word x × Nat)
  | .enter h false arg1 addr mode => if h=d then some (arg1,addr,mode) else none
  | _ => none

def entries (d : Nat) (t : List (HsmEvent x)) : List (Word x × Word x × Nat) :=
  t.filterMap (entryOf d)

@[simp] theorem successes_append (d : Nat) (t1 t2 : List (HsmEvent x)) :
    successes d (t1++t2)=successes d t1++successes d t2 := List.filterMap_append

@[simp] theorem entries_append (d : Nat) (t1 t2 : List (HsmEvent x)) :
    entries d (t1++t2)=entries d t1++entries d t2 := List.filterMap_append

theorem successes_nil (hno : ∀ i call,HsmEvent.ret i call SBI_OK∈ev → call.hartid≠d) :
    successes d ev=[] := by
  refine List.filterMap_eq_nil_iff.mpr fun e he => ?_
  cases e with
  | ret i call rc =>
    refine if_neg ?_
    rintro ⟨ht,rfl⟩
    exact hno i call he ht
  | _ => rfl

theorem entries_nil (hno : ∀ arg1 addr mode,HsmEvent.enter d false arg1 addr mode∉ev) :
    entries d ev=[] := by
  refine List.filterMap_eq_nil_iff.mpr fun e he => ?_
  cases e with
  | enter h r arg1 addr mode =>
    cases r with
    | true => rfl
    | false =>
      refine if_neg ?_
      rintro rfl
      exact hno arg1 addr mode he
  | _ => rfl

/-- Positions of a hart that is claimed and not yet in front of its jump. -/
def HsmPc.summoned : HsmPc x → Bool
  | .warm _ => true
  | .exit .hartStop => true
  | _ => false

/-- The hart is claimed and on its way to its next stage. -/
def HsmHart.Coming (me : HsmHart x) : Prop :=
  me.state=.startPending ∧ me.pc.summoned=true ∨ ∃ st,me.pc=.switch false st

/-- Positions of a claimed hart that a wake-up may have to get over. -/
def HsmPc.asleep : HsmPc x → Bool
  | .exit .hartStop => true
  | .warm .off => true
  | .warm .sbiInit => true
  | .warm .waitForColdboot => true
  | .warm .getState => true
  | .warm .hartWait => true
  | .warm .wfi => true
  | _ => false

/-- The steps a claimed hart has still to make until its jump, at most. -/
def HsmPc.way : HsmPc x → Nat
  | .exit .hartStop => 14
  | .warm .off => 13
  | .warm .sbiInit => 12
  | .warm .waitForColdboot => 11
  | .warm .getState => 10
  | .warm .wfi => 9
  | .warm .hartWait => 8
  | .warm .platformInit => 7
  | .warm .initCount => 6
  | .warm .prepareNextJump => 5
  | .switch _ .nextArg1 => 4
  | .switch _ (.nextAddr _) => 3
  | .switch _ (.nextMode _ _) => 2
  | .switch _ (.switchMode _ _ _) => 1
  | _ => 0

theorem HsmHart.Coming.consumes (hc : me.Coming) : me.consumes=true := by
  rcases hc with ⟨hst,hp⟩ | ⟨st,hp⟩
  · unfold HsmHart.consumes
    cases hpc : me.pc with
    | warm p => simp [hst]
    | exit p => cases p <;> simp_all [HsmPc.summoned]
    | _ => simp_all [HsmPc.summoned]
  · rw [HsmHart.consumes,hp]

theorem HsmHart.Coming.pc_ne (hc : me.Coming) (k : Starting x) :
    me.pc≠.start k := by
  intro hp
  rcases hc with ⟨-,hs⟩ | ⟨st,hs⟩
  · rw [hp] at hs
    cases hs
  · rw [hp] at hs
    cases hs

theorem HsmPc.summoned.not_stoppable {p : HsmPc x} (hp : p.summoned=true) :
    p.stoppable=false := by
  cases p with
  | exit p => cases p <;> simp_all [HsmPc.summoned,HsmPc.stoppable]
  | _ => simp_all [HsmPc.summoned,HsmPc.stoppable]

/-! ## Steps of a hart of its own -/

theorem OwnStep.keeps_stopped (hs : OwnStep c h done me ev me') (hst : me.state=.stopped) :
    me'.state=.stopped := by
  cases hs <;> simp_all [HsmHart.goto]

/-- A hart does not claim itself. -/
theorem OwnStep.startPending (hs : OwnStep c h done me ev me') (hst : me'.state=.startPending) :
    me.state=.startPending := by
  cases hs <;> simp_all [HsmHart.goto,HsmHart.jump]

theorem OwnStep.called (hs : OwnStep c h done me ev me') {j : Nat}
    (he : HsmEvent.call j call SBI_OK∈ev) : j=h ∧ ∃ k,me'.pc=.start k ∧ k.call=call := by
  cases hs with
  | hartStart mode call' hp hm hk =>
    simp only [List.mem_singleton,HsmEvent.call.injEq] at he
    obtain ⟨rfl,rfl,-⟩ := he
    exact ⟨rfl,_,rfl,rfl⟩
  | visitStart p rest hp hb hd hk =>
    simp only [List.mem_singleton,HsmEvent.call.injEq] at he
    obtain ⟨rfl,rfl,-⟩ := he
    exact ⟨rfl,_,rfl,rfl⟩
  | refused mode call' rc hp hk hrc => simp_all
  | visitRefused p rest call' rc hp hk hrc => simp_all
  | _ => simp at he

theorem OwnStep.calls (hs : OwnStep c h done me ev me') {k : Starting x} (hk : me'.pc=.start k) :
    HsmEvent.call h k.call SBI_OK∈ev := by
  have hne := hs.pc_ne_start k
  cases hs with
  | visitStart p rest hp => cases hk; exact List.mem_singleton_self _
  | hartStart mode call hp => cases hk; exact List.mem_singleton_self _
  | stopped p hp hst hq => rcases hq with rfl | rfl <;> cases hk
  | stay hp => exact absurd hk hne
  | refused mode call rc hp => exact absurd hk hne
  | stopRefused hp => exact absurd hk hne
  | _ => cases hk

theorem hartStartCheck_cases (dom : Option (SbiDomain x)) (scratch : Nat → Bool)
    (call : StartCall x) :
    hartStartCheck dom scratch call=SBI_OK ∨ hartStartCheck dom scratch call=SBI_EINVAL ∨
      hartStartCheck dom scratch call=SBI_EINVALID_ADDR := by
  unfold hartStartCheck
  split_ifs <;> simp

/-- A call that a hart makes and that returns at once has failed its checks. -/
theorem OwnStep.returned (hs : OwnStep c h done me ev me') {j : Nat} {rc : Int}
    (he : HsmEvent.ret j call rc∈ev) :
    rc≠SBI_OK ∧ (rc=SBI_EINVAL ∨ rc=SBI_EINVALID_ADDR) ∧ HsmEvent.call j call rc∈ev := by
  cases hs with
  | refused mode call' rc' hp hk hrc =>
    simp only [List.mem_cons,reduceCtorEq,List.not_mem_nil,or_false,false_or,
      HsmEvent.ret.injEq] at he
    obtain ⟨rfl,rfl,rfl⟩ := he
    refine ⟨hrc,?_,List.mem_cons_self⟩
    rw [← hk]
    exact (hartStartCheck_cases _ _ _).resolve_left (hk ▸ hrc)
  | visitRefused p rest call' rc' hp hk hrc =>
    simp only [List.mem_cons,reduceCtorEq,List.not_mem_nil,or_false,false_or,
      HsmEvent.ret.injEq] at he
    obtain ⟨rfl,rfl,rfl⟩ := he
    refine ⟨hrc,?_,List.mem_cons_self⟩
    rw [← hk]
    exact (hartStartCheck_cases _ _ _).resolve_left (hk ▸ hrc)
  | _ => simp at he

theorem OwnStep.pc_ne_hang (hs : OwnStep c h done me ev me') : me.pc≠.hang := by
  intro hk
  cases hs with
  | hang hp => rw [hk] at hp; cases hp
  | stay hp => rw [hk] at hp; cases hp
  | hartStop hp => rw [hk] at hp; cases hp
  | stopRefused hp => rw [hk] at hp; cases hp
  | fail b st hb hst => rw [hk] at hb; cases b <;> simp [SanityBranch.Guards] at hb
  | _ => simp_all

/-- A hart on its way enters its next stage, hangs, or gets closer to it. -/
theorem OwnStep.coming (hs : OwnStep c h done me ev me') (hc : me.Coming) :
    (me'.Coming ∧ me'.pc.way < me.pc.way) ∧
        (∀ r arg1 addr mode,HsmEvent.enter h r arg1 addr mode∉ev) ∨
      me'.pc=.hang ∧ (∀ r arg1 addr mode,HsmEvent.enter h r arg1 addr mode∉ev) ∨
      ∃ arg1 addr mode,me.pc=.switch false (.switchMode arg1 addr mode) ∧
        ev=[.enter h false arg1 addr mode] ∧ me'=me.goto (.lower mode) := by
  rcases hc with ⟨hst,hp⟩ | ⟨st,hp⟩
  · cases hs with
    | prepareNextJump hp' hst' =>
      exact .inl ⟨⟨.inr ⟨_,rfl⟩,by simp [hp',HsmHart.jump,HsmPc.way]⟩,by simp⟩
    | hang hp' => exact .inr (.inl ⟨rfl,by simp⟩)
    | fail b st hb hne => exact .inr (.inl ⟨rfl,by simp⟩)
    | stopReturned hp' => exact .inr (.inl ⟨rfl,by simp⟩)
    | stay hp' => rw [HsmPc.summoned.not_stoppable hp] at hp'; cases hp'
    | hartStop hp' hst' => rw [hst] at hst'; cases hst'
    | stopRefused hp' => rw [HsmPc.summoned.not_stoppable hp] at hp'; cases hp'
    | getSuspended hp' hst' => rw [hst] at hst'; cases hst'
    | sleep hp' hne => exact absurd hst hne
    | _ => simp_all [HsmHart.Coming,HsmHart.goto,HsmPc.summoned,HsmPc.way]
  · cases hs with
    | loadArg1 r hp' =>
      rw [hp] at hp'
      cases hp'
      exact .inl ⟨⟨.inr ⟨_,rfl⟩,by simp [hp,HsmHart.goto,HsmPc.way]⟩,by simp⟩
    | loadAddr r arg1 hp' =>
      rw [hp] at hp'
      cases hp'
      exact .inl ⟨⟨.inr ⟨_,rfl⟩,by simp [hp,HsmHart.goto,HsmPc.way]⟩,by simp⟩
    | loadMode r arg1 addr hp' =>
      rw [hp] at hp'
      cases hp'
      exact .inl ⟨⟨.inr ⟨_,rfl⟩,by simp [hp,HsmHart.goto,HsmPc.way]⟩,by simp⟩
    | enter r arg1 addr mode hp' =>
      rw [hp] at hp'
      cases hp'
      exact .inr (.inr ⟨arg1,addr,mode,hp,rfl,rfl⟩)
    | hang hp' => exact .inr (.inl ⟨rfl,by simp⟩)
    | fail b st hb hne => exact .inr (.inl ⟨rfl,by simp⟩)
    | stay hp' => rw [hp] at hp'; cases hp'
    | hartStop hp' => rw [hp] at hp'; cases hp'
    | stopRefused hp' => rw [hp] at hp'; cases hp'
    | _ => simp_all

/-- A hart gets in front of a start's jump from there, or claimed. -/
theorem OwnStep.not_switch (hs : OwnStep c h done me ev me') (hst : me.state≠.startPending)
    (hp : ∀ st,me.pc≠.switch false st) (st : SwitchStage x) : me'.pc≠.switch false st := by
  intro hp'
  cases hs with
  | prepareNextJump _ hst' => exact hst hst'
  | loadArg1 r hr => cases r <;> simp_all [HsmHart.goto]
  | loadAddr r arg1 hr => cases r <;> simp_all [HsmHart.goto]
  | loadMode r arg1 addr hr => cases r <;> simp_all [HsmHart.goto]
  | stay => exact hp st hp'
  | refused => exact hp st hp'
  | stopRefused => exact hp st hp'
  | stopped p _ _ hq => rcases hq with rfl | rfl <;> cases hp'
  | _ => cases hp'

/-- A claimed hart keeps its wake-up until it is past the wait. -/
theorem OwnStep.awake (hs : OwnStep c h done me ev me') (hm : me.Placed)
    (hst : me'.state=.startPending) (hp : me'.pc.asleep=true) :
    me.pc.asleep=true ∧ me'.wakeup=me.wakeup := by
  cases hs with
  | stopped p _ _ hq => cases hst
  | deviceResumed k hp' hn =>
    rw [HsmHart.Placed,hp'] at hm
    have hst : me.state=.startPending := hst
    have hm : me.state=.suspended := hm
    rw [hst] at hm
    cases hm
  | _ => simp_all [HsmHart.goto,HsmHart.jump,HsmPc.asleep]

/-! ## Steps of a call -/

/-- The shared accesses a call that has claimed its target has still to make. -/
def StartStage.left : StartStage x → Nat
  | .claim => 5
  | .initCount => 4
  | .nextArg1 _ => 3
  | .nextAddr _ => 2
  | .nextMode _ => 1
  | .launch _ => 0

def HsmPc.left : HsmPc x → Nat
  | .start k => k.stage.left
  | _ => 0

/-- The device, where there is one, starts hart `d`. -/
def HsmConfig.Launches (c : HsmConfig x) (d : Nat) : Prop :=
  ∀ start,c.dev.bind HsmDevice.hartStart=some start → ∀ i,start d (c.warmbootAddr i)=SBI_OK

theorem HsmConfig.Launches.device (hl : c.Launches d) {n : Word x}
    (hp : HsmDevice.powersUp c.dev n=true) (i : Nat) :
    HsmDevice.hartStartDevice c.dev d (c.warmbootAddr i)=SBI_OK := by
  unfold HsmDevice.hartStartDevice
  cases hs : c.dev.bind HsmDevice.hartStart with
  | some start => exact hl start hs i
  | none =>
    unfold HsmDevice.powersUp HsmDevice.hasHartHotplug HsmDevice.hasHartSecondaryBoot at hp
    cases hd : c.dev with
    | none => simp [hd] at hp
    | some dev =>
      rw [hd,Option.bind_some] at hs
      simp [hd,hs] at hp

namespace StartStep

theorem no_call {k : Starting x} (hs : StartStep c s i k ev s') (j : Nat)
    (call : StartCall x) (rc : Int) : HsmEvent.call j call rc∉ev := by
  cases hs <;> simp

/-- The code of a call that passed its checks: success comes from the launch, and the target was not
stopped or not launched otherwise. -/
theorem returned {k : Starting x} (hs : StartStep c s i k ev s') {j : Nat} {rc : Int}
    (he : HsmEvent.ret j call rc∈ev) : j=i ∧ call=k.call ∧
      (k.stage=.claim ∧ (rc=SBI_EALREADY ∨ rc=SBI_EINVAL) ∨
        ∃ n,k.stage=.launch n ∧ (rc=SBI_OK ∨
          rc=HsmDevice.hartStartDevice c.dev k.call.hartid (c.warmbootAddr i) ∧
            HsmDevice.powersUp c.dev n=true)) := by
  cases hs with
  | busy rc' hk hst hrc =>
    simp only [List.mem_singleton,HsmEvent.ret.injEq] at he
    obtain ⟨rfl,rfl,rfl⟩ := he
    exact ⟨rfl,rfl,.inl ⟨hk,hrc⟩⟩
  | launched n hk =>
    simp only [List.mem_singleton,HsmEvent.ret.injEq] at he
    obtain ⟨rfl,rfl,rfl⟩ := he
    exact ⟨rfl,rfl,.inr ⟨n,hk,.inl rfl⟩⟩
  | launchFailed n rc' hk hrc hd hp =>
    simp only [List.mem_singleton,HsmEvent.ret.injEq] at he
    obtain ⟨rfl,rfl,rfl⟩ := he
    exact ⟨rfl,rfl,.inr ⟨n,hk,.inr ⟨hd,hp⟩⟩⟩
  | _ => simp at he

end StartStep

theorem StartOrigin.back_asleep (o : StartOrigin) (rc : Int) :
    (o.back rc : HsmPc x).asleep=false := by
  cases o with
  | ecall mode => rfl
  | finalize rest => simp only [StartOrigin.back]; split_ifs <;> rfl

theorem StartOrigin.back_ne_switch (o : StartOrigin) (rc : Int) (r : Bool) (st : SwitchStage x) :
    o.back rc≠HsmPc.switch r st := by
  cases o with
  | ecall mode => simp [StartOrigin.back]
  | finalize rest => simp only [StartOrigin.back]; split_ifs <;> simp

namespace StartStep

/-- A call in progress after a step is past its claim. -/
theorem started {k k' : Starting x} (hs : StartStep c s i k ev s')
    (hk' : (s'.hart i).pc=.start k') : k'.call=k.call ∧ k'.stage≠.claim ∧
      (k.stage≠.claim ∨ (s.hart k.call.hartid).state=.stopped) := by
  have hback : ∀ rc,k.origin.back (x := x) rc≠.start k' := fun rc => k.origin.back_ne rc k'
  cases hs with
  | claimed hk hst =>
    rw [HsmSystem.pc_goto_self] at hk'
    cases hk'
    exact ⟨rfl,by simp,.inr hst⟩
  | busy rc => rw [HsmSystem.pc_goto_self] at hk'; exact absurd hk' (hback rc)
  | launchFailed n rc => rw [HsmSystem.pc_goto_self] at hk'; exact absurd hk' (hback rc)
  | launched n => rw [HsmSystem.pc_goto_self] at hk'; exact absurd hk' (hback SBI_OK)
  | count n hk =>
    rw [HsmSystem.pc_goto_self] at hk'
    cases hk'
    exact ⟨rfl,by simp,.inl (by simp [hk])⟩
  | storeArg1 n hk =>
    rw [HsmSystem.pc_goto_self] at hk'
    cases hk'
    exact ⟨rfl,by simp,.inl (by simp [hk])⟩
  | storeAddr n hk =>
    rw [HsmSystem.pc_goto_self] at hk'
    cases hk'
    exact ⟨rfl,by simp,.inl (by simp [hk])⟩
  | storeMode n hk =>
    rw [HsmSystem.pc_goto_self] at hk'
    cases hk'
    exact ⟨rfl,by simp,.inl (by simp [hk])⟩

theorem claims_stopped {k : Starting x} (hs : StartStep c s i k ev s') (hk : k.stage=.claim)
    (hst : (s.hart k.call.hartid).state=.stopped) :
    ev=[] ∧ (s'.hart i).pc=.start { k with stage := .initCount } ∧
      (s'.hart k.call.hartid).state=.startPending := by
  cases hs with
  | claimed =>
    refine ⟨rfl,HsmSystem.pc_goto_self _ _ _,?_⟩
    rw [HsmSystem.hart_goto,HsmSystem.hart_put_self]
  | busy rc _ hst' => exact absurd hst hst'
  | count n hk' => rw [hk] at hk'; cases hk'
  | storeArg1 n hk' => rw [hk] at hk'; cases hk'
  | storeAddr n hk' => rw [hk] at hk'; cases hk'
  | storeMode n hk' => rw [hk] at hk'; cases hk'
  | launched n hk' => rw [hk] at hk'; cases hk'
  | launchFailed n rc hk' => rw [hk] at hk'; cases hk'

/-- A call that has claimed its target makes its accesses one by one and returns with success. -/
theorem advances {k : Starting x} (hs : StartStep c s i k ev s') (hk : k.stage≠.claim)
    (hl : c.Launches k.call.hartid) :
    (ev=[] ∧ ∃ k',(s'.hart i).pc=.start k' ∧ k'.call=k.call ∧ k'.stage≠.claim ∧
        k'.stage.left<k.stage.left) ∨
      ev=[.ret i k.call SBI_OK] ∧ (∀ k',(s'.hart i).pc≠.start k') ∧
        (s'.hart k.call.hartid).wakeup=true := by
  cases hs with
  | claimed hk' => exact absurd hk' hk
  | busy rc hk' => exact absurd hk' hk
  | count n hk' =>
    exact .inl ⟨rfl,_,HsmSystem.pc_goto_self _ _ _,rfl,by simp,by simp [hk',StartStage.left]⟩
  | storeArg1 n hk' =>
    exact .inl ⟨rfl,_,HsmSystem.pc_goto_self _ _ _,rfl,by simp,by simp [hk',StartStage.left]⟩
  | storeAddr n hk' =>
    exact .inl ⟨rfl,_,HsmSystem.pc_goto_self _ _ _,rfl,by simp,by simp [hk',StartStage.left]⟩
  | storeMode n hk' =>
    exact .inl ⟨rfl,_,HsmSystem.pc_goto_self _ _ _,rfl,by simp,by simp [hk',StartStage.left]⟩
  | launched n hk' =>
    refine .inr ⟨rfl,fun k' => ?_,?_⟩
    · rw [HsmSystem.pc_goto_self]
      exact k.origin.back_ne _ k'
    · rw [HsmSystem.hart_goto,HsmSystem.hart_put_self]
  | launchFailed n rc hk' hrc hd hp => exact absurd (hd.trans (hl.device hp i)) hrc

/-- A call takes no wake-up away. -/
theorem wakeup {k : Starting x} (hs : StartStep c s i k ev s') (hw : (s.hart d).wakeup=true) :
    (s'.hart d).wakeup=true := by
  have hput : ∀ (t : Nat) (me : HsmHart x) (p : HsmPc x),
      (me.wakeup=(s.hart t).wakeup ∨ me.wakeup=true) →
        (((s.put t me).goto i p).hart d).wakeup=true := by
    intro t me p hme
    rw [HsmSystem.hart_goto,HsmSystem.hart_put]
    by_cases hd : d=t
    · subst hd
      rw [if_pos rfl]
      exact hme.elim (fun h => h.trans hw) id
    · rw [if_neg hd]
      exact hw
  cases hs with
  | busy rc => rwa [HsmSystem.hart_goto]
  | launchFailed n rc => rwa [HsmSystem.hart_goto]
  | count n => rwa [HsmSystem.hart_goto]
  | launched n => exact hput _ _ _ (.inr rfl)
  | claimed => exact hput _ _ _ (.inl rfl)
  | storeArg1 n => exact hput _ _ _ (.inl rfl)
  | storeAddr n => exact hput _ _ _ (.inl rfl)
  | storeMode n => exact hput _ _ _ (.inl rfl)

end StartStep

/-! ## Steps of the platform -/

theorem HsmState.Edge.of_stopped {st : HsmState} (he : HsmState.Edge st .stopped) :
    st=.stopPending := by
  cases he; rfl

theorem HsmState.Edge.of_startPending {st : HsmState} (he : HsmState.Edge st .startPending) :
    st=.stopped := by
  cases he; rfl

namespace HsmStep

/-- A call past its claim was so before the step, or has claimed its target with it. -/
theorem started (hs : HsmStep c s i ev s') {j : Nat} {k' : Starting x}
    (hk' : (s'.hart j).pc=.start k') (hne : k'.stage≠.claim) :
    ∃ k,(s.hart j).pc=.start k ∧ k.call=k'.call ∧
      (k.stage≠.claim ∨ j=i ∧ (s.hart k.call.hartid).state=.stopped) := by
  by_cases hj : j=i
  · subst hj
    cases hs with
    | start k hp ev s' hs =>
      obtain ⟨hcall,-,hk⟩ := hs.started hk'
      exact ⟨k,hp,hcall.symm,hk.imp_right fun h => ⟨rfl,h⟩⟩
    | wakeHarts hp => rw [HsmSystem.hart_goto,if_pos rfl] at hk'; cases hk'
    | own me ev hs =>
      rw [HsmSystem.hart_put_self] at hk'
      exact absurd (hs.start_claim hk') hne
  · rw [hs.pc_other hj] at hk'
    exact ⟨k',hk',rfl,.inl hne⟩

/-- A call in progress was so before the step, or has begun with it. -/
theorem begun (hs : HsmStep c s i ev s') {j : Nat} {k' : Starting x}
    (hk' : (s'.hart j).pc=.start k') :
    (∃ k,(s.hart j).pc=.start k ∧ k.call=k'.call) ∨ HsmEvent.call j k'.call SBI_OK∈ev := by
  by_cases hj : j=i
  · subst hj
    cases hs with
    | start k hp ev s' hs => exact .inl ⟨k,hp,(hs.started hk').1.symm⟩
    | wakeHarts hp => rw [HsmSystem.hart_goto,if_pos rfl] at hk'; cases hk'
    | own me ev hs =>
      rw [HsmSystem.hart_put_self] at hk'
      exact .inr (hs.calls hk')
  · rw [hs.pc_other hj] at hk'
    exact .inl ⟨k',hk',rfl⟩

theorem called (hs : HsmStep c s i ev s') {j : Nat} (he : HsmEvent.call j call SBI_OK∈ev) :
    ∃ k,(s'.hart j).pc=.start k ∧ k.call=call := by
  cases hs with
  | start k hp ev s' hs => exact absurd he (hs.no_call j call SBI_OK)
  | wakeHarts hp => cases he
  | own me ev hs =>
    obtain ⟨rfl,k,hk⟩ := hs.called he
    exact ⟨k,by rwa [HsmSystem.hart_put_self]⟩

/-- Success comes from the launch of a call that has claimed its target. -/
theorem succeeded (hs : HsmStep c s i ev s') {j : Nat} (he : HsmEvent.ret j call SBI_OK∈ev) :
    j=i ∧ ∃ k,(s.hart i).pc=.start k ∧ k.call=call ∧ k.stage≠.claim := by
  cases hs with
  | start k hp ev s' hs =>
    obtain ⟨rfl,rfl,⟨-,hrc⟩ | ⟨n,hn,-⟩⟩ := hs.returned he
    · rcases hrc with hrc | hrc <;> cases hrc
    · exact ⟨rfl,k,hp,rfl,by rw [hn]; simp⟩
  | wakeHarts hp => cases he
  | own me ev hs => exact absurd rfl (hs.returned he).1

/-- The codes of the calls that aim at a hart which can be started. -/
theorem returned (hs : HsmStep c s i ev s') (hl : c.Launches call.hartid) {j : Nat} {rc : Int}
    (he : HsmEvent.ret j call rc∈ev) :
    rc=SBI_OK ∨ rc=SBI_EALREADY ∨ rc=SBI_EINVAL ∨
      rc=SBI_EINVALID_ADDR ∧ HsmEvent.call j call rc∈ev := by
  cases hs with
  | start k hp ev s' hs =>
    obtain ⟨rfl,rfl,⟨-,hrc⟩ | ⟨n,-,hrc | ⟨hrc,hd⟩⟩⟩ := hs.returned he
    · exact .inr (hrc.imp_right .inl)
    · exact .inl hrc
    · exact .inl (hrc.trans (hl.device hd _))
  | wakeHarts hp => cases he
  | own me ev hs =>
    obtain ⟨-,hrc,hcall⟩ := hs.returned he
    exact .inr (.inr (hrc.imp_right fun h => ⟨h,hcall⟩))

/-- A stopped hart stays so until a call that aims at it claims it. -/
theorem keeps_stopped (hs : HsmStep c s i ev s') (hst : (s.hart d).state=.stopped)
    (hno : ∀ k,(s.hart i).pc=.start k → k.call.hartid≠d) : (s'.hart d).state=.stopped := by
  cases hs with
  | start k hp ev s' hs =>
    refine ((hs.state d).resolve_right fun hc => ?_).trans hst
    exact hno k hp hc.1.symm
  | wakeHarts hp => simpa only [HsmSystem.hart_goto] using hst
  | own me ev hs =>
    by_cases hd : d=i
    · subst hd
      rw [HsmSystem.hart_put_self]
      exact hs.keeps_stopped hst
    · rwa [HsmSystem.hart_put_of_ne hd]

/-- Another hart changes the state word only of a stopped hart. -/
theorem state_other (hs : HsmStep c s i ev s') (hd : d≠i) (hst : (s.hart d).state≠.stopped) :
    (s'.hart d).state=(s.hart d).state := by
  cases hs with
  | start k hp ev s' hs => exact (hs.state d).resolve_right fun hc => hst hc.2.1
  | wakeHarts hp => rw [HsmSystem.hart_goto]
  | own me ev hs => rw [HsmSystem.hart_put_of_ne hd]

theorem not_switch (hs : HsmStep c s i ev s') (hst : (s.hart d).state≠.startPending)
    (hp : ∀ st,(s.hart d).pc≠.switch false st) (st : SwitchStage x) :
    (s'.hart d).pc≠.switch false st := by
  by_cases hd : d=i
  · subst hd
    cases hs with
    | start k hp ev s' hs =>
      obtain ⟨p,hpc,hform⟩ := hs.pc
      rw [hpc,if_pos rfl]
      rcases hform with ⟨st',rfl⟩ | ⟨rc,rfl⟩
      · simp
      · exact k.origin.back_ne_switch rc false st
    | wakeHarts hp => simp [HsmSystem.hart_goto]
    | own me ev hs =>
      rw [HsmSystem.hart_put_self]
      exact hs.not_switch hst hp st
  · rw [hs.pc_other hd]
    exact hp st

/-- A claimed hart keeps its wake-up until it is past the wait. -/
theorem awake (hs : HsmStep c s i ev s') (hall : s.Placed) (hne : (s.hart d).state≠.stopped)
    (hst : (s'.hart d).state=.startPending) (hp : (s'.hart d).pc.asleep=true) :
    (s.hart d).pc.asleep=true ∧ (s.hart d).state=.startPending ∧
      ((s.hart d).wakeup=true → (s'.hart d).wakeup=true) := by
  have hst0 : (s.hart d).state=.startPending := by
    rcases hs.edge d with he | he
    · rw [← he,hst]
    · rw [hst] at he
      exact absurd he.of_startPending hne
  by_cases hd : d=i
  · subst hd
    cases hs with
    | start k hp' ev s' hs =>
      obtain ⟨p,hpc,hform⟩ := hs.pc
      rw [hpc,if_pos rfl] at hp
      rcases hform with ⟨st,rfl⟩ | ⟨rc,rfl⟩
      · cases hp
      · rw [k.origin.back_asleep] at hp
        cases hp
    | wakeHarts hp' => rw [HsmSystem.hart_goto,if_pos rfl] at hp; cases hp
    | own me ev hs =>
      rw [HsmSystem.hart_put_self] at hst hp ⊢
      obtain ⟨h1,h2⟩ := hs.awake (hall d) hst hp
      exact ⟨h1,hst0,fun hw => h2.trans hw⟩
  · rw [hs.pc_other hd] at hp
    refine ⟨hp,hst0,fun hw => ?_⟩
    cases hs with
    | start k hp' ev s' hs => exact hs.wakeup hw
    | wakeHarts hp' => rwa [HsmSystem.hart_goto]
    | own me ev hs => rwa [HsmSystem.hart_put_of_ne hd]

/-- What a step does to a hart on its way to the jump. -/
theorem approaches (hs : HsmStep c s i ev s') (hc : (s.hart d).Coming)
    (hno : entries d ev=[]) (hh : (s'.hart d).pc≠.hang) :
    (s'.hart d).pc.way≤(s.hart d).pc.way ∧ (i=d → (s'.hart d).pc.way<(s.hart d).pc.way) := by
  by_cases hd : d=i
  · subst hd
    cases hs with
    | start k hp ev s' hs => exact absurd hp (hc.pc_ne k)
    | wakeHarts hp =>
      rcases hc with ⟨-,hp'⟩ | ⟨st,hp'⟩
      · rw [hp] at hp'; cases hp'
      · rw [hp] at hp'; cases hp'
    | own me ev hs =>
      rw [HsmSystem.hart_put_self] at hh ⊢
      rcases hs.coming hc with ⟨⟨-,hlt⟩,-⟩ | ⟨hh',-⟩ | ⟨a,b,m,-,rfl,-⟩
      · exact ⟨hlt.le,fun _ => hlt⟩
      · exact absurd hh' hh
      · simp [entries,entryOf] at hno
  · rw [hs.pc_other hd]
    exact ⟨Nat.le_refl _,fun he => absurd he.symm hd⟩

theorem coldbootDone (hs : HsmStep c s i ev s') (hd : s.coldbootDone=true) :
    s'.coldbootDone=true := by
  cases hs with
  | start k hp ev s' hs => cases hs <;> exact hd
  | wakeHarts hp => rfl
  | own me ev hs => exact hd

end HsmStep

end OpenSBI
