import OpenSBI.Hsm.Step

namespace OpenSBI

open Framework

variable {x : Xlen} {c : HsmConfig x} {h i : Nat} {done : Bool} {me me' : HsmHart x}
  {s s' : HsmSystem x} {ev : List (HsmEvent x)} {t : List (HsmEvent x)}

/-- The moves of a state word the source makes. -/
inductive HsmState.Edge : HsmState → HsmState → Prop where
  | claim : Edge .stopped .startPending
  | start : Edge .startPending .started
  | stop : Edge .started .stopPending
  | exit : Edge .stopPending .stopped
  | suspend : Edge .started .suspended
  | restore : Edge .suspended .started
  | resumeStart : Edge .suspended .resumePending
  | resumeFinish : Edge .resumePending .started

/-- The states a hart can be in at a position. A hart that waits to be started can be claimed by
another hart at any time. -/
def HsmPc.Allows : HsmPc x → HsmState → Prop
  | .lower _,st => st=.started
  | .start ⟨_,.ecall _,_⟩,st => st=.started
  | .start ⟨_,.finalize _,_⟩,st => st=.startPending
  | .suspend _ .device,st => st=.suspended
  | .suspend _ .restore,st => st=.suspended
  | .suspend _ _,st => st=.started
  | .exit .hartStop,st => st=.stopped ∨ st=.startPending
  | .exit _,st => st=.stopPending
  | .warm .off,st => st=.stopped ∨ st=.startPending
  | .warm .sbiInit,st => st=.stopped ∨ st=.startPending ∨ st=.suspended
  | .warm .waitForColdboot,st => st=.stopped ∨ st=.startPending ∨ st=.suspended
  | .warm .getState,st => st=.stopped ∨ st=.startPending ∨ st=.suspended
  | .warm .hartWait,st => st=.stopped ∨ st=.startPending
  | .warm .wfi,st => st=.stopped ∨ st=.startPending
  | .warm _,st => st=.startPending
  | .resume .resumeStart,st => st=.suspended
  | .resume _,st => st=.resumePending
  | .switch _ _,st => st=.started
  | .cold _,st => st=.startPending
  | .hang,_ => True

def HsmHart.Placed (me : HsmHart x) : Prop := me.pc.Allows me.state

theorem HsmPc.Allows.claim {p : HsmPc x} (hp : p.Allows .stopped) : p.Allows .startPending := by
  cases p with
  | start k => obtain ⟨call,origin,stage⟩ := k; cases origin <;> cases hp
  | suspend k st => cases st <;> cases hp
  | exit p => cases p <;> simp [HsmPc.Allows] at hp ⊢
  | warm p => cases p <;> simp [HsmPc.Allows] at hp ⊢
  | resume p => cases p <;> cases hp
  | hang => trivial
  | _ => cases hp

/-- A guarded state word is as the code expects it. -/
theorem HsmHart.Placed.guards {b : SanityBranch} {st : HsmState} (hm : me.Placed)
    (hb : b.Guards me.pc st) : me.state=st := by
  unfold HsmHart.Placed at hm
  cases b <;> simp only [SanityBranch.Guards] at hb
  case suspendState =>
    obtain ⟨⟨k,hp⟩,rfl⟩ := hb
    rwa [hp] at hm
  case suspendRestore =>
    obtain ⟨⟨k,hp⟩,rfl⟩ := hb
    rwa [hp] at hm
  all_goals
    obtain ⟨hp,rfl⟩ := hb
    rwa [hp] at hm

theorem OwnStep.placed (hs : OwnStep c h done me ev me') (hm : me.Placed) : me'.Placed := by
  unfold HsmHart.Placed at hm ⊢
  cases hs with
  | stay hp => exact hm
  | refused mode call rc hp => exact hm
  | stopRefused hp => exact hm
  | stopped p hp hst hq => rcases hq with rfl | rfl <;> exact .inl rfl
  | getState hp hst ha =>
    rw [hp] at hm
    exact hm.imp_right fun h => h.resolve_right hst
  | suspendRefused k hp hst =>
    rw [hp] at hm
    exact absurd hm hst
  | resetRefused mode hp hst =>
    rw [hp] at hm
    exact absurd hm hst
  | powerUp hp =>
    rw [hp] at hm
    exact hm.imp_right .inl
  | deviceResumed k hp hn =>
    rw [hp] at hm
    exact .inr (.inr hm)
  | _ => simp_all [HsmHart.goto,HsmHart.jump,HsmPc.Allows]

theorem OwnStep.edge (hs : OwnStep c h done me ev me') :
    me'.state=me.state ∨ HsmState.Edge me.state me'.state := by
  cases hs with
  | prepareNextJump hp hst => exact .inr (hst ▸ .start)
  | resumeStart hp hst => exact .inr (hst ▸ .resumeStart)
  | resumeFinish hp hst => exact .inr (hst ▸ .resumeFinish)
  | hartStop hp hst => exact .inr (hst ▸ .stop)
  | systemReset mode hp hst => exact .inr (hst ▸ .stop)
  | suspended k hp hst => exact .inr (hst ▸ .suspend)
  | restored k hp hst => exact .inr (hst ▸ .restore)
  | stopped p hp hst => exact .inr (hst ▸ .exit)
  | _ => exact .inl rfl

/-- Of the sanity branches only two can be taken: the error of a stop while the hart is stopping,
and the one behind a `hart_stop` callback that returns. -/
theorem OwnStep.sanity (hs : OwnStep c h done me ev me') (hm : me.Placed) {j : Nat}
    {b : SanityBranch} (hb : HsmEvent.sanity j b∈ev) :
    b=.stopState ∨ b=.exitReturned ∧ me.pc=.exit .hartStop := by
  cases hs with
  | fail b' st hg hst => exact absurd (hm.guards hg) hst
  | suspendRefused k hp hst =>
    exact absurd (hm.guards (b := .suspendState) ⟨⟨k,hp⟩,rfl⟩) hst
  | stopReturned hp =>
    simp only [List.mem_singleton,HsmEvent.sanity.injEq] at hb
    exact .inr ⟨hb.2,hp⟩
  | stopRefused hp hst =>
    simp only [List.mem_singleton,HsmEvent.sanity.injEq] at hb
    exact .inl hb.2
  | resetRefused mode hp hst =>
    simp only [List.mem_singleton,HsmEvent.sanity.injEq] at hb
    exact .inl hb.2
  | _ => simp at hb

/-- A call moves its caller on, to its next access or back to where it came from. -/
theorem StartStep.pc {k : Starting x} (hs : StartStep c s i k ev s') :
    ∃ p,(∀ j,(s'.hart j).pc=if j=i then p else (s.hart j).pc) ∧
      ((∃ st,p=.start { k with stage := st }) ∨ ∃ rc,p=k.origin.back rc) := by
  cases hs with
  | busy rc => exact ⟨_,fun j => by rw [HsmSystem.hart_goto],.inr ⟨rc,rfl⟩⟩
  | launchFailed n rc => exact ⟨_,fun j => by rw [HsmSystem.hart_goto],.inr ⟨rc,rfl⟩⟩
  | count n => exact ⟨_,fun j => by rw [HsmSystem.hart_goto],.inl ⟨_,rfl⟩⟩
  | launched n => exact ⟨_,HsmSystem.pc_goto_put rfl,.inr ⟨SBI_OK,rfl⟩⟩
  | claimed => exact ⟨_,HsmSystem.pc_goto_put rfl,.inl ⟨_,rfl⟩⟩
  | storeArg1 n => exact ⟨_,HsmSystem.pc_goto_put rfl,.inl ⟨_,rfl⟩⟩
  | storeAddr n => exact ⟨_,HsmSystem.pc_goto_put rfl,.inl ⟨_,rfl⟩⟩
  | storeMode n => exact ⟨_,HsmSystem.pc_goto_put rfl,.inl ⟨_,rfl⟩⟩

theorem StartStep.state {k : Starting x} (hs : StartStep c s i k ev s') (j : Nat) :
    (s'.hart j).state=(s.hart j).state ∨
      j=k.call.hartid ∧ (s.hart j).state=.stopped ∧ (s'.hart j).state=.startPending := by
  cases hs with
  | claimed hk hst =>
    rw [HsmSystem.hart_goto,HsmSystem.hart_put]
    by_cases hj : j=k.call.hartid
    · exact .inr ⟨hj,hj ▸ hst,by rw [if_pos hj]⟩
    · exact .inl (by rw [if_neg hj])
  | busy rc => exact .inl (by rw [HsmSystem.hart_goto])
  | launchFailed n rc => exact .inl (by rw [HsmSystem.hart_goto])
  | count n => exact .inl (by rw [HsmSystem.hart_goto])
  | launched n => exact .inl (HsmSystem.state_goto_put (by rfl) j)
  | storeArg1 n => exact .inl (HsmSystem.state_goto_put (by rfl) j)
  | storeAddr n => exact .inl (HsmSystem.state_goto_put (by rfl) j)
  | storeMode n => exact .inl (HsmSystem.state_goto_put (by rfl) j)

theorem HsmPc.Allows.next {k : Starting x} {st : HsmState} (hp : (HsmPc.start k).Allows st)
    (stage : StartStage x) : (HsmPc.start { k with stage := stage }).Allows st := by
  obtain ⟨call,origin,stage'⟩ := k
  cases origin <;> exact hp

theorem HsmPc.Allows.back {k : Starting x} {st : HsmState} (hp : (HsmPc.start k).Allows st)
    (rc : Int) : HsmPc.Allows (x := x) (k.origin.back rc) st := by
  obtain ⟨call,origin,stage⟩ := k
  cases origin with
  | ecall mode => exact hp
  | finalize rest =>
    simp only [StartOrigin.back]
    split_ifs
    · exact hp
    · trivial

def HsmSystem.Placed (s : HsmSystem x) : Prop := ∀ h,(s.hart h).Placed

theorem StartStep.placed {k : Starting x} (hs : StartStep c s i k ev s')
    (hp : (s.hart i).pc=.start k) (hall : s.Placed) : s'.Placed := by
  intro j
  obtain ⟨p,hpc,hform⟩ := hs.pc
  have hj := hall j
  unfold HsmHart.Placed at hj ⊢
  rw [hpc j]
  by_cases hji : j=i
  · subst hji
    rw [if_pos rfl]
    rw [hp] at hj
    have hstate : (s'.hart j).state=(s.hart j).state := by
      refine (hs.state j).resolve_right fun hc => ?_
      rw [hc.2.1] at hj
      obtain ⟨call,origin,stage⟩ := k
      cases origin <;> cases hj
    rw [hstate]
    rcases hform with ⟨st,rfl⟩ | ⟨rc,rfl⟩
    · exact hj.next st
    · exact hj.back rc
  · rw [if_neg hji]
    rcases hs.state j with hst | ⟨-,h1,h2⟩
    · rwa [hst]
    · rw [h1] at hj
      rw [h2]
      exact hj.claim

theorem HsmStep.placed (hs : HsmStep c s i ev s') (hall : s.Placed) : s'.Placed := by
  cases hs with
  | start k hp ev s' hs => exact hs.placed hp hall
  | wakeHarts hp =>
    intro j
    have hj := hall j
    unfold HsmHart.Placed at hj ⊢
    rw [HsmSystem.hart_goto]
    by_cases hji : j=i
    · subst hji
      rw [hp] at hj
      rw [if_pos rfl]
      exact hj
    · rw [if_neg hji]
      exact hj
  | own me ev hs =>
    intro j
    rw [HsmSystem.hart_put]
    split_ifs
    · exact hs.placed (hall i)
    · exact hall j

theorem initial_placed (c : HsmConfig x) : c.initial.Placed := by
  intro j
  by_cases hj : j=c.coldHartid <;> simp [HsmHart.Placed,HsmConfig.initial,hj,HsmPc.Allows]

theorem run_placed {ok : HsmSystem x → Nat × HsmAction x → HsmSystem x → Prop}
    (hrun : (hsmMachine c).Run ok c.initial t s) : s.Placed :=
  hrun.invariant (fun _ _ _ _ hs hstep _ => (hsmMachine_step hstep).placed hs) (initial_placed c)

theorem HsmStep.edge (hs : HsmStep c s i ev s') (j : Nat) :
    (s'.hart j).state=(s.hart j).state ∨ HsmState.Edge (s.hart j).state (s'.hart j).state := by
  cases hs with
  | start k hp ev s' hs =>
    rcases hs.state j with h | ⟨-,h1,h2⟩
    · exact .inl h
    · exact .inr (by rw [h1,h2]; exact .claim)
  | wakeHarts hp => exact .inl (by rw [HsmSystem.hart_goto])
  | own me ev hs =>
    rw [HsmSystem.hart_put]
    split_ifs with hj
    · subst hj; exact hs.edge
    · exact .inl rfl

theorem HsmStep.sanity (hs : HsmStep c s i ev s') (hall : s.Placed) {j : Nat}
    {b : SanityBranch} (hb : HsmEvent.sanity j b∈ev) : b=.stopState ∨ b=.exitReturned := by
  cases hs with
  | start k hp ev s' hs => cases hs <;> simp at hb
  | wakeHarts hp => simp at hb
  | own me ev hs => exact (hs.sanity (hall i) hb).imp_right And.left

/-- The state machine of the harts, whatever the calls, interrupts, resumes and failures: state
words move along the edges only, a hart in a lower mode is `SBI_HSM_STATE_STARTED`, and no sanity
branch is taken that hangs or fails a hart, unless a `hart_stop` callback returns. -/
theorem hsmMachine_lifecycle (c : HsmConfig x) (s : HsmSystem x) (t : List (HsmEvent x))
    (hrun : (hsmMachine c).Run Machine.anyStep c.initial t s) :
    (∀ l s' ev,(hsmMachine c).step s l=some (s',ev) → ∀ h,(s'.hart h).state=(s.hart h).state ∨
        HsmState.Edge (s.hart h).state (s'.hart h).state) ∧
      (∀ h mode,(s.hart h).pc=.lower mode → (s.hart h).state=.started) ∧
      ∀ h b,HsmEvent.sanity h b∈t → b=.stopState ∨ b=.exitReturned := by
  refine ⟨fun l s' ev hstep h => (hsmMachine_step hstep).edge h,fun h mode hp => ?_,?_⟩
  · have := run_placed hrun h
    rwa [HsmHart.Placed,hp] at this
  · have hall : s.Placed ∧ ∀ h b,HsmEvent.sanity h b∈t → b=.stopState ∨ b=.exitReturned := by
      refine hrun.traceInvariant (P := fun t s => s.Placed ∧
        ∀ h b,HsmEvent.sanity h b∈t → b=.stopState ∨ b=.exitReturned) ?_
        ⟨initial_placed c,by simp⟩
      intro t s l s' ev ⟨hp,ht⟩ hstep _
      have hs := hsmMachine_step hstep
      refine ⟨hs.placed hp,fun h b hb => ?_⟩
      rcases List.mem_append.mp hb with hb | hb
      · exact ht h b hb
      · exact hs.sanity hp hb
    exact hall.2

/-! ## A platform with two domains -/

def triplePlatform : Platform := ⟨fun h => decide (3≤h)⟩

/-- A domain for harts 1 and 2, with memory of its own from `0xc0000000`, that hart 1 boots. -/
def pairDomain : SbiDomain .rv64 :=
  { tableDomain [rootFwRegion bootScratch,⟨28,0xc0000000,7⟩] with
    possibleHarts := some 6,bootHartid := 1,nextAddr := 0xc0000000,nextMode := PRV_S }

/-- The table with the root domain for hart 0 and the domain above. -/
def pairTable : DomainTable .rv64 :=
  (bootCall triplePlatform (rootFwRegion bootScratch) 0
    (sbiDomainInit triplePlatform bootScratch 0 fun _ => tableDomain []).2
    (.register 1 pairDomain 6)).2

/-- All scratch spaces hold the next stage of the firmware, as `fw_base.S` sets them up. -/
def pairConfig : HsmConfig .rv64 where
  plat := triplePlatform
  table := pairTable
  pastTable := []
  dev := none
  hasHartSuspend := false
  coldHartid := 0
  warmbootAddr _ := 0x80000000
  nextArg1 _ := 0
  nextAddr _ := 0x80200000
  nextMode _ := PRV_S
  misa _ mode := decide (mode=PRV_S ∨ mode=PRV_U)

/-- A hart runs on for some steps. -/
def runs (h n : Nat) : List (Nat × HsmAction .rv64) := List.replicate n (h,.run)

/-- What the replay of some actions computes holds after a run. -/
theorem exists_replay {c : HsmConfig .rv64} {l : List (Nat × HsmAction .rv64)}
    {p : HsmSystem .rv64 → List (HsmEvent .rv64) → Bool}
    (hr : ((hsmMachine c).replay (fun _ _ _ => true) c.initial l).any
      (fun r => p r.1 r.2)=true) :
    ∃ s t,(hsmMachine c).Run Machine.anyStep c.initial t s ∧ p s t=true := by
  obtain ⟨s,t,hrun,hp⟩ := Machine.exists_run hr
  exact ⟨s,t,hrun.mono fun _ _ _ _ => trivial,hp⟩

/-- The cold boot hart after its jump. -/
theorem coldBoot_started : ∃ s t,(hsmMachine pairConfig).Run Machine.anyStep pairConfig.initial t s ∧
    (s.hart 0).pc=.lower PRV_S ∧ (s.hart 0).state=.started := by
  obtain ⟨s,t,hrun,hp⟩ := exists_replay (c := pairConfig) (l := runs 0 17)
    (p := fun s _ => decide ((s.hart 0).pc=.lower PRV_S)) (by decide)
  have hp := of_decide_eq_true hp
  exact ⟨s,t,hrun,hp,(hsmMachine_lifecycle pairConfig s t hrun).2.1 0 PRV_S hp⟩

/-- The callback of a device with hotplug returns to `sbi_hsm_exit()`. -/
theorem returnedStop_fails :
    ¬∀ (x : Xlen) (c : HsmConfig x) (s : HsmSystem x) (t : List (HsmEvent x)),
      (hsmMachine c).Run Machine.anyStep c.initial t s →
        (∀ l s' ev,(hsmMachine c).step s l=some (s',ev) → ∀ h,
          (s'.hart h).state=(s.hart h).state ∨
            HsmState.Edge (s.hart h).state (s'.hart h).state) ∧
        (∀ h mode,(s.hart h).pc=.lower mode → (s.hart h).state=.started) ∧
        ∀ h b,HsmEvent.sanity h b∈t → b=.stopState := by
  intro hall
  obtain ⟨s,t,hrun,hp⟩ := exists_replay
    (c := { pairConfig with dev := some ⟨some fun _ _ => SBI_OK,true⟩ })
    (l := runs 0 17++[(0,.hartStop),(0,.run),(0,.stopReturns)])
    (p := fun _ t => decide (HsmEvent.sanity 0 .exitReturned∈t)) (by decide)
  exact absurd ((hall .rv64 _ s t hrun).2.2 0 _ (of_decide_eq_true hp)) (by decide)

end OpenSBI
