import OpenSBI.Hsm.Ready

namespace OpenSBI

open Framework

variable {x : Xlen} {c : HsmConfig x} {h i : Nat} {done : Bool} {me me' : HsmHart x}
  {s s' : HsmSystem x} {ev : List (HsmEvent x)} {call : StartCall x}

/-- The jump the call describes is one the domain of its hart allows. -/
def HsmConfig.Admits (c : HsmConfig x) (call : StartCall x) : Prop :=
  (call.smode=PRV_S ∨ call.smode=PRV_U) ∧ ∃ d,c.table.domainOf call.hartid=some d ∧
    sbiDomainCheckAddr d call.saddr call.smode SBI_DOMAIN_EXECUTE=true

/-- The configurations cold boot leads to: `sbi_domain_init()` succeeds for a valid hart, and the
table is what drivers and platform make of it until the end of `sbi_platform_domains_init()`. -/
structure HsmConfig.Booted (c : HsmConfig x) (scratch : FwScratch x)
    (store : Nat → SbiDomain x) : Prop where
  init : (sbiDomainInit c.plat scratch c.coldHartid store).1=SBI_OK
  boot : ∃ tr,Machine.Run (bootMachine c.plat (rootFwRegion scratch) c.coldHartid)
    (RootIntact c.plat (rootFwRegion scratch)) (sbiDomainInit c.plat scratch c.coldHartid store).2
    tr c.table
  cold : c.scratch c.coldHartid=true

/-- What the jumps need of the table. -/
structure HsmConfig.Sound (c : HsmConfig x) : Prop where
  consistent : c.table.Consistent c.coldHartid
  sane : c.table.Sane
  cold : (c.table.hartidToDomain c.coldHartid).isSome=true
  coldHartid_lt : c.coldHartid<SBI_HARTMASK_MAX_BITS

theorem HsmConfig.Booted.sound {scratch : FwScratch x} {store : Nat → SbiDomain x}
    (hb : c.Booted scratch store) : c.Sound := by
  obtain ⟨tr,hrun⟩ := hb.boot
  have hcold := hb.cold
  simp only [HsmConfig.scratch,Bool.and_eq_true,decide_eq_true_iff,Bool.not_eq_true'] at hcold
  refine ⟨boot_consistent hrun,boot_sane hrun,?_,hcold.1⟩
  exact boot_assigned ((sbiDomainInit_ok hb.init).2.2 _ hcold.1 hcold.2) hrun

namespace HsmConfig.Sound

/-- The loop of `sbi_domain_finalize()` finds the cold boot hart in its own domain. -/
theorem boots {p : Nat} (hc : c.Sound) (hp : c.table.hartidToDomain c.coldHartid=some p) :
    c.Boots p ∧ (c.table.store p).bootHartid=c.coldHartid := by
  have hboot := hc.consistent.boot p hp
  obtain ⟨-,hassigned,hpossible⟩ := hc.consistent.owner _ _ hp
  refine ⟨⟨?_,?_,?_,?_⟩,hboot⟩ <;> rw [hboot]
  · exact hc.coldHartid_lt
  · exact hpossible
  · exact hp
  · exact hassigned

/-- The jump of a domain that has a boot hart. -/
theorem admits_domain {p j : Nat} (hc : c.Sound) (hp : c.table.hartidToDomain j=some p) :
    c.Admits ⟨j,(c.table.store p).nextAddr,(c.table.store p).nextMode,
      (c.table.store p).nextArg1⟩ := by
  have hsane := hc.sane p (hc.consistent.owner j p hp).1
  exact ⟨hsane.nextMode,c.table.store p,by rw [DomainTable.domainOf,hp]; rfl,hsane.nextAddr⟩

/-- A call that passes the checks of its caller's domain is one for the domain of its target. -/
theorem admits_checked (hc : c.Sound) (hd : (c.table.domainOf i).isSome=true)
    (hk : hartStartCheck (c.table.domainOf i) c.scratch call=SBI_OK) : c.Admits call := by
  obtain ⟨d,hd⟩ := Option.isSome_iff_exists.mp hd
  rw [hartStartCheck_ok_iff] at hk
  refine ⟨hk.smode,d,?_,hk.saddr d hd⟩
  obtain ⟨p,hp,rfl⟩ := Option.map_eq_some_iff.mp hd
  have hmem := (hc.consistent.owner i p hp).1
  rw [DomainTable.domainOf,hc.consistent.assigned p hmem _ (hk.assigned _ hd)]
  rfl

end HsmConfig.Sound

theorem admits_suspend {k : Suspending x} (hn : nonRetentive k.suspendType=true)
    (hk : hartSuspendCheck (c.table.domainOf h) k.suspendType k.raddr k.rmode=SBI_OK) :
    c.Admits ⟨h,k.raddr,k.rmode,k.priv⟩ := by
  have h1 : ¬SBI_EINVAL=SBI_OK := by decide
  have h2 : ¬SBI_EINVALID_ADDR=SBI_OK := by decide
  unfold hartSuspendCheck at hk
  cases hd : c.table.domainOf h with
  | none => rw [hd] at hk; exact absurd hk h1
  | some d =>
    rw [hd] at hk
    simp only at hk
    split_ifs at hk with _ _ hmode haddr
    · exact absurd hk h1
    · exact absurd hk h1
    · exact absurd hk h1
    · exact absurd hk h2
    · refine ⟨?_,d,hd,by simpa [hn] using haddr⟩
      by_contra hc
      exact hmode ⟨hn,not_or.mp hc⟩

/-- Positions at which a hart has not looked up its domain. -/
def HsmPc.early : HsmPc x → Bool
  | .warm .off => true
  | .warm .sbiInit => true
  | .warm .waitForColdboot => true
  | .warm .getState => true
  | .hang => true
  | _ => false

/-- The domains the cold boot hart has still to visit in `sbi_domain_finalize()`. -/
def HsmPc.finalizes : HsmPc x → Option (List Nat)
  | .cold (.finalize rest) => some rest
  | .start ⟨_,.finalize rest,_⟩ => some rest
  | _ => none

theorem OwnStep.early (hs : OwnStep c h done me ev me') (he : me'.pc.early=false) :
    me.pc.early=false ∨ (c.table.domainOf h).isSome=true := by
  have hsome : sbiDomainIsAssignedHart (c.table.domainOf h) h=true →
      (c.table.domainOf h).isSome=true := by
    intro ha
    cases hd : c.table.domainOf h with
    | none => rw [hd] at ha; cases ha
    | some d => rfl
  cases hs with
  | getState hp hst ha => exact .inr (hsome ha)
  | getSuspended hp hst ha => exact .inr (hsome ha)
  | powerUp => cases he
  | sbiInit => cases he
  | coldbootDone => cases he
  | hang => cases he
  | fail => cases he
  | stopReturned => cases he
  | visitRefused => cases he
  | deviceResumed => cases he
  | powerDown => cases he
  | stay hp => exact .inl he
  | refused mode call rc hp => exact .inl he
  | stopRefused hp => exact .inl he
  | hartStop hp => left; cases hpc : me.pc <;> simp_all [HsmPc.stoppable,HsmPc.early]
  | _ => left; simp_all [HsmPc.early]

/-- Where a call comes from. -/
theorem OwnStep.begins (hs : OwnStep c h done me ev me') {k : Starting x}
    (hk : me'.pc=.start k) :
    hartStartCheck (c.table.domainOf h) c.scratch k.call=SBI_OK ∧
        (∃ mode,me.pc=.lower mode ∧ k.origin=.ecall mode) ∨
      ∃ p rest,me.pc=.cold (.finalize (p::rest)) ∧ c.Boots p ∧
        k.call=(c.table.store p).bootCall ∧ k.origin=.finalize rest := by
  have hne := hs.pc_ne_start k
  cases hs with
  | hartStart mode call hp hm hc => cases hk; exact .inl ⟨hc,mode,hp,rfl⟩
  | visitStart p rest hp hb hd hc => cases hk; exact .inr ⟨p,rest,hp,hb,rfl,rfl⟩
  | stopped p hp hst hq => rcases hq with rfl | rfl <;> cases hk
  | stay hp => exact absurd hk hne
  | refused mode call rc hp => exact absurd hk hne
  | stopRefused hp => exact absurd hk hne
  | _ => cases hk

/-- One round of the loop of `sbi_domain_finalize()`. -/
theorem OwnStep.finalizes (hs : OwnStep c h done me ev me') {rest : List Nat}
    (hf : me'.pc.finalizes=some rest) :
    ∃ p,me.pc=.cold (.finalize (p::rest)) ∧
      ((¬c.Boots p ∨ (c.table.store p).bootHartid≠c.coldHartid) ∧
          (∀ call f,me.Holds call f → me'.Holds call f) ∨
        c.Boots p ∧ (c.table.store p).bootHartid=c.coldHartid ∧
          ∀ f,me'.Holds (c.table.store p).bootCall f) := by
  cases hs with
  | visitSkip p rest' hp hb =>
    cases hf
    exact ⟨p,hp,.inl ⟨.inl hb,fun call f hh => by cases f <;> exact hh⟩⟩
  | visitStart p rest' hp hb hd =>
    cases hf
    exact ⟨p,hp,.inl ⟨.inr hd,fun call f hh => by cases f <;> exact hh⟩⟩
  | visitOwn p rest' hp hb hd =>
    cases hf
    exact ⟨p,hp,.inr ⟨hb,hd,fun f => by cases f <;> rfl⟩⟩
  | stopped p hp hst hq => rcases hq with rfl | rfl <;> cases hf
  | stay hp =>
    cases hpc : me.pc with
    | cold p => rw [hpc] at hp; cases hp
    | start k => rw [hpc] at hp; cases hp
    | _ => rw [hpc] at hf; cases hf
  | stopRefused hp =>
    cases hpc : me.pc with
    | cold p => rw [hpc] at hp; cases hp
    | start k => rw [hpc] at hp; cases hp
    | _ => rw [hpc] at hf; cases hf
  | refused mode call rc hp => rw [hp] at hf; cases hf
  | _ => cases hf

/-- What a run keeps in which no field is loaded that a call has still to store. -/
structure HsmConfig.JumpInv (c : HsmConfig x) (s : HsmSystem x) : Prop where
  placed : s.Placed
  awaited : Awaited s
  owned : ∀ h,(s.hart h).pc.early=false → (c.table.domainOf h).isSome=true
  calls : ∀ j k,(s.hart j).pc=.start k → c.Admits k.call
  boot : ∀ h rest,(s.hart h).pc.finalizes=some rest → h=c.coldHartid ∧
    ∀ p,c.table.hartidToDomain c.coldHartid=some p →
      p∈rest ∨ ∀ f,(s.hart h).Holds (c.table.store p).bootCall f
  ready : ∀ h,(s.hart h).consumes=true → ∃ call,call.hartid=h ∧ c.Admits call ∧ Ready s h call

theorem jumpInv_initial (hc : c.Sound) : c.JumpInv c.initial where
  placed := initial_placed c
  awaited j k f hk hf := by
    by_cases hj : j=c.coldHartid <;> simp [HsmConfig.initial,hj] at hk
  owned h he := by
    by_cases hh : h=c.coldHartid
    · rw [hh,DomainTable.domainOf,Option.isSome_map]
      exact hc.cold
    · simp [HsmConfig.initial,hh,HsmPc.early] at he
  calls j k hk := by by_cases hj : j=c.coldHartid <;> simp [HsmConfig.initial,hj] at hk
  boot h rest hf := by
    by_cases hh : h=c.coldHartid
    · refine ⟨hh,fun p hp => .inl ?_⟩
      simp only [HsmConfig.initial,hh,if_true,HsmPc.finalizes,Option.some.injEq] at hf
      rw [← hf]
      exact List.mem_append_left _ (hc.consistent.owner _ _ hp).1
    · simp [HsmConfig.initial,hh,HsmPc.finalizes] at hf
  ready h hr := by
    by_cases hh : h=c.coldHartid <;> simp [HsmConfig.initial,hh,HsmHart.consumes] at hr

namespace HsmConfig.JumpInv

theorem step_owned (hi : c.JumpInv s) (hs : HsmStep c s i ev s') (j : Nat)
    (he : (s'.hart j).pc.early=false) : (c.table.domainOf j).isSome=true := by
  cases hs with
  | start k hp ev s' hs =>
    by_cases hj : j=i
    · subst hj
      exact hi.owned j (by rw [hp]; rfl)
    · rw [hs.pc_other hj] at he
      exact hi.owned j he
  | wakeHarts hp =>
    by_cases hj : j=i
    · subst hj
      exact hi.owned j (by rw [hp]; rfl)
    · simp only [HsmSystem.hart_goto,if_neg hj] at he
      exact hi.owned j he
  | own me ev hs =>
    by_cases hj : j=i
    · subst hj
      rw [HsmSystem.hart_put_self] at he
      exact (hs.early he).elim (hi.owned j) id
    · rw [HsmSystem.hart_put_of_ne hj] at he
      exact hi.owned j he

theorem step_calls (hi : c.JumpInv s) (hc : c.Sound) (hs : HsmStep c s i ev s') (j : Nat)
    (k : Starting x) (hk : (s'.hart j).pc=.start k) : c.Admits k.call := by
  cases hs with
  | start k0 hp ev s' hs =>
    by_cases hj : j=i
    · subst hj
      rw [(hs.lacks hk).1]
      exact hi.calls j k0 hp
    · rw [hs.pc_other hj] at hk
      exact hi.calls j k hk
  | wakeHarts hp =>
    by_cases hj : j=i
    · simp [HsmSystem.hart_goto,hj] at hk
    · simp only [HsmSystem.hart_goto,if_neg hj] at hk
      exact hi.calls j k hk
  | own me ev hs =>
    by_cases hj : j=i
    · subst hj
      rw [HsmSystem.hart_put_self] at hk
      rcases hs.begins hk with ⟨hcheck,mode,hp,-⟩ | ⟨p,rest,hp,hb,hcall,-⟩
      · exact hc.admits_checked (hi.owned j (by rw [hp]; rfl)) hcheck
      · rw [hcall]
        exact hc.admits_domain hb.domain
    · rw [HsmSystem.hart_put_of_ne hj] at hk
      exact hi.calls j k hk

theorem step_boot (hi : c.JumpInv s) (hc : c.Sound) (hs : HsmStep c s i ev s') (j : Nat)
    (rest : List Nat) (hf : (s'.hart j).pc.finalizes=some rest) :
    j=c.coldHartid ∧ ∀ p,c.table.hartidToDomain c.coldHartid=some p →
      p∈rest ∨ ∀ f,(s'.hart j).Holds (c.table.store p).bootCall f := by
  cases hs with
  | start k hp ev s' hs =>
    have hrest : (s.hart j).pc.finalizes=some rest := by
      by_cases hj : j=i
      · subst hj
        obtain ⟨p,hpc,hform⟩ := hs.pc
        rw [hpc,if_pos rfl] at hf
        rw [hp]
        obtain ⟨call,origin,stage⟩ := k
        rcases hform with ⟨st,rfl⟩ | ⟨rc,rfl⟩
        · cases origin <;> exact hf
        · cases origin with
          | ecall mode => cases hf
          | finalize l =>
            simp only [StartOrigin.back] at hf
            split_ifs at hf
            · exact hf
            · cases hf
      · rwa [hs.pc_other hj] at hf
    obtain ⟨hcold,hset⟩ := hi.boot j rest hrest
    refine ⟨hcold,fun p hp' => (hset p hp').imp_right fun hh f => ?_⟩
    -- Nobody has claimed the cold boot hart, so no store goes there.
    refine hs.holds (fun ht hlacks => ?_) (hh f)
    obtain ⟨g,hl⟩ := hlacks
    have haw := ht ▸ hi.awaited i k g hp hl
    rcases haw with ⟨-,hw⟩ | ⟨st,hsw,-⟩
    · cases hpc : (s.hart j).pc with
      | cold p => rw [hpc] at hw; cases hw
      | start k => rw [hpc] at hw; cases hw
      | _ => rw [hpc] at hrest; cases hrest
    · rw [hsw] at hrest
      cases hrest
  | wakeHarts hp =>
    by_cases hj : j=i
    · simp [HsmSystem.hart_goto,hj,HsmPc.finalizes] at hf
    · simp only [HsmSystem.hart_goto,if_neg hj] at hf ⊢
      exact hi.boot j rest hf
  | own me ev hs =>
    by_cases hj : j=i
    · subst hj
      rw [HsmSystem.hart_put_self] at hf ⊢
      obtain ⟨q,hq,hround⟩ := hs.finalizes hf
      obtain ⟨hcold,hset⟩ := hi.boot j (q::rest) (by rw [hq]; rfl)
      refine ⟨hcold,fun p hp => ?_⟩
      obtain ⟨hb,hown⟩ := hc.boots hp
      rcases hround with ⟨hskip,hkeep⟩ | ⟨hbq,hownq,hh⟩
      · have hne : p≠q := by
          rintro rfl
          exact hskip.elim (fun h => h hb) fun h => h hown
        exact (hset p hp).imp (fun hm => (List.mem_cons.mp hm).resolve_left hne)
          fun hh f => hkeep _ f (hh f)
      · have hpq : some p=some q := by
          rw [← hp,← hownq]
          exact hbq.domain
        cases hpq
        exact .inr hh
    · rw [HsmSystem.hart_put_of_ne hj] at hf ⊢
      exact hi.boot j rest hf

/-- What the description of a jump comes from, the domain of the hart allows. -/
theorem source (hi : c.JumpInv s) (hc : c.Sound) (hs : JumpSource c s i h call) :
    c.Admits call := by
  cases hs with
  | start k hp ht => exact hi.calls i k hp
  | suspend k hn hk => exact admits_suspend hn hk
  | boot hp =>
    obtain ⟨hcold,hset⟩ := hi.boot h [] (by rw [hp]; rfl)
    obtain ⟨p,hp⟩ := Option.isSome_iff_exists.mp hc.cold
    have hh := (hset p hp).resolve_left List.not_mem_nil
    have h1 : (s.hart h).nextArg1=(c.table.store p).nextArg1 := hh .arg1
    have h2 : (s.hart h).nextAddr=(c.table.store p).nextAddr := hh .addr
    have h3 : (s.hart h).nextMode=(c.table.store p).nextMode := hh .mode
    rw [h1,h2,h3,hcold]
    exact hc.admits_domain hp

theorem step (hi : c.JumpInv s) (hc : c.Sound) (hs : HsmStep c s i ev s')
    (hset : Settled s i) : c.JumpInv s' where
  placed := hs.placed hi.placed
  awaited := hs.awaited hi.placed hi.awaited hset
  owned := hi.step_owned hs
  calls := hi.step_calls hc hs
  boot := hi.step_boot hc hs
  ready h hr' := by
    cases hr : (s.hart h).consumes with
    | true =>
      obtain ⟨call,ht,hadm,hready⟩ := hi.ready h hr
      exact ⟨call,ht,hadm,hs.ready hi.placed (fun he => he ▸ hset) hr hr' hready⟩
    | false =>
      obtain ⟨call,hsrc,hready⟩ := hs.fresh hi.placed hi.awaited hr hr'
      exact ⟨call,hsrc.hartid,hi.source hc hsrc,hready⟩

end HsmConfig.JumpInv

/-- The condition on a step of a run: no field is loaded that a call which has claimed the hart has
still to store. -/
def settled (s : HsmSystem x) (l : Nat × HsmAction x) (_ : HsmSystem x) : Prop := Settled s l.1

theorem run_jumpInv (hc : c.Sound) {t : List (HsmEvent x)}
    (hrun : (hsmMachine c).Run settled c.initial t s) : c.JumpInv s :=
  hrun.invariant (P := c.JumpInv) (fun _ _ _ _ hs hstep hok =>
    hs.step hc (hsmMachine_step hstep) hok) (jumpInv_initial hc)

/-- A jump is made from the last stage of `sbi_hart_switch_mode()`. -/
theorem HsmStep.enter {r : Bool} {arg1 addr : Word x} {mode : Nat}
    (hs : HsmStep c s i ev s') (he : HsmEvent.enter h r arg1 addr mode∈ev) :
    h=i ∧ (s.hart h).pc=.switch r (.switchMode arg1 addr mode) := by
  cases hs with
  | start k hp ev s' hs => cases hs <;> simp at he
  | wakeHarts hp => simp at he
  | own me ev hs =>
    cases hs with
    | enter r' a b m hp =>
      simp only [List.mem_singleton,HsmEvent.enter.injEq] at he
      obtain ⟨rfl,rfl,rfl,rfl,rfl⟩ := he
      exact ⟨rfl,hp⟩
    | _ => simp at he

/-- Every jump through `sbi_hart_switch_mode()` leads to S- or U-mode, and to an address that the
domain of the hart lets that mode execute, in the runs in which no field is loaded before it is
stored. -/
theorem hsmMachine_jumpsAdmitted (c : HsmConfig x) (scratch : FwScratch x)
    (store : Nat → SbiDomain x) (hboot : c.Booted scratch store) (s : HsmSystem x)
    (t : List (HsmEvent x)) (hrun : (hsmMachine c).Run settled c.initial t s) :
    ∀ h r arg1 addr mode,HsmEvent.enter h r arg1 addr mode∈t →
      (mode=PRV_S ∨ mode=PRV_U) ∧ ∃ d,c.table.domainOf h=some d ∧
        sbiDomainCheckAddr d addr mode SBI_DOMAIN_EXECUTE=true := by
  have hc := hboot.sound
  have hall : c.JumpInv s ∧ ∀ h r arg1 addr mode,HsmEvent.enter h r arg1 addr mode∈t →
      c.Admits ⟨h,addr,mode,arg1⟩ := by
    refine hrun.traceInvariant (P := fun t s => c.JumpInv s ∧
      ∀ h r arg1 addr mode,HsmEvent.enter h r arg1 addr mode∈t →
        c.Admits ⟨h,addr,mode,arg1⟩) ?_ ⟨jumpInv_initial hc,by simp⟩
    intro t s l s' ev ⟨hi,ht⟩ hstep hok
    have hs := hsmMachine_step hstep
    refine ⟨hi.step hc hs hok,fun h r arg1 addr mode he => ?_⟩
    rcases List.mem_append.mp he with he | he
    · exact ht h r arg1 addr mode he
    · obtain ⟨-,hp⟩ := hs.enter he
      obtain ⟨call,hcall,hadm,hready⟩ := hi.ready h (by rw [HsmHart.consumes,hp])
      have hl := hready.carries
      rw [HsmHart.Carries,hp] at hl
      obtain ⟨rfl,rfl,rfl⟩ := hl
      rw [← hcall]
      exact hadm
  exact hall.2

/-! ## The platform with two domains -/

theorem StartStage.lacks_mode {st : StartStage x} {f : JumpField} (hf : st.lacks f=true) :
    st.lacks .mode=true := by
  cases st <;> cases f <;> first | rfl | cases hf

/-- The condition on a step, for the first `n` harts of a platform. -/
def settledBelow (n : Nat) (s : HsmSystem x) (l : Nat × HsmAction x) (_ : HsmSystem x) : Bool :=
  decide (l.1<n) && (List.range n).all fun j =>
    match (s.hart j).pc,(s.hart l.1).pc with
    | .start k,.switch _ _ => decide (k.call.hartid≠l.1) || !k.stage.lacks .mode
    | _,_ => true

theorem settled_of_below {n : Nat} {l : Nat × HsmAction x}
    (hout : ∀ j,n≤j → ∀ k,(s.hart j).pc≠.start k) (hb : settledBelow n s l s'=true) :
    settled s l s' := by
  intro j k r st f hk ht hsw _
  simp only [settledBelow,Bool.and_eq_true,List.all_eq_true,List.mem_range] at hb
  have hj : j<n := Nat.lt_of_not_le fun hle => hout j hle k hk
  have hcheck := hb.2 j hj
  rw [hk,hsw] at hcheck
  simp only [ht,ne_eq,not_true_eq_false,decide_false,Bool.false_or,Bool.not_eq_true'] at hcheck
  by_contra hl
  rw [Bool.not_eq_false] at hl
  rw [StartStage.lacks_mode hl] at hcheck
  cases hcheck

/-- A replay in which the first `n` harts heed the condition is a run with it. -/
theorem exists_settled {c : HsmConfig .rv64} {n : Nat} (hn : c.coldHartid<n)
    {l : List (Nat × HsmAction .rv64)} {p : HsmSystem .rv64 → List (HsmEvent .rv64) → Bool}
    (hr : ((hsmMachine c).replay (settledBelow n) c.initial l).any (fun r => p r.1 r.2)=true) :
    ∃ s t,(hsmMachine c).Run settled c.initial t s ∧ p s t=true := by
  obtain ⟨s,t,hrun,hp⟩ := Machine.exists_run hr
  refine ⟨s,t,hrun.mono_of_invariant (P := fun s => ∀ j,n≤j → ∀ k,(s.hart j).pc≠.start k)
    (fun s a s' ev hs hstep hok j hj k hk => ?_) (fun s a s' hs hok => settled_of_below hs hok)
    fun j hj k hk => ?_,hp⟩
  · simp only [settledBelow,Bool.and_eq_true,decide_eq_true_iff] at hok
    rw [(hsmMachine_step hstep).pc_other (by omega)] at hk
    exact hs j hj k hk
  · have hne : j≠c.coldHartid := by omega
    simp [HsmConfig.initial,hne] at hk

theorem pairConfig_booted : pairConfig.Booted bootScratch fun _ => tableDomain [] where
  init := by decide
  boot := ⟨_,.single (a := .register 1 pairDomain 6) rfl fun reg hreg => by cases hreg⟩
  cold := by decide

/-- Hart 1 boots its domain, starts hart 2, and hart 2 jumps where it was told to. -/
def pairStart (n : Nat) : List (Nat × HsmAction .rv64) :=
  runs 0 11++runs 1 12++(2,.powerUp)::runs 2 3++(1,.hartStart 2 0xc0001000 0)::runs 1 n++runs 2 8

theorem pairStart_admitted :
    ∃ s t,(hsmMachine pairConfig).Run settled pairConfig.initial t s ∧
      HsmEvent.enter 2 false 0 0xc0001000 PRV_S∈t ∧
      ∃ d,pairConfig.table.domainOf 2=some d ∧
        sbiDomainCheckAddr d 0xc0001000 PRV_S SBI_DOMAIN_EXECUTE=true := by
  obtain ⟨s,t,hrun,hp⟩ := exists_settled (c := pairConfig) (n := 3) (by decide)
    (l := pairStart 6) (p := fun _ t => decide (HsmEvent.enter 2 false 0 0xc0001000 PRV_S∈t))
    (by decide)
  have hp := of_decide_eq_true hp
  exact ⟨s,t,hrun,hp,(hsmMachine_jumpsAdmitted pairConfig bootScratch (fun _ => tableDomain [])
    pairConfig_booted s t hrun 2 false 0 0xc0001000 PRV_S hp).2⟩

/-- Hart 2 finds itself claimed before hart 1 has stored the description of the jump, and goes where
the firmware's next stage is, which is not in its domain. -/
theorem staleJump_refused :
    ¬∀ (x : Xlen) (c : HsmConfig x) (scratch : FwScratch x) (store : Nat → SbiDomain x),
      c.Booted scratch store → ∀ (s : HsmSystem x) (t : List (HsmEvent x)),
      (hsmMachine c).Run Machine.anyStep c.initial t s →
      ∀ h r arg1 addr mode,HsmEvent.enter h r arg1 addr mode∈t →
        (mode=PRV_S ∨ mode=PRV_U) ∧ ∃ d,c.table.domainOf h=some d ∧
          sbiDomainCheckAddr d addr mode SBI_DOMAIN_EXECUTE=true := by
  intro hall
  obtain ⟨s,t,hrun,hp⟩ := exists_replay (c := pairConfig) (l := pairStart 1)
    (p := fun _ t => decide (HsmEvent.enter 2 false 0 0x80200000 PRV_S∈t)) (by decide)
  obtain ⟨-,d,hd,hcheck⟩ := hall .rv64 pairConfig bootScratch (fun _ => tableDomain [])
    pairConfig_booted s t hrun 2 false 0 0x80200000 PRV_S (of_decide_eq_true hp)
  have hno : (pairConfig.table.domainOf 2).any (fun d =>
      sbiDomainCheckAddr d 0x80200000 PRV_S SBI_DOMAIN_EXECUTE)=false := by decide
  rw [hd,Option.any_some,hcheck] at hno
  cases hno

end OpenSBI
