import OpenSBI.Framework.Fair
import OpenSBI.Hsm.Winner

namespace OpenSBI

open Framework

variable {x : Xlen} {c : HsmConfig x} {i d n : Nat} {s s' : HsmSystem x} {ev : List (HsmEvent x)}
  {call : StartCall x}
  {E : Execution (hsmMachine c)}

theorem start_enabled {k : Starting x} (hp : (s.hart i).pc=.start k) :
    ((hsmMachine c).step s (i,.run)).isSome=true := by
  show (hsmStep c s i .run).isSome=true
  unfold hsmStep
  rw [hp]
  rfl

theorem ownStep_enabled {p : HsmPc x} (hp : (s.hart i).pc=p) (hs : ∀ k,p≠.start k)
    (hw : p≠.cold .wakeHarts)
    (h : (ownStep c i s.coldbootDone (s.hart i) p .run).isSome=true) :
    ((hsmMachine c).step s (i,.run)).isSome=true := by
  show (hsmStep c s i .run).isSome=true
  unfold hsmStep
  rw [hp]
  split
  · next k _ => exact absurd rfl (hs k)
  · exact absurd rfl hw
  · rwa [Option.isSome_map]

/-- A hart on its way to the jump can go on, with a wake-up where it sleeps. -/
theorem coming_enabled (hc : (s.hart d).Coming) (hdone : s.coldbootDone=true)
    (haw : (s.hart d).pc.asleep=true → (s.hart d).wakeup=true) :
    ((hsmMachine c).step s (d,.run)).isSome=true := by
  rcases hc with ⟨hst,hp⟩ | ⟨st,hp⟩
  · cases hpc : (s.hart d).pc with
    | warm p =>
      refine ownStep_enabled hpc (by simp) (by simp) ?_
      rw [hpc] at haw
      cases p with
      | off => simp [ownStep,warmStep,haw rfl]
      | wfi => simp [ownStep,warmStep,haw rfl]
      | sbiInit => simp only [ownStep,warmStep]; split_ifs <;> rfl
      | getState => simp only [ownStep,warmStep]; split_ifs <;> rfl
      | waitForColdboot => simp [ownStep,warmStep,hdone]
      | _ => simp [ownStep,warmStep,hst]
    | exit p =>
      rw [hpc] at hp
      cases p with
      | hartStop => exact ownStep_enabled hpc (by simp) (by simp) rfl
      | _ => cases hp
    | _ => rw [hpc] at hp; cases hp
  · refine ownStep_enabled hp (by simp) (by simp) ?_
    cases st with
    | switchMode a b m => simp only [ownStep,switchStep]; split_ifs <;> rfl
    | _ => rfl

/-- A contest for hart `d` in which every hart that can go on does so in the end. -/
structure FairContest (d : Nat) (E : Execution (hsmMachine c)) : Prop where
  start : ContestInv (E.state 0) (E.state 0) d []
  launches : c.Launches d
  heeded : ∀ n l,E.act n=some l → contest d (E.state n) l (E.state (n+1))
  fair : ∀ h,E.WeaklyFair fun l => l=(h,.run)

namespace FairContest

theorem inv (hf : FairContest d E) (n : Nat) : ContestInv (E.state 0) (E.state n) d (E.trace n) :=
  run_contestInv hf.launches hf.start (Execution.run hf.heeded n)

/-- A step of the execution is one of the platform, or nothing happens. -/
theorem step_cases (E : Execution (hsmMachine c)) (n : Nat) :
    (∃ l,E.act n=some l ∧ HsmStep c (E.state n) l.1 (E.ev n) (E.state (n+1))) ∨
      E.act n=none ∧ E.state (n+1)=E.state n ∧ E.trace (n+1)=E.trace n := by
  cases ha : E.act n with
  | none =>
    obtain ⟨hs,hev⟩ := E.stutter n ha
    exact .inr ⟨rfl,hs,by rw [E.trace_succ,hev,List.append_nil]⟩
  | some l => exact .inl ⟨l,rfl,hsmMachine_step (E.step n l ha)⟩

theorem claimed_succ (hf : FairContest d E) {n : Nat}
    (hc : Claimed (E.state 0) (E.state n) d (E.trace n) i call) :
    Claimed (E.state 0) (E.state (n+1)) d (E.trace (n+1)) i call := by
  rcases step_cases E n with ⟨l,ha,hs⟩ | ⟨-,hs,ht⟩
  · obtain ⟨hset,hstop⟩ := hf.heeded n l ha
    rw [E.trace_succ]
    exact hc.step hs (hf.inv n).placed hf.launches hset hstop
  · rwa [hs,ht]

theorem claimed_mono (hf : FairContest d E) {n m : Nat}
    (hc : Claimed (E.state 0) (E.state n) d (E.trace n) i call) (hm : n ≤ m) :
    Claimed (E.state 0) (E.state m) d (E.trace m) i call := by
  induction m,hm using Nat.le_induction with
  | base => exact hc
  | succ m hm ih => exact hf.claimed_succ ih

/-- A call that is made leads to the claim of the hart. -/
theorem leads_claimed (hf : FairContest d E) {n : Nat} (hm : Made (E.state 0) d (E.trace n) i call) :
    ∃ m i call,n ≤ m ∧ Claimed (E.state 0) (E.state m) d (E.trace m) i call := by
  rcases (hf.inv n).outcome with hu | ⟨i',call',hc⟩
  · have hlead : ∃ m,n ≤ m ∧
        ∃ i call,Claimed (E.state 0) (E.state (m+1)) d (E.trace (m+1)) i call := by
      refine (hf.fair i).leads_of_rank (Q := fun m => Unclaimed (E.state 0) (E.state m) d (E.trace m) ∧
        Made (E.state 0) d (E.trace m) i call) (fun _ => 0) ?_ ?_ ?_ ⟨hu,hm⟩
      · intro m hq
        obtain ⟨k,hk,-⟩ := hq.1.pending i call hq.2
        exact ⟨(i,.run),rfl,start_enabled hk⟩
      · intro m hq
        have hmade : Made (E.state 0) d (E.trace (m+1)) i call := by
          rw [E.trace_succ]
          exact hq.2.append _
        exact (hf.inv (m+1)).outcome.symm.imp_right fun hu => ⟨⟨hu,hmade⟩,Nat.le_refl _⟩
      · rintro m _ ⟨hu,hm⟩ ha rfl
        obtain ⟨k,hk,rfl⟩ := hu.pending i call hm
        have hs : HsmStep c (E.state m) i (E.ev m) (E.state (m+1)) := hsmMachine_step (E.step m _ ha)
        refine .inl ⟨i,k.call,?_⟩
        rw [E.trace_succ]
        exact hu.step_claims hs hk hm.1 (hf.inv m).placed hm
    obtain ⟨m,hle,i',call',hc⟩ := hlead
    exact ⟨m+1,i',call',by omega,hc⟩
  · exact ⟨n,i',call',Nat.le_refl _,hc⟩

/-- The call that has claimed the hart leads to its success. -/
theorem leads_success (hf : FairContest d E) {n : Nat}
    (hc : Claimed (E.state 0) (E.state n) d (E.trace n) i call) :
    ∃ m,n ≤ m ∧ successes d (E.trace m)=[(i,call)] := by
  rcases hc.returned with ⟨hnil,-⟩ | ⟨hone,-⟩
  · have hlead : ∃ m,n ≤ m ∧ successes d (E.trace (m+1))=[(i,call)] := by
      refine (hf.fair i).leads_of_rank (Q := fun m =>
        Claimed (E.state 0) (E.state m) d (E.trace m) i call ∧ successes d (E.trace m)=[])
        (fun m => ((E.state m).hart i).pc.left) ?_ ?_ ?_ ⟨hc,hnil⟩
      · intro m hq
        obtain ⟨k,hk,-⟩ := hq.1.in_progress hq.2
        exact ⟨(i,.run),rfl,start_enabled hk⟩
      · intro m hq
        have hc' := hf.claimed_succ hq.1
        rcases step_cases E m with ⟨l,ha,hs⟩ | ⟨-,hs,ht⟩
        · rw [E.trace_succ] at hc' ⊢
          refine (hq.1.left hs hf.launches hq.2).imp_right fun hno => ⟨⟨hc',hno.1⟩,hno.2.1⟩
        · rw [ht] at hc' ⊢
          rw [hs] at hc' ⊢
          exact .inr ⟨⟨hc',hq.2⟩,Nat.le_refl _⟩
      · rintro m _ ⟨hcm,hnil⟩ ha rfl
        have hs : HsmStep c (E.state m) i (E.ev m) (E.state (m+1)) := hsmMachine_step (E.step m _ ha)
        have hc' := hf.claimed_succ hcm
        rw [E.trace_succ] at hc' ⊢
        exact (hcm.left hs hf.launches hnil).imp_right fun hno => ⟨⟨hc',hno.1⟩,hno.2.2 rfl⟩
    obtain ⟨m,hle,hone⟩ := hlead
    exact ⟨m+1,by omega,hone⟩
  · exact ⟨n,Nat.le_refl _,hone⟩

theorem success_mono (hf : FairContest d E) {n m : Nat}
    (hc : Claimed (E.state 0) (E.state n) d (E.trace n) i call)
    (hone : successes d (E.trace n)=[(i,call)]) (hm : n ≤ m) :
    successes d (E.trace m)=[(i,call)] := by
  induction m,hm using Nat.le_induction with
  | base => exact hone
  | succ m hm ih =>
    have hc' := hf.claimed_mono hc (Nat.le_succ_of_le hm)
    rw [E.trace_succ] at hc' ⊢
    exact hc'.success_append ih

theorem entry_mono (hf : FairContest d E) {n m : Nat}
    (hc : Claimed (E.state 0) (E.state n) d (E.trace n) i call)
    (hone : entries d (E.trace n)=[(call.priv,call.saddr,call.smode)]) (hm : n ≤ m) :
    entries d (E.trace m)=[(call.priv,call.saddr,call.smode)] := by
  induction m,hm using Nat.le_induction with
  | base => exact hone
  | succ m hm ih =>
    have hc' := hf.claimed_mono hc (Nat.le_succ_of_le hm)
    rw [E.trace_succ] at hc' ⊢
    exact hc'.entry_append ih

theorem coldbootDone_succ {n : Nat} (hd : (E.state n).coldbootDone=true) :
    (E.state (n+1)).coldbootDone=true := by
  rcases step_cases E n with ⟨l,-,hs⟩ | ⟨-,hs,-⟩
  · exact hs.coldbootDone hd
  · rwa [hs]

theorem coldbootDone_mono {n m : Nat} (hd : (E.state n).coldbootDone=true) (hm : n ≤ m) :
    (E.state m).coldbootDone=true := by
  induction m,hm using Nat.le_induction with
  | base => exact hd
  | succ m hm ih => exact coldbootDone_succ ih

/-- The success leads to the entry, once cold boot is done and unless the hart hangs. -/
theorem leads_entry (hf : FairContest d E) {n : Nat}
    (hc : Claimed (E.state 0) (E.state n) d (E.trace n) i call)
    (hone : successes d (E.trace n)=[(i,call)]) (hd : (E.state n).coldbootDone=true)
    (hh : ∀ m,((E.state m).hart d).pc≠.hang) :
    ∃ m,n ≤ m ∧ entries d (E.trace m)=[(call.priv,call.saddr,call.smode)] := by
  rcases hc.entered with ⟨hnil,-⟩ | ⟨hent,-⟩
  · have hlead : ∃ m,n ≤ m ∧ entries d (E.trace (m+1))=[(call.priv,call.saddr,call.smode)] := by
      refine (hf.fair d).leads_of_rank (Q := fun m =>
        Claimed (E.state 0) (E.state m) d (E.trace m) i call ∧ n ≤ m ∧ entries d (E.trace m)=[])
        (fun m => ((E.state m).hart d).pc.way) ?_ ?_ ?_ ⟨hc,Nat.le_refl _,hnil⟩
      · intro m ⟨hcm,hm,hnil⟩
        have hcom := hcm.coming hnil (hh m)
        refine ⟨(d,.run),rfl,coming_enabled hcom (coldbootDone_mono hd hm) ?_⟩
        exact hcm.wakes hcom (hf.success_mono hc hone hm)
      · intro m ⟨hcm,hm,hnil⟩
        have hc' := hf.claimed_succ hcm
        have hm' := Nat.le_succ_of_le hm
        rcases step_cases E m with ⟨l,ha,hs⟩ | ⟨-,hs,ht⟩
        · rcases hc'.entered with ⟨hnil',-⟩ | ⟨hent,-⟩
          · have hno : entries d (E.ev m)=[] := by
              rwa [E.trace_succ,entries_append,hnil] at hnil'
            have happ := hs.approaches (hcm.coming hnil (hh m)) hno (hh (m+1))
            exact .inr ⟨⟨hc',hm',hnil'⟩,happ.1⟩
          · exact .inl hent
        · refine .inr ⟨⟨hc',hm',?_⟩,?_⟩
          · rwa [ht]
          · rw [hs]
      · intro m l ⟨hcm,hm,hnil⟩ ha hl
        subst hl
        have hs : HsmStep c (E.state m) d (E.ev m) (E.state (m+1)) := hsmMachine_step (E.step m _ ha)
        have hc' := hf.claimed_succ hcm
        rcases hc'.entered with ⟨hnil',-⟩ | ⟨hent,-⟩
        · have hno : entries d (E.ev m)=[] := by
            rwa [E.trace_succ,entries_append,hnil] at hnil'
          have happ := hs.approaches (hcm.coming hnil (hh m)) hno (hh (m+1))
          exact .inr ⟨⟨hc',Nat.le_succ_of_le hm,hnil'⟩,happ.2 rfl⟩
        · exact .inl hent
    obtain ⟨m,hle,hent⟩ := hlead
    exact ⟨m+1,by omega,hent⟩
  · exact ⟨n,Nat.le_refl _,hent⟩

end FairContest

/-- A contest of `sbi_hsm_hart_start()` calls for a stopped hart, in which the hart loads no field
that a call has still to store. In every run at most one call returns with success, the others with
`SBI_EALREADY` or `SBI_EINVAL` (or the code of their failed address check), and the hart enters its
next stage at most once, as that call says; when all calls have returned one was successful. Where
every hart that can go on does so in the end, both happen. -/
theorem hartStart_contest (c : HsmConfig x) (s0 : HsmSystem x) (t0 : List (HsmEvent x)) (d : Nat)
    (hrun : (hsmMachine c).Run Machine.anyStep c.initial t0 s0) (hst : (s0.hart d).state=.stopped)
    (hclaim : ∀ j k,(s0.hart j).pc=.start k → k.call.hartid=d → k.stage=.claim)
    (hl : c.Launches d) :
    (∀ t s,(hsmMachine c).Run (contest d) s0 t s →
      (∀ i call rc,HsmEvent.ret i call rc∈t → call.hartid=d → rc=SBI_OK ∨ rc=SBI_EALREADY ∨
        rc=SBI_EINVAL ∨ rc=SBI_EINVALID_ADDR ∧ HsmEvent.call i call rc∈t) ∧
      (successes d t=[] ∧ entries d t=[] ∨ ∃ i call,Made s0 d t i call ∧
        (successes d t=[] ∨ successes d t=[(i,call)]) ∧
        (entries d t=[] ∨ entries d t=[(call.priv,call.saddr,call.smode)])) ∧
      ((∃ i call,Made s0 d t i call) →
        (∀ j k,(s.hart j).pc=.start k → k.call.hartid≠d) → successes d t≠[])) ∧
    ∀ E : Execution (hsmMachine c),E.state 0=s0 →
      (∀ n l,E.act n=some l → contest d (E.state n) l (E.state (n+1))) →
      (∀ h,E.WeaklyFair fun l => l=(h,.run)) → (∃ n,(E.state n).coldbootDone=true) →
      (∀ n,((E.state n).hart d).pc≠.hang) → (∃ n i call,Made s0 d (E.trace n) i call) →
      ∃ i call n,∀ m,n ≤ m → Made s0 d (E.trace m) i call ∧
        successes d (E.trace m)=[(i,call)] ∧
        entries d (E.trace m)=[(call.priv,call.saddr,call.smode)] := by
  have hstart := ContestInv.start (run_placed hrun) hst hclaim
  refine ⟨fun t s hrun => ?_,?_⟩
  · have hi := run_contestInv hl hstart hrun
    refine ⟨hi.codes,?_,fun ⟨i,call,hm⟩ hall hnil => ?_⟩
    · rcases hi.outcome with hu | ⟨i,call,hc⟩
      · exact .inl ⟨hu.successes,hu.entries⟩
      · exact .inr ⟨i,call,hc.made,hc.returned.imp And.left And.left,
          hc.entered.imp And.left And.left⟩
    · rcases hi.outcome with hu | ⟨j,call',hc⟩
      · obtain ⟨k,hk,rfl⟩ := hu.pending i call hm
        exact hall i k hk hm.1
      · obtain ⟨k,hk,rfl,-⟩ := hc.in_progress hnil
        exact hall j k hk hc.made.1
  · rintro E rfl hheed hfair ⟨n1,hd⟩ hh ⟨n0,i0,call0,hm⟩
    have hf : FairContest d E := ⟨hstart,hl,hheed,hfair⟩
    obtain ⟨n2,i,call,-,hc⟩ := hf.leads_claimed hm
    obtain ⟨n3,hn3,hone⟩ := hf.leads_success hc
    have hmax := Nat.le_max_right n1 n3
    have hc' := hf.claimed_mono hc (hn3.trans hmax)
    obtain ⟨n4,hn4,hent⟩ := hf.leads_entry hc'
      (hf.success_mono (hf.claimed_mono hc hn3) hone hmax)
      (FairContest.coldbootDone_mono hd (Nat.le_max_left n1 n3)) hh
    have hc4 := hf.claimed_mono hc' hn4
    refine ⟨i,call,n4,fun m hm => ⟨(hf.claimed_mono hc4 hm).made,?_,hf.entry_mono hc4 hent hm⟩⟩
    exact hf.success_mono (hf.claimed_mono hc hn3) hone (hmax.trans (hn4.trans hm))

/-! ## Two rivals -/

/-- Harts from `n` on are off, and no call aims at them. -/
structure HsmSystem.Below (s : HsmSystem x) (n : Nat) : Prop where
  off : ∀ j,n ≤ j → (s.hart j).pc=.warm .off ∧ (s.hart j).wakeup=false
  aimed : ∀ j k,(s.hart j).pc=.start k → k.call.hartid<n

theorem OwnStep.scratch {h : Nat} {done : Bool} {me me' : HsmHart x}
    (hs : OwnStep c h done me ev me') {k : Starting x} (hk : me'.pc=.start k) :
    c.scratch k.call.hartid=true := by
  have hne := hs.pc_ne_start k
  cases hs with
  | visitStart p rest hp hb hd hc => cases hk; exact ((hartStartCheck_ok_iff _ _ _).mp hc).scratch
  | hartStart mode call hp hm hc => cases hk; exact ((hartStartCheck_ok_iff _ _ _).mp hc).scratch
  | stopped p hp hst hq => rcases hq with rfl | rfl <;> cases hk
  | stay hp => exact absurd hk hne
  | refused mode call rc hp => exact absurd hk hne
  | stopRefused hp => exact absurd hk hne
  | _ => cases hk

theorem StartStep.hart_other {k : Starting x} (hs : StartStep c s i k ev s') {j : Nat}
    (hj : j≠i) (ht : j≠k.call.hartid) : s'.hart j=s.hart j := by
  cases hs <;> simp [HsmSystem.hart_goto,HsmSystem.hart_put,hj,ht]

theorem HsmStep.below (hs : HsmStep c s i ev s') (hb : s.Below n) (hi : i<n)
    (hsc : ∀ h,c.scratch h=true → h<n) : s'.Below n where
  off j hj := by
    have hne : j≠i := by omega
    cases hs with
    | start k hp ev s' hs =>
      rw [hs.hart_other hne (Nat.ne_of_gt ((hb.aimed i k hp).trans_le hj))]
      exact hb.off j hj
    | wakeHarts hp =>
      simp only [HsmSystem.hart_goto,if_neg hne]
      exact hb.off j hj
    | own me ev hs =>
      rw [HsmSystem.hart_put_of_ne hne]
      exact hb.off j hj
  aimed j k hk := by
    by_cases hj : j=i
    · subst hj
      cases hs with
      | start k0 hp ev s' hs =>
        rw [(hs.started hk).1]
        exact hb.aimed j k0 hp
      | wakeHarts hp => rw [HsmSystem.hart_goto,if_pos rfl] at hk; cases hk
      | own me ev hs =>
        rw [HsmSystem.hart_put_self] at hk
        exact hsc _ (hs.scratch hk)
    · rw [hs.pc_other hj] at hk
      exact hb.aimed j k hk

theorem HsmStep.hangs (hs : HsmStep c s i ev s') (hh : (s.hart d).pc=.hang) :
    (s'.hart d).pc=.hang := by
  by_cases hd : d=i
  · subst hd
    cases hs with
    | start k hp => rw [hh] at hp; cases hp
    | wakeHarts hp => rw [hh] at hp; cases hp
    | own me ev hs => exact absurd hh hs.pc_ne_hang
  · rwa [hs.pc_other hd]

theorem initial_below (hc : c.coldHartid<n) : c.initial.Below n where
  off j hj := by
    have hne : j≠c.coldHartid := by omega
    simp [HsmConfig.initial,hne]
  aimed j k hk := by by_cases hj : j=c.coldHartid <;> simp [HsmConfig.initial,hj] at hk

/-- The first `n` harts run in a lower mode. -/
def HsmSystem.atRest (s : HsmSystem x) (n : Nat) : Bool :=
  (List.range n).all fun j =>
    match (s.hart j).pc with
    | .lower _ => true
    | _ => false

theorem HsmSystem.Below.disabled (hb : s.Below n) (hr : s.atRest n=true) (h : Nat) :
    (hsmMachine c).step s (h,.run)=none := by
  show hsmStep c s h .run=none
  unfold hsmStep
  by_cases hn : h<n
  · have hpc := List.all_eq_true.mp hr h (List.mem_range.mpr hn)
    cases hp : (s.hart h).pc with
    | lower mode => rfl
    | _ => rw [hp] at hpc; cases hpc
  · obtain ⟨hp,hw⟩ := hb.off h (Nat.le_of_not_lt hn)
    simp [hp,ownStep,warmStep,hw]

/-- The condition on a step of a contest, for the first `n` harts of a platform. -/
def contestBelow (n d : Nat) (s : HsmSystem x) (l : Nat × HsmAction x) (s' : HsmSystem x) : Bool :=
  settledBelow n s l s' && decide ((s'.hart d).state≠.stopPending)

theorem contestBelow_lt {l : Nat × HsmAction x} (hb : contestBelow n d s l s'=true) : l.1<n := by
  simp only [contestBelow,settledBelow,Bool.and_eq_true,decide_eq_true_iff] at hb
  exact hb.1.1

theorem contest_of_below {l : Nat × HsmAction x} (hs : s.Below n)
    (hb : contestBelow n d s l s'=true) : contest d s l s' := by
  simp only [contestBelow,Bool.and_eq_true,decide_eq_true_iff] at hb
  have hset : settled s l s' := by
    refine settled_of_below (fun j hj k hk => ?_) hb.1
    rw [(hs.off j hj).1] at hk
    cases hk
  exact ⟨fun he => he ▸ hset,hb.2⟩

/-- No call is in progress while the harts run, but for one that waits to be started. -/
theorem no_call_at_rest (hb : s.Below (n+1)) (hr : s.atRest n=true) {p : WarmPc}
    (hp : (s.hart n).pc=.warm p) (j : Nat) (k : Starting x) : (s.hart j).pc≠.start k := by
  intro hk
  rcases Nat.lt_trichotomy j n with hj | rfl | hj
  · have hpc := List.all_eq_true.mp hr j (List.mem_range.mpr hj)
    rw [hk] at hpc
    cases hpc
  · rw [hp] at hk
    cases hk
  · rw [(hb.off j hj).1] at hk
    cases hk

theorem execution_below {E : Execution (hsmMachine c)} (h0 : (E.state 0).Below n)
    (hsc : ∀ h,c.scratch h=true → h<n)
    (hok : ∀ m l,E.act m=some l → contestBelow n d (E.state m) l (E.state (m+1))=true) (m : Nat) :
    (E.state m).Below n := by
  induction m with
  | zero => exact h0
  | succ m ih =>
    rcases FairContest.step_cases E m with ⟨l,ha,hs⟩ | ⟨-,hs,-⟩
    · exact hs.below ih (contestBelow_lt (hok m l ha)) hsc
    · rwa [hs]

theorem triple_scratch (hc : c.plat=triplePlatform) (h : Nat) (hh : c.scratch h=true) : h<3 := by
  simp only [HsmConfig.scratch,hc,Bool.and_eq_true,Bool.not_eq_true'] at hh
  exact Nat.lt_of_not_le (of_decide_eq_false hh.2)

/-- All harts of the platform are in the root domain. -/
def rootConfig : HsmConfig .rv64 :=
  { pairConfig with
    table := (sbiDomainInit triplePlatform bootScratch 0 fun _ => tableDomain []).2 }

/-- Harts 0 and 1 run, and hart 2 waits to be started. -/
def rivalsStart : List (Nat × HsmAction .rv64) :=
  runs 0 10++(0,.hartStart 1 0x80200000 0)::runs 0 6++runs 1 12++(2,.powerUp)::runs 2 4

/-- Harts 0 and 1 both start hart 2, and hart 1 comes first. -/
def rivals : List (Nat × HsmAction .rv64) :=
  [(0,.hartStart 2 0x80201000 7),(1,.hartStart 2 0x80202000 9),(1,.run),(0,.run)]++
    runs 1 5++runs 2 9

/-- The call of hart 1. -/
def rivalCall : StartCall .rv64 := ⟨2,0x80202000,PRV_S,9⟩

def rivalsCheck (s0 s : HsmSystem .rv64) (t : List (HsmEvent .rv64)) : Bool :=
  decide ((s0.hart 2).state=.stopped) && s0.atRest 2 && decide ((s0.hart 2).pc=.warm .wfi) &&
    s0.coldbootDone && s.atRest 3 && decide (HsmEvent.call 1 rivalCall SBI_OK∈t)

theorem rivals_contest : ∃ (E : Execution (hsmMachine rootConfig)) (i : Nat)
    (call : StartCall .rv64) (n : Nat),∀ m,n ≤ m → successes 2 (E.trace m)=[(i,call)] ∧
      entries 2 (E.trace m)=[(call.priv,call.saddr,call.smode)] := by
  have hr : ((hsmMachine rootConfig).replay (fun _ l _ => decide (l.1<3)) rootConfig.initial
      rivalsStart).any (fun r => ((hsmMachine rootConfig).replay (contestBelow 3 2) r.1 rivals).any
        fun r' => rivalsCheck r.1 r'.1 r'.2)=true := by decide
  obtain ⟨⟨s0,t0⟩,hr0,hr⟩ := (Option.any_eq_true _ _).mp hr
  obtain ⟨⟨s1,t1⟩,hr1,hcheck⟩ := (Option.any_eq_true _ _).mp hr
  simp only [rivalsCheck,Bool.and_eq_true,decide_eq_true_iff] at hcheck
  obtain ⟨⟨⟨⟨⟨hst,hrest0⟩,hwfi⟩,hdone⟩,hrest1⟩,hcall⟩ := hcheck
  have hrun := Machine.run_of_replay hr0
  have hb0 : s0.Below 3 := hrun.invariant (P := fun s => s.Below 3)
    (fun s l s' ev hb hstep hok =>
      (hsmMachine_step hstep).below hb (of_decide_eq_true hok) (triple_scratch rfl)) (initial_below (by decide))
  obtain ⟨E,hE,hok⟩ := Execution.exists_of_replay hr1
  have hb := execution_below (hE.first ▸ hb0) (triple_scratch rfl) hok
  have hb1 : s1.Below 3 := hE.last _ (Nat.le_refl _) ▸ hb rivals.length
  have hclaim : ∀ j k,(s0.hart j).pc=.start k → k.call.hartid=2 → k.stage=.claim :=
    fun j k hk => absurd hk (no_call_at_rest hb0 hrest0 hwfi j k)
  -- A hart that hangs would hang in the last state, in which the harts run in a lower mode.
  have hhang : ∀ n,((E.state n).hart 2).pc≠.hang := by
    intro n hh
    have hall : ∀ m,n ≤ m → ((E.state m).hart 2).pc=.hang := by
      intro m hm
      induction m,hm using Nat.le_induction with
      | base => exact hh
      | succ m hm ih =>
        rcases FairContest.step_cases E m with ⟨l,-,hs⟩ | ⟨-,hs,-⟩
        · exact hs.hangs ih
        · rwa [hs]
    have hlast := hall (n+rivals.length) (Nat.le_add_right _ _)
    rw [hE.last _ (Nat.le_add_left _ _)] at hlast
    have hpc := List.all_eq_true.mp hrest1 2 (by decide)
    rw [hlast] at hpc
    cases hpc
  obtain ⟨n0,hn0⟩ := (hE.trace _).mp hcall
  have hmade : Made s0 2 (E.trace (n0+1)) 1 rivalCall := by
    rw [E.trace_succ]
    exact ⟨rfl,.inr (List.mem_append_right _ hn0)⟩
  obtain ⟨i,call,n,hall⟩ := (hartStart_contest rootConfig s0 t0 2 (hrun.mono fun _ _ _ _ => trivial)
    hst hclaim (by intro start hs; cases hs)).2 E hE.first
    (fun m l ha => contest_of_below (hb m) (hok m l ha))
    (fun h => hE.weaklyFair fun l hl => hl ▸ hb1.disabled hrest1 h)
    ⟨0,by rw [hE.first]; exact hdone⟩ hhang ⟨n0+1,1,rivalCall,hmade⟩
  exact ⟨E,i,call,n,fun m hm => (hall m hm).2⟩

/-- Hart 2 of the platform with two domains waits to be started. -/
def staleStart : List (Nat × HsmAction .rv64) :=
  runs 0 17++runs 1 12++(2,.powerUp)::runs 2 3

/-- The call of hart 1 for it. -/
def staleCall : StartCall .rv64 := ⟨2,0xc0001000,PRV_S,0⟩

/-- Hart 2 enters its next stage before the call that has claimed it has made its stores. -/
theorem staleEntry_foreign :
    ¬∀ (x : Xlen) (c : HsmConfig x) (s0 : HsmSystem x) (t0 : List (HsmEvent x)) (d : Nat),
      (hsmMachine c).Run Machine.anyStep c.initial t0 s0 → (s0.hart d).state=.stopped →
      (∀ j k,(s0.hart j).pc=.start k → k.call.hartid=d → k.stage=.claim) → c.Launches d →
      ∀ t s,(hsmMachine c).Run (fun _ _ s' => (s'.hart d).state≠.stopPending) s0 t s →
        entries d t=[] ∨ ∃ i call,Made s0 d t i call ∧
          entries d t=[(call.priv,call.saddr,call.smode)] := by
  intro hall
  have hr : ((hsmMachine pairConfig).replay (fun _ l _ => decide (l.1<3)) pairConfig.initial
      staleStart).any (fun r => decide ((r.1.hart 2).state=.stopped) && r.1.atRest 2 &&
        decide ((r.1.hart 2).pc=.warm .hartWait) && ((hsmMachine pairConfig).replay
          (fun _ _ s' => decide ((s'.hart 2).state≠.stopPending)) r.1
            ((1,.hartStart 2 0xc0001000 0)::runs 1 1++runs 2 8)).any fun r' =>
          decide (r'.2=[.call 1 staleCall SBI_OK,.enter 2 false 0 0x80200000 PRV_S]))=true := by
    decide
  obtain ⟨⟨s0,t0⟩,hr0,hr⟩ := (Option.any_eq_true _ _).mp hr
  simp only [Bool.and_eq_true,decide_eq_true_iff] at hr
  obtain ⟨⟨⟨hst,hrest⟩,hwait⟩,hr⟩ := hr
  obtain ⟨⟨s1,t1⟩,hr1,ht⟩ := (Option.any_eq_true _ _).mp hr
  have ht := of_decide_eq_true ht
  simp only at ht
  subst ht
  have hrun := Machine.run_of_replay hr0
  have hb0 : s0.Below 3 := hrun.invariant (P := fun s => s.Below 3)
    (fun s l s' ev hb hstep hok => (hsmMachine_step hstep).below hb (of_decide_eq_true hok)
      (triple_scratch rfl)) (initial_below (by decide))
  have hnone := no_call_at_rest hb0 hrest hwait
  rcases hall .rv64 pairConfig s0 t0 2 (hrun.mono fun _ _ _ _ => trivial) hst
    (fun j k hk => absurd hk (hnone j k)) (by intro start hs; cases hs) _ s1
    ((Machine.run_of_replay hr1).mono fun _ _ _ hok => of_decide_eq_true hok) with hnil | hent
  · cases hnil
  · obtain ⟨i,call,⟨-,⟨k,hk,-⟩ | hcall⟩,hent⟩ := hent
    · exact hnone i k hk
    · simp only [List.mem_cons,HsmEvent.call.injEq,reduceCtorEq,List.not_mem_nil,or_false] at hcall
      obtain ⟨-,rfl,-⟩ := hcall
      revert hent
      decide

end OpenSBI
