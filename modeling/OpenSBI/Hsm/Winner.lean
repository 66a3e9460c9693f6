import OpenSBI.Hsm.Contest

namespace OpenSBI

open Framework

variable {x : Xlen} {c : HsmConfig x} {i j d : Nat} {s0 s s' : HsmSystem x}
  {ev t : List (HsmEvent x)} {call : StartCall x}

/-- A call that aims at hart `d` and passed its checks, in progress when the contest begins or made
since. -/
def Made (s0 : HsmSystem x) (d : Nat) (t : List (HsmEvent x)) (i : Nat) (call : StartCall x) :
    Prop :=
  call.hartid=d ∧
    ((∃ k,(s0.hart i).pc=.start k ∧ k.call=call) ∨ HsmEvent.call i call SBI_OK∈t)

/-- Hart `d` is stopped, and no call that aims at it has got further than its claim. -/
structure Unclaimed (s0 s : HsmSystem x) (d : Nat) (t : List (HsmEvent x)) : Prop where
  successes : successes d t=[]
  entries : entries d t=[]
  state : (s.hart d).state=.stopped
  claim : ∀ j k,(s.hart j).pc=.start k → k.call.hartid=d → k.stage=.claim
  pending : ∀ i call,Made s0 d t i call → ∃ k,(s.hart i).pc=.start k ∧ k.call=call

/-- The call of hart `i` has claimed hart `d`: it is the one that returns with success, and hart `d`
enters its next stage once, as the call says. -/
structure Claimed (s0 s : HsmSystem x) (d : Nat) (t : List (HsmEvent x)) (i : Nat)
    (call : StartCall x) : Prop where
  made : Made s0 d t i call
  state : (s.hart d).state≠.stopped ∧ (s.hart d).state≠.stopPending
  others : ∀ j k,(s.hart j).pc=.start k → k.call.hartid=d → k.stage≠.claim →
    j=i ∧ k.call=call
  returned : successes d t=[] ∧ (∃ k,(s.hart i).pc=.start k ∧ k.call=call ∧ k.stage≠.claim) ∨
    successes d t=[(i,call)] ∧ ∀ j k,(s.hart j).pc=.start k → k.call.hartid=d → k.stage=.claim
  entered : entries d t=[] ∧ ((s.hart d).Coming ∧ Ready s d call ∨ (s.hart d).pc=.hang) ∨
    entries d t=[(call.priv,call.saddr,call.smode)] ∧ (s.hart d).state≠.startPending ∧
      ∀ st,(s.hart d).pc≠.switch false st
  awake : successes d t=[(i,call)] → (s.hart d).pc.asleep=true →
    (s.hart d).state=.startPending → (s.hart d).wakeup=true

/-- The condition on a step of a contest for hart `d`: the hart loads no field that a call which
has claimed it has still to store, and does not stop again. -/
def contest (d : Nat) (s : HsmSystem x) (l : Nat × HsmAction x) (s' : HsmSystem x) : Prop :=
  (l.1=d → Settled s d) ∧ (s'.hart d).state≠.stopPending

theorem Made.append (hm : Made s0 d t i call) (ev : List (HsmEvent x)) :
    Made s0 d (t++ev) i call :=
  ⟨hm.1,hm.2.imp_right (List.mem_append_left ev)⟩

namespace HsmStep

/-- A step without a launch of a call that aims at hart `d` leaves no success. -/
theorem no_success (hs : HsmStep c s i ev s')
    (hno : ∀ j k,(s.hart j).pc=.start k → k.call.hartid=d → k.stage≠.claim → False) :
    successes d ev=[] := by
  refine successes_nil fun j call he ht => ?_
  obtain ⟨-,k,hk,rfl,hne⟩ := hs.succeeded he
  exact hno i k hk ht hne

theorem no_entry (hs : HsmStep c s i ev s')
    (hp : d=i → ∀ st,(s.hart d).pc≠.switch false st) : entries d ev=[] := by
  refine entries_nil fun arg1 addr mode he => ?_
  obtain ⟨hd,hsw⟩ := hs.enter he
  exact hp hd _ hsw

end HsmStep

theorem HsmHart.Placed.not_switch {me : HsmHart x} (hm : me.Placed) (hst : me.state≠.started)
    (r : Bool) (st : SwitchStage x) : me.pc≠.switch r st := by
  intro hp
  rw [HsmHart.Placed,hp] at hm
  exact hst hm

namespace Unclaimed

/-- Steps that do not claim the hart. -/
theorem keep (hu : Unclaimed s0 s d t) (hs : HsmStep c s i ev s') (hall : s.Placed)
    (hno : ∀ k,(s.hart i).pc=.start k → k.call.hartid≠d) : Unclaimed s0 s' d (t++ev) where
  successes := by
    rw [successes_append,hu.successes,hs.no_success fun j k hk ht hne => hne (hu.claim j k hk ht)]
    rfl
  entries := by
    have hne : (s.hart d).state≠.started := by rw [hu.state]; decide
    rw [entries_append,hu.entries,hs.no_entry fun _ => (hall d).not_switch hne false]
    rfl
  state := hs.keeps_stopped hu.state hno
  claim j k' hk' ht := by
    by_contra hne
    obtain ⟨k,hk,hcall,hold | ⟨rfl,-⟩⟩ := hs.started hk' hne
    · exact hold (hu.claim j k hk (hcall ▸ ht))
    · exact hno k hk (hcall ▸ ht)
  pending j call hm := by
    obtain ⟨ht,hm⟩ := hm
    rw [List.mem_append,← or_assoc] at hm
    rcases hm with hm | hm
    · obtain ⟨k,hk,hcall⟩ := hu.pending j call ⟨ht,hm⟩
      have hj : j≠i := by
        rintro rfl
        exact hno k hk (hcall ▸ ht)
      exact ⟨k,by rwa [hs.pc_other hj],hcall⟩
    · exact hs.called hm

/-- The first call that claims the hart. -/
theorem claimed {k : Starting x} (hu : Unclaimed s0 s d t) (hs : StartStep c s i k ev s')
    (hp : (s.hart i).pc=.start k) (ht : k.call.hartid=d) (hall : s.Placed)
    (hm : Made s0 d t i k.call) : Claimed s0 s' d (t++ev) i k.call := by
  have hk := hu.claim i k hp ht
  have hst := hu.state
  have hw := (hall d).waiting hst
  have hne : d≠i := by
    rintro rfl
    rw [hp] at hw
    cases hw
  have hready : Ready s' d k.call := by
    rw [← ht]
    refine hs.claimed_ready hp hall hk (ht ▸ hst) fun j k' f hk' ht' => ?_
    rw [hu.claim j k' hk' (ht'.trans ht)]
    rfl
  have hpc : (s'.hart d).pc=(s.hart d).pc := hs.pc_other hne
  have hclaim : ∀ j k',j≠i → (s'.hart j).pc=.start k' → k'.call.hartid=d → k'.stage=.claim :=
    fun j k' hj hk' ht' => hu.claim j k' ((hs.pc_other hj) ▸ hk') ht'
  obtain ⟨rfl,hpci,hstate⟩ := hs.claims_stopped hk (ht ▸ hst)
  rw [ht] at hstate
  rw [List.append_nil]
  refine ⟨hm,by rw [hstate]; decide,fun j k' hk' ht' hne' => ?_,
    .inl ⟨hu.successes,_,hpci,rfl,by simp⟩,.inl ⟨hu.entries,?_⟩,fun hone => ?_⟩
  · by_cases hj : j=i
    · subst hj
      rw [hpci] at hk'
      cases hk'
      exact ⟨rfl,rfl⟩
    · exact absurd (hclaim j k' hj hk' ht') hne'
  · cases hq : (s.hart d).pc with
    | hang => exact .inr (hpc.trans hq)
    | warm p => exact .inl ⟨.inl ⟨hstate,by rw [hpc,hq]; rfl⟩,hready⟩
    | exit p =>
      refine .inl ⟨.inl ⟨hstate,?_⟩,hready⟩
      rw [hq] at hw
      rw [hpc,hq]
      cases p <;> first | rfl | cases hw
    | _ => rw [hq] at hw; cases hw
  · rw [hu.successes] at hone
    cases hone

theorem step_claims {k : Starting x} (hu : Unclaimed s0 s d t) (hs : HsmStep c s i ev s')
    (hk : (s.hart i).pc=.start k) (ht : k.call.hartid=d) (hall : s.Placed)
    (hm : Made s0 d t i k.call) : Claimed s0 s' d (t++ev) i k.call := by
  cases hs with
  | start k' hp ev s' hs =>
    rw [hk] at hp
    cases hp
    exact hu.claimed hs hk ht hall hm
  | wakeHarts hp => rw [hk] at hp; cases hp
  | own me ev hs => exact absurd hk (hs.pc_ne_start k)

end Unclaimed

namespace Claimed

theorem step_state (hc : Claimed s0 s d t i call) (hs : HsmStep c s j ev s')
    (hstop : (s'.hart d).state≠.stopPending) :
    (s'.hart d).state≠.stopped ∧ (s'.hart d).state≠.stopPending := by
  refine ⟨fun hst => ?_,hstop⟩
  rcases hs.edge d with he | he
  · exact hc.state.1 (he ▸ hst)
  · rw [hst] at he
    exact hc.state.2 he.of_stopped

/-- No call claims the hart again. -/
theorem step_claimed (hc : Claimed s0 s d t i call) (hs : HsmStep c s j ev s') {l : Nat}
    {k' : Starting x} (hk' : (s'.hart l).pc=.start k') (ht : k'.call.hartid=d)
    (hne : k'.stage≠.claim) :
    ∃ k,(s.hart l).pc=.start k ∧ k.call=k'.call ∧ k.stage≠.claim := by
  obtain ⟨k,hk,hcall,hold | ⟨-,hst⟩⟩ := hs.started hk' hne
  · exact ⟨k,hk,hcall,hold⟩
  · rw [hcall,ht] at hst
    exact absurd hst hc.state.1

theorem step_others (hc : Claimed s0 s d t i call) (hs : HsmStep c s j ev s') (l : Nat)
    (k' : Starting x) (hk' : (s'.hart l).pc=.start k') (ht : k'.call.hartid=d)
    (hne : k'.stage≠.claim) : l=i ∧ k'.call=call := by
  obtain ⟨k,hk,hcall,hold⟩ := hc.step_claimed hs hk' ht hne
  rw [← hcall] at ht ⊢
  exact hc.others l k hk ht hold

/-- The call that has claimed the hart goes on with its accesses, or returns with success. -/
theorem advances (hc : Claimed s0 s d t i call) (hs : HsmStep c s j ev s') (hl : c.Launches d)
    {k : Starting x} (hk : (s.hart i).pc=.start k) (hcall : k.call=call) (hne : k.stage≠.claim) :
    (successes d ev=[] ∧ ∃ k',(s'.hart i).pc=.start k' ∧ k'.call=call ∧ k'.stage≠.claim ∧
        k'.stage.left≤k.stage.left ∧ (j=i → k'.stage.left<k.stage.left)) ∨
      successes d ev=[(i,call)] ∧ (∀ k',(s'.hart i).pc≠.start k') ∧
        (s'.hart d).wakeup=true := by
  have ht := hc.made.1
  subst hcall
  by_cases hj : i=j
  · subst hj
    cases hs with
    | start k' hp ev s' hs =>
      rw [hk] at hp
      cases hp
      rcases hs.advances hne (ht ▸ hl) with ⟨rfl,k',hk',hcall,hne',hlt⟩ | ⟨rfl,hback,hw⟩
      · exact .inl ⟨rfl,k',hk',hcall,hne',hlt.le,fun _ => hlt⟩
      · exact .inr ⟨by simp [successes,successOf,ht],hback,ht ▸ hw⟩
    | wakeHarts hp => rw [hk] at hp; cases hp
    | own me ev hs => exact absurd hk (hs.pc_ne_start k)
  · refine .inl ⟨successes_nil fun l call' he ht' => ?_,k,?_,rfl,hne,Nat.le_refl _,?_⟩
    · obtain ⟨-,k',hk',rfl,hne'⟩ := hs.succeeded he
      exact hj (hc.others j k' hk' ht' hne').1.symm
    · rwa [hs.pc_other hj]
    · exact fun he => absurd he.symm hj

theorem step_returned (hc : Claimed s0 s d t i call) (hs : HsmStep c s j ev s')
    (hl : c.Launches d) :
    successes d (t++ev)=[] ∧ (∃ k,(s'.hart i).pc=.start k ∧ k.call=call ∧ k.stage≠.claim) ∨
      successes d (t++ev)=[(i,call)] ∧
        ∀ j k,(s'.hart j).pc=.start k → k.call.hartid=d → k.stage=.claim := by
  rw [successes_append]
  rcases hc.returned with ⟨hnil,k,hk,hcall,hne⟩ | ⟨hone,hclaim⟩
  · rw [hnil,List.nil_append]
    rcases hc.advances hs hl hk hcall hne with ⟨hno,k',hk',hcall',hne',-⟩ | ⟨hone,hback,-⟩
    · exact .inl ⟨hno,k',hk',hcall',hne'⟩
    · refine .inr ⟨hone,fun l k' hk' ht' => ?_⟩
      by_contra hne'
      have he := (hc.step_others hs l k' hk' ht' hne').1
      exact hback k' (he ▸ hk')
  · refine .inr ⟨?_,fun l k' hk' ht' => ?_⟩
    · rw [hone,hs.no_success fun l k hk ht' hne => hne (hclaim l k hk ht')]
      rfl
    · by_contra hne
      obtain ⟨k,hk,hcall,hne⟩ := hc.step_claimed hs hk' ht' hne
      exact hne (hclaim l k hk (hcall ▸ ht'))

theorem in_progress (hc : Claimed s0 s d t i call) (hnil : successes d t=[]) :
    ∃ k,(s.hart i).pc=.start k ∧ k.call=call ∧ k.stage≠.claim := by
  rcases hc.returned with ⟨-,hk⟩ | ⟨hone,-⟩
  · exact hk
  · rw [hnil] at hone
    cases hone

/-- The accesses left of the call that has claimed the hart. -/
theorem left (hc : Claimed s0 s d t i call) (hs : HsmStep c s j ev s') (hl : c.Launches d)
    (hnil : successes d t=[]) :
    successes d (t++ev)=[(i,call)] ∨ successes d (t++ev)=[] ∧
      (s'.hart i).pc.left≤(s.hart i).pc.left ∧
        (j=i → (s'.hart i).pc.left<(s.hart i).pc.left) := by
  obtain ⟨k,hk,hcall,hne⟩ := hc.in_progress hnil
  rw [successes_append,hnil,List.nil_append]
  rcases hc.advances hs hl hk hcall hne with ⟨hno,k',hk',-,-,hle⟩ | ⟨hone,-⟩
  · rw [hk,hk']
    exact .inr ⟨hno,hle⟩
  · exact .inl hone

/-- A success stays the only one. -/
theorem success_append (hc : Claimed s0 s d (t++ev) i call) (hone : successes d t=[(i,call)]) :
    successes d (t++ev)=[(i,call)] := by
  rcases hc.returned with ⟨hnil,-⟩ | ⟨hone',-⟩
  · rw [successes_append,hone] at hnil
    cases hnil
  · exact hone'

theorem entry_append (hc : Claimed s0 s d (t++ev) i call)
    (hone : entries d t=[(call.priv,call.saddr,call.smode)]) :
    entries d (t++ev)=[(call.priv,call.saddr,call.smode)] := by
  rcases hc.entered with ⟨hnil,-⟩ | ⟨hone',-⟩
  · rw [entries_append,hone] at hnil
    cases hnil
  · exact hone'

theorem coming (hc : Claimed s0 s d t i call) (hnil : entries d t=[]) (hh : (s.hart d).pc≠.hang) :
    (s.hart d).Coming := by
  rcases hc.entered with ⟨-,⟨hcom,-⟩ | hang⟩ | ⟨hone,-⟩
  · exact hcom
  · exact absurd hang hh
  · rw [hnil] at hone
    cases hone

theorem wakes (hc : Claimed s0 s d t i call) (hcom : (s.hart d).Coming)
    (hone : successes d t=[(i,call)]) (hp : (s.hart d).pc.asleep=true) :
    (s.hart d).wakeup=true := by
  rcases hcom with ⟨hst,-⟩ | ⟨st,hsw⟩
  · exact hc.awake hone hp hst
  · rw [hsw] at hp
    cases hp

theorem step_entered (hc : Claimed s0 s d t i call) (hs : HsmStep c s j ev s') (hall : s.Placed)
    (hset : j=d → Settled s d) :
    entries d (t++ev)=[] ∧ ((s'.hart d).Coming ∧ Ready s' d call ∨ (s'.hart d).pc=.hang) ∨
      entries d (t++ev)=[(call.priv,call.saddr,call.smode)] ∧ (s'.hart d).state≠.startPending ∧
        ∀ st,(s'.hart d).pc≠.switch false st := by
  rw [entries_append]
  rcases hc.entered with ⟨hnil,hway⟩ | ⟨hone,hst,hsw⟩
  · rw [hnil,List.nil_append]
    by_cases hj : d=j
    · subst hj
      cases hs with
      | start k hp ev s' hs =>
        rcases hway with ⟨hcom,-⟩ | hh
        · exact absurd hp (hcom.pc_ne k)
        · rw [hh] at hp
          cases hp
      | wakeHarts hp =>
        rcases hway with ⟨⟨-,hp'⟩ | ⟨st,hp'⟩,-⟩ | hp'
        · rw [hp] at hp'; cases hp'
        · rw [hp] at hp'; cases hp'
        · rw [hp] at hp'; cases hp'
      | own me ev hs =>
        have hstep : HsmStep c s d ev (s.put d me) := .own me ev hs
        rcases hway with ⟨hcom,hready⟩ | hh
        · rcases hs.coming hcom with ⟨⟨hcom',-⟩,hno⟩ | ⟨hh,hno⟩ | ⟨a,b,m,hp,rfl,rfl⟩
          · refine .inl ⟨entries_nil fun a b m => hno false a b m,.inl ⟨?_,?_⟩⟩
            · rwa [HsmSystem.hart_put_self]
            · refine hstep.ready hall (fun _ => hset rfl) hcom.consumes ?_ hready
              rw [HsmSystem.hart_put_self]
              exact hcom'.consumes
          · refine .inl ⟨entries_nil fun a b m => hno false a b m,.inr ?_⟩
            rwa [HsmSystem.hart_put_self]
          · -- What the hart has loaded is what the call says.
            have hl := hready.carries
            rw [HsmHart.Carries,hp] at hl
            obtain ⟨rfl,rfl,rfl⟩ := hl
            have hm := hall d
            rw [HsmHart.Placed,hp] at hm
            have hm : (s.hart d).state=.started := hm
            refine .inr ⟨by simp [entries,entryOf],?_,fun st => ?_⟩
            · rw [HsmSystem.hart_put_self,HsmHart.goto,hm]
              decide
            · rw [HsmSystem.hart_put_self]
              simp [HsmHart.goto]
        · exact absurd hh hs.pc_ne_hang
    · rw [hs.no_entry fun h => absurd h hj]
      have hpc := hs.pc_other hj
      have hstate := hs.state_other hj hc.state.1
      refine .inl ⟨rfl,hway.imp ?_ fun hh => hpc.trans hh⟩
      rintro ⟨hcom,hready⟩
      have hcom' : (s'.hart d).Coming := by
        unfold HsmHart.Coming
        rwa [hpc,hstate]
      exact ⟨hcom',hs.ready hall (fun h => absurd h.symm hj) hcom.consumes hcom'.consumes hready⟩
  · rw [hone,hs.no_entry fun _ => hsw]
    refine .inr ⟨rfl,fun hst' => ?_,hs.not_switch hst hsw⟩
    rcases hs.edge d with he | he
    · exact hst (he ▸ hst')
    · rw [hst'] at he
      exact hc.state.1 he.of_startPending

theorem step_awake (hc : Claimed s0 s d t i call) (hs : HsmStep c s j ev s') (hall : s.Placed)
    (hl : c.Launches d) (hone : successes d (t++ev)=[(i,call)])
    (hp : (s'.hart d).pc.asleep=true) (hst : (s'.hart d).state=.startPending) :
    (s'.hart d).wakeup=true := by
  obtain ⟨hp0,hst0,hkeep⟩ := hs.awake hall hc.state.1 hst hp
  rcases hc.returned with ⟨hnil,k,hk,hcall,hne⟩ | ⟨hold,-⟩
  · rw [successes_append,hnil,List.nil_append] at hone
    rcases hc.advances hs hl hk hcall hne with ⟨hno,-⟩ | ⟨-,-,hw⟩
    · rw [hone] at hno
      cases hno
    · exact hw
  · exact hkeep (hc.awake hold hp0 hst0)

theorem step (hc : Claimed s0 s d t i call) (hs : HsmStep c s j ev s') (hall : s.Placed)
    (hl : c.Launches d) (hset : j=d → Settled s d) (hstop : (s'.hart d).state≠.stopPending) :
    Claimed s0 s' d (t++ev) i call where
  made := hc.made.append ev
  state := hc.step_state hs hstop
  others := hc.step_others hs
  returned := hc.step_returned hs hl
  entered := hc.step_entered hs hall hset
  awake := hc.step_awake hs hall hl

end Claimed

/-- What a contest for hart `d` keeps: the codes of the calls, and at most one of them has claimed
the hart. -/
structure ContestInv (s0 s : HsmSystem x) (d : Nat) (t : List (HsmEvent x)) : Prop where
  placed : s.Placed
  made : ∀ j k,(s.hart j).pc=.start k → k.call.hartid=d → Made s0 d t j k.call
  codes : ∀ i call rc,HsmEvent.ret i call rc∈t → call.hartid=d → rc=SBI_OK ∨ rc=SBI_EALREADY ∨
    rc=SBI_EINVAL ∨ rc=SBI_EINVALID_ADDR ∧ HsmEvent.call i call rc∈t
  outcome : Unclaimed s0 s d t ∨ ∃ i call,Claimed s0 s d t i call

namespace ContestInv

theorem start (hall : s0.Placed) (hst : (s0.hart d).state=.stopped)
    (hclaim : ∀ j k,(s0.hart j).pc=.start k → k.call.hartid=d → k.stage=.claim) :
    ContestInv s0 s0 d [] where
  placed := hall
  made _ k hk ht := ⟨ht,.inl ⟨k,hk,rfl⟩⟩
  codes _ _ _ he := absurd he List.not_mem_nil
  outcome := .inl
    { successes := rfl
      entries := rfl
      state := hst
      claim := hclaim
      pending := fun _ _ hm => hm.2.resolve_right List.not_mem_nil }

theorem step_outcome (hi : ContestInv s0 s d t) (hs : HsmStep c s j ev s') (hl : c.Launches d)
    (hset : j=d → Settled s d) (hstop : (s'.hart d).state≠.stopPending) :
    Unclaimed s0 s' d (t++ev) ∨ ∃ i call,Claimed s0 s' d (t++ev) i call := by
  rcases hi.outcome with hu | ⟨i,call,hc⟩
  · by_cases hno : ∀ k,(s.hart j).pc=.start k → k.call.hartid≠d
    · exact .inl (hu.keep hs hi.placed hno)
    · push Not at hno
      obtain ⟨k,hk,ht⟩ := hno
      exact .inr ⟨j,k.call,hu.step_claims hs hk ht hi.placed (hi.made j k hk ht)⟩
  · exact .inr ⟨i,call,hc.step hs hi.placed hl hset hstop⟩

theorem step (hi : ContestInv s0 s d t) (hs : HsmStep c s j ev s') (hl : c.Launches d)
    (hset : j=d → Settled s d) (hstop : (s'.hart d).state≠.stopPending) :
    ContestInv s0 s' d (t++ev) where
  placed := hs.placed hi.placed
  made l k hk ht := by
    rcases hs.begun hk with ⟨k0,hk0,hcall⟩ | he
    · rw [← hcall] at ht ⊢
      exact (hi.made l k0 hk0 ht).append ev
    · exact ⟨ht,.inr (List.mem_append_right t he)⟩
  codes i call rc he ht := by
    rcases List.mem_append.mp he with he | he
    · have hold := hi.codes i call rc he ht
      exact hold.imp_right (Or.imp_right (Or.imp_right (And.imp_right (List.mem_append_left ev))))
    · have hnew := hs.returned (ht ▸ hl) he
      exact hnew.imp_right (Or.imp_right (Or.imp_right (And.imp_right (List.mem_append_right t))))
  outcome := hi.step_outcome hs hl hset hstop

end ContestInv

theorem run_contestInv (hl : c.Launches d) (hi : ContestInv s0 s0 d [])
    (hrun : (hsmMachine c).Run (contest d) s0 t s) : ContestInv s0 s d t :=
  hrun.traceInvariant (P := fun t s => ContestInv s0 s d t)
    (fun _ _ _ _ _ hi hstep hok => hi.step (hsmMachine_step hstep) hl hok.1 hok.2) hi

end OpenSBI
