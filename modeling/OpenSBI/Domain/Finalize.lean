import OpenSBI.Domain.Boot
import OpenSBI.Hsm.Start

namespace OpenSBI

open Framework

variable {x : Xlen}

/-- What `sbi_domain_finalize()` finds around it: the HSM device, the warm boot address of the caller,
the harts that have a scratch space, and the argument `cold_hartid`. -/
structure FinalizeEnv (x : Xlen) where
  dev : Option (HsmDevice x)
  warmboot : Word x
  scratch : Nat → Bool
  coldHartid : Nat

/-- The harts, and those started so far. -/
structure StartedHarts (x : Xlen) where
  hart : Nat → TargetHart x
  starts : List Nat

/-- The scratch fields of a hart with the entry of a domain. -/
def TargetHart.enters (h : TargetHart x) (dom : SbiDomain x) : TargetHart x :=
  { h with nextArg1 := dom.nextArg1,nextAddr := dom.nextAddr,nextMode := dom.nextMode }

/-- A hart that is to enter a domain. -/
def TargetHart.launched (h : TargetHart x) (dom : SbiDomain x) : TargetHart x :=
  { h.enters dom with state := .startPending }

/-- One round of the loop of `sbi_domain_finalize()`, on the domain at `p`. -/
def finalizeRound (env : FinalizeEnv x) (t : DomainTable x) (s : StartedHarts x) (p : Nat) :
    Int×StartedHarts x :=
  let dom := t.store p
  let dhart := dom.bootHartid
  if SBI_HARTMASK_MAX_BITS≤dhart then (SBI_OK,s)
  else if !dom.possibleHarts.any (sbiHartmaskTestHart dhart) then (SBI_OK,s)
  else if t.hartidToDomain dhart≠some p ∨ sbiHartmaskTestHart dhart dom.assignedHarts=false then
    (SBI_OK,s)
  else if dhart=env.coldHartid then
    (SBI_OK,{ s with hart := Function.update s.hart dhart ((s.hart dhart).enters dom) })
  else
    let r := sbiHsmHartStart env.dev env.warmboot none env.scratch
      ⟨dhart,dom.nextAddr,dom.nextMode,dom.nextArg1⟩ (s.hart dhart)
    (r.1,⟨Function.update s.hart dhart r.2,if r.1=SBI_OK then s.starts++[dhart] else s.starts⟩)

def finalizeLoop (env : FinalizeEnv x) (t : DomainTable x) : List Nat → StartedHarts x → Int×StartedHarts x
  | [],s => (SBI_OK,s)
  | p::rest,s =>
    let r := finalizeRound env t s p
    if r.1≠SBI_OK then r else finalizeLoop env t rest r.2

/-- The pointers `sbi_domain_for_each()` visits. A full table has no null pointer at its end: the loop
goes on over the pointers `behind` it. -/
def DomainTable.forEach (t : DomainTable x) (behind : List Nat) : List Nat :=
  t.domidx++if t.domidx.length<SBI_DOMAIN_MAX_INDEX then [] else behind

/-- `sbi_domain_finalize()`; `init` is what `sbi_platform_domains_init()` returns and leaves. -/
def sbiDomainFinalize (env : FinalizeEnv x) (init : Int×DomainTable x) (behind : List Nat)
    (s : StartedHarts x) : Int×DomainTable x×StartedHarts x :=
  if init.1≠SBI_OK then (init.1,init.2,s)
  else
    let r := finalizeLoop env init.2 (init.2.forEach behind) s
    if r.1≠SBI_OK then (r.1,init.2,r.2) else (SBI_OK,{ init.2 with finalized := true },r.2)

/-- A start that succeeds has claimed a stopped hart and handed it the call. -/
theorem sbiHsmHartStart_ok {dev : Option (HsmDevice x)} {warmboot : Word x} {dom : Option (SbiDomain x)}
    {scratch : Nat → Bool} {call : StartCall x} {target : TargetHart x}
    (h : (sbiHsmHartStart dev warmboot dom scratch call target).1=SBI_OK) :
    target.state=.stopped ∧ (sbiHsmHartStart dev warmboot dom scratch call target).2=
      { target with state := .startPending,nextArg1 := call.priv,nextAddr := call.saddr
                    nextMode := call.smode } := by
  unfold sbiHsmHartStart at h ⊢
  dsimp only at h ⊢
  by_cases hc : hartStartCheck dom scratch call=SBI_OK
  · rw [if_neg (not_not.mpr hc)] at h ⊢
    have hclaim : (hartStartClaim target.state).2=SBI_OK := by
      by_contra hne
      rw [if_pos hne] at h
      exact hne h
    rw [if_neg (not_not.mpr hclaim)]
    have hstopped : target.state=.stopped := by
      cases hs : target.state <;> rw [hs] at hclaim <;> first | rfl | exact absurd hclaim (by decide)
    refine ⟨hstopped,?_⟩
    rw [hstopped]
    split <;> rfl
  · rw [if_pos hc] at h
    exact absurd h hc

namespace DomainTable

variable {t : DomainTable x} {coldHartid p q h : Nat}

/-- Hart `h` is the boot hart of the domain at `p` and belongs to it. -/
def Boots (t : DomainTable x) (p h : Nat) : Prop :=
  (t.store p).bootHartid=h ∧ t.hartidToDomain h=some p

instance : Decidable (t.Boots p h) := inferInstanceAs (Decidable (_ ∧ _))

theorem Boots.unique (hp : t.Boots p h) (hq : t.Boots q h) : p=q :=
  Option.some.inj (hp.2.symm.trans hq.2)

/-- The tests of the loop, on a table whose two sides agree. -/
theorem Consistent.boots_iff (ht : t.Consistent coldHartid) (p : Nat) :
    t.Boots p (t.store p).bootHartid ↔ (t.store p).bootHartid<SBI_HARTMASK_MAX_BITS ∧
      (t.store p).possibleHarts.any (sbiHartmaskTestHart (t.store p).bootHartid)=true ∧
      t.hartidToDomain (t.store p).bootHartid=some p ∧
      sbiHartmaskTestHart (t.store p).bootHartid (t.store p).assignedHarts=true := by
  constructor
  · intro hb
    obtain ⟨-,ha,hposs⟩ := ht.owner _ _ hb.2
    exact ⟨testHart_lt ha,hposs,hb.2,ha⟩
  · exact fun h => ⟨rfl,h.2.2.1⟩

end DomainTable

section Rounds

variable {env : FinalizeEnv x} {t : DomainTable x} {s s' : StartedHarts x} {p : Nat}

/-- The outcomes of a round: the domain is passed over, its entry becomes that of the cold boot hart,
or its boot hart is started. -/
theorem finalizeRound_cases (ht : t.Consistent env.coldHartid)
    (h : finalizeRound env t s p=(SBI_OK,s')) :
    (¬t.Boots p (t.store p).bootHartid ∧ s'=s) ∨
    (t.Boots p env.coldHartid ∧ s'={ s with
      hart := Function.update s.hart env.coldHartid ((s.hart env.coldHartid).enters (t.store p)) }) ∨
    (∃ dhart≠env.coldHartid,t.Boots p dhart ∧ (s.hart dhart).state=.stopped ∧
      s'=⟨Function.update s.hart dhart ((s.hart dhart).launched (t.store p)),
        s.starts++[dhart]⟩) := by
  have hiff := ht.boots_iff p
  by_cases hb : t.Boots p (t.store p).bootHartid
  · obtain ⟨hlt,hposs,hown,hass⟩ := hiff.mp hb
    rw [finalizeRound] at h
    dsimp only at h
    rw [if_neg (not_le.mpr hlt),hposs,if_neg (by decide),if_neg (by rw [hown,hass]; simp)] at h
    by_cases hcold : (t.store p).bootHartid=env.coldHartid
    · rw [if_pos hcold,hcold] at h
      exact .inr (.inl ⟨hcold ▸ hb,(Prod.mk.inj h).2.symm⟩)
    · rw [if_neg hcold] at h
      obtain ⟨hrc,hs⟩ := Prod.mk.inj h
      obtain ⟨hstopped,htarget⟩ := sbiHsmHartStart_ok hrc
      rw [if_pos hrc,htarget] at hs
      exact .inr (.inr ⟨_,hcold,hb,hstopped,hs.symm⟩)
  · refine .inl ⟨hb,?_⟩
    rw [hiff] at hb
    rw [finalizeRound] at h
    dsimp only at h
    by_cases h1 : SBI_HARTMASK_MAX_BITS≤(t.store p).bootHartid
    · rw [if_pos h1] at h
      exact (Prod.mk.inj h).2.symm
    · rw [if_neg h1] at h
      split_ifs at h with h2 h3
      · exact (Prod.mk.inj h).2.symm
      · exact (Prod.mk.inj h).2.symm
      all_goals exact absurd ⟨not_le.mp h1,by simpa using h2,by simpa using h3⟩ hb

/-- What the loop has done to the harts `before` once it is through the domains `done`. -/
structure Progress (t : DomainTable x) (coldHartid : Nat) (before : Nat → TargetHart x)
    (s : StartedHarts x) (done : List Nat) : Prop where
  starts : ∀ h,h∈s.starts ↔ h≠coldHartid ∧ ∃ p∈done,t.Boots p h
  nodup : s.starts.Nodup
  started : ∀ p∈done,∀ h≠coldHartid,t.Boots p h → (before h).state=.stopped ∧
    s.hart h=(before h).launched (t.store p)
  cold : ∀ p∈done,t.Boots p coldHartid →
    s.hart coldHartid=(before coldHartid).enters (t.store p)
  rest : ∀ h,(∀ p∈done,¬t.Boots p h) → s.hart h=before h

variable {before : Nat → TargetHart x} {done : List Nat}

theorem Progress.init (t : DomainTable x) (coldHartid : Nat) (before : Nat → TargetHart x) :
    Progress t coldHartid before ⟨before,[]⟩ [] where
  starts := by simp
  nodup := List.nodup_nil
  started := by simp
  cold := by simp
  rest _ _ := rfl

theorem Progress.pass (hs : Progress t env.coldHartid before s done)
    (hno : ∀ h,¬t.Boots p h) : Progress t env.coldHartid before s (done++[p]) := by
  have hmem : ∀ {q h},q∈done++[p] → t.Boots q h → q∈done := by
    intro q h hq hb
    rcases List.mem_append.mp hq with hd | hp
    · exact hd
    · rw [List.mem_singleton.mp hp] at hb
      exact absurd hb (hno h)
  refine ⟨fun h => ?_,hs.nodup,fun q hq h hne hb => hs.started q (hmem hq hb) h hne hb,
    fun q hq hb => hs.cold q (hmem hq hb) hb,fun h hall => ?_⟩
  · rw [hs.starts]
    constructor
    · rintro ⟨hne,q,hq,hb⟩
      exact ⟨hne,q,List.mem_append_left _ hq,hb⟩
    · rintro ⟨hne,q,hq,hb⟩
      exact ⟨hne,q,hmem hq hb,hb⟩
  · exact hs.rest h fun q hq => hall q (List.mem_append_left _ hq)

/-- The entry of the cold boot hart is that of the one domain it boots. -/
theorem Progress.enter (hs : Progress t env.coldHartid before s done) (hp : t.Boots p env.coldHartid) :
    Progress t env.coldHartid before
      ⟨Function.update s.hart env.coldHartid ((s.hart env.coldHartid).enters (t.store p)),s.starts⟩
      (done++[p]) := by
  have hmem : ∀ {q h},h≠env.coldHartid → q∈done++[p] → t.Boots q h → q∈done := by
    intro q h hne hq hb
    rcases List.mem_append.mp hq with hd | hq
    · exact hd
    · rw [List.mem_singleton.mp hq] at hb
      exact absurd (hb.1.symm.trans hp.1) hne
  refine ⟨fun h => ?_,hs.nodup,fun q hq h hne hb => ?_,fun q _ hb => ?_,fun h hall => ?_⟩
  · rw [hs.starts]
    constructor
    · rintro ⟨hne,q,hq,hb⟩
      exact ⟨hne,q,List.mem_append_left _ hq,hb⟩
    · rintro ⟨hne,q,hq,hb⟩
      exact ⟨hne,q,hmem hne hq hb,hb⟩
  · simp only [Function.update_of_ne hne]
    exact hs.started q (hmem hne hq hb) h hne hb
  · obtain rfl := hb.unique hp
    simp only [Function.update_self]
    by_cases hd : ∃ r∈done,t.Boots r env.coldHartid
    · obtain ⟨r,hr,hrb⟩ := hd
      obtain rfl := hrb.unique hb
      rw [hs.cold r hr hrb]
      rfl
    · rw [hs.rest _ fun r hr hrb => hd ⟨r,hr,hrb⟩]
  · have hne : h≠env.coldHartid := by
      rintro rfl
      exact hall p (List.mem_append_right _ (List.mem_singleton_self p)) hp
    simp only [Function.update_of_ne hne]
    exact hs.rest h fun q hq => hall q (List.mem_append_left _ hq)

/-- A hart that is still stopped has not been started before. -/
theorem Progress.start {dhart : Nat} (hs : Progress t env.coldHartid before s done)
    (hcold : dhart≠env.coldHartid) (hp : t.Boots p dhart) (hstopped : (s.hart dhart).state=.stopped) :
    Progress t env.coldHartid before
      ⟨Function.update s.hart dhart ((s.hart dhart).launched (t.store p)),s.starts++[dhart]⟩
      (done++[p]) := by
  have hnew : ∀ q∈done,¬t.Boots q dhart := by
    intro q hq hb
    rw [(hs.started q hq dhart hcold hb).2] at hstopped
    exact HsmState.noConfusion hstopped
  have hbefore := hs.rest dhart hnew
  have hmem : ∀ {q h},h≠dhart → q∈done++[p] → t.Boots q h → q∈done := by
    intro q h hne hq hb
    rcases List.mem_append.mp hq with hd | hq
    · exact hd
    · rw [List.mem_singleton.mp hq] at hb
      exact absurd (hb.1.symm.trans hp.1) hne
  refine ⟨fun h => ?_,?_,fun q hq h hne hb => ?_,fun q hq hb => ?_,fun h hall => ?_⟩
  · rw [List.mem_append,List.mem_singleton,hs.starts]
    constructor
    · rintro (⟨hne,q,hq,hb⟩ | rfl)
      · exact ⟨hne,q,List.mem_append_left _ hq,hb⟩
      · exact ⟨hcold,p,List.mem_append_right _ (List.mem_singleton_self p),hp⟩
    · rintro ⟨hne,q,hq,hb⟩
      by_cases he : h=dhart
      · exact .inr he
      · exact .inl ⟨hne,q,hmem he hq hb,hb⟩
  · refine List.nodup_append.mpr ⟨hs.nodup,List.nodup_singleton _,?_⟩
    rintro h hh _ hd rfl
    obtain ⟨-,q,hq,hb⟩ := (hs.starts h).mp hh
    rw [List.mem_singleton.mp hd] at hb
    exact hnew q hq hb
  · by_cases he : h=dhart
    · subst he
      obtain rfl := hb.unique hp
      simp only [Function.update_self,← hbefore]
      exact ⟨hstopped,trivial⟩
    · simp only [Function.update_of_ne he]
      exact hs.started q (hmem he hq hb) h hne hb
  · simp only [Function.update_of_ne hcold.symm]
    exact hs.cold q (hmem hcold.symm hq hb) hb
  · have hne : h≠dhart := by
      rintro rfl
      exact hall p (List.mem_append_right _ (List.mem_singleton_self p)) hp
    simp only [Function.update_of_ne hne]
    exact hs.rest h fun q hq => hall q (List.mem_append_left _ hq)

theorem finalizeRound_progress (ht : t.Consistent env.coldHartid)
    (hs : Progress t env.coldHartid before s done) (h : finalizeRound env t s p=(SBI_OK,s')) :
    Progress t env.coldHartid before s' (done++[p]) := by
  rcases finalizeRound_cases ht h with ⟨hno,rfl⟩ | ⟨hb,rfl⟩ | ⟨dhart,hcold,hb,hstopped,rfl⟩
  · refine hs.pass fun h hb => ?_
    obtain rfl := hb.1
    exact hno hb
  · exact hs.enter hb
  · exact hs.start hcold hb hstopped

theorem finalizeLoop_progress (ht : t.Consistent env.coldHartid) (l : List Nat)
    (hs : Progress t env.coldHartid before s done) (h : finalizeLoop env t l s=(SBI_OK,s')) :
    Progress t env.coldHartid before s' (done++l) := by
  induction l generalizing s done with
  | nil =>
    cases h
    rwa [List.append_nil]
  | cons p l ih =>
    rw [finalizeLoop] at h
    by_cases hrc : (finalizeRound env t s p).1=SBI_OK
    · rw [if_neg (not_not.mpr hrc)] at h
      have hl : done++p::l=done++[p]++l := by rw [List.append_assoc]; rfl
      rw [hl]
      exact ih (finalizeRound_progress ht hs (Prod.ext hrc rfl)) h
    · rw [if_pos hrc] at h
      exact absurd (congrArg Prod.fst h) hrc

end Rounds

/-- What `sbi_domain_finalize()` has to make of the harts `before`. -/
structure StartedRight (t : DomainTable x) (coldHartid : Nat) (before : Nat → TargetHart x)
    (s : StartedHarts x) : Prop where
  cold : ∀ p,t.hartidToDomain coldHartid=some p →
    s.hart coldHartid=(before coldHartid).enters (t.store p)
  started : ∀ h∈s.starts,h≠coldHartid ∧ (before h).state=.stopped ∧
    ∃ p∈t.domidx,t.hartidToDomain h=some p ∧ (t.store p).bootHartid=h ∧
      s.hart h=(before h).launched (t.store p)
  once : ∀ p∈t.domidx,(t.store p).bootHartid≠coldHartid →
    (t.store p).possibleHarts.any (sbiHartmaskTestHart (t.store p).bootHartid)=true →
    sbiDomainIsAssignedHart (some (t.store p)) (t.store p).bootHartid=true →
      s.starts.count (t.store p).bootHartid=1
  others : ∀ h∉s.starts,(s.hart h).state=(before h).state

theorem Progress.startedRight {t : DomainTable x} {coldHartid : Nat} {before : Nat → TargetHart x}
    {s : StartedHarts x} {behind : List Nat} (ht : t.Consistent coldHartid)
    (hs : Progress t coldHartid before s (t.domidx++behind)) : StartedRight t coldHartid before s := by
  have hreg : ∀ {p h},t.hartidToDomain h=some p → p∈t.domidx++behind := fun hown =>
    List.mem_append_left _ (ht.owner _ _ hown).1
  refine ⟨fun p hp => ?_,fun h hh => ?_,fun p hp hne _ ha => ?_,fun h hh => ?_⟩
  · exact hs.cold p (hreg hp) ⟨ht.boot p hp,hp⟩
  · obtain ⟨hne,p,hp,hb⟩ := (hs.starts h).mp hh
    obtain ⟨hstopped,hlaunched⟩ := hs.started p hp h hne hb
    exact ⟨hne,hstopped,p,(ht.owner h p hb.2).1,hb.2,hb.1,hlaunched⟩
  · have hown := ht.assigned p hp _ ha
    exact List.count_eq_one_of_mem hs.nodup ((hs.starts _).mpr ⟨hne,p,hreg hown,rfl,hown⟩)
  · by_cases hcold : h=coldHartid
    · subst hcold
      by_cases hd : ∃ p∈t.domidx++behind,t.Boots p h
      · obtain ⟨p,hp,hb⟩ := hd
        rw [hs.cold p hp hb]
        rfl
      · rw [hs.rest h fun p hp hb => hd ⟨p,hp,hb⟩]
    · rw [hs.rest h fun p hp hb => hh ((hs.starts h).mpr ⟨hcold,p,hp,hb⟩)]

/-- After any registrations, those of the platform's `domains_init()` among them, a successful
`sbi_domain_finalize()` gives the cold boot hart the entry of its domain and starts the boot hart of
every other domain that has it, once and with the entry of that domain, and no other hart. -/
theorem sbiDomainFinalize_startedRight (plat : Platform) (scratch : FwScratch x) (env : FinalizeEnv x)
    (store : Nat → SbiDomain x) (ok : DomainTable x → BootAction x → DomainTable x → Prop)
    (t : DomainTable x) (tr tr' : List Int) (init : Int×DomainTable x) (behind : List Nat)
    (before : Nat → TargetHart x)
    (hrun : Machine.Run (bootMachine plat (rootFwRegion scratch) env.coldHartid) ok
      (sbiDomainInit plat scratch env.coldHartid store).2 tr t)
    (hinit : Machine.Run (bootMachine plat (rootFwRegion scratch) env.coldHartid) ok t tr' init.2)
    (h : (sbiDomainFinalize env init behind ⟨before,[]⟩).1=SBI_OK) :
    StartedRight (sbiDomainFinalize env init behind ⟨before,[]⟩).2.1 env.coldHartid before
      (sbiDomainFinalize env init behind ⟨before,[]⟩).2.2 := by
  have ht : init.2.Consistent env.coldHartid := boot_consistent (hrun.trans hinit)
  have ht' : DomainTable.Consistent { init.2 with finalized := true } env.coldHartid :=
    ⟨ht.owner,ht.assigned,ht.boot⟩
  rw [sbiDomainFinalize] at h ⊢
  by_cases hrc : init.1=SBI_OK
  · rw [if_neg (not_not.mpr hrc)] at h ⊢
    dsimp only at h ⊢
    by_cases hloop : (finalizeLoop env init.2 (init.2.forEach behind) ⟨before,[]⟩).1=SBI_OK
    · rw [if_neg (not_not.mpr hloop)]
      have hp := finalizeLoop_progress ht _ (.init init.2 env.coldHartid before) (Prod.ext hloop rfl)
      have hp' := hp.startedRight ht
      exact ⟨hp'.cold,hp'.started,hp'.once,hp'.others⟩
    · rw [if_pos hloop] at h
      exact absurd h hloop
  · rw [if_pos hrc] at h
    exact absurd h hrc

/-- The tables after a domain for hart 1 is registered next to the root domain. -/
def twoDomains : DomainTable .rv64 :=
  (bootCall bootHarts (rootFwRegion bootScratch) 0
    (sbiDomainInit bootHarts bootScratch 0 fun _ => tableDomain []).2
    (.register 1 { tableDomain [rootFwRegion bootScratch,⟨64,0,7⟩] with
      possibleHarts := some 2,bootHartid := 1 } 2)).2

/-- Hart 0 boots into the root domain and starts hart 1 in the other one. -/
theorem twoDomains_started : ∃ t s,t.domidx=[ROOT,1] ∧ s.starts=[1] ∧
    StartedRight (x := .rv64) t 0 (fun _ => ⟨.stopped,0,0,0,0⟩) s := by
  have hrun : Machine.Run (bootMachine bootHarts (rootFwRegion bootScratch) 0) HasRoom
      (sbiDomainInit bootHarts bootScratch 0 fun _ => tableDomain []).2 _ twoDomains :=
    .single rfl (fun _ _ _ _ => by decide)
  refine ⟨_,_,?_,?_,sbiDomainFinalize_startedRight bootHarts bootScratch
    ⟨none,0,fun h => decide (h<2),0⟩ (fun _ => tableDomain []) HasRoom _ _ [] (SBI_OK,twoDomains) [] _
    hrun .nil (by decide)⟩
  · decide
  · decide

end OpenSBI
