import OpenSBI.Domain.Table

namespace OpenSBI

open Framework

variable {x : Xlen}

/-- The loop of `sbi_domain_memregion_init()` over the orders that could cover the range. -/
def memregionInitLoop (addr size : Word x) (order : Nat) : Nat → Word x × Nat
  | 0 => (0,order)
  | fuel+1 =>
      if order<x.bits then
        let base := addr &&& ~~~(Word.bit order-1)
        if base≤addr ∧ addr<base+Word.bit order ∧ base≤addr+size-1 ∧
            addr+size-1<base+Word.bit order then (base,order)
        else memregionInitLoop addr size (order+1) fuel
      else (0,order)

/-- `sbi_domain_memregion_init()`; the loop makes at most `__riscv_xlen+1` rounds. -/
def sbiDomainMemregionInit (addr size flags : Word x) : Memregion x :=
  let r := memregionInitLoop addr size (log2roundup size) (x.bits+1)
  ⟨BitVec.ofNat x.bits r.2,r.1,flags⟩

/-- The fields of `struct sbi_scratch` that `sbi_domain_init()` reads. -/
structure FwScratch (x : Xlen) where
  fwStart : Word x
  fwSize : Word x
  nextArg1 : Word x
  nextAddr : Word x
  nextMode : Nat

/-- `root_fw_region`. -/
def rootFwRegion (scratch : FwScratch x) : Memregion x :=
  sbiDomainMemregionInit scratch.fwStart scratch.fwSize 0

/-- `root_hmask`: the harts the platform does not call invalid. -/
def rootHmask (plat : Platform) : Hartmask :=
  ((List.range SBI_HARTMASK_MAX_BITS).filter (fun h => !plat.hartInvalid h)).foldl
    (fun m h => sbiHartmaskSetHart h m) sbiHartmaskClearAll

/-- The root domain `sbi_domain_init()` puts together. -/
def rootDomain (plat : Platform) (scratch : FwScratch x) (coldHartid : Nat) : SbiDomain x where
  index := 0
  assignedHarts := sbiHartmaskClearAll
  possibleHarts := some (rootHmask plat)
  regions := some ([rootFwRegion scratch,sbiDomainMemregionInit 0 Word.max
    (SBI_DOMAIN_MEMREGION_READABLE ||| SBI_DOMAIN_MEMREGION_WRITEABLE |||
      SBI_DOMAIN_MEMREGION_EXECUTABLE)]++List.replicate (ROOT_REGION_MAX-1) ⟨0,0,0⟩)
  bootHartid := coldHartid
  nextArg1 := scratch.nextArg1
  nextAddr := scratch.nextAddr
  nextMode := scratch.nextMode
  systemResetAllowed := true

/-- `sbi_domain_init()`; `store` holds the domains of the platform. -/
def sbiDomainInit (plat : Platform) (scratch : FwScratch x) (coldHartid : Nat)
    (store : Nat → SbiDomain x) : Int × DomainTable x :=
  sbiDomainRegister plat (rootFwRegion scratch) coldHartid
    { store := Function.update store ROOT (rootDomain plat scratch coldHartid)
      domidx := []
      hartidToDomain := fun _ => none
      finalized := false
      rootMemregsCount := 2 } ROOT (rootHmask plat)

/-- What drivers and platform code do to the domains between `sbi_domain_init()` and the end of
`sbi_domain_finalize()`: they fill in a domain and register it, or add a region to the root. -/
inductive BootAction (x : Xlen) where
  | register (p : Nat) (dom : SbiDomain x) (assignMask : Hartmask)
  | rootAdd (reg : Memregion x)

namespace DomainTable

/-- The table with domain `p` filled in, if it is not registered yet. -/
def filled (t : DomainTable x) (p : Nat) (dom : SbiDomain x) : DomainTable x :=
  if p∈t.domidx then t else { t with store := Function.update t.store p dom }

/-- A call of `sbi_domain_root_add_memregion()` on the table. -/
def rootAdd (plat : Platform) (fw : Memregion x) (t : DomainTable x) (reg : Memregion x) :
    Int × DomainTable x :=
  let r := sbiDomainRootAddMemregion plat fw t.finalized (t.store ROOT) t.rootMemregsCount reg
  (r.1,{ t with store := Function.update t.store ROOT r.2.1,rootMemregsCount := r.2.2 })

end DomainTable

/-- One call with its result code. -/
def bootCall (plat : Platform) (fw : Memregion x) (coldHartid : Nat) (t : DomainTable x) :
    BootAction x → Int × DomainTable x
  | .register p dom assignMask => sbiDomainRegister plat fw coldHartid (t.filled p dom) p assignMask
  | .rootAdd reg => t.rootAdd plat fw reg

/-- The calls on the domains as a machine; the trace holds the result codes. -/
def bootMachine (plat : Platform) (fw : Memregion x) (coldHartid : Nat) :
    Machine (DomainTable x) (BootAction x) Int where
  step t a := some ((bootCall plat fw coldHartid t a).2,[(bootCall plat fw coldHartid t a).1])

/-- A registration is tried with fewer than `SBI_DOMAIN_MAX_INDEX` domains registered. -/
def HasRoom (t : DomainTable x) (a : BootAction x) (_ : DomainTable x) : Prop :=
  ∀ p dom assignMask,a=.register p dom assignMask → t.domidx.length<SBI_DOMAIN_MAX_INDEX

namespace DomainTable

variable {t t' : DomainTable x} {coldHartid p : Nat} {plat : Platform} {fw : Memregion x}
  {a : BootAction x} {code : List Int}

theorem bootMachine_step (h : (bootMachine plat fw coldHartid).step t a=some (t',code)) :
    t'=(bootCall plat fw coldHartid t a).2 :=
  (Prod.mk.inj (Option.some.inj h)).1.symm

theorem Consistent.filled {dom : SbiDomain x} (ht : t.Consistent coldHartid) :
    (t.filled p dom).Consistent coldHartid := by
  unfold DomainTable.filled
  split_ifs with hp
  · exact ht
  · exact ht.unregistered hp

theorem Consistent.rootAdd (ht : t.Consistent coldHartid) (plat : Platform) (fw : Memregion x)
    (reg : Memregion x) : (t.rootAdd plat fw reg).2.Consistent coldHartid := by
  have hs := sbiDomainRootAddMemregion_sameOwner plat fw t.finalized (t.store ROOT)
    t.rootMemregsCount reg
  have hfield : ∀ q,SameOwner (t.store q) ((t.rootAdd plat fw reg).2.store q) := by
    intro q
    by_cases hq : q=ROOT
    · subst hq
      simpa [DomainTable.rootAdd] using hs
    · simpa [DomainTable.rootAdd,Function.update_of_ne hq] using SameOwner.refl _
  refine ⟨fun h q hq => ?_,fun q hq h hm => ?_,fun q hq => ?_⟩
  · rw [(hfield q).assignedHarts,(hfield q).possibleHarts]
    exact ht.owner h q hq
  · rw [(hfield q).assignedHarts] at hm
    exact ht.assigned q hq h hm
  · rw [(hfield q).bootHartid]
    exact ht.boot q hq

theorem Consistent.call (ht : t.Consistent coldHartid) (a : BootAction x) :
    (bootCall plat fw coldHartid t a).2.Consistent coldHartid := by
  cases a with
  | register p dom assignMask => exact ht.filled.register plat fw p assignMask
  | rootAdd reg => exact ht.rootAdd plat fw reg

theorem consistent_empty (store : Nat → SbiDomain x) (coldHartid count : Nat) :
    Consistent ⟨store,[],fun _ => none,false,count⟩ coldHartid where
  owner _ _ hq := by cases hq
  assigned _ hp := by cases hp
  boot _ hq := by cases hq

theorem foldl_assigned (l : List Nat) {h : Nat}
    (hh : (t.hartidToDomain h).isSome=true ∨
      h∈l ∧ (t.store p).possibleHarts.any (sbiHartmaskTestHart h)=true) :
    ((l.foldl (assignHart coldHartid p) t).hartidToDomain h).isSome=true := by
  induction l generalizing t with
  | nil => exact hh.resolve_right (fun hc => by cases hc.1)
  | cons i l ih =>
    rw [List.foldl_cons]
    refine ih ?_
    have hbody := (assignHart_body coldHartid p t i p).possibleHarts
    cases hposs : (t.store p).possibleHarts.any (sbiHartmaskTestHart i) with
    | false =>
      rw [assignHart_skip hposs]
      refine hh.imp_right fun hc => ⟨(List.mem_cons.mp hc.1).resolve_left ?_,hc.2⟩
      intro he
      rw [he,hposs] at hc
      exact absurd hc.2 (by simp)
    | true =>
      by_cases hi : h=i
      · rw [assignHart_take hposs,hi]
        exact .inl (by simp)
      · rw [hbody]
        refine hh.imp (fun hs => ?_) fun hc => ⟨(List.mem_cons.mp hc.1).resolve_left hi,hc.2⟩
        rw [assignHart_take hposs]
        simpa [Function.update_of_ne hi] using hs

/-- A hart that has a domain keeps having one. -/
theorem call_assigned {h : Nat} (hs : (t.hartidToDomain h).isSome=true) (a : BootAction x) :
    ((bootCall plat fw coldHartid t a).2.hartidToDomain h).isSome=true := by
  cases a with
  | rootAdd reg => exact hs
  | register p dom assignMask =>
    have hf : ((t.filled p dom).hartidToDomain h).isSome=true := by
      unfold DomainTable.filled
      split_ifs <;> exact hs
    rcases register_cases plat fw coldHartid (t.filled p dom) p assignMask with
      ⟨-,he⟩ | ⟨-,-,he⟩ | ⟨-,-,-,he⟩
    · rw [bootCall,he]; exact hf
    · rw [bootCall,he]; exact hf
    · rw [bootCall,he]
      exact foldl_assigned _ (.inl hf)

end DomainTable

theorem testHart_foldl_set (l : List Nat) (h : Nat) (m : Hartmask)
    (hl : ∀ i∈l,i<SBI_HARTMASK_MAX_BITS) :
    sbiHartmaskTestHart h (l.foldl (fun m h => sbiHartmaskSetHart h m) m)=true ↔
      sbiHartmaskTestHart h m=true ∨ h∈l := by
  induction l generalizing m with
  | nil => simp
  | cons i l ih =>
    rw [List.foldl_cons,ih _ fun j hj => hl j (List.mem_cons_of_mem i hj),testHart_set,
      Bool.or_eq_true,Bool.and_eq_true,decide_eq_true_iff,decide_eq_true_iff,List.mem_cons,
      or_assoc]
    refine or_congr_right (or_congr_left ⟨fun hc => hc.2,fun hc => ⟨?_,hc⟩⟩)
    rw [hc]
    exact hl i List.mem_cons_self

theorem testHart_rootHmask (plat : Platform) (h : Nat) :
    sbiHartmaskTestHart h (rootHmask plat)=true ↔
      h<SBI_HARTMASK_MAX_BITS ∧ plat.hartInvalid h=false := by
  rw [rootHmask,testHart_foldl_set,testHart_clearAll]
  · simp
  · intro i hi
    exact List.mem_range.mp (List.mem_of_mem_filter hi)

variable {plat : Platform} {fw : Memregion x} {scratch : FwScratch x} {coldHartid : Nat}
  {store : Nat → SbiDomain x} {ok : DomainTable x → BootAction x → DomainTable x → Prop}
  {t : DomainTable x} {tr : List Int}

/-- A successful `sbi_domain_init()` registers the root domain and gives it every hart. -/
theorem sbiDomainInit_ok (h : (sbiDomainInit plat scratch coldHartid store).1=SBI_OK) :
    (sbiDomainInit plat scratch coldHartid store).2.domidx=[ROOT] ∧
      (sanitizeDomain plat (rootFwRegion scratch) (rootDomain plat scratch coldHartid)).1=SBI_OK ∧
      ∀ i,i<SBI_HARTMASK_MAX_BITS → plat.hartInvalid i=false →
        ((sbiDomainInit plat scratch coldHartid store).2.hartidToDomain i).isSome=true := by
  rcases DomainTable.register_cases plat (rootFwRegion scratch) coldHartid
    { store := Function.update store ROOT (rootDomain plat scratch coldHartid),domidx := []
      hartidToDomain := fun _ => none,finalized := false,rootMemregsCount := 2 } ROOT
    (rootHmask plat) with ⟨hne,-⟩ | ⟨-,hne,-⟩ | ⟨-,-,hrc,he⟩
  · exact absurd h hne
  · exact absurd h hne
  · simp only [Function.update_self] at hrc
    rw [sbiDomainInit,he]
    refine ⟨(DomainTable.foldl_body _ _ _ _ ROOT).2,hrc,fun i hi hv => ?_⟩
    refine DomainTable.foldl_assigned _ (.inr ⟨mem_hartsOf.mpr ?_,?_⟩)
    · exact (testHart_rootHmask plat i).mpr ⟨hi,hv⟩
    · simp only [Function.update_self,(sanitizeDomain_sameOwner _ _ _).possibleHarts]
      exact (testHart_rootHmask plat i).mpr ⟨hi,hv⟩

theorem boot_consistent
    (hrun : Machine.Run (bootMachine plat fw coldHartid) ok
      (sbiDomainInit plat scratch coldHartid store).2 tr t) : t.Consistent coldHartid := by
  refine hrun.invariant (P := fun s => s.Consistent coldHartid)
    (fun s a s' ev hs hstep _ => ?_) ?_
  · rw [DomainTable.bootMachine_step hstep]
    exact hs.call a
  · exact (DomainTable.consistent_empty _ coldHartid 2).register _ _ _ _

theorem boot_assigned {h : Nat}
    (hs : ((sbiDomainInit plat scratch coldHartid store).2.hartidToDomain h).isSome=true)
    (hrun : Machine.Run (bootMachine plat fw coldHartid) ok
      (sbiDomainInit plat scratch coldHartid store).2 tr t) :
    (t.hartidToDomain h).isSome=true := by
  refine hrun.invariant (P := fun s => (s.hartidToDomain h).isSome=true)
    (fun s a s' ev hs hstep _ => ?_) hs
  rw [DomainTable.bootMachine_step hstep]
  exact DomainTable.call_assigned hs a

/-- A region is added to the root domain, or the call changes nothing: boot does not go on with a
root domain that a failed call has left half changed. -/
def RootIntact (plat : Platform) (fw : Memregion x) (t : DomainTable x) (a : BootAction x)
    (t' : DomainTable x) : Prop :=
  ∀ reg,a=.rootAdd reg → (t.rootAdd plat fw reg).1=SBI_OK ∨ t'=t

theorem DomainTable.Sane.filled {dom : SbiDomain x} {p : Nat} (ht : t.Sane) :
    (t.filled p dom).Sane := by
  unfold DomainTable.filled
  split_ifs with hp
  · exact ht
  · intro q hq
    have hne : q≠p := by rintro rfl; exact hp hq
    simp only [Function.update_of_ne hne]
    exact ht q hq

theorem DomainTable.Sane.rootAdd {reg : Memregion x} (ht : t.Sane)
    (hrc : (t.rootAdd plat fw reg).1=SBI_OK) : (t.rootAdd plat fw reg).2.Sane := by
  have hne : ¬SBI_EINVAL=SBI_OK := by decide
  have hroot : SaneDomain (sbiDomainRootAddMemregion plat fw t.finalized (t.store ROOT)
      t.rootMemregsCount reg).2.1 := by
    rw [DomainTable.rootAdd] at hrc
    unfold sbiDomainRootAddMemregion at hrc ⊢
    split_ifs at hrc ⊢
    · exact absurd hrc hne
    · exact absurd hrc hne
    · exact settleRegions_sane hrc
  intro q hq
  by_cases hqr : q=ROOT
  · subst hqr
    simpa [DomainTable.rootAdd] using hroot
  · simpa [DomainTable.rootAdd,Function.update_of_ne hqr] using ht q hq

/-- The registered domains are sane at any point of boot. -/
theorem boot_sane
    (hrun : Machine.Run (bootMachine plat fw coldHartid) (RootIntact plat fw)
      (sbiDomainInit plat scratch coldHartid store).2 tr t) : t.Sane := by
  refine hrun.invariant (P := DomainTable.Sane) (fun s a s' ev hs hstep hok => ?_) ?_
  · have he := DomainTable.bootMachine_step hstep
    cases a with
    | register p dom assignMask =>
      rw [he]
      exact hs.filled.register plat fw coldHartid p assignMask
    | rootAdd reg =>
      rcases hok reg rfl with hrc | hsame
      · rw [he]
        exact hs.rootAdd hrc
      · rw [hsame]
        exact hs
  · have hempty : DomainTable.Sane (x := x)
        { store := Function.update store ROOT (rootDomain plat scratch coldHartid),domidx := []
          hartidToDomain := fun _ => none,finalized := false,rootMemregsCount := 2 } := by
      intro q hq
      cases hq
    exact hempty.register plat _ coldHartid ROOT _

/-- Every hart has one domain: what the table of harts and the masks of the registered domains have
to do with each other. -/
structure Assignment (plat : Platform) (t : DomainTable x) : Prop where
  mask_iff : ∀ p∈t.domidx,∀ h,
    sbiHartmaskTestHart h (t.store p).assignedHarts=true ↔ t.hartidToDomain h=some p
  registered : ∀ h p,t.hartidToDomain h=some p → p∈t.domidx
  disjoint : ∀ p∈t.domidx,∀ q∈t.domidx,p≠q → ∀ h,
    ¬(sbiHartmaskTestHart h (t.store p).assignedHarts=true ∧
      sbiHartmaskTestHart h (t.store q).assignedHarts=true)
  total : ∀ h,h<SBI_HARTMASK_MAX_BITS → plat.hartInvalid h=false →
    ∃! p,p∈t.domidx ∧ sbiHartmaskTestHart h (t.store p).assignedHarts=true
  possible : ∀ p∈t.domidx,∀ h,sbiHartmaskTestHart h (t.store p).assignedHarts=true →
    (t.store p).possibleHarts.any (sbiHartmaskTestHart h)=true

theorem DomainTable.Consistent.assignment (ht : t.Consistent coldHartid)
    (hall : ∀ h,h<SBI_HARTMASK_MAX_BITS → plat.hartInvalid h=false →
      (t.hartidToDomain h).isSome=true) : Assignment plat t := by
  have hiff : ∀ p∈t.domidx,∀ h,
      sbiHartmaskTestHart h (t.store p).assignedHarts=true ↔ t.hartidToDomain h=some p :=
    fun p hp h => ⟨ht.assigned p hp h,fun hq => (ht.owner h p hq).2.1⟩
  refine ⟨hiff,fun h p hq => (ht.owner h p hq).1,?_,?_,?_⟩
  · intro p hp q hq hne h hm
    have h1 := (hiff p hp h).mp hm.1
    have h2 := (hiff q hq h).mp hm.2
    exact hne (Option.some.inj (h1.symm.trans h2))
  · intro h hlt hv
    obtain ⟨p,hp⟩ := Option.isSome_iff_exists.mp (hall h hlt hv)
    obtain ⟨hreg,hm,-⟩ := ht.owner h p hp
    refine ⟨p,⟨hreg,hm⟩,fun q hq => ?_⟩
    exact Option.some.inj (((hiff q hq.1 h).mp hq.2).symm.trans hp)
  · intro p hp h hm
    exact (ht.owner h p ((hiff p hp h).mp hm)).2.2

/-- A registration that fails touches no assignment and no index of a registered domain. -/
theorem register_failed (plat : Platform) (fw : Memregion x) (coldHartid : Nat)
    (t : DomainTable x) (p : Nat) (dom : SbiDomain x) (assignMask : Hartmask)
    (h : (bootCall plat fw coldHartid t (.register p dom assignMask)).1≠SBI_OK) :
    (bootCall plat fw coldHartid t (.register p dom assignMask)).2.hartidToDomain=
        t.hartidToDomain ∧
      (bootCall plat fw coldHartid t (.register p dom assignMask)).2.domidx=t.domidx ∧
      ∀ q∈t.domidx,
        (bootCall plat fw coldHartid t (.register p dom assignMask)).2.store q=t.store q := by
  have hf : (t.filled p dom).hartidToDomain=t.hartidToDomain ∧
      (t.filled p dom).domidx=t.domidx ∧ ∀ q∈t.domidx,(t.filled p dom).store q=t.store q := by
    unfold DomainTable.filled
    split_ifs with hp
    · exact ⟨rfl,rfl,fun _ _ => rfl⟩
    · exact ⟨rfl,rfl,fun q hq => Function.update_of_ne (by rintro rfl; exact hp hq) _ _⟩
  rw [bootCall] at h ⊢
  rcases DomainTable.register_cases plat fw coldHartid (t.filled p dom) p assignMask with
    ⟨-,he⟩ | ⟨hp,-,he⟩ | ⟨-,hok,-⟩
  · rw [he]
    exact hf
  · rw [he]
    refine ⟨hf.1,hf.2.1,fun q hq => ?_⟩
    rw [hf.2.1] at hp
    exact (Function.update_of_ne (by rintro rfl; exact hp hq) _ _).trans (hf.2.2 q hq)
  · exact absurd hok h

/-- After `sbi_domain_init()` and any calls on the domains, every hart of the platform has exactly
one domain, in both representations, and a registration that fails changes nothing about it. -/
theorem sbiDomainRegister_assignment (plat : Platform) (scratch : FwScratch x) (coldHartid : Nat)
    (store : Nat → SbiDomain x) (tr : List Int) (t : DomainTable x)
    (hinit : (sbiDomainInit plat scratch coldHartid store).1=SBI_OK)
    (hrun : Machine.Run (bootMachine plat (rootFwRegion scratch) coldHartid) HasRoom
      (sbiDomainInit plat scratch coldHartid store).2 tr t) :
    Assignment plat t ∧ ∀ p dom assignMask,
      (bootCall plat (rootFwRegion scratch) coldHartid t (.register p dom assignMask)).1≠SBI_OK →
        (bootCall plat (rootFwRegion scratch) coldHartid t
            (.register p dom assignMask)).2.hartidToDomain=t.hartidToDomain ∧
          (bootCall plat (rootFwRegion scratch) coldHartid t
            (.register p dom assignMask)).2.domidx=t.domidx ∧
          ∀ q∈t.domidx,(bootCall plat (rootFwRegion scratch) coldHartid t
            (.register p dom assignMask)).2.store q=t.store q := by
  refine ⟨(boot_consistent hrun).assignment fun h hlt hv => ?_,fun p dom assignMask hne =>
    register_failed plat (rootFwRegion scratch) coldHartid t p dom assignMask hne⟩
  exact boot_assigned ((sbiDomainInit_ok hinit).2.2 h hlt hv) hrun

/-- The scratch space of a firmware at the start of memory that loads its next stage behind it. -/
def bootScratch : FwScratch .rv64 := ⟨0x80000000,0x20000,0,0x80200000,PRV_S⟩

/-- The platform with harts 0 and 1. -/
def bootHarts : Platform := ⟨fun h => decide (2≤h)⟩

/-- A domain for hart 1 next to the root domain. -/
theorem secondDomain_assignment :
    ∃ t tr,Assignment bootHarts t ∧ t.domidx=[ROOT,1] ∧ tr=[SBI_OK] ∧
      Machine.Run (bootMachine bootHarts (rootFwRegion bootScratch) 0) HasRoom
        (sbiDomainInit bootHarts bootScratch 0 fun _ => tableDomain []).2 tr t := by
  have hrun : Machine.Run (bootMachine bootHarts (rootFwRegion bootScratch) 0) HasRoom
      (sbiDomainInit bootHarts bootScratch 0 fun _ => tableDomain []).2 _ _ :=
    .single (a := .register 1 { tableDomain [rootFwRegion bootScratch,⟨64,0,7⟩] with
      possibleHarts := some 2 } 2) rfl (fun _ _ _ _ => by decide)
  refine ⟨_,_,?_,?_,?_,hrun⟩
  · exact (sbiDomainRegister_assignment bootHarts bootScratch 0 (fun _ => tableDomain []) _ _
      (by decide) hrun).1
  · decide
  · decide

end OpenSBI
