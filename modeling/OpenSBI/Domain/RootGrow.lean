import OpenSBI.Domain.Boot
import OpenSBI.Domain.Fills
import OpenSBI.Domain.RootReject

namespace OpenSBI

open Framework Math

variable {x : Xlen} {plat : Platform} {fw : Memregion x} {d root : SbiDomain x}
  {l : List (Memregion x)} {a b r : Memregion x} {addr : Word x} {P : Word x → Prop}
  {n count : Nat}

/-! ## The root table and its count -/

/-- `root_memregs` is an array of `ROOT_REGION_MAX+1` entries, and `root_memregs_count` the number
of those in front of its terminator. -/
structure RootCount (root : SbiDomain x) (count : Nat) : Prop where
  array : ∃ table,root.regions=some table ∧ table.length=ROOT_REGION_MAX+1
  counted : root.memregions.length=count
  room : count≤ROOT_REGION_MAX

private theorem storeRegion_append {table : List (Memregion x)} {count : Nat} {reg : Memregion x}
    (hc : (forEachMemregion table).length=count) (hlt : count<table.length) (hreg : reg.order≠0) :
    forEachMemregion (storeRegion table count reg)=forEachMemregion table++[reg] := by
  unfold storeRegion forEachMemregion at *
  induction table generalizing count with
  | nil => exact absurd hlt (Nat.not_lt_zero _)
  | cons r rest ih =>
    by_cases hr : r.order=0
    · rw [List.takeWhile_cons_of_neg (by simpa using hr)] at hc ⊢
      subst hc
      have htail : ((rest.modify 0 fun r => { r with order := 0 }).takeWhile
          fun r => r.order≠0)=[] := by
        cases rest <;> simp
      simp only [List.length_nil,List.set_cons_zero,List.modify_succ_cons]
      rw [List.takeWhile_cons_of_pos (by simpa using hreg),htail]
      rfl
    · rw [List.takeWhile_cons_of_pos (by simpa using hr)] at hc ⊢
      subst hc
      simp only [List.length_cons,List.set_cons_succ,List.modify_succ_cons] at hlt ⊢
      rw [List.takeWhile_cons_of_pos (by simpa using hr),ih rfl (by omega)]
      rfl

theorem RootCount.of_regions {root' : SbiDomain x} (h : RootCount root count)
    (he : root'.regions=root.regions) : RootCount root' count := by
  refine ⟨by rw [he]; exact h.array,?_,h.room⟩
  rw [SbiDomain.memregions,he]
  exact h.counted

/-- A region that is no terminator is appended to a counted table with room for it. -/
theorem RootCount.stored {reg : Memregion x} (h : RootCount root count)
    (hlt : count<ROOT_REGION_MAX) (hreg : reg.order≠0) :
    (root.stored count reg).memregions=root.memregions++[reg] ∧
      RootCount (root.stored count reg) (count+1) := by
  obtain ⟨table,hr,hlen⟩ := h.array
  have hmem : (root.stored count reg).memregions=root.memregions++[reg] := by
    have hc := h.counted
    unfold SbiDomain.stored SbiDomain.memregions at *
    rw [hr] at hc ⊢
    exact storeRegion_append hc (by omega) hreg
  refine ⟨hmem,⟨storeRegion table count reg,?_,?_⟩,?_,hlt⟩
  · rw [SbiDomain.stored,hr]
    rfl
  · rw [storeRegion,List.length_modify,List.length_set,hlen]
  · rw [hmem,List.length_append,h.counted]
    rfl

theorem RootCount.sorted (h : RootCount root count) : RootCount root.sorted count := by
  obtain ⟨table,hr,hlen⟩ := h.array
  refine ⟨⟨sortedTable table,by rw [SbiDomain.sorted,hr]; rfl,?_⟩,?_,h.room⟩
  · have hp := exchangeSort_perm isRegionConflict isRegionBefore (forEachMemregion table)
    have hpre := (List.takeWhile_prefix (fun r : Memregion x => r.order≠0) (l := table)).length_le
    rw [sortedTable,List.length_append,hp.length_eq,List.length_drop]
    unfold forEachMemregion
    omega
  · rw [(sorted_perm root).length_eq]
    exact h.counted

theorem RootCount.merged (h : RootCount root count)
    (hv : ∀ r∈root.memregions,isRegionValid r=true) :
    RootCount root.merged (count-(mergeRegions root.memregions).1) := by
  obtain ⟨table,hr,hlen⟩ := h.array
  have hsum := mergeRegions_length root.memregions
  have hc := h.counted
  refine ⟨⟨mergeTable table,by rw [SbiDomain.merged,hr]; rfl,?_⟩,?_,?_⟩
  · have hpre := (List.takeWhile_prefix (fun r : Memregion x => r.order≠0) (l := table)).length_le
    have hsum' := mergeRegions_length (forEachMemregion table)
    simp only [mergeTable,List.length_append,List.length_replicate,List.length_drop]
    unfold forEachMemregion at hsum' ⊢
    omega
  · rw [merged_memregions hv]
    omega
  · have := h.room
    omega

theorem RootCount.settle (h : RootCount root count) (plat : Platform) (fw : Memregion x)
    (n : Nat) : RootCount (settleRegions plat fw n root count).2.1
      (settleRegions plat fw n root count).2.2 := by
  induction n generalizing root count with
  | zero => exact h
  | succ n ih =>
    by_cases hrc : (sanitizeDomain plat fw root).1=SBI_OK
    · by_cases hm : (mergeRegions root.sorted.memregions).1=0
      · rw [settleRegions_settled hrc hm]
        exact h.sorted
      · have hv := (sanitizeDomain_sane hrc).valid
        rw [sanitizeDomain_sorted hrc] at hv
        rw [settleRegions_merged hrc hm]
        exact ih (h.sorted.merged hv)
    · rw [settleRegions_refused hrc]
      rcases sanitizeDomain_cases plat fw root with he | he <;> rw [he]
      · exact h
      · exact h.sorted

theorem RootCount.add {reg : Memregion x} (h : RootCount root count) (plat : Platform)
    (fw : Memregion x) (finalized : Bool) (hreg : reg.order≠0) :
    RootCount (sbiDomainRootAddMemregion plat fw finalized root count reg).2.1
      (sbiDomainRootAddMemregion plat fw finalized root count reg).2.2 := by
  unfold sbiDomainRootAddMemregion
  split_ifs with h1 h2
  · exact h
  · exact h
  · simp only [not_or,not_le] at h1
    exact (h.stored h1.2.2 hreg).2.settle plat fw _

/-- A successful call stores the region, then sorts and merges. -/
theorem sbiDomainRootAddMemregion_stored {reg : Memregion x} {finalized : Bool}
    (h : RootCount root count) (ho : reg.order≠0)
    (hok : (sbiDomainRootAddMemregion plat fw finalized root count reg).1=SBI_OK) :
    ∃ root' : SbiDomain x,(reg::root.memregions).Perm root'.memregions ∧
      sbiDomainRootAddMemregion plat fw finalized root count reg=
        settleRegions plat fw (root'.memregions.length+1) root' (count+1) := by
  have hne : ¬SBI_EINVAL=SBI_OK := by decide
  unfold sbiDomainRootAddMemregion at hok ⊢
  split_ifs at hok ⊢ with h1 h2
  · exact absurd hok hne
  · exact absurd hok hne
  simp only [not_or,not_le] at h1
  obtain ⟨hmem,-⟩ := h.stored h1.2.2 ho
  refine ⟨root.stored count reg,?_,rfl⟩
  rw [hmem]
  exact (List.perm_append_singleton _ _).symm

/-- The rule of a successful call. -/
theorem sbiDomainRootAddMemregion_rule {reg : Memregion x} {finalized : Bool}
    {I : List (Memregion x) → Prop} (hperm : ∀ l l',l.Perm l' → I l → I l')
    (hmerge : ∀ l,(∀ r∈l,isRegionValid r=true) → (∀ r∈(mergeRegions l).2,isRegionValid r=true) →
      l.Pairwise (fun a b => isRegionBefore b a=false) → I l → I (mergeRegions l).2)
    (h : RootCount root count) (ho : reg.order≠0)
    (hok : (sbiDomainRootAddMemregion plat fw finalized root count reg).1=SBI_OK)
    (hI : I (reg::root.memregions)) :
    I (sbiDomainRootAddMemregion plat fw finalized root count reg).2.1.memregions := by
  obtain ⟨root',hp,heq⟩ := sbiDomainRootAddMemregion_stored h ho hok
  rw [heq] at hok ⊢
  exact settleRegions_rule hperm hmerge hok (hperm _ _ hp hI)

/-- It leaves a sane domain, and the regions were valid before. -/
theorem sbiDomainRootAddMemregion_sane {reg : Memregion x} {finalized : Bool}
    (h : RootCount root count) (ho : reg.order≠0)
    (hok : (sbiDomainRootAddMemregion plat fw finalized root count reg).1=SBI_OK) :
    SaneDomain (sbiDomainRootAddMemregion plat fw finalized root count reg).2.1 ∧
      ∀ r∈reg::root.memregions,isRegionValid r=true := by
  obtain ⟨root',hp,heq⟩ := sbiDomainRootAddMemregion_stored h ho hok
  rw [heq] at hok ⊢
  refine ⟨settleRegions_sane hok,fun r hr => ?_⟩
  exact ((sanitizeDomain_ok_iff _ _ _).mp (settleRegions_first hok)).1.valid r (hp.mem_iff.mp hr)

/-- A successful call keeps the answers at the addresses of `P` outside the new region, where the table with
that region is coherent on `P`. -/
theorem sbiDomainRootAddMemregion_answersOn {reg : Memregion x} {finalized : Bool}
    (h : RootCount root count) (ho : reg.order≠0)
    (hs : root.memregions.Pairwise (fun a b => isRegionBefore b a=false))
    (hco : Coherent P (reg::root.memregions))
    (hok : (sbiDomainRootAddMemregion plat fw finalized root count reg).1=SBI_OK)
    {mode : Nat} (hmode : mode≠PRV_M) {addr : Word x} (hp : P addr) (hout : ¬reg.Holds addr)
    (accessFlags : Word x) :
    sbiDomainCheckAddr (sbiDomainRootAddMemregion plat fw finalized root count reg).2.1 addr mode
      accessFlags=sbiDomainCheckAddr root addr mode accessFlags := by
  obtain ⟨hsane,hvalid⟩ := sbiDomainRootAddMemregion_sane h ho hok
  have hkeep : Keeps P (reg::root.memregions)
      (sbiDomainRootAddMemregion plat fw finalized root count reg).2.1.memregions := by
    apply sbiDomainRootAddMemregion_rule _ _ h ho hok (.of_perm (.refl _) hco)
    · intro l l' hperm hl
      exact hl.trans (.of_perm hperm hl.coherent)
    · intro l hv hv' hsort hl
      exact hl.trans (mergeRegions_keeps hv hv' hsort hl.coherent)
  have hreg : reg.contains addr=false := by
    by_contra hc
    exact hout ((contains_iff_holds (hvalid reg List.mem_cons_self) addr).mp (by simpa using hc))
  rcases checkAddr_foremost hs hmode addr accessFlags with ⟨r,hr,hv⟩ | ⟨hnone,hv⟩
  · have hr' : Foremost (reg::root.memregions) addr r := by
      refine ⟨List.mem_cons_of_mem _ hr.mem,hr.contains,fun s hs hsc => ?_⟩
      rcases List.mem_cons.mp hs with rfl | hs
      · rw [hreg] at hsc
        cases hsc
      · exact hr.least s hs hsc
    obtain ⟨r1,hr1,ha1⟩ := hkeep.foremost addr hp r hr'
    rcases checkAddr_foremost hsane.sorted hmode addr accessFlags with ⟨r2,hr2,hv2⟩ | ⟨hnone2,-⟩
    · rw [hv2,hv]
      exact ((hkeep.coherent.foremost_alike hp hsane.valid hr2 hr1).trans ha1) accessFlags
    · exact absurd hr1.contains (by simp [hnone2 r1 hr1.mem])
  · have hnone' := hkeep.none addr fun s hs => by
      rcases List.mem_cons.mp hs with rfl | hs
      · exact hreg
      · exact hnone s hs
    rcases checkAddr_foremost hsane.sorted hmode addr accessFlags with ⟨r2,hr2,-⟩ | ⟨-,hv2⟩
    · exact absurd hr2.contains (by simp [hnone' r2 hr2.mem])
    · rw [hv2,hv]

/-- A successful call that meets the condition keeps every answer outside the new region. -/
theorem sbiDomainRootAddMemregion_answers {reg : Memregion x} {finalized : Bool}
    (h : RootCount root count) (hu : Undisturbed root.memregions reg)
    (hok : (sbiDomainRootAddMemregion plat fw finalized root count reg).1=SBI_OK)
    {mode : Nat} (hmode : mode≠PRV_M) {addr : Word x} (hout : ¬reg.Holds addr)
    (accessFlags : Word x) :
    sbiDomainCheckAddr (sbiDomainRootAddMemregion plat fw finalized root count reg).2.1 addr mode
      accessFlags=sbiDomainCheckAddr root addr mode accessFlags :=
  sbiDomainRootAddMemregion_answersOn h hu.order hu.sorted hu.coherent hok hmode hout hout accessFlags

/-! ## Runs -/

/-- The condition on a call: one that grows the root domain is refused before it stores the region,
or leaves the rest of the table undisturbed. -/
def Calm (t : DomainTable x) (a : BootAction x) (_ : DomainTable x) : Prop :=
  ∀ reg,a=.rootAdd reg →
    EntryRefused t.finalized (t.store ROOT) t.rootMemregsCount reg ∨
      Undisturbed (t.store ROOT).memregions reg

namespace DomainTable

variable {t : DomainTable x} {coldHartid p : Nat} {reg : Memregion x}

theorem rootAdd_refused
    (h : EntryRefused t.finalized (t.store ROOT) t.rootMemregsCount reg) :
    t.rootAdd plat fw reg=(SBI_EINVAL,t) := by
  have hadd : sbiDomainRootAddMemregion plat fw t.finalized (t.store ROOT) t.rootMemregsCount reg=
      (SBI_EINVAL,t.store ROOT,t.rootMemregsCount) := by
    unfold sbiDomainRootAddMemregion
    split_ifs with h1 h2
    · rfl
    · rfl
    · rcases h with h | h | h | h
      · exact absurd (.inl h) h1
      · exact absurd (.inr (.inl h)) h1
      · exact absurd (.inr (.inr h)) h1
      · exact absurd h h2
  rw [rootAdd,hadd]
  simp only [Function.update_eq_self]

theorem foldl_rootMemregsCount (l : List Nat) (t : DomainTable x) :
    (l.foldl (assignHart coldHartid p) t).rootMemregsCount=t.rootMemregsCount := by
  induction l generalizing t with
  | nil => rfl
  | cons i l ih =>
    rw [List.foldl_cons,ih,assignHart]
    split_ifs <;> rfl

/-- The root domain is registered and its regions are counted. -/
structure RootKept (t : DomainTable x) : Prop where
  registered : ROOT∈t.domidx
  regions : RootCount (t.store ROOT) t.rootMemregsCount

theorem RootKept.register (ht : t.RootKept) (p : Nat) (dom : SbiDomain x)
    (assignMask : Hartmask) :
    (bootCall plat fw coldHartid t (.register p dom assignMask)).2.RootKept := by
  rw [bootCall]
  by_cases hreg : p∈t.domidx
  · have hfilled : t.filled p dom=t := if_pos hreg
    rw [hfilled]
    rcases register_cases plat fw coldHartid t p assignMask with ⟨-,h⟩ | ⟨hp,-⟩ | ⟨hp,-⟩
    · rwa [h]
    · exact absurd hreg hp
    · exact absurd hreg hp
  · have hne : ROOT≠p := by
      rintro rfl
      exact hreg ht.registered
    have hfilled : t.filled p dom={ t with store := Function.update t.store p dom } :=
      if_neg hreg
    have hroot : (t.filled p dom).store ROOT=t.store ROOT := by
      rw [hfilled]
      exact Function.update_of_ne hne _ _
    have hkept : (t.filled p dom).RootKept := by
      rw [hfilled] at hroot ⊢
      exact ⟨ht.registered,by rw [hroot]; exact ht.regions⟩
    rcases register_cases plat fw coldHartid (t.filled p dom) p assignMask with
      ⟨-,h⟩ | ⟨-,-,h⟩ | ⟨-,-,-,h⟩ <;> rw [h]
    · exact hkept
    · refine ⟨hkept.registered,?_⟩
      simp only [Function.update_of_ne hne]
      exact hkept.regions
    · obtain ⟨hbody,hidx⟩ := foldl_body coldHartid p (hartsOf assignMask) { t.filled p dom with
        store := Function.update (t.filled p dom).store p
          { (sanitizeDomain plat fw ((t.filled p dom).store p)).2 with
            index := (t.filled p dom).domidx.length,assignedHarts := sbiHartmaskClearAll }
        domidx := (t.filled p dom).domidx++[p] } ROOT
      refine ⟨?_,?_⟩
      · rw [hidx]
        exact List.mem_append_left _ hkept.registered
      · rw [foldl_rootMemregsCount]
        simp only [Function.update_of_ne hne] at hbody
        exact hkept.regions.of_regions hbody.regions

theorem RootKept.rootAdd (ht : t.RootKept) (h : EntryRefused t.finalized (t.store ROOT)
    t.rootMemregsCount reg ∨ Undisturbed (t.store ROOT).memregions reg) :
    (t.rootAdd plat fw reg).2.RootKept := by
  rcases h with h | h
  · rwa [rootAdd_refused h]
  · refine ⟨ht.registered,?_⟩
    have hadd := ht.regions.add plat fw t.finalized h.order
    simpa [DomainTable.rootAdd] using hadd

end DomainTable

/-- The root domain starts with its two regions in front of the terminator. -/
theorem rootDomain_count {scratch : FwScratch x} {coldHartid : Nat}
    (h : (sanitizeDomain plat fw (rootDomain plat scratch coldHartid)).1=SBI_OK) :
    RootCount (rootDomain plat scratch coldHartid) 2 := by
  have hfw : (rootFwRegion scratch).order≠0 := by
    intro h0
    obtain ⟨r,hr,-⟩ := ((sanitizeDomain_ok_iff _ _ _).mp h).1.firmware
    have hnil : (rootDomain plat scratch coldHartid).memregions=[] := by
      unfold SbiDomain.memregions
      exact List.takeWhile_cons_of_neg (by simpa using h0)
    rw [hnil] at hr
    cases hr
  have hall : (sbiDomainMemregionInit (x := x) 0 Word.max (SBI_DOMAIN_MEMREGION_READABLE |||
      SBI_DOMAIN_MEMREGION_WRITEABLE ||| SBI_DOMAIN_MEMREGION_EXECUTABLE)).order≠0 := by
    cases x <;> decide
  refine ⟨⟨_,rfl,by simp [ROOT_REGION_MAX]⟩,?_,by decide⟩
  unfold SbiDomain.memregions forEachMemregion
  simp only [rootDomain,List.cons_append,List.nil_append,Option.getD_some]
  rw [List.takeWhile_cons_of_pos (by simpa using hfw),
    List.takeWhile_cons_of_pos (by simpa using hall)]
  rfl

theorem sbiDomainInit_rootKept {scratch : FwScratch x} {coldHartid : Nat}
    {store : Nat → SbiDomain x} (h : (sbiDomainInit plat scratch coldHartid store).1=SBI_OK) :
    (sbiDomainInit plat scratch coldHartid store).2.RootKept := by
  obtain ⟨hidx,hrc,-⟩ := sbiDomainInit_ok h
  refine ⟨by rw [hidx]; exact List.mem_singleton_self ROOT,?_⟩
  have hcount := (rootDomain_count hrc).sorted
  rw [← sanitizeDomain_sorted hrc] at hcount
  rcases DomainTable.register_cases plat (rootFwRegion scratch) coldHartid
    { store := Function.update store ROOT (rootDomain plat scratch coldHartid),domidx := []
      hartidToDomain := fun _ => none,finalized := false,rootMemregsCount := 2 } ROOT
    (rootHmask plat) with ⟨hne,-⟩ | ⟨-,hne,-⟩ | ⟨-,-,-,he⟩
  · exact absurd h hne
  · exact absurd h hne
  · rw [sbiDomainInit,he,DomainTable.foldl_rootMemregsCount]
    refine hcount.of_regions ?_
    rw [(DomainTable.foldl_body _ _ _ _ ROOT).1.regions]
    simp only [Function.update_self]

/-- In every run of calls that meet the condition the regions of the root domain stay counted, and
every further call that meets it and succeeds keeps the answers outside its region. -/
theorem sbiDomainRootAddMemregion_undisturbed (plat : Platform) (scratch : FwScratch x)
    (coldHartid : Nat) (store : Nat → SbiDomain x) (tr : List Int) (t : DomainTable x)
    (hinit : (sbiDomainInit plat scratch coldHartid store).1=SBI_OK)
    (hrun : Machine.Run (bootMachine plat (rootFwRegion scratch) coldHartid) Calm
      (sbiDomainInit plat scratch coldHartid store).2 tr t) :
    RootCount (t.store ROOT) t.rootMemregsCount ∧ ∀ reg,
      Calm t (.rootAdd reg) (t.rootAdd plat (rootFwRegion scratch) reg).2 →
      (t.rootAdd plat (rootFwRegion scratch) reg).1=SBI_OK →
      ∀ mode,mode≠PRV_M → ∀ addr,¬reg.Holds addr → ∀ accessFlags,
        sbiDomainCheckAddr ((t.rootAdd plat (rootFwRegion scratch) reg).2.store ROOT) addr mode
          accessFlags=sbiDomainCheckAddr (t.store ROOT) addr mode accessFlags := by
  have hkept : t.RootKept := by
    refine hrun.invariant (P := DomainTable.RootKept) (fun s a s' ev hs hstep hok => ?_)
      (sbiDomainInit_rootKept hinit)
    rw [DomainTable.bootMachine_step hstep]
    cases a with
    | register p dom assignMask => exact hs.register p dom assignMask
    | rootAdd reg => exact hs.rootAdd (hok reg rfl)
  refine ⟨hkept.regions,fun reg hcalm hok mode hmode addr hout accessFlags => ?_⟩
  rcases hcalm reg rfl with h | h
  · have hne : ¬SBI_EINVAL=SBI_OK := by decide
    rw [DomainTable.rootAdd_refused h] at hok
    exact absurd hok hne
  · have hans := sbiDomainRootAddMemregion_answers hkept.regions h hok hmode hout accessFlags
    simpa [DomainTable.rootAdd] using hans

theorem Fills.leftmost {f : Word x} {b k : Nat} (h : Fills l f b k) :
    ∃ s∈l,s.base.toNat=b ∧ s.order.toNat≤k ∧ s.flags=f := by
  induction h with
  | region r hr hf => exact ⟨r,hr,rfl,Nat.le_refl _,hf⟩
  | halves b k _ _ _ h1 _ =>
    obtain ⟨s,hs,hb,hk,hf⟩ := h1
    exact ⟨s,hs,hb,by omega,hf⟩

/-- A table is coherent when smaller regions at the base of a region have its flags. -/
theorem coherent_of_bases
    (h : ∀ r∈l,∀ s∈l,s.base=r.base → s.order.toNat≤r.order.toNat → s.flags=r.flags) :
    Coherent P l := by
  intro r hr _ f hf
  obtain ⟨s,hs,hb,hk,rfl⟩ := hf.leftmost
  rw [h r hr s hs (BitVec.eq_of_toNat_eq hb) hk]
  exact fun _ => rfl

/-- Two devices side by side: the second one merges with the first and no other answer changes. -/
theorem sideBySide_undisturbed :
    ∃ t tr,RootCount (t.store ROOT) 3 ∧
      (∀ addr,¬(Memregion.mk 14 0x2004000 0).Holds addr → ∀ accessFlags,
        sbiDomainCheckAddr ((t.rootAdd bootHarts (rootFwRegion bootScratch)
          ⟨14,0x2004000,0⟩).2.store ROOT) addr PRV_S accessFlags=
            sbiDomainCheckAddr (t.store ROOT) addr PRV_S accessFlags) ∧
      Machine.Run (bootMachine bootHarts (rootFwRegion bootScratch) 0) Calm
        (sbiDomainInit bootHarts bootScratch 0 fun _ => tableDomain []).2 tr t := by
  have hcalm : ∀ (t t' : DomainTable .rv64) (reg : Memregion .rv64),reg.order≠0 →
      (t.store ROOT).memregions.Pairwise (fun a b => isRegionBefore b a=false) →
      (∀ r∈reg::(t.store ROOT).memregions,∀ s∈reg::(t.store ROOT).memregions,
        s.base=r.base → s.order.toNat≤r.order.toNat → s.flags=r.flags) →
      Calm t (.rootAdd reg) t' := by
    intro t t' reg ho hs hb reg' he
    cases he
    exact .inr ⟨ho,hs,coherent_of_bases hb⟩
  have hrun : Machine.Run (bootMachine bootHarts (rootFwRegion bootScratch) 0) Calm
      (sbiDomainInit bootHarts bootScratch 0 fun _ => tableDomain []).2 _ _ :=
    .single (a := .rootAdd ⟨14,0x2000000,0⟩) rfl (hcalm _ _ _ (by decide) (by decide) (by decide))
  obtain ⟨hcount,hnext⟩ := sbiDomainRootAddMemregion_undisturbed bootHarts bootScratch 0
    (fun _ => tableDomain []) _ _ (by decide) hrun
  refine ⟨_,_,hcount,?_,hrun⟩
  exact hnext ⟨14,0x2004000,0⟩ (hcalm _ _ _ (by decide) (by decide) (by decide)) (by decide)
    PRV_S (by decide)

/-- Two regions of one block change places when a smaller one is added elsewhere. -/
theorem tiedRegions_swapped :
    ¬∀ (x : Xlen) (plat : Platform) (scratch : FwScratch x) (coldHartid : Nat)
      (store : Nat → SbiDomain x) (tr : List Int) (t : DomainTable x),
      (sbiDomainInit plat scratch coldHartid store).1=SBI_OK →
      Machine.Run (bootMachine plat (rootFwRegion scratch) coldHartid) Machine.anyStep
        (sbiDomainInit plat scratch coldHartid store).2 tr t →
      RootCount (t.store ROOT) t.rootMemregsCount ∧ ∀ reg,
        (t.rootAdd plat (rootFwRegion scratch) reg).1=SBI_OK →
        ∀ mode,mode≠PRV_M → ∀ addr,¬reg.Holds addr → ∀ accessFlags,
          sbiDomainCheckAddr ((t.rootAdd plat (rootFwRegion scratch) reg).2.store ROOT) addr mode
            accessFlags=sbiDomainCheckAddr (t.store ROOT) addr mode accessFlags := by
  intro h
  have hrun : Machine.Run (bootMachine bootHarts (rootFwRegion bootScratch) 0) Machine.anyStep
      (sbiDomainInit bootHarts bootScratch 0 fun _ => tableDomain []).2 _ _ :=
    (Machine.Run.single (a := .rootAdd ⟨12,0x90000000,SBI_DOMAIN_MEMREGION_READABLE⟩) rfl
      trivial).trans
    (.single (a := .rootAdd ⟨12,0x90000000,SBI_DOMAIN_MEMREGION_WRITEABLE⟩) rfl trivial)
  have hswap := (h _ _ _ _ _ _ _ (by decide) hrun).2 ⟨5,0xa0000000,0⟩ (by decide) PRV_S
    (by decide) 0x90000000 (show ¬InBlock _ _ _ by decide) SBI_DOMAIN_READ
  revert hswap
  decide

end OpenSBI
