import OpenSBI.Fdt.Domain

namespace OpenSBI

variable {x : Xlen} {t : Fdt}

namespace Fdt

/-- A node is that of hart `h`, an id that a hart mask holds. -/
def IsHart (t : Fdt) (cpu h : Nat) : Prop :=
  h<SBI_HARTMASK_MAX_BITS ∧ ∃ hartid,fdtParseHartId t cpu=.ok hartid ∧ hartid.toNat=h

/-- Node `cpu` below `/cpus` is that of hart `h`. -/
def Cpu (t : Fdt) (cpus cpu h : Nat) : Prop := cpu∈t.subnodes cpus ∧ t.IsHart cpu h

/-- The `opensbi-domain` property of a CPU node names node `d`. -/
def PointsTo (t : Fdt) (cpu d : Nat) : Prop :=
  ∃ v,longProp t cpu .opensbiDomain 4=some v ∧ t.offsetByPhandle (fdt32 v 0)=.ok d

theorem PointsTo.unique {cpu d d' : Nat} (h : t.PointsTo cpu d) (h' : t.PointsTo cpu d') : d=d' := by
  obtain ⟨v,hv,hd⟩ := h
  obtain ⟨v',hv',hd'⟩ := h'
  rw [hv] at hv'
  cases hv'
  exact Except.ok.inj (hd.symm.trans hd')

/-- A phandle names a CPU node with hart id `h`. -/
def HartAt (t : Fdt) (c : BitVec 32) (h : Nat) : Prop :=
  ∃ cpu hartid,t.offsetByPhandle c=.ok cpu ∧ fdtParseHartId t cpu=.ok hartid ∧ hartid.toNat=h

/-- Hart `h` is in the `possible-harts` of node `d`. -/
def Possible (t : Fdt) (d h : Nat) : Prop := ∃ c∈t.cells d .possibleHarts,t.HartAt c h

/-- The regions of node `d` and those of the root domain that are copied have room in a row. -/
def Fits (t : Fdt) (root : List (Memregion x)) (d : Nat) : Prop :=
  t.regionCount d+(root.filter Memregion.noAccess).length≤FDT_DOMAIN_REGION_MAX_COUNT

end Fdt

section Masks

theorem possibleLoop_ok {l : List (BitVec 32)} {m m' : Hartmask} (h : possibleLoop t l m=.ok m') (i : Nat) :
    sbiHartmaskTestHart i m'=true ↔ sbiHartmaskTestHart i m=true ∨
      i<SBI_HARTMASK_MAX_BITS ∧ ∃ c∈l,t.HartAt c i := by
  induction l generalizing m with
  | nil =>
    cases h
    simp
  | cons c l ih =>
    rw [possibleLoop] at h
    cases hc : t.offsetByPhandle c with
    | error e => rw [hc] at h; cases h
    | ok cpu =>
      cases hh : fdtParseHartId t cpu with
      | error e =>
        rw [hc] at h
        simp only [bind,Except.bind,hh] at h
        cases h
      | ok hartid =>
        rw [hc] at h
        simp only [bind,Except.bind,hh] at h
        rw [ih h,testHart_set,Bool.or_eq_true,Bool.and_eq_true,decide_eq_true_iff,decide_eq_true_iff]
        have hat : ∀ i,t.HartAt c i ↔ i=hartid.toNat := by
          intro i
          constructor
          · rintro ⟨cpu',hartid',h1,h2,h3⟩
            rw [hc] at h1
            cases h1
            rw [hh] at h2
            cases h2
            exact h3.symm
          · rintro rfl
            exact ⟨cpu,hartid,hc,hh,rfl⟩
        simp only [List.mem_cons,exists_eq_or_imp,hat]
        tauto

theorem possibleLoop_exists {l : List (BitVec 32)} (h : ∀ c∈l,∃ i,t.HartAt c i) (m : Hartmask) :
    ∃ m',possibleLoop t l m=.ok m' := by
  induction l generalizing m with
  | nil => exact ⟨m,rfl⟩
  | cons c l ih =>
    obtain ⟨i,cpu,hartid,hc,hh,-⟩ := h c List.mem_cons_self
    obtain ⟨m',hm⟩ := ih (fun c hc => h c (List.mem_cons_of_mem _ hc)) (sbiHartmaskSetHart hartid.toNat m)
    refine ⟨m',?_⟩
    rw [possibleLoop,hc]
    simp only [bind,Except.bind,hh]
    exact hm

/-- The mask of an instance, when every CPU node names a domain. -/
theorem assignLoop_ok {d : Nat} {l : List Nat} (m : Hartmask)
    (h : ∀ cpu∈l,∀ hartid,fdtParseHartId t cpu=.ok hartid → hartid.toNat<SBI_HARTMASK_MAX_BITS →
      ∃ q,t.PointsTo cpu q) :
    ∃ m',assignLoop t d l m=.ok m' ∧ ∀ i,sbiHartmaskTestHart i m'=true ↔
      sbiHartmaskTestHart i m=true ∨ ∃ cpu∈l,t.IsHart cpu i ∧ t.PointsTo cpu d := by
  induction l generalizing m with
  | nil => exact ⟨m,rfl,fun i => by simp⟩
  | cons cpu l ih =>
    have hl := fun c hc => h c (List.mem_cons_of_mem cpu hc)
    rw [assignLoop]
    cases hh : fdtParseHartId t cpu with
    | error e =>
      obtain ⟨m',hrun,hmask⟩ := ih m hl
      refine ⟨m',hrun,fun i => ?_⟩
      rw [hmask]
      apply or_congr_right
      have hno : ¬t.IsHart cpu i := by
        rintro ⟨-,hartid,hok,-⟩
        rw [hh] at hok
        cases hok
      simp [hno]
    | ok hartid =>
      dsimp only
      split_ifs with hbig
      · obtain ⟨m',hrun,hmask⟩ := ih m hl
        refine ⟨m',hrun,fun i => ?_⟩
        rw [hmask]
        apply or_congr_right
        have hno : ¬t.IsHart cpu i := by
          rintro ⟨hlt,hartid',hok,rfl⟩
          rw [hh] at hok
          cases hok
          omega
        simp [hno]
      · obtain ⟨q,v,hv,hq⟩ := h cpu List.mem_cons_self hartid hh (not_le.mp hbig)
        have hpoint : t.PointsTo cpu d ↔ q=d := by
          constructor
          · exact fun hd => hd.unique ⟨v,hv,hq⟩ ▸ rfl
          · rintro rfl
            exact ⟨v,hv,hq⟩
        have hhart : ∀ i,t.IsHart cpu i ↔ i=hartid.toNat := by
          intro i
          constructor
          · rintro ⟨-,hartid',hok,rfl⟩
            rw [hh] at hok
            cases hok
            rfl
          · rintro rfl
            exact ⟨not_le.mp hbig,hartid,hh,rfl⟩
        rw [hv]
        simp only [hq]
        obtain ⟨m',hrun,hmask⟩ := ih (if q=d then sbiHartmaskSetHart hartid.toNat m else m) hl
        refine ⟨m',hrun,fun i => ?_⟩
        rw [hmask]
        split_ifs with hqd
        · rw [testHart_set,Bool.or_eq_true,Bool.and_eq_true,decide_eq_true_iff,decide_eq_true_iff]
          simp only [List.mem_cons,exists_eq_or_imp,hhart,hpoint,hqd,and_true]
          have := not_le.mp hbig
          constructor
          · rintro ((hm | hm) | hm)
            · exact .inl hm
            · exact .inr (.inl hm.2)
            · exact .inr (.inr hm)
          · rintro (hm | rfl | hm)
            · exact .inl (.inl hm)
            · exact .inl (.inr ⟨this,rfl⟩)
            · exact .inr hm
        · simp only [List.mem_cons,exists_eq_or_imp,hpoint,hqd,and_false,false_or]

/-- A CPU node without a domain ends the loop. -/
theorem assignLoop_error {d cpu h : Nat} {l : List Nat} (hcpu : cpu∈l) (hh : t.IsHart cpu h)
    (hno : ∀ q,¬t.PointsTo cpu q) (m : Hartmask) : ∃ e≠SBI_OK,assignLoop t d l m=.error e := by
  induction l generalizing m with
  | nil => cases hcpu
  | cons c l ih =>
    rw [assignLoop]
    rcases List.mem_cons.mp hcpu with rfl | hl
    · obtain ⟨hlt,hartid,hok,rfl⟩ := hh
      rw [hok]
      simp only [if_neg (not_le.mpr hlt)]
      cases hv : longProp t cpu .opensbiDomain 4 with
      | none => exact ⟨SBI_EINVAL,by decide,rfl⟩
      | some v =>
        cases hq : t.offsetByPhandle (fdt32 v 0) with
        | error e =>
          refine ⟨e,Fdt.offsetByPhandle_ne_ok hq,?_⟩
          simp only [hq]
        | ok q => exact absurd ⟨v,hv,hq⟩ (hno q)
    · cases fdtParseHartId t c with
      | error e => exact ih hl m
      | ok hartid =>
        dsimp only
        split_ifs
        · exact ih hl m
        · cases longProp t c .opensbiDomain 4 with
          | none => exact ⟨SBI_EINVAL,by decide,rfl⟩
          | some v =>
            cases hq : t.offsetByPhandle (fdt32 v 0) with
            | error e =>
              refine ⟨e,Fdt.offsetByPhandle_ne_ok hq,?_⟩
              simp only [hq]
            | ok q =>
              simp only [hq]
              exact ih hl _

end Masks

section Read

variable {d : Nat}

/-- Entries that all name regions of the binding fill the row. -/
theorem entryLoop_regular {s : RegionTable x} {n i : Nat} (h : t.AllRegular x d i (i+n)) (hs : s.count=i)
    (hroom : i+n≤FDT_DOMAIN_REGION_MAX_COUNT) :
    ∃ s',entryLoop t d (fdtParseRegion t) n i s=some (SBI_OK,s') ∧ s'.count=i+n := by
  induction n generalizing i s with
  | zero => exact ⟨s,rfl,hs⟩
  | succ n ih =>
    obtain ⟨r,hn,hr⟩ := h i le_rfl (by omega)
    have hrun := (@fdtParseRegion_cases x t r (t.regionAccess d i) s (by omega)).resolve_left
      fun hc => hc.1 hr.toSized
    have hok := (hrun.resolve_left fun hc => hc.2.1 hr).2
    rw [entryLoop_names hn,hok,Option.bind_some]
    simp only [ne_eq,not_true_eq_false,if_false]
    have hnext : i+1+n=i+(n+1) := by omega
    rw [← hnext] at h hroom ⊢
    exact ih (fun k h1 h2 => h k (by omega) h2) (by simp only [hs]) hroom

theorem copyRoot_ok {l : List (Memregion x)} {s : RegionTable x}
    (h : s.count+(l.filter Memregion.noAccess).length≤FDT_DOMAIN_REGION_MAX_COUNT) :
    (copyRoot l s).1=SBI_OK := by
  induction l generalizing s with
  | nil => rfl
  | cons reg l ih =>
    rw [copyRoot]
    cases hreg : reg.noAccess with
    | false =>
      rw [List.filter_cons_of_neg (by simp [hreg])] at h
      exact ih h
    | true =>
      rw [List.filter_cons_of_pos hreg,List.length_cons] at h
      rw [if_neg (by simp),if_neg (by omega)]
      apply ih
      dsimp only
      omega

/-- A domain instance of the binding. -/
structure Fdt.Instance (x : Xlen) (t : Fdt) (d : Nat) : Prop where
  possible : ∀ c∈t.cells d .possibleHarts,∃ h,t.HartAt c h
  regions : t.AllRegular x d 0 (t.regionCount d)

/-- The domain read from an instance of the binding whose regions have room. -/
theorem fdtReadDomain_ok (env : PopulateEnv x) {root : List (Memregion x)} (hd : t.Instance x d)
    (hc : t.compatible d "opensbi,domain,instance"=true) (hfit : t.Fits root d) :
    ∃ dom mask,fdtReadDomain env t d root=some (.ok dom) ∧ dom.possibleHarts=some mask ∧
      ∀ h,sbiHartmaskTestHart h mask=true ↔ h<SBI_HARTMASK_MAX_BITS ∧ t.Possible d h := by
  obtain ⟨mask,hmask⟩ := possibleLoop_exists hd.possible sbiHartmaskClearAll
  have hle : t.regionCount d≤FDT_DOMAIN_REGION_MAX_COUNT := (Nat.le_add_right _ _).trans hfit
  obtain ⟨s,hs,hcount⟩ := entryLoop_regular (x := x) (s := .cleared) (i := 0) (n := t.regionCount d)
    (by rw [Nat.zero_add]; exact hd.regions) rfl (by rw [Nat.zero_add]; exact hle)
  have hregions : fdtParseRegions x t d=some (SBI_OK,s) := (fdtIterateEachMemregion_fixed hc _).trans hs
  have hcopy : (copyRoot root s).1=SBI_OK := by
    apply copyRoot_ok
    rw [hcount,Nat.zero_add]
    exact hfit
  rw [fdtReadDomain,hmask]
  simp only [hregions,Option.bind_eq_bind,Option.bind_some,hcopy,ne_eq,not_true_eq_false,if_false]
  refine ⟨_,mask,rfl,rfl,fun h => ?_⟩
  rw [possibleLoop_ok hmask,testHart_clearAll]
  simp [Fdt.Possible]

end Read

/-- The call of `fdt_domains_populate()` as `__fdt_parse_domain()` sees it. -/
def populateEnv (plat : Platform) (scratch : FwScratch x) (coldHartid : Nat) (t : Fdt) (cpus : Nat) :
    PopulateEnv x := ⟨plat,scratch,coldHartid,coldDomainOffset t cpus coldHartid⟩

/-- A device tree of the binding. Its instances, at most 8, have room for their regions and those of the
root domain, and the domains they describe pass `sanitize_domain()`. -/
structure Fdt.WellFormed (env : PopulateEnv x) (t : Fdt) (cpus : Nat) (root : List (Memregion x)) : Prop where
  path : t.pathOffset "cpus"=.ok cpus
  hart : ∀ cpu cpu' h,t.Cpu cpus cpu h → t.Cpu cpus cpu' h → cpu=cpu'
  names : ∀ cpu h,t.Cpu cpus cpu h → (t.getprop cpu .opensbiDomain).isSome=true → ∃ d,t.PointsTo cpu d
  room : (domainInstances t).length≤FDT_DOMAIN_MAX_COUNT
  instances : ∀ d∈domainInstances t,t.Instance x d
  fits : ∀ d∈domainInstances t,t.Fits root d
  sane : ∀ d∈domainInstances t,∀ dom,fdtReadDomain env t d root=some (.ok dom) →
    (sanitizeDomain env.plat (rootFwRegion env.scratch) dom).1=SBI_OK

section Loop

variable {env : PopulateEnv x} {cpus : Nat} {root : List (Memregion x)} {b : Nat → Option Nat}

/-- The domains after the first `k` instances; `b` is the table of harts before them. -/
structure Populated (env : PopulateEnv x) (t : Fdt) (cpus : Nat) (root : List (Memregion x))
    (b : Nat → Option Nat) (k : Nat) (s : FdtDomains x) : Prop where
  count : s.count=k
  domidx : s.table.domidx=ROOT::(List.range k).map fdtDomains
  finalized : s.table.finalized=false
  regions : (s.table.store ROOT).memregions=root
  consistent : s.table.Consistent env.coldHartid
  slots : ∀ j d,j<k → (domainInstances t)[j]?=some d → ∃ dom,
    fdtReadDomain env t d root=some (.ok dom) ∧ DomainTable.SameEntry dom (s.table.store (fdtDomains j))
  moved : ∀ j d cpu h,j<k → (domainInstances t)[j]?=some d → t.Cpu cpus cpu h → t.PointsTo cpu d →
    t.Possible d h → s.table.hartidToDomain h=some (fdtDomains j)
  kept : ∀ h,(∀ j d cpu,j<k → (domainInstances t)[j]?=some d → t.Cpu cpus cpu h → t.PointsTo cpu d →
    ¬t.Possible d h) → s.table.hartidToDomain h=b h

/-- One instance, when every CPU node names a domain. -/
theorem Populated.step {k d : Nat} {s : FdtDomains x} (hs : Populated env t cpus root b k s)
    (hwf : t.WellFormed env cpus root) (hall : ∀ cpu h,t.Cpu cpus cpu h → ∃ q,t.PointsTo cpu q)
    (hk : (domainInstances t)[k]?=some d) :
    ∃ s',fdtParseDomain env t d s=some (SBI_OK,s') ∧ Populated env t cpus root b (k+1) s' := by
  have hd : d∈domainInstances t := List.mem_of_getElem? hk
  have hlt : k<(domainInstances t).length := (List.getElem?_eq_some_iff.mp hk).1
  have hroom := hwf.room
  obtain ⟨dom,mask,hread,hposs,hmask⟩ :=
    fdtReadDomain_ok env (hwf.instances d hd) (domainInstances_compatible hd) (hwf.fits d hd)
  obtain ⟨m,hloop,hm⟩ := assignLoop_ok (t := t) (d := d) (l := t.subnodes cpus) sbiHartmaskClearAll
    fun cpu hcpu hartid hh hb => hall cpu _ ⟨hcpu,hb,hartid,hh,rfl⟩
  have hrc := hwf.sane d hd dom hread
  -- The slot of the instance is a new one.
  have hmem : ∀ q,q∈s.table.domidx ↔ q=ROOT ∨ ∃ j<k,fdtDomains j=q := by
    intro q
    rw [hs.domidx]
    simp
  have hp : fdtDomains k∉s.table.domidx := by
    rw [hmem]
    rintro (h | ⟨j,hj,h⟩)
    · cases h
    · have := Nat.succ.inj h
      omega
  have hlen : s.table.domidx.length<SBI_DOMAIN_MAX_INDEX := by
    rw [hs.domidx,List.length_cons,List.length_map,List.length_range]
    have : FDT_DOMAIN_MAX_COUNT+1<SBI_DOMAIN_MAX_INDEX := by decide
    omega
  -- The table with the new domain filled in.
  obtain ⟨table,htable⟩ : ∃ table,table={ s.table with
    store := Function.update s.table.store (fdtDomains k) dom } := ⟨_,rfl⟩
  have hself : table.store (fdtDomains k)=dom := by rw [htable]; exact Function.update_self _ _ _
  have hother : ∀ q,q≠fdtDomains k → table.store q=s.table.store q := by
    intro q hq
    rw [htable]
    exact Function.update_of_ne hq _ _
  have hcons : table.Consistent env.coldHartid := htable ▸ hs.consistent.unregistered hp
  obtain ⟨table',hreg,hr⟩ := DomainTable.register_ok env.plat (rootFwRegion env.scratch) env.coldHartid
    (t := table) (p := fdtDomains k) m
    (by rw [htable]; exact hs.finalized) (by rw [htable]; exact hp) (by rw [htable]; exact hlen)
    (by rw [hself]; exact hrc)
  have hcons' := hcons.register env.plat (rootFwRegion env.scratch) (fdtDomains k) m
  rw [hreg] at hcons'
  have hbody : ∀ q,q≠fdtDomains k → DomainTable.SameBody (s.table.store q) (table'.store q) :=
    fun q hq => hother q hq ▸ hr.others q hq
  -- Where a hart is now.
  have hin : ∀ h,(sbiHartmaskTestHart h m=true ∧
      (table.store (fdtDomains k)).possibleHarts.any (sbiHartmaskTestHart h)=true) ↔
        (∃ cpu,t.Cpu cpus cpu h ∧ t.PointsTo cpu d) ∧ t.Possible d h := by
    intro h
    rw [hself,hposs,Option.any_some,hmask,hm,testHart_clearAll]
    constructor
    · rintro ⟨hc,-,hpos⟩
      obtain ⟨cpu,hcpu,hh,hpt⟩ := hc.resolve_left (by simp)
      exact ⟨⟨cpu,⟨hcpu,hh⟩,hpt⟩,hpos⟩
    · rintro ⟨⟨cpu,⟨hcpu,hh⟩,hpt⟩,hpos⟩
      exact ⟨.inr ⟨cpu,hcpu,hh,hpt⟩,hh.1,hpos⟩
  have hold : table.hartidToDomain=s.table.hartidToDomain := by rw [htable]
  refine ⟨⟨table',k+1⟩,?_,rfl,?_,?_,?_,hcons',?_,?_,?_⟩
  · have hcount : ¬FDT_DOMAIN_MAX_COUNT ≤ s.count := by
      rw [hs.count]
      omega
    rw [fdtParseDomain,if_neg hcount,hs.regions,hread]
    simp only [Option.bind_eq_bind,Option.bind_some,hwf.path,hloop]
    rw [htable,← hs.count] at hreg
    rw [hreg,hs.count]
  · rw [hr.domidx,htable]
    simp only [hs.domidx,List.range_succ,List.map_append,List.map_cons,List.map_nil,List.cons_append]
  · rw [hr.finalized,htable]
    exact hs.finalized
  · rw [← hs.regions,SbiDomain.memregions,(hbody ROOT (by simp [ROOT,fdtDomains])).regions]
    rfl
  · intro j q hj hq
    rcases Nat.lt_succ_iff_lt_or_eq.mp hj with hj | rfl
    · obtain ⟨dom',hread',hsame⟩ := hs.slots j q hj hq
      refine ⟨dom',hread',hsame.body (hbody _ ?_)⟩
      simp only [fdtDomains]
      omega
    · rw [hk] at hq
      cases hq
      exact ⟨dom,hread,hself ▸ hr.domain⟩
  · intro j q cpu h hj hq hcpu hpt hpos
    rw [hr.hart]
    rcases Nat.lt_succ_iff_lt_or_eq.mp hj with hj | rfl
    · rw [if_neg,hold]
      · exact hs.moved j q cpu h hj hq hcpu hpt hpos
      · -- The one node of the hart points to another instance.
        rw [hin]
        rintro ⟨⟨cpu',hcpu',hpt'⟩,-⟩
        have hqd := hwf.hart cpu' cpu h hcpu' hcpu ▸ hpt' |>.unique hpt
        rw [← hqd,← hk] at hq
        have := (List.getElem?_inj (hj.trans hlt) (domainInstances_nodup t)).mp hq
        omega
    · rw [hk] at hq
      cases hq
      exact if_pos ((hin h).mpr ⟨⟨cpu,hcpu,hpt⟩,hpos⟩)
  · intro h hno
    rw [hr.hart,if_neg,hold]
    · exact hs.kept h fun j q cpu hj => hno j q cpu (by omega)
    · rw [hin]
      rintro ⟨⟨cpu,hcpu,hpt⟩,hpos⟩
      exact hno k d cpu (by omega) hk hcpu hpt hpos

theorem Populated.loop {l : List Nat} {k : Nat} {s : FdtDomains x}
    (hs : Populated env t cpus root b k s) (hwf : t.WellFormed env cpus root)
    (hall : ∀ cpu h,t.Cpu cpus cpu h → ∃ q,t.PointsTo cpu q) (hl : (domainInstances t).drop k=l) :
    ∃ s',domainLoop (fdtParseDomain env t) l s=some (SBI_OK,s') ∧
      Populated env t cpus root b (k+l.length) s' := by
  induction l generalizing k s with
  | nil => exact ⟨s,rfl,hs⟩
  | cons d l ih =>
    have hk : (domainInstances t)[k]?=some d := by
      rw [← List.head?_drop,hl]
      rfl
    obtain ⟨s1,hrun,h1⟩ := hs.step hwf hall hk
    obtain ⟨s',hrun',h'⟩ := ih h1 (by rw [← List.tail_drop,hl]; rfl)
    refine ⟨s',?_,?_⟩
    · rw [domainLoop,hrun]
      exact hrun'
    · rw [List.length_cons,← Nat.add_assoc,Nat.add_right_comm]
      exact h'

/-- An instance, when some CPU node does not name a domain. -/
theorem fdtParseDomain_error {d cpu h : Nat} {s : FdtDomains x} (hwf : t.WellFormed env cpus root)
    (hs : (s.table.store ROOT).memregions=root) (hd : d∈domainInstances t) (hcpu : t.Cpu cpus cpu h)
    (hno : ∀ q,¬t.PointsTo cpu q) : ∃ e≠SBI_OK,∃ s',fdtParseDomain env t d s=some (e,s') := by
  rw [fdtParseDomain]
  split_ifs with hcount
  · exact ⟨SBI_EINVAL,by decide,s,rfl⟩
  · obtain ⟨dom,mask,hread,-⟩ :=
      fdtReadDomain_ok env (hwf.instances d hd) (domainInstances_compatible hd) (hwf.fits d hd)
    obtain ⟨e,he,hloop⟩ := assignLoop_error (d := d) hcpu.1 hcpu.2 hno sbiHartmaskClearAll
    refine ⟨e,he,s,?_⟩
    rw [hs,hread]
    simp only [Option.bind_eq_bind,Option.bind_some,hwf.path,hloop]

end Loop

section Boot

open Framework

variable {plat : Platform} {scratch : FwScratch x} {coldHartid : Nat} {store : Nat → SbiDomain x}
  {tr : List Int} {b : DomainTable x}

/-- Before the domains are populated, drivers only add regions to the root domain. -/
def OnlyRootAdds (_ : DomainTable x) (a : BootAction x) (_ : DomainTable x) : Prop :=
  ∃ reg,a=.rootAdd reg

/-- The root domain alone, with every hart of the platform. -/
structure RootOnly (plat : Platform) (b : DomainTable x) : Prop where
  domidx : b.domidx=[ROOT]
  finalized : b.finalized=false
  hart : ∀ h,h<SBI_HARTMASK_MAX_BITS → plat.hartInvalid h=false → b.hartidToDomain h=some ROOT

theorem rootOnly_init (hinit : (sbiDomainInit plat scratch coldHartid store).1=SBI_OK) :
    RootOnly plat (sbiDomainInit plat scratch coldHartid store).2 := by
  obtain ⟨hidx,-,hall⟩ := sbiDomainInit_ok hinit
  have hcons : (sbiDomainInit plat scratch coldHartid store).2.Consistent coldHartid :=
    boot_consistent (show Machine.Run (bootMachine plat (rootFwRegion scratch) coldHartid) OnlyRootAdds _ [] _
      from .nil)
  refine ⟨hidx,?_,fun h hlt hv => ?_⟩
  · rcases DomainTable.register_cases plat (rootFwRegion scratch) coldHartid
      { store := Function.update store ROOT (rootDomain plat scratch coldHartid),domidx := []
        hartidToDomain := fun _ => none,finalized := false,rootMemregsCount := 2 } ROOT
      (rootHmask plat) with ⟨-,he⟩ | ⟨-,-,he⟩ | ⟨-,-,-,he⟩ <;> rw [sbiDomainInit,he]
    rw [DomainTable.foldl_finalized]
  · obtain ⟨p,hp⟩ := Option.isSome_iff_exists.mp (hall h hlt hv)
    have hreg := (hcons.owner h p hp).1
    rw [hidx,List.mem_singleton] at hreg
    rw [hp,hreg]

theorem rootOnly_boot (hinit : (sbiDomainInit plat scratch coldHartid store).1=SBI_OK)
    (hrun : Machine.Run (bootMachine plat (rootFwRegion scratch) coldHartid) OnlyRootAdds
      (sbiDomainInit plat scratch coldHartid store).2 tr b) : RootOnly plat b := by
  apply hrun.invariant (P := RootOnly plat) _ (rootOnly_init hinit)
  rintro s a s' ev hs hstep ⟨reg,rfl⟩
  rw [DomainTable.bootMachine_step hstep]
  exact ⟨hs.domidx,hs.finalized,hs.hart⟩

end Boot

/-- The domains as the device tree describes them: an instance has its slot, with the domain that was
read from it, and the harts that point to it and are possible in it. All other harts stay with the root
domain. -/
structure PopulatesRight (env : PopulateEnv x) (t : Fdt) (cpus : Nat) (root : List (Memregion x))
    (s : FdtDomains x) : Prop where
  slots : ∀ k d,(domainInstances t)[k]?=some d → ∃ dom,fdtReadDomain env t d root=some (.ok dom) ∧
    DomainTable.SameEntry dom (s.table.store (fdtDomains k))
  moved : ∀ k d cpu h,(domainInstances t)[k]?=some d → t.Cpu cpus cpu h → t.PointsTo cpu d →
    t.Possible d h → s.table.hartidToDomain h=some (fdtDomains k)
  stays : ∀ cpu h,t.Cpu cpus cpu h → env.plat.hartInvalid h=false →
    (∀ d∈domainInstances t,t.PointsTo cpu d → ¬t.Possible d h) → s.table.hartidToDomain h=some ROOT
  masks : s.table.Consistent env.coldHartid

open Framework in
/-- A device tree of the binding is populated as it describes exactly when no CPU node leaves out its
`opensbi-domain` property, or there is no instance at all. -/
theorem fdtDomainsPopulate_right_iff (plat : Platform) (scratch : FwScratch x) (coldHartid : Nat)
    (store : Nat → SbiDomain x) (tr : List Int) (b : DomainTable x) (t : Fdt) (cpus : Nat)
    (hinit : (sbiDomainInit plat scratch coldHartid store).1=SBI_OK)
    (hrun : Machine.Run (bootMachine plat (rootFwRegion scratch) coldHartid) OnlyRootAdds
      (sbiDomainInit plat scratch coldHartid store).2 tr b)
    (hwf : t.WellFormed (populateEnv plat scratch coldHartid t cpus) cpus (b.store ROOT).memregions) :
    (∃ s,fdtDomainsPopulate plat scratch coldHartid t ⟨b,0⟩=some (SBI_OK,s) ∧
      PopulatesRight (populateEnv plat scratch coldHartid t cpus) t cpus (b.store ROOT).memregions s) ↔
    (domainInstances t=[] ∨ ∀ cpu h,t.Cpu cpus cpu h → (t.getprop cpu .opensbiDomain).isSome=true) := by
  have hb := rootOnly_boot hinit hrun
  have hpop : fdtDomainsPopulate plat scratch coldHartid t ⟨b,0⟩=
      domainLoop (fdtParseDomain (populateEnv plat scratch coldHartid t cpus) t) (domainInstances t)
        ⟨b,0⟩ := by
    rw [fdtDomainsPopulate,hwf.path]
    rfl
  have hstart : Populated (populateEnv plat scratch coldHartid t cpus) t cpus (b.store ROOT).memregions
      b.hartidToDomain 0 ⟨b,0⟩ :=
    ⟨rfl,hb.domidx,hb.finalized,rfl,boot_consistent hrun,fun j d hj => by omega,
      fun j d cpu h hj => by omega,fun h _ => rfl⟩
  rw [hpop]
  constructor
  · rintro ⟨s,hrun,-⟩
    by_contra hno
    push Not at hno
    obtain ⟨hne,cpu,h,hcpu,hprop⟩ := hno
    have hpoint : ∀ q,¬t.PointsTo cpu q := by
      rintro q ⟨v,hv,-⟩
      rw [longProp,Option.filter_eq_some_iff] at hv
      rw [hv.1] at hprop
      exact hprop rfl
    cases hl : domainInstances t with
    | nil => exact hne hl
    | cons d l =>
      obtain ⟨e,he,s',herr⟩ := fdtParseDomain_error (s := ⟨b,0⟩) hwf rfl
        (hl ▸ List.mem_cons_self) hcpu hpoint
      rw [hl,domainLoop,herr] at hrun
      simp only [Option.bind_eq_bind,Option.bind_some,if_pos he] at hrun
      cases hrun
      exact he rfl
  · intro hcond
    obtain ⟨s,hrun,hs⟩ : ∃ s,domainLoop (fdtParseDomain (populateEnv plat scratch coldHartid t cpus) t)
        (domainInstances t) ⟨b,0⟩=some (SBI_OK,s) ∧ Populated (populateEnv plat scratch coldHartid t cpus)
          t cpus (b.store ROOT).memregions b.hartidToDomain (domainInstances t).length s := by
      rcases hcond with hnil | hall
      · rw [hnil]
        exact ⟨⟨b,0⟩,rfl,hstart⟩
      · obtain ⟨s,hrun,hs⟩ := hstart.loop hwf
          (fun cpu h hcpu => hwf.names cpu h hcpu (hall cpu h hcpu)) (List.drop_zero)
        rw [Nat.zero_add] at hs
        exact ⟨s,hrun,hs⟩
    have hindex : ∀ {k d},(domainInstances t)[k]?=some d → k<(domainInstances t).length :=
      fun hk => (List.getElem?_eq_some_iff.mp hk).1
    refine ⟨s,hrun,fun k d hk => hs.slots k d (hindex hk) hk,
      fun k d cpu h hk => hs.moved k d cpu h (hindex hk) hk,fun cpu h hcpu hv hno => ?_,hs.consistent⟩
    rw [hs.kept h]
    · exact hb.hart h hcpu.2.1 hv
    · intro j d cpu' hj hk hcpu' hpt
      rw [hwf.hart cpu' cpu h hcpu' hcpu] at hpt
      exact hno d (List.mem_of_getElem? hk) hpt

/-- Two harts and an instance for the second one. `named` is whether the first one names it too. -/
def twoCpus (named : Bool) : Fdt :=
  [⟨0,[],[]⟩,
   ⟨1,cstr "cpus",[]⟩,
   ⟨2,cstr "cpu@0",[.prop .deviceType (cstr "cpu" ++ [0]),.prop .reg (cellBytes 0)] ++
     if named then [.prop .opensbiDomain (cellBytes 3)] else []⟩,
   ⟨2,cstr "cpu@1",[.prop .deviceType (cstr "cpu" ++ [0]),.prop .reg (cellBytes 1),
     .prop .phandle (cellBytes 1),.prop .opensbiDomain (cellBytes 3)]⟩,
   ⟨1,cstr "chosen",[]⟩,
   ⟨2,cstr "opensbi-domains",[.prop .compatible (cstr "opensbi,domain,config" ++ [0])]⟩,
   ⟨3,cstr "allmem",[.prop .compatible (cstr "opensbi,domain,memregion" ++ [0]),
     .prop .base (cellBytes 0 ++ cellBytes 0),.prop .order (cellBytes 64),.prop .phandle (cellBytes 2)]⟩,
   ⟨3,cstr "udomain",[.prop .compatible (cstr "opensbi,domain,instance" ++ [0]),
     .prop .possibleHarts (cellBytes 1),.prop .regions (cellBytes 2 ++ cellBytes 7),
     .prop .nextAddr (cellBytes 0 ++ cellBytes 0x80200000),.prop .phandle (cellBytes 3)]⟩]

/-- The domains of the platform with two harts after `sbi_domain_init()`. -/
def bootTable : DomainTable .rv64 := (sbiDomainInit bootHarts bootScratch 0 fun _ => tableDomain []).2

theorem twoCpus_subnodes {named : Bool} {cpu : Nat} (h : cpu∈(twoCpus named).subnodes 1) :
    cpu=2 ∨ cpu=3 := by
  have hlist : (twoCpus named).subnodes 1=[2,3] := by cases named <;> decide
  rwa [hlist,List.mem_cons,List.mem_singleton] at h

theorem twoCpus_wellFormed (named : Bool) : (twoCpus named).WellFormed
    (populateEnv bootHarts bootScratch 0 (twoCpus named) 1) 1 (bootTable.store ROOT).memregions := by
  have hinst : domainInstances (twoCpus named)=[7] := by cases named <;> decide
  have hid : ∀ cpu h,(twoCpus named).Cpu 1 cpu h → cpu=h+2 := by
    rintro cpu h ⟨hmem,-,hartid,hok,rfl⟩
    rcases twoCpus_subnodes hmem with rfl | rfl
    · have h0 : fdtParseHartId (twoCpus named) 2=.ok 0 := by cases named <;> rfl
      rw [h0] at hok
      cases hok
      rfl
    · have h1 : fdtParseHartId (twoCpus named) 3=.ok 1 := by cases named <;> rfl
      rw [h1] at hok
      cases hok
      rfl
  have hpoint : (twoCpus named).offsetByPhandle 3=.ok 7 := by cases named <;> rfl
  have hread : (fdtReadDomain (populateEnv bootHarts bootScratch 0 (twoCpus named) 1) (twoCpus named) 7
      (bootTable.store ROOT).memregions).all (fun r => r.toOption.all fun dom =>
        decide ((sanitizeDomain bootHarts (rootFwRegion bootScratch) dom).1=SBI_OK))=true := by
    cases named <;> decide
  refine ⟨?_,?_,?_,?_,?_,?_,?_⟩
  · cases named <;> rfl
  · intro cpu cpu' h hcpu hcpu'
    rw [hid cpu h hcpu,hid cpu' h hcpu']
  · rintro cpu h ⟨hmem,-⟩ hsome
    rcases twoCpus_subnodes hmem with rfl | rfl
    · cases named with
      | true => exact ⟨7,cellBytes 3,rfl,hpoint⟩
      | false => cases hsome
    · exact ⟨7,cellBytes 3,by cases named <;> rfl,hpoint⟩
  · rw [hinst]
    decide
  · rw [hinst]
    intro d hd
    obtain rfl := List.mem_singleton.mp hd
    refine ⟨fun c hc => ?_,fun i hi hlt => ?_⟩
    · have hcells : (twoCpus named).cells 7 .possibleHarts=[1] := by cases named <;> decide
      rw [hcells,List.mem_singleton] at hc
      subst hc
      exact ⟨1,3,1,by cases named <;> rfl,by cases named <;> rfl,rfl⟩
    · have hcount : (twoCpus named).regionCount 7=1 := by cases named <;> decide
      rw [hcount] at hlt
      obtain rfl := Nat.lt_one_iff.mp hlt
      refine ⟨6,⟨by rw [hcount]; exact hlt,by cases named <;> rfl,by cases named <;> decide⟩,
        ⟨⟨_,by cases named <;> rfl,by decide⟩,⟨_,by cases named <;> rfl,by decide⟩⟩,?_,?_⟩
      · cases named <;> decide
      · cases named <;> decide
  · rw [hinst]
    intro d hd
    obtain rfl := List.mem_singleton.mp hd
    have hfits : (twoCpus named).regionCount 7+
        ((bootTable.store ROOT).memregions.filter Memregion.noAccess).length=2 := by cases named <;> decide
    rw [Fdt.Fits,hfits]
    decide
  · rw [hinst]
    intro d hd dom hdom
    obtain rfl := List.mem_singleton.mp hd
    rw [hdom] at hread
    exact of_decide_eq_true hread

/-- When both harts name the instance, hart 1 gets its domain and hart 0 stays. -/
theorem twoCpus_populated : ∃ s,
    fdtDomainsPopulate bootHarts bootScratch 0 (twoCpus true) ⟨bootTable,0⟩=some (SBI_OK,s) ∧
      s.table.hartidToDomain 1=some (fdtDomains 0) ∧ s.table.hartidToDomain 0=some ROOT := by
  obtain ⟨s,hrun,hs⟩ := (fdtDomainsPopulate_right_iff bootHarts bootScratch 0 (fun _ => tableDomain []) []
    bootTable (twoCpus true) 1 (by decide) .nil (twoCpus_wellFormed true)).mpr (.inr (by
      rintro cpu h ⟨hmem,-⟩
      rcases twoCpus_subnodes hmem with rfl | rfl <;> rfl))
  have hpossible : ∀ c,c∈(twoCpus true).cells 7 .possibleHarts → c=1 := by
    have hcells : (twoCpus true).cells 7 .possibleHarts=[1] := by decide
    intro c hc
    rwa [hcells,List.mem_singleton] at hc
  refine ⟨s,hrun,hs.moved 0 7 3 1 (by decide) ⟨by decide,by decide,1,rfl,rfl⟩ ⟨_,rfl,rfl⟩
    ⟨1,by decide,3,1,rfl,rfl,rfl⟩,hs.stays 2 0 ⟨by decide,by decide,0,rfl,rfl⟩ (by decide) ?_⟩
  rintro d hd - ⟨c,hc,cpu,hartid,hcpu,hhart,h0⟩
  have hinst : domainInstances (twoCpus true)=[7] := by decide
  rw [hinst,List.mem_singleton] at hd
  subst hd
  obtain rfl := hpossible c hc
  cases hcpu
  cases hhart
  cases h0

/-- A first hart without the property is not left with the root domain: the whole tree is refused. -/
theorem twoCpus_refused : (twoCpus false).WellFormed
      (populateEnv bootHarts bootScratch 0 (twoCpus false) 1) 1 (bootTable.store ROOT).memregions ∧
    ¬∃ s,fdtDomainsPopulate bootHarts bootScratch 0 (twoCpus false) ⟨bootTable,0⟩=some (SBI_OK,s) := by
  refine ⟨twoCpus_wellFormed false,?_⟩
  have herr : (fdtDomainsPopulate bootHarts bootScratch 0 (twoCpus false) ⟨bootTable,0⟩).map Prod.fst=
      some SBI_EINVAL := by decide
  rintro ⟨s,hs⟩
  rw [hs] at herr
  cases herr

end OpenSBI
