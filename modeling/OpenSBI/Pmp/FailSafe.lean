import OpenSBI.Domain.Sanitize
import OpenSBI.Pmp.Agree

namespace OpenSBI

open Math

variable {x : Xlen}

/-- The permission a region gives below M-mode. -/
def Memregion.grants (r : Memregion x) (acc : Access) : Bool := r.flags.getLsbD acc.bit

/-- No region of `l` contains the address. -/
def Uncovered (l : List (Memregion x)) (a : Word x) : Prop := ∀ q∈l,q.contains a=false

/-- PMP entries left after the regions of `l`. -/
def entriesLeft (f : HartFeatures x) (l : List (Memregion x)) : Nat :=
  min f.pmpCount PMP_COUNT-(l.filter (pmpInRange f)).length

/-- The regions of a table that `sbi_hart_pmp_configure()` leaves out expose nothing: a region out
of range that is not hidden by the regions in front of it is backed by one that grants no more,
and a region of the full width that does not start at zero grants nothing unless the addresses
below it are taken. -/
structure FailSafe (f : HartFeatures x) (l : List (Memregion x)) : Prop where
  skipped : ∀ pre r post,l=pre++r::post → pmpInRange f r=false →
    (∃ a,r.contains a=true ∧ Uncovered pre a) →
    ∀ p,(pmpRegions f (entriesLeft f pre) post).find? (fun q => q.pmpBlock r.base)=some p →
      ∀ acc,p.grants acc=true → r.grants acc=true
  full : ∀ pre p post,l=pre++p::post → p.order.toNat=x.bits → pmpInRange f p=true →
    0<entriesLeft f pre → (∀ q∈pre,q.order.toNat=x.bits → pmpInRange f q=false) →
    (∃ a,a<p.base ∧ Uncovered pre a) → ∀ acc,p.grants acc=false

/-- The tables `sanitize_domain()` accepts: small regions first, aligned below the full width. -/
structure SaneTable (l : List (Memregion x)) : Prop where
  sorted : l.Pairwise (fun a b => isRegionBefore b a=false)
  size : ∀ r∈l,PMP_SHIFT≤r.order.toNat ∧ r.order.toNat≤x.bits
  aligned : ∀ r∈l,r.order.toNat<x.bits → r.Aligned

theorem SaneDomain.table {d : SbiDomain x} (h : SaneDomain d) : SaneTable d.memregions where
  sorted := h.sorted
  size r hr := by
    obtain ⟨h3,hx,-⟩ := (isRegionValid_iff r).mp (h.valid r hr)
    exact ⟨(by decide : PMP_SHIFT≤3).trans h3,hx⟩
  aligned r hr ho := isRegionValid_aligned (h.valid r hr) ho

theorem pmpRegions_append (f : HartFeatures x) (pre post : List (Memregion x)) :
    pmpRegions f (min f.pmpCount PMP_COUNT) (pre++post)=
      pmpRegions f (min f.pmpCount PMP_COUNT) pre++pmpRegions f (entriesLeft f pre) post := by
  rw [pmpRegions,List.filter_append,List.take_append]
  rfl

theorem pmpRegions_cons_skip {f : HartFeatures x} {r : Memregion x} (h : pmpInRange f r=false)
    (n : Nat) (l : List (Memregion x)) : pmpRegions f n (r::l)=pmpRegions f n l := by
  rw [pmpRegions,List.filter_cons_of_neg (by simp [h]),pmpRegions]

theorem pmpRegions_cons_take {f : HartFeatures x} {r : Memregion x} (h : pmpInRange f r=true)
    {n : Nat} (hn : 0<n) (l : List (Memregion x)) :
    pmpRegions f n (r::l)=r::pmpRegions f (n-1) l := by
  obtain ⟨m,rfl⟩ : ∃ m,n=m+1 := ⟨n-1,by omega⟩
  rw [pmpRegions,List.filter_cons_of_pos h,List.take_succ_cons]
  rfl

theorem Memregion.pmpBlock_of_contains {r : Memregion x} {a : Word x} (h : r.contains a=true) :
    r.pmpBlock a=true := by
  rw [Memregion.pmpBlock,h,Bool.or_true]

/-- Outside its range a region can only match when it has the full width. -/
theorem Memregion.full_of_pmpBlock {r : Memregion x} {a : Word x} (h : r.pmpBlock a=true)
    (hc : r.contains a=false) : r.order.toNat=x.bits ∧ a<r.base := by
  rw [Memregion.pmpBlock,hc,Bool.or_false,decide_eq_true_iff] at h
  refine ⟨h,?_⟩
  have hn : ¬r.base≤a := by rw [← Memregion.contains_full h.ge,hc]; decide
  exact BitVec.not_le.mp hn

namespace SaneTable

variable {l pre post : List (Memregion x)} {r : Memregion x}

theorem order_le (h : SaneTable l) (hl : l=pre++r::post) {p : Memregion x} (hp : p∈post) :
    r.order.toNat≤p.order.toNat ∧ (r.order=p.order → r.base≤p.base) := by
  subst hl
  have hb := (List.pairwise_cons.mp (List.pairwise_append.mp h.sorted).2.1).1 p hp
  rw [Bool.eq_false_iff,ne_eq,isRegionBefore_iff] at hb
  simp only [BitVec.lt_def,BitVec.le_def,BitVec.toNat_eq] at hb ⊢
  omega

theorem order_ge (h : SaneTable l) (hl : l=pre++r::post) {q : Memregion x} (hq : q∈pre) :
    q.order.toNat≤r.order.toNat ∧ (q.order=r.order → q.base≤r.base) := by
  obtain ⟨pre1,pre2,rfl⟩ := List.append_of_mem hq
  have hsplit : l=pre1++q::(pre2++r::post) := by rw [hl]; simp
  exact h.order_le hsplit (by simp)

/-- In front of the first region that contains an address nothing matches it. -/
theorem not_pmpBlock (h : SaneTable l) (hl : l=pre++r::post) {a : Word x}
    (hr : r.contains a=true) (hun : Uncovered pre a) : ∀ q∈pre,q.pmpBlock a=false := by
  intro q hq
  by_contra hb
  obtain ⟨hfull,hlt⟩ := Memregion.full_of_pmpBlock (Bool.not_eq_false _ ▸ hb) (hun q hq)
  obtain ⟨hle,hbase⟩ := h.order_ge hl hq
  have hrx := (h.size r (by rw [hl]; simp)).2
  have hro : r.order.toNat=x.bits := by omega
  have hqr : q.base≤r.base := hbase (BitVec.eq_of_toNat_eq (by omega))
  have hra := (Memregion.contains_full hro.ge a).mp hr
  simp only [BitVec.lt_def,BitVec.le_def] at hlt hqr hra
  omega

/-- A region behind another matches all of it or none of it. -/
theorem pmpBlock_base (h : SaneTable l) (hl : l=pre++r::post) {a : Word x}
    (hr : r.contains a=true) {p : Memregion x} (hp : p∈post) :
    p.pmpBlock a=p.pmpBlock r.base := by
  have hmem : p∈l := by rw [hl]; simp [hp]
  by_cases hfull : p.order.toNat=x.bits
  · rw [Memregion.pmpBlock,Memregion.pmpBlock,decide_eq_true hfull,Bool.true_or,Bool.true_or]
  · have hle := (h.order_le hl hp).1
    have hpx := (h.size p hmem).2
    have hpa := h.aligned p hmem (by omega)
    have hra := h.aligned r (by rw [hl]; simp) (by omega)
    rw [Memregion.pmpBlock,Memregion.pmpBlock,decide_eq_false hfull,Bool.false_or,Bool.false_or,
      Bool.eq_iff_iff,hpa.contains_iff,hpa.contains_iff]
    have hin := (hra.contains_iff a).mp hr
    have hbase := base_inBlock r.base.toNat r.order.toNat
    exact ⟨fun hc => hin.nested hra.base hpa.base hle hc hbase,
      fun hc => hbase.nested hra.base hpa.base hle hc hin⟩

/-- What the PMP decides at an address whose first region is `r`. -/
theorem decision_at (h : SaneTable l) (f : HartFeatures x) (hl : l=pre++r::post) {a : Word x}
    (hr : r.contains a=true) (hun : Uncovered pre a) (verdict : Memregion x → Bool) :
    firstMatch (pmpRegions f (min f.pmpCount PMP_COUNT) l) (fun q => q.pmpBlock a) verdict=
      if pmpInRange f r then decide (0<entriesLeft f pre) && verdict r
      else firstMatch (pmpRegions f (entriesLeft f pre) post) (fun q => q.pmpBlock r.base)
        verdict := by
  have hpre : ∀ q∈pmpRegions f (min f.pmpCount PMP_COUNT) pre,q.pmpBlock a=false :=
    fun q hq => h.not_pmpBlock hl hr hun q (pmpRegions_mem hq).1
  rw [hl,pmpRegions_append,firstMatch_append_of_false hpre]
  cases hin : pmpInRange f r with
  | true =>
    by_cases hleft : 0<entriesLeft f pre
    · rw [pmpRegions_cons_take hin hleft,firstMatch_cons,
        if_pos (Memregion.pmpBlock_of_contains hr),if_pos rfl,decide_eq_true hleft,Bool.true_and]
    · have hzero : entriesLeft f pre=0 := by omega
      rw [hzero]
      simp [pmpRegions]
  | false =>
    rw [pmpRegions_cons_skip hin,if_neg (by decide)]
    exact firstMatch_congr fun p hp => ⟨h.pmpBlock_base hl hr (pmpRegions_mem hp).1,rfl⟩

/-- Below the base of the first programmed region of the full width, that region decides. -/
theorem decision_below (f : HartFeatures x) (hl : l=pre++r::post)
    (hfull : r.order.toNat=x.bits) (hin : pmpInRange f r=true) (hleft : 0<entriesLeft f pre)
    (hfirst : ∀ q∈pre,q.order.toNat=x.bits → pmpInRange f q=false) {a : Word x}
    (hun : Uncovered pre a) (verdict : Memregion x → Bool) :
    firstMatch (pmpRegions f (min f.pmpCount PMP_COUNT) l) (fun q => q.pmpBlock a) verdict=
      verdict r := by
  have hpre : ∀ q∈pmpRegions f (min f.pmpCount PMP_COUNT) pre,q.pmpBlock a=false := by
    intro q hq
    obtain ⟨hmem,hqin⟩ := pmpRegions_mem hq
    have hne : q.order.toNat≠x.bits := fun he => by simp [hfirst q hmem he] at hqin
    rw [Memregion.pmpBlock,decide_eq_false hne,hun q hmem,Bool.or_false]
  have hblock : r.pmpBlock a=true := by rw [Memregion.pmpBlock,decide_eq_true hfull,Bool.true_or]
  rw [hl,pmpRegions_append,firstMatch_append_of_false hpre,pmpRegions_cons_take hin hleft,
    firstMatch_cons,if_pos hblock]

/-- Behind a region of the full width nothing reaches below its base. -/
theorem uncovered_below (h : SaneTable l) (hl : l=pre++r::post) (hfull : r.order.toNat=x.bits)
    {a : Word x} (ha : a<r.base) (hun : Uncovered pre a) : Uncovered l a := by
  have hself : ∀ q : Memregion x,q.order.toNat=x.bits → r.base≤q.base → q.contains a=false := by
    intro q hq hle
    rw [Bool.eq_false_iff,ne_eq,Memregion.contains_full hq.ge]
    simp only [BitVec.lt_def,BitVec.le_def] at ha hle ⊢
    omega
  intro q hq
  rw [hl,List.mem_append,List.mem_cons] at hq
  rcases hq with hq | rfl | hq
  · exact hun q hq
  · exact hself q hfull (BitVec.le_refl _)
  · obtain ⟨hle,hbase⟩ := h.order_le hl hq
    have hqx := (h.size q (by rw [hl]; simp [hq])).2
    exact hself q (by omega) (hbase (BitVec.eq_of_toNat_eq (by omega)))

/-- A programmed region that matches outside its range comes with a first one of its kind. -/
theorem first_full (f : HartFeatures x) {a : Word x} (hun : Uncovered l a)
    {p : Memregion x} (hp : p∈pmpRegions f (min f.pmpCount PMP_COUNT) l)
    (hb : p.pmpBlock a=true) :
    ∃ pre r post,l=pre++r::post ∧ r.order.toNat=x.bits ∧ pmpInRange f r=true ∧
      0<entriesLeft f pre ∧ (∀ q∈pre,q.order.toNat=x.bits → pmpInRange f q=false) ∧
      a<r.base := by
  obtain ⟨hpl,hpin⟩ := pmpRegions_mem hp
  obtain ⟨hpfull,-⟩ := Memregion.full_of_pmpBlock hb (hun p hpl)
  let wide : Memregion x → Bool := fun q => decide (q.order.toNat=x.bits) && pmpInRange f q
  have hsome : (l.find? wide).isSome=true := by
    rw [List.find?_isSome]
    exact ⟨p,hpl,by simp [wide,hpfull,hpin]⟩
  obtain ⟨r,hr⟩ := Option.isSome_iff_exists.mp hsome
  obtain ⟨hwide,pre,post,hl,hpre⟩ := List.find?_eq_some_iff_append.mp hr
  obtain ⟨hfull,hin⟩ : r.order.toNat=x.bits ∧ pmpInRange f r=true := by simpa [wide] using hwide
  have hfirst : ∀ q∈pre,q.order.toNat=x.bits → pmpInRange f q=false := by
    intro q hq he
    simpa [wide,he] using hpre q hq
  refine ⟨pre,r,post,hl,hfull,hin,?_,hfirst,?_⟩
  · -- without an entry for `r` the programmed regions all lie in front of it
    by_contra hzero
    rw [hl,pmpRegions_append,Nat.eq_zero_of_not_pos hzero,List.mem_append] at hp
    rcases hp with hp | hp
    · have := hfirst p (pmpRegions_mem hp).1 hpfull
      simp [this] at hpin
    · simp [pmpRegions] at hp
  · have hrc := hun r (by rw [hl]; simp)
    exact (Memregion.full_of_pmpBlock (by rw [Memregion.pmpBlock,decide_eq_true hfull]; rfl) hrc).2

/-- The programmed table grants nothing the whole table denies exactly when the table is
fail-safe. -/
theorem failSafe_iff (h : SaneTable l) (f : HartFeatures x) :
    (∀ acc (a : Word x),
      firstMatch (pmpRegions f (min f.pmpCount PMP_COUNT) l) (fun q => q.pmpBlock a)
        (fun q => q.grants acc)=true →
      firstMatch l (fun q => q.contains a) (fun q => q.grants acc)=true) ↔ FailSafe f l := by
  constructor
  · intro hsafe
    refine ⟨?_,?_⟩
    · intro pre r post hl hout ⟨a,hr,hun⟩ p hp acc hgrant
      have hpmp := h.decision_at f hl hr hun (fun q => q.grants acc)
      rw [hout,if_neg (by decide),firstMatch_of_find hp] at hpmp
      have hdom := hsafe acc a (hpmp.trans hgrant)
      rw [hl,firstMatch_append_of_false hun,firstMatch_cons,if_pos hr] at hdom
      exact hdom
    · intro pre p post hl hfull hin hleft hfirst ⟨a,ha,hun⟩ acc
      by_contra hgrant
      have hpmp := decision_below f hl hfull hin hleft hfirst hun (fun q => q.grants acc)
      have hdom := hsafe acc a (hpmp.trans (Bool.not_eq_false _ ▸ hgrant))
      rw [firstMatch_of_false (h.uncovered_below hl hfull ha hun)] at hdom
      exact Bool.false_ne_true hdom
  · intro hsafe acc a hgrant
    cases hf : l.find? (fun q => q.contains a) with
    | some r =>
      obtain ⟨hr,pre,post,hl,hpre⟩ := List.find?_eq_some_iff_append.mp hf
      have hun : Uncovered pre a := by simpa [Uncovered] using hpre
      rw [h.decision_at f hl hr hun] at hgrant
      rw [firstMatch_of_find hf]
      cases hin : pmpInRange f r with
      | true =>
        rw [hin,if_pos rfl,Bool.and_eq_true] at hgrant
        exact hgrant.2
      | false =>
        rw [hin,if_neg (by decide)] at hgrant
        cases hp : (pmpRegions f (entriesLeft f pre) post).find? (fun q => q.pmpBlock r.base) with
        | none => simp [firstMatch,hp] at hgrant
        | some p =>
          rw [firstMatch_of_find hp] at hgrant
          exact hsafe.skipped pre r post hl hin ⟨a,hr,hun⟩ p hp acc hgrant
    | none =>
      have hun : Uncovered l a := by simpa [Uncovered] using hf
      obtain ⟨_,p,_,hsplit,_,hb,_⟩ := firstMatch_eq_true_iff.mp hgrant
      obtain ⟨pre,r,post,hl,hfull,hin,hleft,hfirst,ha⟩ :=
        first_full f hun (by rw [hsplit]; simp) hb
      have hunpre : Uncovered pre a := fun q hq => hun q (by rw [hl]; simp [hq])
      rw [decision_below f hl hfull hin hleft hfirst hunpre] at hgrant
      have hno := hsafe.full pre r post hl hfull hin hleft hfirst ⟨a,ha,hunpre⟩ acc
      exact absurd (hgrant.symm.trans hno) (by decide)

end SaneTable

/-- `sbi_domain_check_addr()` allows an access with one of the two MMIO flags when the deciding
region grants it. -/
theorem sbiDomainCheckAddr_either (dom : SbiDomain x) (a : Word x) {mode : Nat}
    (hm : mode≠PRV_M) (acc : Access) :
    (sbiDomainCheckAddr dom a mode (accessFlags acc false)=true ∨
      sbiDomainCheckAddr dom a mode (accessFlags acc true)=true) ↔
      firstMatch dom.memregions (fun r => r.contains a) (fun r => r.grants acc)=true := by
  rw [sbiDomainCheckAddr_eq dom a hm,sbiDomainCheckAddr_eq dom a hm]
  unfold firstMatch Memregion.grants
  cases dom.memregions.find? (fun r => r.contains a) with
  | none => simp
  | some r => cases hmmio : r.isMmio <;> simp [hmmio]

/-- On a domain accepted by `sanitize_domain()`, `sbi_hart_pmp_configure()` reports success; the
PMP then grants S- and U-mode nothing the domain denies exactly when the table is fail-safe. -/
theorem sbiHartPmpConfigure_failSafe_iff (plat : Platform) (fw : Memregion x) (dom : SbiDomain x)
    (hdom : (sanitizeDomain plat fw dom).1=SBI_OK) (f : HartFeatures x) (csrs : Csrs x)
    (hoff : ∀ i,(pmpRegions f (min f.pmpCount PMP_COUNT)
        (sanitizeDomain plat fw dom).2.memregions).length ≤ i →
      i<PMP_COUNT → pmpMode (pmpcfg csrs i)=.off) :
    ∃ csrs',sbiHartPmpConfigure f (sanitizeDomain plat fw dom).2 csrs=some (0,csrs') ∧
      ((∀ acc a mode,mode=PRV_S ∨ mode=PRV_U → pmpAllows csrs' acc a=true →
          sbiDomainCheckAddr (sanitizeDomain plat fw dom).2 a mode (accessFlags acc false)=true ∨
          sbiDomainCheckAddr (sanitizeDomain plat fw dom).2 a mode (accessFlags acc true)=true) ↔
        FailSafe f (sanitizeDomain plat fw dom).2.memregions) := by
  have htable := (sanitizeDomain_sane hdom).table
  generalize (sanitizeDomain plat fw dom).2=d at htable hoff ⊢
  obtain ⟨csrs',hconf,hprog⟩ := sbiHartPmpConfigure_spec f d htable.size csrs
  refine ⟨csrs',hconf,?_⟩
  have hpmp := hprog.pmpAllows_eq
    ((pmpRegions_length_le f _ _).trans (Nat.min_le_right _ _)) hoff
    (fun r hr => htable.size r (pmpRegions_mem hr).1)
    (fun r hr => htable.aligned r (pmpRegions_mem hr).1)
  rw [← htable.failSafe_iff f]
  constructor
  · intro h acc a hgrant
    exact (sbiDomainCheckAddr_either d a (by decide) acc).mp
      (h acc a PRV_S (.inl rfl) ((hpmp acc a).trans hgrant))
  · intro h acc a mode hmode hgrant
    have hm : mode≠PRV_M := by rcases hmode with rfl | rfl <;> decide
    exact (sbiDomainCheckAddr_either d a hm acc).mpr (h acc a ((hpmp acc a).symm.trans hgrant))

theorem rootTable_failSafe :
    ∃ csrs',sbiHartPmpConfigure ⟨16,54,4⟩
        (sanitizeDomain anyHart ⟨17,0x80000000,8⟩ (tableDomain rootTable)).2 (fun _ => 0)=
          some (0,csrs') ∧
      ((∀ acc a mode,mode=PRV_S ∨ mode=PRV_U → pmpAllows csrs' acc a=true →
          sbiDomainCheckAddr (sanitizeDomain anyHart ⟨17,0x80000000,8⟩ (tableDomain rootTable)).2
            a mode (accessFlags acc false)=true ∨
          sbiDomainCheckAddr (sanitizeDomain anyHart ⟨17,0x80000000,8⟩ (tableDomain rootTable)).2
            a mode (accessFlags acc true)=true) ↔
        FailSafe ⟨16,54,4⟩
          (sanitizeDomain anyHart ⟨17,0x80000000,8⟩ (tableDomain rootTable)).2.memregions) :=
  sbiHartPmpConfigure_failSafe_iff anyHart ⟨17,0x80000000,8⟩ (tableDomain rootTable)
    (by decide) ⟨16,54,4⟩ (fun _ => 0) (fun i _ _ => pmpMode_zero i)

/-- Sixteen bytes without any permission inside a region that grants everything. -/
def guardTable : List (Memregion .rv64) :=
  [⟨4,0x90000000,0⟩,⟨17,0x80000000,SBI_DOMAIN_MEMREGION_MMODE⟩,⟨64,0,7⟩]

/-- Below a granularity of a page the guard gets no entry, and the region behind it grants
what the guard denies. -/
theorem guardTable_exposed :
    ¬∀ (x : Xlen) (plat : Platform) (fw : Memregion x) (dom : SbiDomain x) (f : HartFeatures x)
        (csrs csrs' : Csrs x),(sanitizeDomain plat fw dom).1=SBI_OK → 1≤f.pmpCount →
      (∀ i,i<PMP_COUNT → pmpMode (pmpcfg csrs i)=.off) →
      sbiHartPmpConfigure f (sanitizeDomain plat fw dom).2 csrs=some (0,csrs') →
      ∀ acc a mode,mode=PRV_S ∨ mode=PRV_U → pmpAllows csrs' acc a=true →
        sbiDomainCheckAddr (sanitizeDomain plat fw dom).2 a mode (accessFlags acc false)=true ∨
        sbiDomainCheckAddr (sanitizeDomain plat fw dom).2 a mode (accessFlags acc true)=true := by
  intro h
  have hconf : ∃ csrs',sbiHartPmpConfigure ⟨16,54,4096⟩
      (sanitizeDomain anyHart ⟨17,0x80000000,8⟩ (tableDomain guardTable)).2 (fun _ => 0)=
        some (0,csrs') ∧ pmpAllows csrs' .write 0x90000000=true := ⟨_,rfl,by decide⟩
  obtain ⟨csrs',hconf,hgrant⟩ := hconf
  have hdom := h .rv64 _ _ _ _ _ csrs' (by decide) (by decide) (fun i _ => pmpMode_zero i) hconf
    .write 0x90000000 PRV_S (.inl rfl) hgrant
  revert hdom
  decide

end OpenSBI
