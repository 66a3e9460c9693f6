import OpenSBI.Domain.Verdict

namespace OpenSBI

open Math

variable {x : Xlen} {plat : Platform} {fw : Memregion x} {d : SbiDomain x}

/-- The domain with the entries in front of the terminator of its table replaced. -/
def SbiDomain.withMemregions (d : SbiDomain x) (l : List (Memregion x)) : SbiDomain x :=
  { d with regions := d.regions.map fun table => l++table.drop (forEachMemregion table).length }

/-- The verdict of `sanitize_domain()` is the same for every order of the regions. -/
def OrderBlind (plat : Platform) (fw : Memregion x) (d : SbiDomain x) : Prop :=
  ∀ l,l.Perm d.memregions → ((sanitizeDomain plat fw (d.withMemregions l)).1=SBI_OK ↔
    (sanitizeDomain plat fw d).1=SBI_OK)

/-- A region over the address with none before it in the order of the sort. -/
structure Foremost (l : List (Memregion x)) (a : Word x) (r : Memregion x) : Prop where
  mem : r∈l
  contains : r.contains a=true
  least : ∀ s∈l,s.contains a=true → isRegionBefore s r=false

/-- No two regions of the table conflict. -/
def NoConflict (l : List (Memregion x)) : Prop :=
  l.Pairwise (fun a b => isRegionConflict a b=false)

/-- No two regions of the table have the same size and base. -/
def NoTies (l : List (Memregion x)) : Prop :=
  l.Pairwise (fun a b => isRegionBefore a b=true ∨ isRegionBefore b a=true)

/-- The regions a domain must have for the order of its table not to matter: it is refused for
another reason, or two regions conflict that have no third region between them, or the foremost
regions over the next address all refuse execution, or they all grant it and no regions conflict. -/
def VerdictSettled (plat : Platform) (fw : Memregion x) (d : SbiDomain x) : Prop :=
  ¬Acceptable plat fw d ∨
  (∃ r s rest,d.memregions.Perm (r::s::rest) ∧ isRegionConflict r s=true ∧
    Neighbours isRegionBefore r s rest) ∨
  (∀ r,Foremost d.memregions d.nextAddr r → r.permits SBI_DOMAIN_EXECUTE=false) ∨
  ((∃ r,Foremost d.memregions d.nextAddr r) ∧
    (∀ r,Foremost d.memregions d.nextAddr r → r.permits SBI_DOMAIN_EXECUTE=true) ∧
    NoConflict d.memregions)

theorem isRegionConflict_symm (a b : Memregion x) : isRegionConflict a b=isRegionConflict b a := by
  rw [isRegionConflict,isRegionConflict,Bool.or_comm]
  congr 1
  exact decide_eq_decide.mpr eq_comm

theorem memregions_order_ne (d : SbiDomain x) : ∀ r∈d.memregions,r.order≠0 :=
  fun _ => mem_forEachMemregion

theorem withMemregions_memregions {l : List (Memregion x)} (hr : d.regions≠none)
    (hl : l.Perm d.memregions) : (d.withMemregions l).memregions=l := by
  obtain ⟨table,hr⟩ := Option.ne_none_iff_exists'.mp hr
  rw [SbiDomain.memregions,SbiDomain.withMemregions,hr]
  exact forEachMemregion_replace l table fun r h => memregions_order_ne d r (hl.mem_iff.mp h)

theorem Foremost.perm {l l' : List (Memregion x)} {a : Word x} {r : Memregion x}
    (hl : l.Perm l') (h : Foremost l a r) : Foremost l' a r :=
  ⟨hl.mem_iff.mp h.mem,h.contains,fun s hs => h.least s (hl.mem_iff.mpr hs)⟩

theorem acceptable_withMemregions {l : List (Memregion x)} (hr : d.regions≠none)
    (hl : l.Perm d.memregions) :
    Acceptable plat fw (d.withMemregions l) ↔ Acceptable plat fw d := by
  have hm := withMemregions_memregions hr hl
  have hr' : (d.withMemregions l).regions≠none := by
    simpa [SbiDomain.withMemregions] using hr
  constructor
  · intro h
    refine ⟨h.possible,hr,fun r hrm => h.valid r ?_,?_,h.nextMode⟩
    · rw [hm]; exact hl.mem_iff.mpr hrm
    · obtain ⟨r,hrm,hfw⟩ := h.firmware
      rw [hm] at hrm
      exact ⟨r,hl.mem_iff.mp hrm,hfw⟩
  · intro h
    refine ⟨h.possible,hr',fun r hrm => h.valid r ?_,?_,h.nextMode⟩
    · rw [hm] at hrm; exact hl.mem_iff.mp hrm
    · obtain ⟨r,hrm,hfw⟩ := h.firmware
      refine ⟨r,?_,hfw⟩
      rw [hm]
      exact hl.mem_iff.mpr hrm

/-- Once sorted, a foremost region answers about the next address. -/
theorem Acceptable.check_sorted (h : Acceptable plat fw d)
    (hs : (exchangeSort isRegionConflict isRegionBefore d.memregions).1=false) :
    (∃ r,Foremost d.memregions d.nextAddr r ∧
        sbiDomainCheckAddr d.sorted d.nextAddr d.nextMode SBI_DOMAIN_EXECUTE=
          r.permits SBI_DOMAIN_EXECUTE) ∨
      sbiDomainCheckAddr d.sorted d.nextAddr d.nextMode SBI_DOMAIN_EXECUTE=false ∧
        ∀ r,¬Foremost d.memregions d.nextAddr r := by
  have hm : d.nextMode≠PRV_M := by rcases h.nextMode with hm | hm <;> rw [hm] <;> decide
  have hsorted := exchangeSort_sorted isRegionBefore_strictWeak _ hs
  rw [← sorted_memregions] at hsorted
  rw [sbiDomainCheckAddr_firstMatch _ _ hm]
  rcases firstMatch_sorted hsorted isRegionBefore_strictWeak.irrefl with
    ⟨r,hr,hc,hl,hv⟩ | ⟨hnone,hv⟩
  · exact .inl ⟨r,Foremost.perm (sorted_perm d) ⟨hr,hc,hl⟩,hv⟩
  · refine .inr ⟨hv,fun r hr => ?_⟩
    have := hnone r ((sorted_perm d).mem_iff.mpr hr.mem)
    rw [hr.contains] at this
    cases this

/-- What the condition says does not depend on the order. -/
theorem VerdictSettled.verdict (h : VerdictSettled plat fw d) :
    (∀ l,l.Perm d.memregions → (sanitizeDomain plat fw (d.withMemregions l)).1≠SBI_OK) ∨
      ∀ l,l.Perm d.memregions → (sanitizeDomain plat fw (d.withMemregions l)).1=SBI_OK := by
  by_cases hacc : Acceptable plat fw d
  swap
  · left
    intro l hl hok
    have ha := ((sanitizeDomain_ok_iff _ _ _).mp hok).1
    have hr : d.regions≠none := by simpa [SbiDomain.withMemregions] using ha.regions
    exact hacc ((acceptable_withMemregions hr hl).mp ha)
  have hmem : ∀ {l : List (Memregion x)},l.Perm d.memregions → (d.withMemregions l).memregions=l :=
    withMemregions_memregions hacc.regions
  have haccl : ∀ {l : List (Memregion x)},l.Perm d.memregions →
      Acceptable plat fw (d.withMemregions l) :=
    fun hl => (acceptable_withMemregions hacc.regions hl).mpr hacc
  rcases h with hna | ⟨r,s,rest,hp,hc,hnb⟩ | hdeny | ⟨⟨r0,hr0⟩,hgrant,hconf⟩
  · exact absurd hacc hna
  · left
    intro l hl hok
    have hs := ((sanitizeDomain_ok_iff _ _ _).mp hok).2.1
    rw [hmem hl,exchangeSort_refused isRegionBefore_strictWeak isRegionConflict_symm
      (hl.trans hp) hc hnb] at hs
    cases hs
  · left
    intro l hl hok
    obtain ⟨ha,hs,hcheck⟩ := (sanitizeDomain_ok_iff _ _ _).mp hok
    rcases ha.check_sorted hs with ⟨r,hr,hv⟩ | ⟨hv,-⟩
    · rw [hmem hl] at hr
      rw [hv] at hcheck
      exact absurd (hdeny r (hr.perm hl)) (by rw [hcheck]; decide)
    · rw [hv] at hcheck
      cases hcheck
  · right
    intro l hl
    have hs : (exchangeSort isRegionConflict isRegionBefore (d.withMemregions l).memregions).1=
        false := by
      rw [hmem hl]
      refine exchangeSort_accepts isRegionConflict_symm l (hl.symm.pairwise hconf ?_)
      intro a b hab
      rw [isRegionConflict_symm]
      exact hab
    refine (sanitizeDomain_ok_iff _ _ _).mpr ⟨haccl hl,hs,?_⟩
    rcases (haccl hl).check_sorted hs with ⟨r,hr,hv⟩ | ⟨-,hnone⟩
    · rw [hmem hl] at hr
      rw [hv]
      exact hgrant r (hr.perm hl)
    · rw [hmem hl] at hnone
      exact absurd (hr0.perm hl.symm) (hnone r0)

theorem withMemregions_self (hr : d.regions≠none) : d.withMemregions d.memregions=d := by
  obtain ⟨table,hr⟩ := Option.ne_none_iff_exists'.mp hr
  have ht : d.memregions++table.drop (forEachMemregion table).length=table := by
    rw [SbiDomain.memregions,hr]
    exact List.prefix_iff_eq_append.mp (List.takeWhile_prefix _)
  have hmap : (d.regions.map fun table =>
      d.memregions++table.drop (forEachMemregion table).length)=d.regions := by
    rw [hr,Option.map_some,ht]
  rw [SbiDomain.withMemregions,hmap]

/-- A sorted order of a list that puts a given foremost region first among those
over the address. -/
theorem exists_sorted_foremost {l : List (Memregion x)} {a : Word x} {r : Memregion x}
    (h : Foremost l a r) : ∃ s,s.Perm l ∧ s.Pairwise (fun p q => isRegionBefore q p=false) ∧
      firstMatch s (fun p => p.contains a) (fun p => p.permits SBI_DOMAIN_EXECUTE)=
        r.permits SBI_DOMAIN_EXECUTE := by
  have hw := isRegionBefore_strictWeak (x := x)
  have hacc : ∀ l : List (Memregion x),
      (exchangeSort (fun _ _ => false) isRegionBefore l).1=false := fun l =>
    exchangeSort_accepts (fun _ _ => rfl) l (List.pairwise_of_forall fun _ _ => rfl)
  let sort := fun l : List (Memregion x) => (exchangeSort (fun _ _ => false) isRegionBefore l).2
  have hperm : ∀ l,(sort l).Perm l := exchangeSort_perm _ _
  have hsort : ∀ l,(sort l).Pairwise (fun p q => isRegionBefore q p=false) :=
    fun l => exchangeSort_sorted hw l (hacc l)
  let low := (l.erase r).filter (fun p => isRegionBefore p r)
  let high := (l.erase r).filter (fun p => !isRegionBefore p r)
  have hlow : ∀ p∈sort low,isRegionBefore p r=true := fun p hp =>
    (List.mem_filter.mp ((hperm low).mem_iff.mp hp)).2
  have hhigh : ∀ p∈sort high,isRegionBefore p r=false := fun p hp => by
    simpa using (List.mem_filter.mp ((hperm high).mem_iff.mp hp)).2
  refine ⟨sort low++r::sort high,?_,?_,?_⟩
  · refine (List.perm_middle.trans ?_).trans (List.perm_cons_erase h.mem).symm
    exact (((hperm low).append (hperm high)).trans (List.filter_append_perm _ _)).cons r
  · refine List.pairwise_append.mpr ⟨hsort low,List.pairwise_cons.mpr ⟨hhigh,hsort high⟩,?_⟩
    intro p hp q hq
    have hpr := hlow p hp
    rcases List.mem_cons.mp hq with rfl | hq
    · exact hw.asymm p q hpr
    · exact hw.trans (hw.asymm p r hpr) (hhigh q hq)
  · refine (firstMatch_append_of_false (fun p hp => ?_) _).trans ?_
    · by_contra hc
      have hpl := List.mem_of_mem_erase (List.mem_filter.mp ((hperm low).mem_iff.mp hp)).1
      have := h.least p hpl (by simpa using hc)
      rw [hlow p hp] at this
      cases this
    · rw [firstMatch_cons,if_pos h.contains]

theorem NoTies.foremost_unique {l : List (Memregion x)} {a : Word x} {r s : Memregion x}
    (hl : NoTies l) (hr : Foremost l a r) (hs : Foremost l a s) : r=s := by
  have : Std.Symm (fun p q : Memregion x =>
      isRegionBefore p q=true ∨ isRegionBefore q p=true) := ⟨fun _ _ => Or.symm⟩
  by_contra hne
  rcases hl.forall hr.mem hs.mem hne with h | h
  · rw [hs.least r hr.mem hr.contains] at h; cases h
  · rw [hr.least s hs.mem hs.contains] at h; cases h

/-- A table in conflict-free order that sorts to a given one is judged by the sorted one. -/
private theorem judged {l : List (Memregion x)} (h : Acceptable plat fw d) (hl : l.Perm d.memregions)
    (hs : (exchangeSort isRegionConflict isRegionBefore l).1=false) :
    (sanitizeDomain plat fw (d.withMemregions l)).1=SBI_OK ↔
      firstMatch (exchangeSort isRegionConflict isRegionBefore l).2
        (fun p => p.contains d.nextAddr) (fun p => p.permits SBI_DOMAIN_EXECUTE)=true := by
  have hm : d.nextMode≠PRV_M := by rcases h.nextMode with hm | hm <;> rw [hm] <;> decide
  have hmem := withMemregions_memregions h.regions hl
  have hcheck := sbiDomainCheckAddr_firstMatch (d.withMemregions l).sorted d.nextAddr hm
    SBI_DOMAIN_EXECUTE
  rw [sorted_memregions,hmem] at hcheck
  rw [sanitizeDomain_ok_iff,hmem,← hcheck]
  exact ⟨fun hok => hok.2.2,fun hok => ⟨(acceptable_withMemregions h.regions hl).mpr h,hs,hok⟩⟩

/-- Two regions with the same answers everywhere apart, the order of the table matters to nothing
but hidden conflicts and ties. -/
theorem OrderBlind.settled (hd : NoTies d.memregions ∨ NoConflict d.memregions)
    (h : OrderBlind plat fw d) : VerdictSettled plat fw d := by
  have hw := isRegionBefore_strictWeak (x := x)
  by_contra hn
  simp only [VerdictSettled,not_or,not_forall,not_exists,not_and] at hn
  obtain ⟨hacc,hnb,⟨r0,hr0,hp0⟩,hgrant⟩ := hn
  rw [not_not] at hacc
  rw [Bool.not_eq_false] at hp0
  obtain ⟨s,hs,hsorted,hfirst⟩ := exists_sorted_foremost hr0
  by_cases hc : NoConflict d.memregions
  · -- No conflict: then the foremost regions disagree, and each of them can be first.
    obtain ⟨r1,hr1,hp1⟩ : ∃ r1,Foremost d.memregions d.nextAddr r1 ∧
        r1.permits SBI_DOMAIN_EXECUTE=false := by
      by_contra hall
      simp only [not_exists,not_and,Bool.not_eq_false] at hall
      exact hgrant ⟨r0,hr0⟩ hall hc
    obtain ⟨s1,hs1,hsorted1,hfirst1⟩ := exists_sorted_foremost hr1
    have hok : ∀ {l : List (Memregion x)},l.Perm d.memregions →
        (exchangeSort isRegionConflict isRegionBefore l).1=false := fun hl =>
      exchangeSort_accepts isRegionConflict_symm _ (hl.symm.pairwise hc fun {a b} hab => by
        rw [isRegionConflict_symm]; exact hab)
    have h0 := (judged hacc hs (hok hs)).mpr (by
      rw [(exchangeSort_sortedInput hsorted (hok hs)).1,hfirst,hp0])
    have h1 := (judged hacc hs1 (hok hs1)).mp ((h s1 hs1).mpr ((h s hs).mp h0))
    rw [(exchangeSort_sortedInput hsorted1 (hok hs1)).1,hfirst1,hp1] at h1
    cases h1
  · -- A conflict between regions with a third between: sorted it is met, turned round it is not.
    have hties := hd.resolve_right hc
    have hstrict : s.Pairwise (fun a b => isRegionBefore a b=true) := by
      have ht : NoTies s := hs.symm.pairwise hties fun hab => hab.symm
      refine (hsorted.and ht).imp fun {a b} hab => hab.2.resolve_right ?_
      rw [hab.1]
      decide
    have hhide := exchangeSort_hides hw hstrict fun a b rest hp hab => by
      have := hnb a b rest (hs.symm.trans hp)
      by_contra hcon
      exact this (by simpa using hcon) hab
    have hrev : s.reverse.Perm d.memregions := s.reverse_perm.trans hs
    have haccept : (sanitizeDomain plat fw (d.withMemregions s.reverse)).1=SBI_OK := by
      have hmem := withMemregions_memregions hacc.regions hrev
      refine (sanitizeDomain_ok_iff _ _ _).mpr
        ⟨(acceptable_withMemregions hacc.regions hrev).mpr hacc,by rw [hmem]; exact hhide,?_⟩
      have haccr : Acceptable plat fw (d.withMemregions s.reverse) :=
        (acceptable_withMemregions hacc.regions hrev).mpr hacc
      rcases haccr.check_sorted (by rw [hmem]; exact hhide) with ⟨r,hr,hv⟩ | ⟨-,hnone⟩
      · rw [hmem] at hr
        rw [hv,hties.foremost_unique (hr.perm hrev) hr0,hp0]
      · rw [hmem] at hnone
        exact absurd (hr0.perm hrev.symm) (hnone r0)
    have hsacc := (h s hs).mpr ((h _ hrev).mp haccept)
    have hsok := ((sanitizeDomain_ok_iff _ _ _).mp hsacc).2.1
    rw [withMemregions_memregions hacc.regions hs] at hsok
    refine hc (hs.pairwise (exchangeSort_sortedInput hsorted hsok).2 ?_ |>.imp ?_)
    · intro a b hab
      rw [isRegionConflict_symm]
      exact hab
    · intro a b hab
      rw [isRegionConflict_symm]
      exact hab

/-- The order of the regions does not matter when the condition holds; where no two regions share
size and base, or none conflict, it does not matter exactly then. -/
theorem sanitizeDomain_orderBlind (plat : Platform) (fw : Memregion x) (d : SbiDomain x) :
    (VerdictSettled plat fw d → OrderBlind plat fw d) ∧
      (NoTies d.memregions ∨ NoConflict d.memregions →
        (OrderBlind plat fw d ↔ VerdictSettled plat fw d)) := by
  have hsuff : VerdictSettled plat fw d → OrderBlind plat fw d := by
    intro h l hl
    by_cases hr : d.regions=none
    · have hsame : d.withMemregions l=d := by
        have hmap : (d.regions.map fun table => l++table.drop (forEachMemregion table).length)=
            d.regions := by rw [hr]; rfl
        rw [SbiDomain.withMemregions,hmap]
      rw [hsame]
    · have hself := withMemregions_self hr
      rcases h.verdict with hrej | hok
      · have hd := hrej _ (List.Perm.refl _)
        rw [hself] at hd
        exact iff_of_false (hrej l hl) hd
      · have hd := hok _ (List.Perm.refl _)
        rw [hself] at hd
        exact iff_of_true (hok l hl) hd
  exact ⟨hsuff,fun hd => ⟨fun h => h.settled hd,hsuff⟩⟩

/-- The order of the root table does not matter. -/
theorem rootTable_orderBlind :
    OrderBlind anyHart ⟨17,0x80000000,8⟩ (tableDomain rootTable) := by
  refine (sanitizeDomain_orderBlind anyHart ⟨17,0x80000000,8⟩ (tableDomain rootTable)).1 ?_
  refine .inr (.inr (.inr ⟨⟨⟨64,0,7⟩,by decide,by decide,by decide⟩,fun r hr => ?_,?_⟩))
  · have hmem : r∈rootTable := hr.mem
    simp only [rootTable,List.mem_cons,List.not_mem_nil,or_false] at hmem
    rcases hmem with rfl | rfl
    · exact absurd hr.contains (by decide)
    · decide
  · unfold NoConflict
    decide

/-- Two nested regions with the same base and flags, and a third one between them in size. -/
def hiddenTable : List (Memregion .rv64) :=
  [⟨64,0,7⟩,⟨17,0x80000000,8⟩,⟨12,0x90000000,0⟩,⟨5,0xa0000000,1⟩,⟨4,0x90000000,0⟩]

/-- Listed from the largest to the smallest region the table is accepted, the other way round it is
refused. -/
theorem hiddenTable_order :
    ¬∀ (x : Xlen) (plat : Platform) (fw : Memregion x) (d : SbiDomain x) (l : List (Memregion x)),
      l.Perm d.memregions → ((sanitizeDomain plat fw (d.withMemregions l)).1=SBI_OK ↔
        (sanitizeDomain plat fw d).1=SBI_OK) := by
  intro h
  have := h .rv64 anyHart ⟨17,0x80000000,8⟩ (tableDomain hiddenTable) hiddenTable.reverse
    (by decide)
  revert this
  decide

end OpenSBI
