import OpenSBI.Domain.Verdict

namespace OpenSBI

variable {x : Xlen}

def ROOT_REGION_MAX : Nat := 16

/-- The test of `sbi_domain_root_add_memregion()` for two regions that can be one. -/
def mergeable (a b : Memregion x) : Bool :=
  decide (a.base &&& (Word.bit (a.order.toNat+1)-1)=0) &&
    decide (a.base+Word.bit a.order.toNat=b.base) && decide (a.order=b.order) &&
    decide (a.flags=b.flags)

/-- One pass of the merging loop over the regions in front of the terminator, and how many of
them went into the region before them. -/
def mergeRegions : List (Memregion x) → Nat × List (Memregion x)
  | a::b::rest =>
      if mergeable a b then
        let m := mergeRegions rest
        (m.1+1,{ a with order := a.order+1 }::m.2)
      else
        let m := mergeRegions (b::rest)
        (m.1,a::m.2)
  | l => (0,l)

/-- The table after a pass: the terminator has moved up once for each merge. -/
def mergeTable (table : List (Memregion x)) : List (Memregion x) :=
  let m := mergeRegions (forEachMemregion table)
  let rest := table.drop (forEachMemregion table).length
  m.2++List.replicate m.1 (rest.headD ⟨0,0,0⟩)++rest

def SbiDomain.merged (d : SbiDomain x) : SbiDomain x :=
  { d with regions := d.regions.map mergeTable }

/-- The loop of `sbi_domain_root_add_memregion()` that sorts and merges until nothing is merged.
Every round but the last lowers the number of regions, which bounds the rounds. -/
def settleRegions (plat : Platform) (fw : Memregion x) :
    Nat → SbiDomain x → Nat → Int × SbiDomain x × Nat
  | 0,root,count => (SBI_EFAIL,root,count)
  | n+1,root,count =>
      let r := sanitizeDomain plat fw root
      if r.1≠SBI_OK then (r.1,r.2,count)
      else
        let merges := (mergeRegions r.2.memregions).1
        if merges=0 then (SBI_OK,r.2,count)
        else settleRegions plat fw n r.2.merged (count-merges)

/-- The root table with the region put at `root_memregs_count` and the terminator behind it. -/
def storeRegion (table : List (Memregion x)) (count : Nat) (reg : Memregion x) :
    List (Memregion x) :=
  (table.set count reg).modify (count+1) (fun r => { r with order := 0 })

def SbiDomain.stored (d : SbiDomain x) (count : Nat) (reg : Memregion x) : SbiDomain x :=
  { d with regions := d.regions.map fun table => storeRegion table count reg }

/-- `sbi_domain_root_add_memregion()` on the root domain and `root_memregs_count`. -/
def sbiDomainRootAddMemregion (plat : Platform) (fw : Memregion x) (finalized : Bool)
    (root : SbiDomain x) (count : Nat) (reg : Memregion x) : Int × SbiDomain x × Nat :=
  if root.regions=none ∨ finalized ∨ ROOT_REGION_MAX≤count then (SBI_EINVAL,root,count)
  else if root.memregions.any (isRegionConflict reg) then (SBI_EINVAL,root,count)
  else settleRegions plat fw ((root.stored count reg).memregions.length+1)
    (root.stored count reg) (count+1)

variable {plat : Platform} {fw : Memregion x} {n count : Nat} {root : SbiDomain x}

/-! ## The three ways a round of the loop can go -/

theorem settleRegions_refused (h : (sanitizeDomain plat fw root).1≠SBI_OK) :
    settleRegions plat fw (n+1) root count=
      ((sanitizeDomain plat fw root).1,(sanitizeDomain plat fw root).2,count) := if_pos h

theorem settleRegions_settled (h : (sanitizeDomain plat fw root).1=SBI_OK)
    (hm : (mergeRegions root.sorted.memregions).1=0) :
    settleRegions plat fw (n+1) root count=(SBI_OK,root.sorted,count) := by
  rw [settleRegions,sanitizeDomain_sorted h]
  simp only [h,hm,ne_eq,not_true_eq_false,if_false,if_true]

theorem settleRegions_merged (h : (sanitizeDomain plat fw root).1=SBI_OK)
    (hm : (mergeRegions root.sorted.memregions).1≠0) :
    settleRegions plat fw (n+1) root count=settleRegions plat fw n root.sorted.merged
      (count-(mergeRegions root.sorted.memregions).1) := by
  rw [settleRegions,sanitizeDomain_sorted h]
  simp only [h,hm,ne_eq,not_true_eq_false,if_false]

/-- A success starts with a pass of `sanitize_domain()` that accepts. -/
theorem settleRegions_first (h : (settleRegions plat fw n root count).1=SBI_OK) :
    (sanitizeDomain plat fw root).1=SBI_OK := by
  have hne : SBI_EFAIL≠SBI_OK := by decide
  cases n with
  | zero => exact absurd h hne
  | succ n =>
    by_contra hrc
    rw [settleRegions_refused hrc] at h
    exact hrc h

/-- The loop ends with a pass of `sanitize_domain()` over a table it then leaves alone. -/
theorem settleRegions_sane (h : (settleRegions plat fw n root count).1=SBI_OK) :
    SaneDomain (settleRegions plat fw n root count).2.1 := by
  induction n generalizing root count with
  | zero => exact absurd (settleRegions_first h) (fun hs => by
      have hne : SBI_EFAIL≠SBI_OK := by decide
      exact hne h)
  | succ n ih =>
    have hrc := settleRegions_first h
    by_cases hm : (mergeRegions root.sorted.memregions).1=0
    · rw [settleRegions_settled hrc hm,← sanitizeDomain_sorted hrc]
      exact sanitizeDomain_sane hrc
    · rw [settleRegions_merged hrc hm] at h ⊢
      exact ih h

/-- The fields no change of the region table touches. -/
structure SameOwner (d d' : SbiDomain x) : Prop where
  index : d'.index=d.index
  assignedHarts : d'.assignedHarts=d.assignedHarts
  possibleHarts : d'.possibleHarts=d.possibleHarts
  bootHartid : d'.bootHartid=d.bootHartid
  next : d'.nextArg1=d.nextArg1 ∧ d'.nextAddr=d.nextAddr ∧ d'.nextMode=d.nextMode

theorem SameOwner.refl (d : SbiDomain x) : SameOwner d d := ⟨rfl,rfl,rfl,rfl,rfl,rfl,rfl⟩

theorem SameOwner.trans {d d1 d2 : SbiDomain x} (h1 : SameOwner d d1) (h2 : SameOwner d1 d2) :
    SameOwner d d2 where
  index := h2.index.trans h1.index
  assignedHarts := h2.assignedHarts.trans h1.assignedHarts
  possibleHarts := h2.possibleHarts.trans h1.possibleHarts
  bootHartid := h2.bootHartid.trans h1.bootHartid
  next := ⟨h2.next.1.trans h1.next.1,h2.next.2.1.trans h1.next.2.1,
    h2.next.2.2.trans h1.next.2.2⟩

theorem sameOwner_regions (d : SbiDomain x) (r : Option (List (Memregion x))) :
    SameOwner d { d with regions := r } := ⟨rfl,rfl,rfl,rfl,rfl,rfl,rfl⟩

theorem sanitizeDomain_sameOwner (plat : Platform) (fw : Memregion x) (d : SbiDomain x) :
    SameOwner d (sanitizeDomain plat fw d).2 := by
  rcases sanitizeDomain_cases plat fw d with h | h <;> rw [h]
  · exact .refl d
  · exact sameOwner_regions d _

theorem settleRegions_sameOwner (plat : Platform) (fw : Memregion x) (n : Nat)
    (root : SbiDomain x) (count : Nat) :
    SameOwner root (settleRegions plat fw n root count).2.1 := by
  induction n generalizing root count with
  | zero => exact .refl root
  | succ n ih =>
    have hs := sanitizeDomain_sameOwner plat fw root
    by_cases hrc : (sanitizeDomain plat fw root).1=SBI_OK
    · rw [sanitizeDomain_sorted hrc] at hs
      by_cases hm : (mergeRegions root.sorted.memregions).1=0
      · rw [settleRegions_settled hrc hm]
        exact hs
      · rw [settleRegions_merged hrc hm]
        exact (hs.trans (sameOwner_regions _ _)).trans (ih _ _)
    · rw [settleRegions_refused hrc]
      exact hs

/-- Adding a region changes the region table of the root domain only. -/
theorem sbiDomainRootAddMemregion_sameOwner (plat : Platform) (fw : Memregion x)
    (finalized : Bool) (root : SbiDomain x) (count : Nat) (reg : Memregion x) :
    SameOwner root (sbiDomainRootAddMemregion plat fw finalized root count reg).2.1 := by
  unfold sbiDomainRootAddMemregion
  split_ifs
  · exact .refl root
  · exact .refl root
  · exact (sameOwner_regions root _).trans (settleRegions_sameOwner plat fw _ _ _)

/-! ## What a merging pass leaves -/

theorem order_succ {r : Memregion x} (h : isRegionValid r=true) :
    (r.order+1).toNat=r.order.toNat+1 := by
  have hle := ((isRegionValid_iff r).mp h).2.1
  have hlt : x.bits+1<2^x.bits := by cases x <;> decide
  have hone : (1 : Word x).toNat=1 := by cases x <;> rfl
  rw [BitVec.toNat_add,hone,Nat.mod_eq_of_lt (by omega)]

theorem mergeRegions_length (l : List (Memregion x)) :
    (mergeRegions l).2.length+(mergeRegions l).1=l.length := by
  induction l using mergeRegions.induct with
  | case1 a b rest hm ih =>
    simp only [mergeRegions,hm,if_true,List.length_cons]
    omega
  | case2 a b rest hm ih =>
    simp only [mergeRegions,hm,Bool.false_eq_true,if_false,List.length_cons] at ih ⊢
    omega
  | case3 l hne =>
    rcases l with _ | ⟨a,_ | ⟨b,rest⟩⟩
    · rfl
    · rfl
    · exact absurd rfl (hne a b rest)

theorem mergeRegions_order {l : List (Memregion x)} (hl : ∀ r∈l,isRegionValid r=true) :
    ∀ r∈(mergeRegions l).2,r.order≠0 := by
  have hne : ∀ r : Memregion x,isRegionValid r=true → r.order≠0 := by
    intro r hr h0
    have h3 := ((isRegionValid_iff r).mp hr).1
    rw [h0] at h3
    simp at h3
  induction l using mergeRegions.induct with
  | case1 a b rest hm ih =>
    intro r hr
    simp only [mergeRegions,hm,if_true,List.mem_cons] at hr
    rcases hr with rfl | hr
    · intro h0
      have hsucc := order_succ (hl a (by simp))
      have hzero : (a.order+1).toNat=0 := by rw [show a.order+1=0 from h0]; simp
      omega
    · exact ih (fun q hq => hl q (by simp [hq])) r hr
  | case2 a b rest hm ih =>
    intro r hr
    rw [mergeRegions,if_neg hm] at hr
    rcases List.mem_cons.mp hr with rfl | hr
    · exact hne r (hl r (by simp))
    · exact ih (fun q hq => hl q (List.mem_cons_of_mem _ hq)) r hr
  | case3 l hnot =>
    rcases l with _ | ⟨a,_ | ⟨b,rest⟩⟩
    · simp [mergeRegions]
    · simpa [mergeRegions] using hne a (hl a (by simp))
    · exact absurd rfl (hnot a b rest)

private theorem mergeTable_memregions {table : List (Memregion x)}
    (h : ∀ r∈forEachMemregion table,isRegionValid r=true) :
    forEachMemregion (mergeTable table)=(mergeRegions (forEachMemregion table)).2 := by
  have horder := mergeRegions_order h
  have hrest := takeWhile_after (fun r : Memregion x => r.order≠0) table
  unfold mergeTable forEachMemregion at *
  rw [List.append_assoc,List.takeWhile_append_of_pos (by simpa using horder)]
  convert List.append_nil _
  generalize table.drop _=rest at hrest ⊢
  cases hm : (mergeRegions (table.takeWhile (fun r => r.order≠0))).1 with
  | zero => simpa using hrest
  | succ n =>
    have hhead : (rest.headD ⟨0,0,0⟩).order=0 := by
      cases rest with
      | nil => rfl
      | cons r rest =>
        by_contra hne
        rw [List.takeWhile_cons_of_pos (by simpa using hne)] at hrest
        cases hrest
    rw [List.replicate_succ,List.cons_append,List.takeWhile_cons_of_neg (by simpa using hhead)]

/-- The regions a pass leaves in front of the terminator. -/
theorem merged_memregions {d : SbiDomain x} (h : ∀ r∈d.memregions,isRegionValid r=true) :
    d.merged.memregions=(mergeRegions d.memregions).2 := by
  unfold SbiDomain.merged SbiDomain.memregions at *
  cases hr : d.regions with
  | none => rfl
  | some table =>
    rw [hr] at h
    exact mergeTable_memregions h

/-- Each merge of a round takes one region out. -/
theorem merged_length (h : (sanitizeDomain plat fw root).1=SBI_OK) :
    root.sorted.merged.memregions.length+(mergeRegions root.sorted.memregions).1=
      root.memregions.length := by
  have hvalid := (sanitizeDomain_sane h).valid
  rw [sanitizeDomain_sorted h] at hvalid
  rw [merged_memregions hvalid,mergeRegions_length,(sorted_perm root).length_eq]

/-- More rounds than regions make no difference to the loop. -/
theorem settleRegions_rounds (plat : Platform) (fw : Memregion x) {k : Nat} (count : Nat)
    (hn : root.memregions.length<n) (hk : root.memregions.length<k) :
    settleRegions plat fw n root count=settleRegions plat fw k root count := by
  induction n generalizing k root count with
  | zero => exact absurd hn (Nat.not_lt_zero _)
  | succ n ih =>
    obtain ⟨k,rfl⟩ : ∃ j,k=j+1 := ⟨k-1,by omega⟩
    by_cases hrc : (sanitizeDomain plat fw root).1=SBI_OK
    · by_cases hm : (mergeRegions root.sorted.memregions).1=0
      · rw [settleRegions_settled hrc hm,settleRegions_settled hrc hm]
      · have hlen := merged_length hrc
        rw [settleRegions_merged hrc hm,settleRegions_merged hrc hm]
        exact ih _ (by omega) (by omega)
    · rw [settleRegions_refused hrc,settleRegions_refused hrc]

end OpenSBI
