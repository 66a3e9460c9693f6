import OpenSBI.Domain.Sanitize

namespace OpenSBI

open Math

variable {x : Xlen} {plat : Platform} {fw : Memregion x} {d : SbiDomain x}

/-- Address `a` lies in the region. -/
def Memregion.Holds (r : Memregion x) (a : Word x) : Prop :=
  InBlock r.base.toNat r.order.toNat a.toNat

/-- The permission of a region and its match with the kind of access asked for. -/
def Memregion.permits (r : Memregion x) (accessFlags : Word x) : Bool :=
  decide (decide (accessFlags &&& SBI_DOMAIN_MMIO≠0)=r.isMmio) &&
    decide (r.flags &&& accessRwx accessFlags=accessRwx accessFlags)

/-- A smallest region of `l` over address `a`. -/
structure Smallest (l : List (Memregion x)) (a : Word x) (r : Memregion x) : Prop where
  mem : r∈l
  holds : r.Holds a
  least : ∀ s∈l,s.Holds a → r.order ≤ s.order

/-- The range test of the code is exact for valid regions, up to the top of the address space. -/
theorem contains_iff_holds {r : Memregion x} (h : isRegionValid r=true) (a : Word x) :
    r.contains a=true ↔ r.Holds a := by
  obtain ⟨-,hle,-⟩ := (isRegionValid_iff r).mp h
  rcases Nat.lt_or_ge r.order.toNat x.bits with hlt | hge
  · exact (isRegionValid_aligned h hlt).contains_iff a
  · have ha := a.isLt
    rw [Memregion.contains_full hge,BitVec.le_def,Memregion.Holds,InBlock,
      Nat.le_antisymm hle hge]
    omega

theorem sbiDomainCheckAddr_firstMatch (d : SbiDomain x) (a : Word x) {mode : Nat}
    (hm : mode≠PRV_M) (accessFlags : Word x) :
    sbiDomainCheckAddr d a mode accessFlags=
      firstMatch d.memregions (fun r => r.contains a) (fun r => r.permits accessFlags) :=
  checkAddrLoop_eq hm _ _ _

theorem order_le_of_notBefore {r s : Memregion x} (h : isRegionBefore s r=false) :
    r.order ≤ s.order := by
  by_contra hc
  rw [BitVec.not_le] at hc
  have hb := (isRegionBefore_iff s r).mpr (.inl hc)
  rw [h] at hb
  cases hb

/-- In a sane domain a smallest region over the address decides, and without one the access is
denied. -/
theorem SaneDomain.smallest (h : SaneDomain d) (a : Word x) {mode : Nat} (hm : mode≠PRV_M)
    (accessFlags : Word x) :
    (∃ r,Smallest d.memregions a r ∧
        sbiDomainCheckAddr d a mode accessFlags=r.permits accessFlags) ∨
      (∀ r∈d.memregions,¬r.Holds a) ∧ sbiDomainCheckAddr d a mode accessFlags=false := by
  rw [sbiDomainCheckAddr_firstMatch d a hm]
  rcases @firstMatch_sorted _ _ (fun r => r.contains a) _ _ h.sorted
    isRegionBefore_strictWeak.irrefl with ⟨r,hr,hc,hleast,hv⟩ | ⟨hnone,hv⟩
  · refine .inl ⟨r,⟨hr,(contains_iff_holds (h.valid r hr) a).mp hc,fun s hs hsa => ?_⟩,hv⟩
    exact order_le_of_notBefore (hleast s hs ((contains_iff_holds (h.valid s hs) a).mpr hsa))
  · refine .inr ⟨fun r hr hra => ?_,hv⟩
    have := hnone r hr
    rw [(contains_iff_holds (h.valid r hr) a).mpr hra] at this
    cases this

/-! ## The checks of `sanitize_domain()` apart from its sort -/

/-- What `sanitize_domain()` asks for that the order of the regions has no part in. -/
structure Acceptable (plat : Platform) (fw : Memregion x) (d : SbiDomain x) : Prop where
  possible : ∃ possible,d.possibleHarts=some possible ∧
    (hartsOf possible).any plat.hartInvalid=false
  regions : d.regions≠none
  valid : ∀ r∈d.memregions,isRegionValid r=true
  firmware : ∃ r∈d.memregions,r.order=fw.order ∧ r.base=fw.base ∧ r.flags=fw.flags
  nextMode : d.nextMode=PRV_S ∨ d.nextMode=PRV_U

/-- A region table as the sort of `sanitize_domain()` leaves it. -/
def sortedTable (table : List (Memregion x)) : List (Memregion x) :=
  (exchangeSort isRegionConflict isRegionBefore (forEachMemregion table)).2++
    table.drop (forEachMemregion table).length

def SbiDomain.sorted (d : SbiDomain x) : SbiDomain x :=
  { d with regions := d.regions.map sortedTable }

theorem sorted_memregions (d : SbiDomain x) :
    d.sorted.memregions=(exchangeSort isRegionConflict isRegionBefore d.memregions).2 := by
  cases hr : d.regions with
  | none => simp [SbiDomain.sorted,SbiDomain.memregions,hr,forEachMemregion,exchangeSort,exchangeRounds]
  | some table =>
    have h := memregions_sorted table d
    simp only [SbiDomain.sorted,SbiDomain.memregions,hr]
    exact h

/-- The sort of `sanitize_domain()` rearranges the regions in front of the terminator. -/
theorem sorted_perm (d : SbiDomain x) : d.sorted.memregions.Perm d.memregions := by
  rw [sorted_memregions]
  exact exchangeSort_perm _ _ _

/-- `sanitize_domain()` accepts exactly what passes its checks, sorts without meeting a conflict,
and can execute the next address as sorted. -/
theorem sanitizeDomain_ok_iff (plat : Platform) (fw : Memregion x) (d : SbiDomain x) :
    (sanitizeDomain plat fw d).1=SBI_OK ↔ Acceptable plat fw d ∧
      (exchangeSort isRegionConflict isRegionBefore d.memregions).1=false ∧
      sbiDomainCheckAddr d.sorted d.nextAddr d.nextMode SBI_DOMAIN_EXECUTE=true := by
  have hne : ¬SBI_EINVAL=SBI_OK := by decide
  cases hp : d.possibleHarts with
  | none =>
    simp only [sanitizeDomain,hp,hne,false_iff]
    rintro ⟨⟨⟨p,hq,-⟩,-⟩,-⟩
    rw [hp] at hq
    cases hq
  | some possible =>
    cases hr : d.regions with
    | none =>
      have hrej : (sanitizeDomain plat fw d).1=SBI_EINVAL := by
        simp only [sanitizeDomain,hp,hr]
        split_ifs <;> rfl
      rw [hrej]
      exact iff_of_false hne fun h => h.1.regions hr
    | some table =>
      have hsort : d.sorted={ d with regions := some (sortedTable table) } := by
        rw [SbiDomain.sorted,hr]
        rfl
      have hm : d.memregions=forEachMemregion table := by rw [SbiDomain.memregions,hr]; rfl
      rw [hsort,hm]
      simp only [sanitizeDomain,hp,hr,sortedTable]
      constructor
      · intro h
        split_ifs at h with h1 h2 h3 h4 h5 h6
        iterate 6 exact absurd h hne
        simp only [Bool.not_eq_true,Bool.not_eq_false'] at h1 h2 h3 h4 h6
        refine ⟨⟨⟨possible,hp,h1⟩,by simp [hr],?_,?_,?_⟩,h4,h6⟩
        · rw [hm]
          simpa using h2
        · rw [hm]
          simpa [and_assoc] using h3
        · by_contra hc
          exact h5 (not_or.mp hc)
      · rintro ⟨⟨⟨p,hq,h1⟩,-,h2,h3,h5⟩,h4,h6⟩
        rw [hp] at hq
        obtain rfl := Option.some.inj hq
        rw [hm] at h2 h3
        have h2' : (forEachMemregion table).any (fun reg => !isRegionValid reg)=false := by
          simpa using h2
        have h3' : (forEachMemregion table).any (fun reg => decide (reg.order=fw.order) &&
            decide (reg.base=fw.base) && decide (reg.flags=fw.flags))=true := by
          simpa [and_assoc] using h3
        have h5' : ¬(d.nextMode≠PRV_S ∧ d.nextMode≠PRV_U) := fun h => h5.elim h.1 h.2
        simp only [h1,h2',h3',h4,h5',h6,if_false,Bool.false_eq_true,Bool.not_true]

/-- Whatever its verdict, `sanitize_domain()` at most sorts. -/
theorem sanitizeDomain_cases (plat : Platform) (fw : Memregion x) (d : SbiDomain x) :
    (sanitizeDomain plat fw d).2=d ∨ (sanitizeDomain plat fw d).2=d.sorted := by
  unfold sanitizeDomain SbiDomain.sorted
  cases hp : d.possibleHarts with
  | none => exact .inl rfl
  | some possible =>
    cases hr : d.regions with
    | none => simp only; split_ifs <;> exact .inl rfl
    | some table =>
      simp only [Option.map_some,sortedTable]
      split_ifs
      iterate 3 exact .inl rfl
      all_goals exact .inr rfl

theorem sanitizeDomain_sorted (h : (sanitizeDomain plat fw d).1=SBI_OK) :
    (sanitizeDomain plat fw d).2=d.sorted := by
  have hne : ¬SBI_EINVAL=SBI_OK := by decide
  obtain ⟨⟨⟨p,hp,-⟩,hr,-⟩,-⟩ := (sanitizeDomain_ok_iff plat fw d).mp h
  obtain ⟨table,hr⟩ := Option.ne_none_iff_exists'.mp hr
  simp only [sanitizeDomain,hp,hr,SbiDomain.sorted,sortedTable,Option.map_some] at h ⊢
  split_ifs at h ⊢
  iterate 6 exact absurd h hne
  rfl

/-- After acceptance the region array is the old one sorted by size and base, and below M-mode a
smallest region over the address decides every access. -/
theorem sanitizeDomain_smallestDecides (plat : Platform) (fw : Memregion x) (d : SbiDomain x)
    (h : (sanitizeDomain plat fw d).1=SBI_OK) :
    (∃ table table',d.regions=some table ∧ (sanitizeDomain plat fw d).2.regions=some table' ∧
        table'.Perm table) ∧
      (sanitizeDomain plat fw d).2.memregions.Perm d.memregions ∧
      (sanitizeDomain plat fw d).2.memregions.Pairwise
        (fun a b => a.order<b.order ∨ a.order=b.order ∧ a.base≤b.base) ∧
      ∀ a mode accessFlags,mode=PRV_S ∨ mode=PRV_U →
        (∃ r,Smallest (sanitizeDomain plat fw d).2.memregions a r ∧
            sbiDomainCheckAddr (sanitizeDomain plat fw d).2 a mode accessFlags=
              r.permits accessFlags) ∨
          (∀ r∈(sanitizeDomain plat fw d).2.memregions,¬r.Holds a) ∧
            sbiDomainCheckAddr (sanitizeDomain plat fw d).2 a mode accessFlags=false := by
  have hsane := sanitizeDomain_sane h
  obtain ⟨⟨-,hr,-⟩,-⟩ := (sanitizeDomain_ok_iff plat fw d).mp h
  obtain ⟨table,hr⟩ := Option.ne_none_iff_exists'.mp hr
  rw [sanitizeDomain_sorted h] at hsane ⊢
  refine ⟨⟨table,sortedTable table,hr,by rw [SbiDomain.sorted,hr]; rfl,?_⟩,sorted_perm d,?_,?_⟩
  · have hperm := (exchangeSort_perm isRegionConflict isRegionBefore
      (forEachMemregion table)).append_right (table.drop (forEachMemregion table).length)
    exact hperm.trans (.of_eq (List.prefix_iff_eq_append.mp (List.takeWhile_prefix _)))
  · refine hsane.sorted.imp fun {a b} hab => ?_
    have hn := mt (isRegionBefore_iff b a).mpr (by rw [hab]; decide)
    simp only [not_or,not_and,BitVec.not_lt] at hn
    by_cases heq : a.order=b.order
    · exact .inr ⟨heq,hn.2 heq.symm⟩
    · exact .inl (BitVec.lt_of_le_ne hn.1 heq)
  · intro a mode accessFlags hm
    refine hsane.smallest a ?_ accessFlags
    rcases hm with rfl | rfl <;> decide

/-- The root table, listed the other way round, is accepted. -/
theorem rootTable_smallestDecides :
    (∃ table table',(tableDomain rootTable.reverse).regions=some table ∧
        (sanitizeDomain anyHart ⟨17,0x80000000,8⟩ (tableDomain rootTable.reverse)).2.regions=
          some table' ∧ table'.Perm table) ∧
      (sanitizeDomain anyHart ⟨17,0x80000000,8⟩
        (tableDomain rootTable.reverse)).2.memregions=rootTable := by
  refine ⟨?_,by decide⟩
  exact (sanitizeDomain_smallestDecides anyHart ⟨17,0x80000000,8⟩ (tableDomain rootTable.reverse)
    (by decide)).1

end OpenSBI
