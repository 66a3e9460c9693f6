import OpenSBI.Domain.Permutation

namespace OpenSBI

open Math

variable {x : Xlen}

def Memregion.Overlaps (r s : Memregion x) : Prop := ∃ a,r.Holds a ∧ s.Holds a

def Memregion.Within (r s : Memregion x) : Prop := ∀ a,r.Holds a → s.Holds a

/-- The constraints of the documentation on the regions of a domain. -/
structure Documented (l : List (Memregion x)) : Prop where
  order : ∀ r∈l,3≤r.order.toNat ∧ r.order.toNat≤x.bits
  base : ∀ r∈l,2^r.order.toNat∣r.base.toNat
  overlap : l.Pairwise fun r s => r.Overlaps s →
    (r.Within s ∨ s.Within r) ∧ r.order≠s.order ∧ r.flags≠s.flags

/-- The tables on which the checks of `sanitize_domain()` amount to the documentation: a region of
the full width starts at zero, no two regions are the same block, regions with the same flags meet
only at the same base, and those that do have no third region between them in size. -/
structure Enforced (l : List (Memregion x)) : Prop where
  full : ∀ r∈l,r.order.toNat=x.bits → r.base=0
  noTies : NoTies l
  sameFlags : l.Pairwise fun r s => r.flags=s.flags → r.Overlaps s → r.base=s.base
  noHidden : ∀ r s rest,l.Perm (r::s::rest) → isRegionConflict r s=true →
    isRegionBefore r s=true → Neighbours isRegionBefore r s rest

/-- What holds of every two entries of a list holds of any that can be put in front. -/
theorem pairwise_iff_perm {α : Type*} {R : α → α → Prop} (hsym : ∀ {a b},R a b → R b a)
    {l : List α} : l.Pairwise R ↔ ∀ a b rest,l.Perm (a::b::rest) → R a b := by
  constructor
  · intro h a b rest hp
    exact (List.pairwise_cons.mp (hp.pairwise h hsym)).1 b (by simp)
  · intro h
    rw [List.pairwise_iff_forall_sublist]
    intro a b hab
    obtain ⟨rest,hp⟩ := hab.exists_perm_append
    exact h a b rest hp

theorem noTies_iff {r s : Memregion x} :
    isRegionBefore r s=true ∨ isRegionBefore s r=true ↔ ¬(r.order=s.order ∧ r.base=s.base) := by
  simp only [isRegionBefore_iff,BitVec.lt_def,BitVec.toNat_eq]
  omega

theorem isRegionSubset_iff {a b : Memregion x} (ha : isRegionValid a=true) :
    isRegionSubset a b=true ↔ a.base=b.base ∧ a.order.toNat<x.bits := by
  obtain ⟨h3,hle,-⟩ := (isRegionValid_iff a).mp ha
  have hb := b.base.isLt
  simp only [isRegionSubset,Bool.and_eq_true,decide_eq_true_iff,BitVec.le_def,BitVec.lt_def,
    BitVec.toNat_add,BitVec.toNat_eq]
  rcases Nat.lt_or_ge a.order.toNat x.bits with hlt | hge
  · have hal := isRegionValid_aligned ha hlt
    have hend := hal.end_le
    have hp : 2^3≤2^a.order.toNat := Nat.pow_le_pow_right (by decide) h3
    rw [Word.toNat_bit_sub_one hlt]
    generalize 2^a.order.toNat=k at hp hend
    rw [Nat.mod_eq_of_lt (show a.base.toNat+(k-1)<2^x.bits by omega)]
    rcases Nat.lt_or_ge (b.base.toNat+(k-1)) (2^x.bits) with hw | hw
    · rw [Nat.mod_eq_of_lt hw]
      omega
    · have hm : (b.base.toNat+(k-1))%2^x.bits=b.base.toNat+(k-1)-2^x.bits := by
        rw [Nat.mod_eq_sub_mod hw,Nat.mod_eq_of_lt (by omega)]
      rw [hm]
      omega
  · have hfull : a.order.toNat=x.bits := Nat.le_antisymm hle hge
    have hone : (Word.bit x.bits-1 : Word x).toNat=0 := by rw [Word.bit_bits]; simp
    rw [hfull,hone,Nat.add_zero,Nat.mod_eq_of_lt hb]
    omega

/-- On valid regions the conflict test asks for the same flags and the same base. -/
theorem isRegionConflict_iff {a b : Memregion x} (ha : isRegionValid a=true)
    (hb : isRegionValid b=true) :
    isRegionConflict a b=true ↔
      a.flags=b.flags ∧ a.base=b.base ∧ (a.order.toNat<x.bits ∨ b.order.toNat<x.bits) := by
  rw [isRegionConflict,Bool.and_eq_true,Bool.or_eq_true,isRegionSubset_iff ha,
    isRegionSubset_iff hb,decide_eq_true_iff,eq_comm (a := b.base)]
  tauto

theorem base_holds (r : Memregion x) : r.Holds r.base := base_inBlock _ _

theorem overlaps_comm {r s : Memregion x} : r.Overlaps s ↔ s.Overlaps r :=
  exists_congr fun _ => and_comm

theorem Documented.symm {r s : Memregion x}
    (h : r.Overlaps s → (r.Within s ∨ s.Within r) ∧ r.order≠s.order ∧ r.flags≠s.flags) :
    s.Overlaps r → (s.Within r ∨ r.Within s) ∧ s.order≠r.order ∧ s.flags≠r.flags :=
  fun ho => (h (overlaps_comm.mp ho)).imp Or.symm fun hne => ⟨hne.1.symm,hne.2.symm⟩

/-- Overlapping naturally aligned regions are nested, and equal ones of the same size. -/
theorem overlap_nested {r s : Memregion x} (hr : 2^r.order.toNat∣r.base.toNat)
    (hs : 2^s.order.toNat∣s.base.toNat) (h : r.Overlaps s) :
    (r.Within s ∨ s.Within r) ∧ (r.order=s.order → r.base=s.base) := by
  obtain ⟨a,har,has⟩ := h
  refine ⟨?_,fun he => ?_⟩
  · rcases Nat.le_total r.order.toNat s.order.toNat with hle | hle
    · exact .inl fun b hb => InBlock.nested hr hs hle har has hb
    · exact .inr fun b hb => InBlock.nested hs hr hle has har hb
  · rw [← he] at hs
    have has' : InBlock s.base.toNat r.order.toNat a.toNat := by
      have h2 := has
      rw [Memregion.Holds,← he] at h2
      exact h2
    exact BitVec.eq_of_toNat_eq (InBlock.base_eq hr hs har has')

/-- The table of an accepted domain meets the documented constraints exactly when it is one on
which the checks amount to them. -/
theorem sanitizeDomain_documented_iff (plat : Platform) (fw : Memregion x) (d : SbiDomain x)
    (h : (sanitizeDomain plat fw d).1=SBI_OK) :
    Documented d.memregions ↔ Enforced d.memregions := by
  obtain ⟨hacc,hsort,-⟩ := (sanitizeDomain_ok_iff plat fw d).mp h
  have hconf : ∀ r∈d.memregions,∀ s∈d.memregions,isRegionConflict r s=true →
      r.flags=s.flags ∧ r.Overlaps s := by
    intro r hr s hs hc
    obtain ⟨hf,hb,-⟩ := (isRegionConflict_iff (hacc.valid r hr) (hacc.valid s hs)).mp hc
    refine ⟨hf,r.base,base_holds r,?_⟩
    rw [hb]
    exact base_holds s
  constructor
  · intro hd
    have hpair := (pairwise_iff_perm Documented.symm).mp hd.overlap
    refine ⟨fun r hr hfull => ?_,?_,?_,?_⟩
    · have hdvd := hd.base r hr
      rw [hfull] at hdvd
      exact BitVec.eq_of_toNat_eq (Nat.eq_zero_of_dvd_of_lt hdvd r.base.isLt)
    · refine hd.overlap.imp fun {r s} hrs => noTies_iff.mpr fun he => ?_
      refine (hrs ⟨r.base,base_holds r,?_⟩).2.1 he.1
      rw [he.2]
      exact base_holds s
    · exact hd.overlap.imp fun {r s} hrs hf ho => absurd hf (hrs ho).2.2
    · intro r s rest hp hc
      have hmem := fun q => (hp.mem_iff (a := q)).mpr
      obtain ⟨hf,ho⟩ := hconf r (hmem r (by simp)) s (hmem s (by simp)) hc
      exact absurd hf (hpair r s rest hp ho).2.2
  · intro he
    have hbase : ∀ r∈d.memregions,2^r.order.toNat∣r.base.toNat := by
      intro r hr
      rcases Nat.lt_or_ge r.order.toNat x.bits with hlt | hge
      · exact (isRegionValid_aligned (hacc.valid r hr) hlt).base
      · have hle := ((isRegionValid_iff r).mp (hacc.valid r hr)).2.1
        rw [he.full r hr (Nat.le_antisymm hle hge)]
        exact Nat.dvd_zero _
    refine ⟨fun r hr => ?_,hbase,(pairwise_iff_perm Documented.symm).mpr ?_⟩
    · have hv := (isRegionValid_iff r).mp (hacc.valid r hr)
      exact ⟨hv.1,hv.2.1⟩
    · intro r s rest hp ho
      have hr : r∈d.memregions := hp.mem_iff.mpr (by simp)
      have hs : s∈d.memregions := hp.mem_iff.mpr (by simp)
      obtain ⟨hnest,hsame⟩ := overlap_nested (hbase r hr) (hbase s hs) ho
      have hties := (pairwise_iff_perm (fun {a b} => Or.symm)).mp he.noTies r s rest hp
      have hne : r.order≠s.order := fun ho => noTies_iff.mp hties ⟨ho,hsame ho⟩
      refine ⟨hnest,hne,fun hf => ?_⟩
      -- The same flags: then the same base, so the pair conflicts and the sort has met it.
      have hb := (pairwise_iff_perm fun {a b} hab hf ho =>
        (hab hf.symm (overlaps_comm.mp ho)).symm).mp he.sameFlags r s rest hp hf ho
      have hlt : r.order.toNat<x.bits ∨ s.order.toNat<x.bits := by
        have h1 := ((isRegionValid_iff r).mp (hacc.valid r hr)).2.1
        have h2 := ((isRegionValid_iff s).mp (hacc.valid s hs)).2.1
        have hn : r.order.toNat≠s.order.toNat := fun heq => hne (BitVec.eq_of_toNat_eq heq)
        omega
      have hc := (isRegionConflict_iff (hacc.valid r hr) (hacc.valid s hs)).mpr ⟨hf,hb,hlt⟩
      rcases hties with hrs | hsr
      · rw [exchangeSort_refused isRegionBefore_strictWeak isRegionConflict_symm hp hc
          (he.noHidden r s rest hp hc hrs)] at hsort
        cases hsort
      · have hp' := hp.trans (.swap _ _ _)
        rw [isRegionConflict_symm] at hc
        rw [exchangeSort_refused isRegionBefore_strictWeak isRegionConflict_symm hp' hc
          (he.noHidden s r rest hp' hc hsr)] at hsort
        cases hsort

theorem rootTable_documented :
    Documented (tableDomain rootTable).memregions ↔ Enforced (tableDomain rootTable).memregions :=
  sanitizeDomain_documented_iff anyHart ⟨17,0x80000000,8⟩ (tableDomain rootTable) (by decide)

/-- A page inside the region that grants everything, with the same flags. -/
def nestedTable : List (Memregion .rv64) := ⟨12,0x90000000,7⟩::rootTable

/-- The nested region is accepted. -/
theorem nestedTable_undocumented :
    ¬∀ (x : Xlen) (plat : Platform) (fw : Memregion x) (d : SbiDomain x),
      (sanitizeDomain plat fw d).1=SBI_OK → Documented d.memregions := by
  intro h
  have hd := h .rv64 anyHart ⟨17,0x80000000,8⟩ (tableDomain nestedTable) (by decide)
  have hpair := (List.pairwise_cons.mp hd.overlap).1 ⟨64,0,7⟩ (by decide)
  refine (hpair ⟨0x90000000,?_,?_⟩).2.2 rfl
  · show InBlock _ _ _
    decide
  · show InBlock _ _ _
    decide

end OpenSBI
