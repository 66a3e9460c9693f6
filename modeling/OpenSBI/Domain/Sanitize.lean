import Mathlib.Data.List.TakeWhile
import OpenSBI.Domain.Memregion
import OpenSBI.Math.AlignedBlock
import OpenSBI.Math.ExchangeSort
import OpenSBI.Riscv.Error

namespace OpenSBI

open Math

variable {x : Xlen}

/-- `is_region_valid()`. -/
def isRegionValid (reg : Memregion x) : Bool :=
  if reg.order.toNat<3 ∨ x.bits<reg.order.toNat then false
  else if reg.base &&& (Word.bit reg.order.toNat-1)≠0 then false
  else true

/-- `is_region_subset()`; both ends are computed from the order of the first region. -/
def isRegionSubset (regA regB : Memregion x) : Bool :=
  let regAStart := regA.base
  let regAEnd := regA.base+(Word.bit regA.order.toNat-1)
  let regBStart := regB.base
  let regBEnd := regB.base+(Word.bit regA.order.toNat-1)
  decide (regBStart≤regAStart) && decide (regAStart<regBEnd) &&
    decide (regBStart<regAEnd) && decide (regAEnd≤regBEnd)

/-- `is_region_conflict()`. -/
def isRegionConflict (regA regB : Memregion x) : Bool :=
  (isRegionSubset regA regB || isRegionSubset regB regA) && decide (regA.flags=regB.flags)

/-- `is_region_before()`. -/
def isRegionBefore (regA regB : Memregion x) : Bool :=
  if regA.order<regB.order then true
  else if regA.order=regB.order ∧ regA.base<regB.base then true
  else false

/-- The part of `struct sbi_platform` the domain code asks for. -/
structure Platform where
  hartInvalid : Nat → Bool

/-- The platform whose harts are all valid. -/
def anyHart : Platform := ⟨fun _ => false⟩

/-- The hart ids `sbi_hartmask_for_each_hart()` visits, in order. -/
def hartsOf (m : Hartmask) : List Nat :=
  (List.range SBI_HARTMASK_MAX_BITS).filter (fun h => sbiHartmaskTestHart h m)

/-- `sanitize_domain()`: the result code and the domain with its region table sorted in place.
A table is left as the sort had it when a pair was in conflict. -/
def sanitizeDomain (plat : Platform) (rootFwRegion : Memregion x) (dom : SbiDomain x) :
    Int × SbiDomain x :=
  match dom.possibleHarts with
  | none => (SBI_EINVAL,dom)
  | some possible =>
    if (hartsOf possible).any plat.hartInvalid then (SBI_EINVAL,dom)
    else match dom.regions with
    | none => (SBI_EINVAL,dom)
    | some table =>
      if (forEachMemregion table).any (fun reg => !isRegionValid reg) then (SBI_EINVAL,dom)
      else if !(forEachMemregion table).any (fun reg =>
          decide (reg.order=rootFwRegion.order) && decide (reg.base=rootFwRegion.base) &&
            decide (reg.flags=rootFwRegion.flags)) then (SBI_EINVAL,dom)
      else
        let sorted := exchangeSort isRegionConflict isRegionBefore (forEachMemregion table)
        let dom' := { dom with
          regions := some (sorted.2++table.drop (forEachMemregion table).length) }
        if sorted.1 then (SBI_EINVAL,dom')
        else if dom.nextMode≠PRV_S ∧ dom.nextMode≠PRV_U then (SBI_EINVAL,dom')
        else if !sbiDomainCheckAddr dom' dom.nextAddr dom.nextMode SBI_DOMAIN_EXECUTE then
          (SBI_EINVAL,dom')
        else (SBI_OK,dom')

/-- What acceptance by `sanitize_domain()` leaves behind. -/
structure SaneDomain (d : SbiDomain x) : Prop where
  valid : ∀ r∈d.memregions,isRegionValid r=true
  sorted : d.memregions.Pairwise (fun a b => isRegionBefore b a=false)
  nextMode : d.nextMode=PRV_S ∨ d.nextMode=PRV_U
  nextAddr : sbiDomainCheckAddr d d.nextAddr d.nextMode SBI_DOMAIN_EXECUTE=true

theorem isRegionValid_iff (r : Memregion x) :
    isRegionValid r=true ↔ 3≤r.order.toNat ∧ r.order.toNat≤x.bits ∧
      r.base &&& (Word.bit r.order.toNat-1)=0 := by
  unfold isRegionValid
  split_ifs with h1 h2
  · simp only [false_iff]; omega
  · simp only [false_iff]; exact fun h => h2 h.2.2
  · simp only [ne_eq,Decidable.not_not] at h2
    simp only [h2,and_true,true_iff]; omega

/-- Below the full width the mask test of `is_region_valid()` is natural alignment. -/
theorem isRegionValid_aligned {r : Memregion x} (h : isRegionValid r=true)
    (ho : r.order.toNat<x.bits) : r.Aligned := by
  have hm := ((isRegionValid_iff r).mp h).2.2
  have hn := congrArg BitVec.toNat hm
  rw [BitVec.toNat_and,Word.toNat_bit_sub_one ho,Nat.and_two_pow_sub_one_eq_mod] at hn
  exact ⟨ho,Nat.dvd_of_mod_eq_zero (by simpa using hn)⟩

theorem isRegionBefore_iff (a b : Memregion x) :
    isRegionBefore a b=true ↔ a.order<b.order ∨ a.order=b.order ∧ a.base<b.base := by
  unfold isRegionBefore
  split_ifs with h1 h2
  · simp [h1]
  · simp [h2]
  · simp only [false_iff]; tauto

theorem isRegionBefore_strictWeak : StrictWeak (isRegionBefore (x := x)) where
  asymm a b h := by
    rw [isRegionBefore_iff] at h
    rw [Bool.eq_false_iff,ne_eq,isRegionBefore_iff]
    simp only [BitVec.lt_def,BitVec.toNat_eq] at h ⊢
    omega
  split a b c h := by
    rw [isRegionBefore_iff] at h
    rw [isRegionBefore_iff,isRegionBefore_iff]
    simp only [BitVec.lt_def,BitVec.toNat_eq] at h ⊢
    omega

theorem mem_forEachMemregion {r : Memregion x} {l : List (Memregion x)}
    (h : r∈forEachMemregion l) : r.order≠0 := by
  have := List.mem_takeWhile_imp h
  simpa using this

theorem takeWhile_after (p : Memregion x → Bool) (table : List (Memregion x)) :
    (table.drop (table.takeWhile p).length).takeWhile p=[] := by
  induction table with
  | nil => rfl
  | cons r rest ih =>
    cases hr : p r with
    | false => simp [hr]
    | true => simpa [hr] using ih

/-- Entries in front of a terminator can be rearranged without moving the terminator. -/
theorem forEachMemregion_replace (l table : List (Memregion x)) (hl : ∀ r∈l,r.order≠0) :
    forEachMemregion (l++table.drop (forEachMemregion table).length)=l := by
  unfold forEachMemregion
  rw [List.takeWhile_append_of_pos (by simpa using hl),takeWhile_after,List.append_nil]

/-- The table of a domain after the sort of `sanitize_domain()`. -/
theorem memregions_sorted (table : List (Memregion x)) (dom : SbiDomain x) :
    let sorted := exchangeSort isRegionConflict isRegionBefore (forEachMemregion table)
    SbiDomain.memregions { dom with
      regions := some (sorted.2++table.drop (forEachMemregion table).length) }=sorted.2 := by
  intro sorted
  refine forEachMemregion_replace sorted.2 table ?_
  intro r hr
  exact mem_forEachMemregion ((exchangeSort_perm _ _ _).mem_iff.mp hr)

/-- A domain accepted by `sanitize_domain()` is sane in its sorted form. -/
theorem sanitizeDomain_sane {plat : Platform} {fw : Memregion x} {dom : SbiDomain x}
    (h : (sanitizeDomain plat fw dom).1=SBI_OK) : SaneDomain (sanitizeDomain plat fw dom).2 := by
  have hne : ¬SBI_EINVAL=SBI_OK := by decide
  unfold sanitizeDomain at h ⊢
  cases hp : dom.possibleHarts with
  | none => simp [hp,hne] at h
  | some possible =>
    cases hr : dom.regions with
    | none => simp only [hp,hr] at h; split_ifs at h; all_goals exact absurd h hne
    | some table =>
      have hm := memregions_sorted table dom
      simp only [hp,hr] at h hm ⊢
      split_ifs at h ⊢ with h1 h2 h3 h4 h5 h6
      iterate 6 exact absurd h hne
      refine ⟨?_,?_,?_,?_⟩
      · intro r hmem
        rw [hm,(exchangeSort_perm _ _ _).mem_iff] at hmem
        simp only [List.any_eq_true,not_exists,not_and] at h2
        simpa using h2 r hmem
      · rw [hm]
        exact exchangeSort_sorted isRegionBefore_strictWeak _ (Bool.eq_false_iff.mpr h4)
      · by_contra hc
        exact h5 (not_or.mp hc)
      · simpa using h6

end OpenSBI
