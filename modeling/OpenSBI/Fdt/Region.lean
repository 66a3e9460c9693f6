import OpenSBI.Domain.Memregion
import OpenSBI.Fdt.Iterate

namespace OpenSBI

variable {x : Xlen}

def FDT_DOMAIN_REGION_MAX_COUNT : Nat := 16
def SBI_DOMAIN_MEMREGION_ACCESS_MASK : Word x := 0xf

/-- A row of `fdt_regions` with the count of the regions in use. -/
structure RegionTable (x : Xlen) where
  regions : Nat → Memregion x
  count : Nat

/-- The row after the `memset()`. -/
def RegionTable.cleared : RegionTable x := ⟨fun _ => ⟨0,0,0⟩,0⟩

def RegionTable.write (s : RegionTable x) (r : Memregion x) : RegionTable x :=
  { s with regions := Function.update s.regions s.count r }

/-- The flags of a region with the given access, in the node `r`. -/
def regionFlags (t : Fdt) (r : Nat) (access : BitVec 32) : Word x :=
  access.setWidth x.bits &&& SBI_DOMAIN_MEMREGION_ACCESS_MASK |||
    if (t.getprop r .mmio).isSome then SBI_DOMAIN_MEMREGION_MMIO else 0

/-- `__fdt_parse_region()`. The tests of the lengths are written with `!val`, as in the source. -/
def fdtParseRegion (t : Fdt) (r : Nat) (access : BitVec 32) (s : RegionTable x) :
    Option (Int×RegionTable x) :=
  if FDT_DOMAIN_REGION_MAX_COUNT ≤ s.count then some (SBI_EINVAL,s)
  else
    let val := t.getprop r .base
    if val.isNone ∧ 8≤t.proplen r .base then some (SBI_EINVAL,s)
    else do
      let high ← readCell val 0
      let low ← readCell val 1
      let region : Memregion x := { s.regions s.count with base := (high ++ low).setWidth x.bits }
      let val := t.getprop r .order
      if val.isNone ∧ 4≤t.proplen r .order then some (SBI_EINVAL,s.write region)
      else do
        let val32 ← readCell val 0
        if val32.toNat<3 ∨ x.bits<val32.toNat then some (SBI_EINVAL,s.write region)
        else
          let region := { region with order := val32.setWidth x.bits,flags := regionFlags t r access }
          some (SBI_OK,{ s.write region with count := s.count+1 })

/-- The iteration of `__fdt_parse_domain()` over the regions of an instance. -/
def fdtParseRegions (x : Xlen) (t : Fdt) (d : Nat) : Option (Int×RegionTable x) :=
  fdtIterateEachMemregion (.fixed t) (fdtParseRegion t) d .cleared

namespace Fdt

variable (t : Fdt) (r : Nat)

/-- The base and the order of a memory region node have the length of the binding. -/
structure Sized (t : Fdt) (r : Nat) : Prop where
  base : ∃ v,t.getprop r .base=some v ∧ 8≤v.length
  order : ∃ v,t.getprop r .order=some v ∧ 4≤v.length

/-- The order cell of a region node. -/
def orderOf : Nat := (fdt32 ((t.getprop r .order).getD []) 0).toNat
def baseOf : BitVec 64 := fdt64 ((t.getprop r .base).getD [])

/-- A memory region node of the binding. -/
structure Regular (x : Xlen) (t : Fdt) (r : Nat) : Prop extends Sized t r where
  order_ge : 3≤t.orderOf r
  order_le : t.orderOf r≤x.bits

end Fdt

/-- The region that the node `r` describes. -/
def regionOf (x : Xlen) (t : Fdt) (r : Nat) (access : BitVec 32) : Memregion x :=
  ⟨BitVec.ofNat x.bits (t.orderOf r),(t.baseOf r).setWidth x.bits,regionFlags t r access⟩

section Parse

variable {t : Fdt} {r : Nat} {access : BitVec 32} {s : RegionTable x}

theorem proplen_missing {name : PropName} (h : (t.getprop r name).isNone=true) : t.proplen r name<0 := by
  rw [Option.isNone_iff_eq_none] at h
  rw [Fdt.proplen,h]
  decide

/-- The negative length of a missing property passes the tests. -/
theorem not_missing_long (name : PropName) {n : Int} (hn : 0≤n) :
    ¬((t.getprop r name).isNone=true ∧ n≤t.proplen r name) := by
  intro h
  have := proplen_missing h.1
  omega

theorem fdtParseRegion_full (h : FDT_DOMAIN_REGION_MAX_COUNT ≤ s.count) :
    fdtParseRegion t r access s=some (SBI_EINVAL,s) := by
  rw [fdtParseRegion,if_pos h]

/-- The outcomes of a call that gets to the node: a read outside a property, an order out of range, or
one more region. -/
theorem fdtParseRegion_cases (h : s.count<FDT_DOMAIN_REGION_MAX_COUNT) :
    (¬t.Sized r ∧ fdtParseRegion t r access s=none) ∨
    (t.Sized r ∧ ¬t.Regular x r ∧ ∃ region,
      fdtParseRegion t r access s=some (SBI_EINVAL,s.write region)) ∨
    (t.Regular x r ∧ fdtParseRegion t r access s=
      some (SBI_OK,{ s.write (regionOf x t r access) with count := s.count+1 })) := by
  rw [fdtParseRegion,if_neg (not_le.mpr h)]
  dsimp only
  rw [if_neg (not_missing_long .base (by decide))]
  by_cases hb : ∃ v,t.getprop r .base=some v ∧ 8≤v.length
  · obtain ⟨v,hv,hlen⟩ := hb
    rw [hv,readCell_eq (show 4*0+4≤v.length by omega),readCell_eq (show 4*1+4≤v.length by omega)]
    simp only [Option.bind_eq_bind,Option.bind_some]
    rw [if_neg (not_missing_long .order (by decide))]
    by_cases ho : ∃ v,t.getprop r .order=some v ∧ 4≤v.length
    · obtain ⟨w,hw,hwlen⟩ := ho
      have hsized : t.Sized r := ⟨⟨v,hv,hlen⟩,⟨w,hw,hwlen⟩⟩
      have horder : t.orderOf r=(fdt32 w 0).toNat := by rw [Fdt.orderOf,hw]; rfl
      rw [hw,readCell_eq (show 4*0+4≤w.length by omega)]
      simp only [Option.bind_some]
      by_cases hrange : (fdt32 w 0).toNat<3 ∨ x.bits<(fdt32 w 0).toNat
      · rw [if_pos hrange]
        refine .inr (.inl ⟨hsized,?_,_,rfl⟩)
        intro hr
        have h1 := hr.order_ge
        have h2 := hr.order_le
        omega
      · rw [if_neg hrange]
        refine .inr (.inr ⟨⟨hsized,by omega,by omega⟩,?_⟩)
        rw [regionOf,Fdt.baseOf,hv,horder,BitVec.ofNat_toNat]
        rfl
    · refine .inl ⟨fun hs => ho hs.order,?_⟩
      rw [readCell_none ho]
      rfl
  · refine .inl ⟨fun hs => hb hs.base,?_⟩
    rw [readCell_none (k := 1) hb]
    cases readCell (t.getprop r .base) 0 <;> rfl

end Parse

section Iteration

variable {t : Fdt} {d : Nat}

/-- The entries from `i` to `j` name regions of the binding. -/
def Fdt.AllRegular (x : Xlen) (t : Fdt) (d i j : Nat) : Prop :=
  ∀ k,i≤k → k<j → ∃ q,t.Names d k q ∧ t.Regular x q

theorem Fdt.AllRegular.cons {i j r : Nat} (hn : t.Names d i r) (hr : t.Regular x r)
    (h : t.AllRegular x d (i+1) j) : t.AllRegular x d i j := by
  intro k hik hkj
  rcases hik.eq_or_lt with rfl | hlt
  · exact ⟨r,hn,hr⟩
  · exact h k hlt hkj

/-- The iteration from entry `i` on stops with a read outside a property, or it reads sized nodes only
and ends. -/
theorem entryLoop_parse {s : RegionTable x} {n i : Nat} (hi : i+n=t.regionCount d) (hs : s.count=i)
    (hroom : i≤FDT_DOMAIN_REGION_MAX_COUNT) :
    (entryLoop t d (fdtParseRegion t) n i s=none ∧ ∃ j r,i≤j ∧ t.Names d j r ∧
      j<FDT_DOMAIN_REGION_MAX_COUNT ∧ t.AllRegular x d i j ∧ ¬t.Sized r) ∨
    ∃ e s',entryLoop t d (fdtParseRegion t) n i s=some (e,s') ∧
      s'.count≤FDT_DOMAIN_REGION_MAX_COUNT ∧
      (∀ j,FDT_DOMAIN_REGION_MAX_COUNT≤j → s'.regions j=s.regions j) ∧
      (e=SBI_OK → t.AllRegular x d i (i+n)) ∧
      ∀ j r,i≤j → t.Names d j r → j<FDT_DOMAIN_REGION_MAX_COUNT → t.AllRegular x d i j → t.Sized r := by
  induction n generalizing i s with
  | zero =>
    refine .inr ⟨SBI_OK,s,rfl,by omega,fun _ _ => rfl,fun _ k hik hk => by omega,?_⟩
    intro j r hij hn
    have := hn.1
    omega
  | succ n ih =>
    have hself : ∀ {j},i<j → t.AllRegular x d i j → ∃ q,t.Names d i q ∧ t.Regular x q :=
      fun hij hall => hall i le_rfl hij
    by_cases hnames : ∃ r,t.Names d i r
    · obtain ⟨r,hn⟩ := hnames
      rw [entryLoop_names hn]
      by_cases hfull : FDT_DOMAIN_REGION_MAX_COUNT ≤ s.count
      · rw [fdtParseRegion_full hfull]
        refine .inr ⟨SBI_EINVAL,s,rfl,by omega,fun _ _ => rfl,fun h => absurd h (by decide),?_⟩
        intro j r' hij _ hj
        omega
      · have hlt := not_le.mp hfull
        have hkeep : ∀ region j,FDT_DOMAIN_REGION_MAX_COUNT≤j →
            (s.write region).regions j=s.regions j :=
          fun region j hj => Function.update_of_ne (by omega) _ _
        rcases @fdtParseRegion_cases x t r (t.regionAccess d i) s hlt with
          ⟨hsized,hrun⟩ | ⟨hsized,hreg,region,hrun⟩ | ⟨hreg,hrun⟩
        · rw [hrun]
          exact .inl ⟨rfl,i,r,le_rfl,hn,by omega,fun k h1 h2 => by omega,hsized⟩
        · rw [hrun]
          refine .inr ⟨SBI_EINVAL,s.write region,rfl,hlt.le,hkeep region,
            fun h => absurd h (by decide),?_⟩
          intro j r' hij hn' _ hall
          rcases hij.eq_or_lt with rfl | hlt'
          · exact hn.unique hn' ▸ hsized
          · obtain ⟨q,hq,hregq⟩ := hself hlt' hall
            exact absurd (hn.unique hq ▸ hregq) hreg
        · rw [hrun,Option.bind_some]
          simp only [ne_eq,not_true_eq_false,if_false]
          rcases ih (s := ⟨(s.write (regionOf x t r (t.regionAccess d i))).regions,s.count+1⟩)
            (i := i+1) (by omega) (by rw [← hs]) (by omega) with
            ⟨hnone,j,q,hij,hnq,hj,hall,hsized⟩ | ⟨e,s',hsome,hcount,hframe,hok,hread⟩
          · exact .inl ⟨hnone,j,q,by omega,hnq,hj,hall.cons hn hreg,hsized⟩
          · refine .inr ⟨e,s',hsome,hcount,fun j hj => (hframe j hj).trans (hkeep _ j hj),?_,?_⟩
            · intro he
              rw [← Nat.succ_add_eq_add_succ]
              exact (hok he).cons hn hreg
            · intro j q hij hnq hj hall
              rcases hij.eq_or_lt with rfl | hlt'
              · exact hn.unique hnq ▸ hreg.toSized
              · exact hread j q hlt' hnq hj fun k h1 h2 => hall k (by omega) h2
    · have hno : ∀ r,¬t.Names d i r := fun r hn => hnames ⟨r,hn⟩
      obtain ⟨e,he,hrun⟩ := @entryLoop_error (RegionTable x) t d (fdtParseRegion t) n i
        (by omega) hno s
      refine .inr ⟨e,s,hrun,by omega,fun _ _ => rfl,fun h => absurd h he,?_⟩
      intro j r hij hn _ hall
      rcases hij.eq_or_lt with rfl | hlt
      · exact absurd hn (hno r)
      · obtain ⟨q,hq,-⟩ := hself hlt hall
        exact absurd hq (hno q)

/-- The iteration gets to entry `i` and reads its node `r`: the entries in front of it are regions of the
binding, and the row has room. -/
structure Fdt.Read (x : Xlen) (t : Fdt) (d i r : Nat) : Prop where
  domain : t.compatible d "opensbi,domain,instance"=true
  names : t.Names d i r
  room : i<FDT_DOMAIN_REGION_MAX_COUNT
  before : t.AllRegular x d 0 i

/-- What the iteration over the regions of an instance has to keep to: no read outside a property, an
error for a node that is not of the binding, no write behind the row. -/
structure RegionsSafe (x : Xlen) (t : Fdt) (d : Nat) : Prop where
  reads : (fdtParseRegions x t d).isSome=true
  rejects : ∀ i r,t.Read x d i r → ¬t.Regular x r →
    ∃ e s,fdtParseRegions x t d=some (e,s) ∧ e≠SBI_OK
  capacity : ∀ e s,fdtParseRegions x t d=some (e,s) → s.count≤FDT_DOMAIN_REGION_MAX_COUNT ∧
    ∀ j,FDT_DOMAIN_REGION_MAX_COUNT≤j → s.regions j=RegionTable.cleared.regions j

/-- The iteration over the regions of an instance is safe exactly when every node it gets to has a base
and an order of the length of the binding. -/
theorem fdtParseRegions_safe_iff (x : Xlen) (t : Fdt) (d : Nat) :
    RegionsSafe x t d ↔ ∀ i r,t.Read x d i r → t.Sized r := by
  by_cases hd : t.compatible d "opensbi,domain,instance"=true
  · have heq : fdtParseRegions x t d=entryLoop t d (fdtParseRegion t) (t.regionCount d) 0 .cleared :=
      fdtIterateEachMemregion_fixed hd _
    rcases entryLoop_parse (x := x) (s := .cleared) (n := t.regionCount d) (i := 0) (Nat.zero_add _) rfl
      (Nat.zero_le _) with ⟨hnone,j,r,-,hn,hj,hall,hsized⟩ | ⟨e,s,hsome,hcount,hframe,hok,hread⟩
    · rw [← heq] at hnone
      constructor
      · intro h
        have := h.reads
        rw [hnone] at this
        cases this
      · exact fun h => absurd (h j r ⟨hd,hn,hj,hall⟩) hsized
    · rw [← heq] at hsome
      refine iff_of_true ⟨by rw [hsome]; rfl,?_,?_⟩ fun i r hr =>
        hread i r (Nat.zero_le i) hr.names hr.room hr.before
      · intro i r hr hirr
        refine ⟨e,s,hsome,fun he => hirr ?_⟩
        obtain ⟨q,hq,hreg⟩ := hok he i (Nat.zero_le i) (by rw [Nat.zero_add]; exact hr.names.1)
        exact hr.names.unique hq ▸ hreg
      · intro e' s' h'
        rw [hsome] at h'
        cases h'
        exact ⟨hcount,hframe⟩
  · have heq : fdtParseRegions x t d=some (SBI_EINVAL,.cleared) := by
      have hd' : ((FdtAccess.fixed t : FdtAccess (RegionTable x)).tree .cleared).compatible d
          "opensbi,domain,instance"=false := Bool.not_eq_true _ ▸ hd
      rw [fdtParseRegions,fdtIterateEachMemregion,hd']
      rfl
    refine iff_of_true ⟨by rw [heq]; rfl,?_,?_⟩ ?_
    · exact fun i r hr => absurd hr.domain hd
    · intro e s h
      rw [heq] at h
      cases h
      exact ⟨Nat.zero_le _,fun _ _ => rfl⟩
    · exact fun i r hr => absurd hr.domain hd

end Iteration

/-- A domain with one region, whose node has an order and no base. -/
def baselessTree : Fdt :=
  [⟨0,[],[]⟩,
   ⟨1,cstr "chosen",[]⟩,
   ⟨2,cstr "opensbi-domains",[.prop .compatible (cstr "opensbi,domain,config" ++ [0])]⟩,
   ⟨3,cstr "tmem",[.prop .compatible (cstr "opensbi,domain,memregion" ++ [0]),
     .prop .order (cellBytes 12),.prop .phandle (cellBytes 1)]⟩,
   ⟨3,cstr "tdomain",[.prop .compatible (cstr "opensbi,domain,instance" ++ [0]),
     .prop .regions (cellBytes 1 ++ cellBytes 7)]⟩]

/-- The base of its region is read through a null pointer. -/
theorem baselessTree_unsafe : domainInstances baselessTree=[4] ∧ ¬RegionsSafe .rv64 baselessTree 4 := by
  refine ⟨by decide,?_⟩
  intro h
  exact absurd h.reads (by decide)

end OpenSBI
