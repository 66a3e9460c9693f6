import OpenSBI.Domain.RootMemregs

namespace OpenSBI

variable {x : Xlen} {plat : Platform} {fw : Memregion x} {finalized : Bool} {n count : Nat}
  {root : SbiDomain x} {reg : Memregion x}

/-- The checks of `sbi_domain_root_add_memregion()` in front of the place where it stores the
region. -/
def EntryRefused (finalized : Bool) (root : SbiDomain x) (count : Nat) (reg : Memregion x) :
    Prop :=
  root.regions=none ∨ finalized=true ∨ ROOT_REGION_MAX≤count ∨
    root.memregions.any (isRegionConflict reg)=true

/-- The number of addresses of all regions, counted with repetition. -/
def span (l : List (Memregion x)) : Nat := (l.map fun r => 2^r.order.toNat).sum

end OpenSBI
