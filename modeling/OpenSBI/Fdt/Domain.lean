import OpenSBI.Domain.Boot
import OpenSBI.Fdt.Region

namespace OpenSBI

variable {x : Xlen}

def FDT_DOMAIN_MAX_COUNT : Nat := 8

/-- The address of `fdt_domains[k]`. -/
def fdtDomains (k : Nat) : Nat := k+1

/-- What `__fdt_parse_domain()` finds around it: the platform, the firmware region, the current hart with
its scratch space, and `*cold_domain_offset`, `none` for a negative one. -/
structure PopulateEnv (x : Xlen) where
  plat : Platform
  scratch : FwScratch x
  coldHartid : Nat
  coldDomain : Option Nat

/-- The domains with `fdt_domains_count`. -/
structure FdtDomains (x : Xlen) where
  table : DomainTable x
  count : Nat

/-- The loop over the cells of `possible-harts`. -/
def possibleLoop (t : Fdt) : List (BitVec 32) → Hartmask → Except Int Hartmask
  | [],m => .ok m
  | c::l,m => do
    let cpu ← t.offsetByPhandle c
    let hartid ← fdtParseHartId t cpu
    possibleLoop t l (sbiHartmaskSetHart hartid.toNat m)

/-- The cells of a property that is a list of phandles. -/
def Fdt.cells (t : Fdt) (offset : Nat) (name : PropName) : List (BitVec 32) :=
  match t.getprop offset name with
  | some v => (List.range (v.length/4)).map (fdt32 v)
  | none => []

/-- A region that grants lower privilege modes nothing. -/
def Memregion.noAccess (r : Memregion x) : Bool :=
  decide (r.flags &&& SBI_DOMAIN_MEMREGION_READABLE=0) &&
    decide (r.flags &&& SBI_DOMAIN_MEMREGION_WRITEABLE=0) &&
    decide (r.flags &&& SBI_DOMAIN_MEMREGION_EXECUTABLE=0)

/-- The loop that copies regions of the root domain. -/
def copyRoot : List (Memregion x) → RegionTable x → Int×RegionTable x
  | [],s => (SBI_OK,s)
  | reg::l,s =>
    if !reg.noAccess then copyRoot l s
    else if FDT_DOMAIN_REGION_MAX_COUNT ≤ s.count then (SBI_EINVAL,s)
    else copyRoot l { s.write reg with count := s.count+1 }

section Read

variable (env : PopulateEnv x) (t : Fdt) (d : Nat)

/-- The value of a property with at least `n` bytes. -/
def longProp (offset : Nat) (name : PropName) (n : Nat) : Option (List (BitVec 8)) :=
  (t.getprop offset name).filter fun v => n≤v.length

def bootHartOf : BitVec 32 :=
  match longProp t d .bootHart 4 with
  | some v =>
    match t.offsetByPhandle (fdt32 v 0) with
    | .ok cpu => (fdtParseHartId t cpu).toOption.getD (BitVec.allOnes 32)
    | .error _ => BitVec.allOnes 32
  | none => if env.coldDomain=some d then BitVec.ofNat 32 env.coldHartid else BitVec.allOnes 32

/-- The 64-bit properties `next-arg1` and `next-addr`; `cold` is the default of the cold boot domain. -/
def nextOf (name : PropName) (cold : Word x) : Word x :=
  match longProp t d name 8 with
  | some v => (fdt64 v).setWidth x.bits
  | none => if env.coldDomain=some d then cold else 0

def nextModeOf : Nat :=
  match longProp t d .nextMode 4 with
  | some v => if fdt32 v 0=0 then 0 else 1
  | none => if env.coldDomain=some d then env.scratch.nextMode else 1

/-- The domain that `__fdt_parse_domain()` reads from node `d`; `root` are the regions of the root
domain. -/
def fdtReadDomain (root : List (Memregion x)) : Option (Except Int (SbiDomain x)) :=
  match possibleLoop t (t.cells d .possibleHarts) sbiHartmaskClearAll with
  | .error e => some (.error e)
  | .ok mask => do
    let r ← fdtParseRegions x t d
    if r.1≠SBI_OK then some (.error r.1)
    else
      let c := copyRoot root r.2
      if c.1≠SBI_OK then some (.error c.1)
      else some (.ok {
        index := 0
        assignedHarts := sbiHartmaskClearAll
        possibleHarts := some mask
        regions := some ((List.range (FDT_DOMAIN_REGION_MAX_COUNT+1)).map c.2.regions)
        bootHartid := (bootHartOf env t d).toNat
        nextArg1 := nextOf env t d .nextArg1 env.scratch.nextArg1
        nextAddr := nextOf env t d .nextAddr env.scratch.nextAddr
        nextMode := nextModeOf env t d
        systemResetAllowed := (t.getprop d .systemResetAllowed).isSome })

/-- The loop over the CPU nodes. -/
def assignLoop : List Nat → Hartmask → Except Int Hartmask
  | [],m => .ok m
  | cpu::l,m =>
    match fdtParseHartId t cpu with
    | .error _ => assignLoop l m
    | .ok hartid =>
      if SBI_HARTMASK_MAX_BITS≤hartid.toNat then assignLoop l m
      else
        match longProp t cpu .opensbiDomain 4 with
        | none => .error SBI_EINVAL
        | some v =>
          match t.offsetByPhandle (fdt32 v 0) with
          | .error e => .error e
          | .ok offset => assignLoop l (if offset=d then sbiHartmaskSetHart hartid.toNat m else m)

/-- `__fdt_parse_domain()`. A call that fails before the registration leaves `fdt_domains[k]` half
filled, which nothing looks at. -/
def fdtParseDomain (s : FdtDomains x) : Option (Int×FdtDomains x) :=
  if FDT_DOMAIN_MAX_COUNT ≤ s.count then some (SBI_EINVAL,s)
  else do
    match ← fdtReadDomain env t d (s.table.store ROOT).memregions with
    | .error e => some (e,s)
    | .ok dom =>
      match t.pathOffset "cpus" with
      | .error e => some (e,s)
      | .ok cpus =>
        match assignLoop t d (t.subnodes cpus) sbiHartmaskClearAll with
        | .error e => some (e,s)
        | .ok assignMask =>
          let p := fdtDomains s.count
          let r := sbiDomainRegister env.plat (rootFwRegion env.scratch) env.coldHartid
            { s.table with store := Function.update s.table.store p dom } p assignMask
          some (r.1,⟨r.2,s.count+1⟩)

end Read

/-- The domain of the cold boot hart, from the first CPU node with its id. -/
def coldDomainOffset (t : Fdt) (cpus coldHartid : Nat) : Option Nat :=
  match (t.subnodes cpus).find? fun cpu =>
      decide ((fdtParseHartId t cpu).toOption=some (BitVec.ofNat 32 coldHartid)) with
  | none => none
  | some cpu => (longProp t cpu .opensbiDomain 4).bind fun v => (t.offsetByPhandle (fdt32 v 0)).toOption

/-- `fdt_domains_populate()`. -/
def fdtDomainsPopulate (plat : Platform) (scratch : FwScratch x) (coldHartid : Nat) (t : Fdt)
    (s : FdtDomains x) : Option (Int×FdtDomains x) :=
  match t.pathOffset "cpus" with
  | .error e => some (e,s)
  | .ok cpus =>
    fdtIterateEachDomain t
      (fdtParseDomain ⟨plat,scratch,coldHartid,coldDomainOffset t cpus coldHartid⟩ t) s

end OpenSBI
