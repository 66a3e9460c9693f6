import OpenSBI.Domain.Memregion
import OpenSBI.Fdt.Edit

namespace OpenSBI

def DISABLE_DEVICES_MASK : BitVec 32 := (SBI_DOMAIN_MEMREGION_READABLE |||
  SBI_DOMAIN_MEMREGION_WRITEABLE ||| SBI_DOMAIN_MEMREGION_EXECUTABLE : Word .rv32)

def INT32_MAX : Nat := 2^31-1

/-- `FDT_TAGALIGN()`. -/
def fdtTagalign (n : Nat) : Nat := (n+3)/4*4

/-- The value of `"disabled"` as a property. -/
def disabledValue : List (BitVec 8) := cstr "disabled" ++ [0]

/-- A device tree blob with its blocks in the order of the format. `used` is `fdt_data_size_()`, and `named`
is whether the strings block has `"status"`. -/
structure Blob where
  tree : Fdt
  totalsize : BitVec 32
  used : Nat
  named : Bool

namespace Blob

/-- `fdt_splice_()`; `none` is `FDT_ERR_NOSPACE`. -/
def splice (b : Blob) (oldlen newlen : Nat) : Option Blob :=
  if b.totalsize.toNat<b.used-oldlen+newlen then none
  else some { b with used := b.used-oldlen+newlen }

/-- `fdt_find_add_string_()` of `"status"`. -/
def findAddString (b : Blob) : Option Blob :=
  if b.named then some b else (b.splice 0 7).map fun b => { b with named := true }

/-- The space for the value in `fdt_setprop_placeholder()`. -/
def setpropPlaceholder (b : Blob) (coff : Nat) : Option Blob :=
  match b.tree.getprop coff .status with
  | some v => b.splice (fdtTagalign v.length) (fdtTagalign disabledValue.length)
  | none => b.findAddString.bind fun b => b.splice 0 (12+fdtTagalign disabledValue.length)

/-- `fdt_setprop_string(fdt, coff, "status", "disabled")`; nothing looks at its result. -/
def setDisabled (b : Blob) (coff : Nat) : Blob :=
  match b.setpropPlaceholder coff with
  | some b' => { b' with tree := b.tree.modify coff (FdtNode.setprop .status disabledValue) }
  | none => b

/-- `fdt_open_into()` of the blob onto itself. From `INT32_MAX` bytes on no later call takes the blob. -/
def openInto (b : Blob) (bufsize : BitVec 32) : Option Blob :=
  if bufsize<b.totalsize ∨ INT32_MAX≤bufsize.toNat then none else some { b with totalsize := bufsize }

/-- A property is read where it was when `fdt_getprop()` returned the pointer. -/
def access (L : FdtLayout) : FdtAccess Blob where
  tree b := b.tree
  cell b offset name b' k := L.read b'.tree (L.position b.tree offset name+k)

end Blob

/-- `__fixup_find_domain_offset()`; the state is `*fdo->doffset`. -/
def fixupFindDomainOffset (t : Fdt) (name : List (BitVec 8)) (doff : Nat) (doffset : Option Nat) :
    Option (Int×Option Nat) :=
  some (0,if t[doff]?.any fun n => decide (name <+: n.name) then some doff else doffset)

/-- The instance with the name of the domain. -/
def Fdt.findDomain (t : Fdt) (name : List (BitVec 8)) : Option Nat :=
  (fdtIterateEachDomain t (fixupFindDomainOffset t name) none).bind Prod.snd

/-- `__fixup_count_disable_devices()`. -/
def fixupCountDisableDevices (t : Fdt) (roff : Nat) (perm dcount : BitVec 32) : Option (Int×BitVec 32) :=
  if perm &&& DISABLE_DEVICES_MASK≠0 then some (0,dcount)
  else
    match t.getprop roff .devices with
    | some v => some (0,dcount+BitVec.ofNat 32 (v.length/4))
    | none => some (0,dcount)

/-- The loop over the devices of a region from device `i` on, `n` devices; `devices` is the pointer. -/
def disableLoop (devices : Blob → Nat → BitVec 32) : Nat → Nat → Blob → Int×Blob
  | 0,_,b => (0,b)
  | n+1,i,b =>
    match b.tree.offsetByPhandle (devices b i) with
    | .error e => (e,b)
    | .ok coff => disableLoop devices n (i+1) (b.setDisabled coff)

section Fixup

variable (L : FdtLayout)

/-- `__fixup_disable_devices()`. -/
def fixupDisableDevices (roff : Nat) (raccess : BitVec 32) (b : Blob) : Option (Int×Blob) :=
  if raccess &&& DISABLE_DEVICES_MASK≠0 then some (0,b)
  else
    match b.tree.getprop roff .devices with
    | none => some (0,b)
    | some v => some (disableLoop ((Blob.access L).cell b roff .devices) (v.length/4) 0 b)

/-- The loop over the CPU nodes. -/
def nopDomains : List Nat → Fdt → Fdt
  | [],t => t
  | doffset::l,t =>
    match fdtParseHartId t doffset with
    | .error _ => nopDomains l t
    | .ok _ => nopDomains l (t.modify doffset (FdtNode.nopProperty .opensbiDomain))

/-- The steps of `fdt_domain_fixup()` that the root domain skips; `none` is the return behind
`fdt_open_into()`. -/
def fixupDisable (name : List (BitVec 8)) (b : Blob) : Option Blob :=
  match b.tree.findDomain name with
  | none => some b
  | some doffset =>
    let dcount := ((fdtIterateEachMemregion (.fixed b.tree) (fixupCountDisableDevices b.tree)
      doffset 0).map Prod.snd).getD 0
    if dcount=0 then some b
    else
      match b.openInto (b.totalsize+dcount*32) with
      | none => none
      | some b =>
        match b.tree.findDomain name with
        | none => some b
        | some doffset =>
          some (((fdtIterateEachMemregion (Blob.access L) (fixupDisableDevices L) doffset b).map
            Prod.snd).getD b)

/-- `fdt_domain_fixup()` for a domain with that index and name. The second part of the result is the node that
`fdt_nop_node()` overwrites at the end; in the tree it still stands. -/
def fdtDomainFixup (index : Nat) (name : List (BitVec 8)) (b : Blob) : Blob×Option Nat :=
  match b.tree.pathOffset "cpus" with
  | .error _ => (b,none)
  | .ok cpus =>
    let b := { b with tree := nopDomains (b.tree.subnodes cpus) b.tree }
    match if index=0 then some b else fixupDisable L name b with
    | none => (b,none)
    | some b =>
      match b.tree.pathOffset "chosen" with
      | .error _ => (b,none)
      | .ok chosen => (b,(b.tree.offsetByCompatible chosen "opensbi,domain,config").toOption)

end Fixup
end OpenSBI
