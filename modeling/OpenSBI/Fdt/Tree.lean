import Mathlib.Data.BitVec
import OpenSBI.Riscv.Error
import OpenSBI.Riscv.SbiString

namespace OpenSBI

/-- The property names the firmware looks up, and all the other ones. -/
inductive PropName where
  | compatible
  | phandle
  | linuxPhandle
  | deviceType
  | reg
  | opensbiDomain
  | possibleHarts
  | regions
  | bootHart
  | nextArg1
  | nextAddr
  | nextMode
  | systemResetAllowed
  | base
  | order
  | mmio
  | devices
  | status
  | other (name : List (BitVec 8))
  deriving DecidableEq,Repr

/-- What stands behind the name of a node: its properties, and cells that were overwritten. -/
inductive FdtItem where
  | prop (name : PropName) (value : List (BitVec 8))
  | nop
  deriving DecidableEq,Repr

structure FdtNode where
  depth : Nat
  name : List (BitVec 8)
  items : List FdtItem
  deriving DecidableEq,Repr

/-- The nodes of a device tree in the order of the structure block. The offset of a node is its
place in the list. -/
abbrev Fdt := List FdtNode

def FDT_ERR_NOTFOUND : Int := 1
def FDT_ERR_BADPHANDLE : Int := 6

/-- The big-endian cell at byte `i` of a property value; the padding of a value is zero. -/
def cellAt (value : List (BitVec 8)) (i : Nat) : BitVec 32 :=
  value.getD i 0 ++ value.getD (i+1) 0 ++ value.getD (i+2) 0 ++ value.getD (i+3) 0

/-- `fdt32_to_cpu(val[k])`. -/
def fdt32 (value : List (BitVec 8)) (k : Nat) : BitVec 32 := cellAt value (4*k)

/-- `fdt32_to_cpu(val[k])`; `none` is a read through a null pointer or past the end of the property. -/
def readCell (val : Option (List (BitVec 8))) (k : Nat) : Option (BitVec 32) :=
  val.bind fun v => if 4*k+4≤v.length then some (fdt32 v k) else none

theorem readCell_eq {v : List (BitVec 8)} {k : Nat} (h : 4*k+4≤v.length) :
    readCell (some v) k=some (fdt32 v k) := by
  rw [readCell,Option.bind_some,if_pos h]

theorem readCell_none {val : Option (List (BitVec 8))} {k : Nat}
    (h : ¬∃ v,val=some v ∧ 4*k+4≤v.length) : readCell val k=none := by
  cases val with
  | none => rfl
  | some v =>
    rw [readCell,Option.bind_some,if_neg]
    exact fun hk => h ⟨v,rfl,hk⟩

/-- The bytes of a cell, as they stand in the structure block. -/
def cellBytes (c : BitVec 32) : List (BitVec 8) :=
  [c.extractLsb' 24 8,c.extractLsb' 16 8,c.extractLsb' 8 8,c.extractLsb' 0 8]

section Cells

theorem length_cellBytes (c : BitVec 32) : (cellBytes c).length=4 := rfl

theorem length_flatMap_cellBytes (l : List (BitVec 32)) : (l.flatMap cellBytes).length=4*l.length := by
  induction l with
  | nil => rfl
  | cons c l ih =>
    rw [List.flatMap_cons,List.length_append,ih,length_cellBytes,List.length_cons]
    omega

theorem fdt32_append (l v : List (BitVec 8)) (k : Nat) (h : l.length%4=0) :
    fdt32 (l++v) (l.length/4+k)=fdt32 v k := by
  have hpos : 4*(l.length/4+k)=l.length+4*k := by omega
  rw [fdt32,cellAt,hpos,fdt32,cellAt]
  simp only [List.getD_eq_getElem?_getD,Nat.add_assoc]
  simp only [List.getElem?_append_right (Nat.le_add_right _ _),Nat.add_sub_cancel_left]

theorem fdt32_cellBytes (c : BitVec 32) (v : List (BitVec 8)) : fdt32 (cellBytes c++v) 0=c := by
  apply BitVec.eq_of_getLsbD_eq
  intro i hi
  simp only [fdt32,cellAt,cellBytes,Nat.mul_zero,List.getD_eq_getElem?_getD,List.cons_append,
    List.nil_append,List.getElem?_cons_zero,List.getElem?_cons_succ,Option.getD_some,Nat.zero_add,
    BitVec.getLsbD_append,BitVec.getLsbD_extractLsb']
  split_ifs with h1 h2 h3
  · simp [h1]
  · simp only [show i-8<8 by omega,decide_true,Bool.true_and]
    congr 1
    omega
  · simp only [show i-8-8<8 by omega,decide_true,Bool.true_and]
    congr 1
    omega
  · simp only [show i-8-8-8<8 by omega,decide_true,Bool.true_and]
    congr 1
    omega

theorem fdt32_flatMap {l : List (BitVec 32)} {i : Nat} {c : BitVec 32} (h : l[i]?=some c)
    (v : List (BitVec 8)) : fdt32 (l.flatMap cellBytes++v) i=c := by
  induction l generalizing i with
  | nil => cases h
  | cons d l ih =>
    rw [List.flatMap_cons,List.append_assoc]
    cases i with
    | zero =>
      rw [← Option.some.inj h]
      exact fdt32_cellBytes d _
    | succ i =>
      rw [List.getElem?_cons_succ] at h
      have hshift := fdt32_append (cellBytes d) (l.flatMap cellBytes++v) i (by rw [length_cellBytes])
      rw [length_cellBytes,show 4/4+i=i+1 by omega] at hshift
      rw [hshift]
      exact ih h

end Cells

/-- The two cells from the first on as one number. -/
def fdt64 (value : List (BitVec 8)) : BitVec 64 := fdt32 value 0 ++ fdt32 value 1

def FdtItem.value (name : PropName) : FdtItem → Option (List (BitVec 8))
  | .prop n v => if n=name then some v else none
  | .nop => none

namespace FdtNode

/-- `fdt_getprop()`: the value of the first property of that name; its length is `len`. -/
def getprop (n : FdtNode) (name : PropName) : Option (List (BitVec 8)) :=
  n.items.findSome? (FdtItem.value name)

/-- `fdt_get_phandle()`. -/
def phandle (n : FdtNode) : BitVec 32 :=
  match (n.getprop .phandle).filter fun v => v.length=4 with
  | some v => fdt32 v 0
  | none =>
    match (n.getprop .linuxPhandle).filter fun v => v.length=4 with
    | some v => fdt32 v 0
    | none => 0

/-- `fdt_node_check_compatible()` returns 0. -/
def compatible (n : FdtNode) (s : String) : Bool :=
  (n.getprop .compatible).any fun v => (v.splitOn 0).contains (cstr s)

/-- `fdt_nodename_eq_()`. -/
def nameEq (n : FdtNode) (s : List (BitVec 8)) : Bool :=
  decide (s <+: n.name) && (decide (n.name.length=s.length) ||
    (!s.contains 64 && n.name.getD s.length 0==64))

end FdtNode

namespace Fdt

variable (t : Fdt)

/-- The offsets of the nodes `l`, the first of which is `j`, that are children at depth `d`. -/
def children (d : Nat) : Nat → List FdtNode → List Nat
  | _,[] => []
  | j,n::l =>
    if n.depth<d then []
    else if n.depth=d then j::children d (j+1) l
    else children d (j+1) l

/-- The nodes `fdt_for_each_subnode()` visits. -/
def subnodes (parent : Nat) : List Nat :=
  match t[parent]? with
  | some n => children (n.depth+1) (parent+1) (t.drop (parent+1))
  | none => []

/-- `fdt_getprop()`. -/
def getprop (offset : Nat) (name : PropName) : Option (List (BitVec 8)) :=
  t[offset]?.bind fun n => n.getprop name

/-- `fdt_node_check_compatible()` returns 0. -/
def compatible (offset : Nat) (s : String) : Bool := t[offset]?.any fun n => n.compatible s

/-- `fdt_path_offset()` of a path with one name. -/
def pathOffset (name : String) : Except Int Nat :=
  match (t.subnodes 0).find? fun j => t[j]?.any fun n => n.nameEq (cstr name) with
  | some j => .ok j
  | none => .error (-FDT_ERR_NOTFOUND)

/-- `fdt_node_offset_by_phandle()`. -/
def offsetByPhandle (phandle : BitVec 32) : Except Int Nat :=
  if phandle=0 ∨ phandle=BitVec.allOnes 32 then .error (-FDT_ERR_BADPHANDLE)
  else
    match t.findIdx? fun n => n.phandle=phandle with
    | some j => .ok j
    | none => .error (-FDT_ERR_NOTFOUND)

/-- `fdt_node_offset_by_compatible()`. -/
def offsetByCompatible (start : Nat) (s : String) : Except Int Nat :=
  match (t.drop (start+1)).findIdx? fun n => n.compatible s with
  | some j => .ok (start+1+j)
  | none => .error (-FDT_ERR_NOTFOUND)

/-- The length that `fdt_getprop()` reports, negative for a missing property. -/
def proplen (offset : Nat) (name : PropName) : Int :=
  match t.getprop offset name with
  | some v => v.length
  | none => -FDT_ERR_NOTFOUND

end Fdt

/-- `fdt_parse_hart_id()`. -/
def fdtParseHartId (t : Fdt) (cpuOffset : Nat) : Except Int (BitVec 32) :=
  match t.getprop cpuOffset .deviceType with
  | none => .error SBI_EINVAL
  | some type =>
    if type.length=0 ∨ ¬cstr "cpu" <+: type then .error SBI_EINVAL
    else
      match t.getprop cpuOffset .reg with
      | none => .error SBI_EINVAL
      | some reg =>
        if reg.length<4 then .error SBI_EINVAL
        else if 4<reg.length then .ok (fdt32 reg 1)
        else .ok (fdt32 reg 0)

end OpenSBI
