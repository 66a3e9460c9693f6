import OpenSBI.Fdt.Layout

namespace OpenSBI

/-- The items with the first property of that name replaced. -/
def replaceProp (name : PropName) (f : List (BitVec 8) → List FdtItem) : List FdtItem → List FdtItem
  | [] => []
  | i::l =>
    match i.value name with
    | some v => f v++l
    | none => i::replaceProp name f l

namespace FdtNode

/-- `fdt_nop_property()`. -/
def nopProperty (name : PropName) (n : FdtNode) : FdtNode :=
  { n with items := replaceProp name (fun v => List.replicate (3+(v.length+3)/4) .nop) n.items }

/-- `fdt_setprop()` with room for the value: it replaces the property or puts it in front. -/
def setprop (name : PropName) (v : List (BitVec 8)) (n : FdtNode) : FdtNode :=
  if (n.getprop name).isSome then { n with items := replaceProp name (fun _ => [.prop name v]) n.items }
  else { n with items := .prop name v::n.items }

end FdtNode

section Items

variable {name name' : PropName} {f : List (BitVec 8) → List FdtItem} {l : List FdtItem}

/-- Another property is not changed. -/
theorem findSome?_replaceProp (hne : name'≠name) (hf : ∀ v,∀ i∈f v,i.value name'=none) :
    (replaceProp name f l).findSome? (FdtItem.value name')=l.findSome? (FdtItem.value name') := by
  induction l with
  | nil => rfl
  | cons i l ih =>
    rw [replaceProp]
    cases hi : i.value name with
    | none =>
      simp only [List.findSome?_cons,ih]
    | some v =>
      have hi' : i.value name'=none := by
        cases i with
        | nop => rfl
        | prop n w =>
          rw [FdtItem.value] at hi ⊢
          split_ifs at hi with hn
          subst hn
          exact if_neg (Ne.symm hne)
      simp only [List.findSome?_append,List.findSome?_cons,hi',
        List.findSome?_eq_none_iff.mpr (hf v),Option.none_or]

theorem findSome?_replaceProp_self {v : List (BitVec 8)}
    (h : (l.findSome? (FdtItem.value name)).isSome=true) :
    (replaceProp name (fun _ => [.prop name v]) l).findSome? (FdtItem.value name)=some v := by
  induction l with
  | nil => cases h
  | cons i l ih =>
    rw [replaceProp]
    cases hi : i.value name with
    | none =>
      rw [List.findSome?_cons,hi] at h
      simp only [List.findSome?_cons,hi]
      exact ih h
    | some w => simp [FdtItem.value]

theorem filter_replaceProp {p : FdtItem → Bool} (hp : ∀ v,p (.prop name v)=false)
    (hf : ∀ v,∀ i∈f v,p i=false) : (replaceProp name f l).filter p=l.filter p := by
  induction l with
  | nil => rfl
  | cons i l ih =>
    rw [replaceProp]
    cases hi : i.value name with
    | none => simp only [List.filter_cons,ih]
    | some v =>
      have hi' : p i=false := by
        cases i with
        | nop => cases hi
        | prop n w =>
          rw [FdtItem.value] at hi
          split_ifs at hi with hn
          subst hn
          exact hp w
      have hnil : (f v).filter p=[] := List.filter_eq_nil_iff.mpr fun i h => by simp [hf v i h]
      simp only [List.filter_append,hnil,List.nil_append,List.filter_cons,hi']
      rfl

end Items
/-! ## The part of a tree that the fixup leaves alone -/

/-- A property other than `status` and `opensbi-domain`. -/
def FdtItem.kept : FdtItem → Bool
  | .prop name _ => decide (name≠.status ∧ name≠.opensbiDomain)
  | .nop => false

def FdtNode.core (n : FdtNode) : FdtNode := { n with items := n.items.filter FdtItem.kept }

def Fdt.core (t : Fdt) : Fdt := t.map FdtNode.core

section Core

variable {n : FdtNode} {t : Fdt} {name : PropName}

theorem getprop_core (hs : name≠.status) (ho : name≠.opensbiDomain) :
    n.core.getprop name=n.getprop name := by
  simp only [FdtNode.getprop,FdtNode.core]
  induction n.items with
  | nil => rfl
  | cons i l ih =>
    cases hi : i.kept with
    | true => simp only [List.filter_cons,hi,if_true,List.findSome?_cons,ih]
    | false =>
      have hnone : i.value name=none := by
        cases i with
        | nop => rfl
        | prop name' v =>
          rw [FdtItem.value,if_neg]
          rintro rfl
          simp [FdtItem.kept,hs,ho] at hi
      simp only [List.filter_cons,hi,List.findSome?_cons,hnone]
      exact ih

theorem phandle_core : n.core.phandle=n.phandle := by
  rw [FdtNode.phandle,FdtNode.phandle,getprop_core (by decide) (by decide),
    getprop_core (by decide) (by decide)]

theorem compatible_core (s : String) : n.core.compatible s=n.compatible s := by
  rw [FdtNode.compatible,FdtNode.compatible,getprop_core (by decide) (by decide)]

namespace Fdt

theorem getprop_core (offset : Nat) (hs : name≠.status) (ho : name≠.opensbiDomain) :
    t.core.getprop offset name=t.getprop offset name := by
  rw [Fdt.getprop,Fdt.getprop,Fdt.core,List.getElem?_map]
  cases t[offset]? with
  | none => rfl
  | some n => exact OpenSBI.getprop_core hs ho

theorem compatible_core (offset : Nat) (s : String) : t.core.compatible offset s=t.compatible offset s := by
  rw [Fdt.compatible,Fdt.compatible,Fdt.core,List.getElem?_map]
  cases t[offset]? with
  | none => rfl
  | some n => exact OpenSBI.compatible_core s

theorem offsetByPhandle_core (c : BitVec 32) : t.core.offsetByPhandle c=t.offsetByPhandle c := by
  have hfind : t.core.findIdx? (fun n => n.phandle=c)=t.findIdx? (fun n => n.phandle=c) := by
    rw [Fdt.core,List.findIdx?_map]
    simp only [Function.comp_def,phandle_core]
  rw [Fdt.offsetByPhandle,Fdt.offsetByPhandle,hfind]

theorem offsetByCompatible_core (start : Nat) (s : String) :
    t.core.offsetByCompatible start s=t.offsetByCompatible start s := by
  have hfind : (t.core.drop (start+1)).findIdx? (fun n => n.compatible s)=
      (t.drop (start+1)).findIdx? (fun n => n.compatible s) := by
    rw [Fdt.core,← List.map_drop,List.findIdx?_map]
    simp only [Function.comp_def,OpenSBI.compatible_core]
  rw [Fdt.offsetByCompatible,Fdt.offsetByCompatible,hfind]

theorem children_core (d j : Nat) (l : List FdtNode) : children d j (l.map FdtNode.core)=children d j l := by
  induction l generalizing j with
  | nil => rfl
  | cons n l ih =>
    rw [List.map_cons,children,children,ih]
    rfl

theorem subnodes_core (parent : Nat) : t.core.subnodes parent=t.subnodes parent := by
  rw [Fdt.subnodes,Fdt.subnodes,Fdt.core,List.getElem?_map,← List.map_drop]
  cases t[parent]? with
  | none => rfl
  | some n => exact children_core _ _ _

theorem pathOffset_core (name : String) : t.core.pathOffset name=t.pathOffset name := by
  have hname : (fun j : Nat => t.core[j]?.any fun n : FdtNode => n.nameEq (cstr name))=
      fun j : Nat => t[j]?.any fun n : FdtNode => n.nameEq (cstr name) := by
    funext j
    rw [Fdt.core,List.getElem?_map,Option.any_map]
    rfl
  rw [Fdt.pathOffset,Fdt.pathOffset,subnodes_core,hname]

theorem domainInstances_core : domainInstances t.core=domainInstances t := by
  unfold domainInstances
  simp only [pathOffset_core,offsetByCompatible_core,subnodes_core,compatible_core]

theorem names_core {d i r : Nat} : t.core.Names d i r ↔ t.Names d i r := by
  simp only [Fdt.Names,Fdt.regionCount,Fdt.regionPhandle,offsetByPhandle_core,compatible_core,
    getprop_core d (show PropName.regions≠.status by decide) (by decide)]

end Fdt
end Core
end OpenSBI
