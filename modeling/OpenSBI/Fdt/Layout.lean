import Mathlib.Algebra.BigOperators.Group.List.Basic
import OpenSBI.Fdt.Iterate

namespace OpenSBI

section Place

variable {α : Type}

/-- Where segment `i` starts when the segments stand one behind the other. -/
def place (l : List (List α)) (i : Nat) : Nat := ((l.map List.length).take i).sum

theorem getElem?_place {l : List (List α)} {i k : Nat} {s : List α} {a : α} (hs : l[i]?=some s)
    (ha : s[k]?=some a) : l.flatten[place l i+k]?=some a := by
  obtain ⟨hi,rfl⟩ := List.getElem?_eq_some_iff.mp hs
  rw [place,← List.getElem?_drop,List.drop_sum_flatten,List.drop_eq_getElem_cons hi,List.flatten_cons]
  rw [List.getElem?_append_left (List.getElem?_eq_some_iff.mp ha).1,ha]

end Place

def FDT_BEGIN_NODE : BitVec 32 := 1
def FDT_PROP : BitVec 32 := 3
def FDT_NOP : BitVec 32 := 4

/-- What the tree does not say about its blob: the offsets of the property names, the end tags and
overwritten cells in front of a node, and the cells behind the last node. -/
structure FdtLayout where
  nameoff : PropName → BitVec 32
  between : Nat → List (BitVec 32)
  behind : Nat → BitVec 32

/-- The cells of a value, padded with zeros. -/
def valueCells (v : List (BitVec 8)) : List (BitVec 32) := (List.range ((v.length+3)/4)).map (fdt32 v)

section Cells

variable (L : FdtLayout)

def FdtItem.cells : FdtItem → List (BitVec 32)
  | .prop name v => FDT_PROP::BitVec.ofNat 32 v.length::L.nameoff name::valueCells v
  | .nop => [FDT_NOP]

/-- The begin tag with the name, and the items. -/
def FdtNode.parts (n : FdtNode) : List (List (BitVec 32)) :=
  (FDT_BEGIN_NODE::valueCells (n.name++[0]))::n.items.map (FdtItem.cells L)

/-- The first property of that name among the items. -/
def FdtNode.propIndex (n : FdtNode) (name : PropName) : Nat :=
  n.items.findIdx fun i => (i.value name).isSome

/-- The cells from the begin tag to a property value. -/
def FdtNode.propPlace (n : FdtNode) (name : PropName) : Nat := place (n.parts L) (n.propIndex name+1)+3

namespace FdtLayout

/-- The structure block, by nodes. -/
def segments (t : Fdt) : List (List (BitVec 32)) :=
  t.mapIdx fun i n => L.between i++(n.parts L).flatten

/-- Cell `p` of the structure block, or behind it. -/
def read (t : Fdt) (p : Nat) : BitVec 32 :=
  (L.segments t).flatten.getD p (L.behind (p-(L.segments t).flatten.length))

/-- Where the value of a property stands. -/
def position (t : Fdt) (offset : Nat) (name : PropName) : Nat :=
  place (L.segments t) offset+((L.between offset).length+
    ((t[offset]?.map fun n => n.propPlace L name).getD 0))

end FdtLayout
end Cells

section Position

variable {L : FdtLayout} {t : Fdt} {n : FdtNode} {name : PropName} {v : List (BitVec 8)}

theorem getElem?_propIndex (h : n.getprop name=some v) : n.items[n.propIndex name]?=some (.prop name v) := by
  unfold FdtNode.propIndex
  unfold FdtNode.getprop at h
  generalize n.items=items at h ⊢
  induction items with
  | nil => cases h
  | cons i l ih =>
    rw [List.findIdx_cons]
    rw [List.findSome?_cons] at h
    cases hi : i.value name with
    | none =>
      rw [hi] at h
      exact ih h
    | some w =>
      rw [hi] at h
      cases h
      cases i with
      | nop => cases hi
      | prop name' w' =>
        rw [FdtItem.value] at hi
        split_ifs at hi with hname
        cases hi
        subst hname
        rfl

/-- The value of a property is read at its place. -/
theorem read_position {offset k : Nat} (hn : t[offset]?=some n) (hv : n.getprop name=some v)
    (hk : k<(v.length+3)/4) : L.read t (L.position t offset name+k)=fdt32 v k := by
  have hpart : (n.parts L)[n.propIndex name+1]?=some ((FdtItem.prop name v).cells L) := by
    rw [FdtNode.parts,List.getElem?_cons_succ,List.getElem?_map,getElem?_propIndex hv]
    rfl
  have hcell : ((FdtItem.prop name v).cells L)[3+k]?=some (fdt32 v k) := by
    rw [Nat.add_comm]
    simp only [FdtItem.cells,List.getElem?_cons_succ,valueCells,List.getElem?_map,
      List.getElem?_range hk,Option.map_some]
  have hseg : (L.segments t)[offset]?=some (L.between offset++(n.parts L).flatten) := by
    rw [FdtLayout.segments,List.getElem?_mapIdx,hn]
    rfl
  have hnode : (L.between offset++(n.parts L).flatten)[(L.between offset).length+
      (n.propPlace L name+k)]?=some (fdt32 v k) := by
    rw [List.getElem?_append_right (Nat.le_add_right _ _),Nat.add_sub_cancel_left,FdtNode.propPlace,
      Nat.add_assoc]
    exact getElem?_place hpart hcell
  have hread := getElem?_place hseg hnode
  rw [FdtLayout.read,FdtLayout.position,hn,List.getD_eq_getElem?_getD]
  simp only [Option.map_some,Option.getD_some,Nat.add_assoc] at hread ⊢
  rw [hread]
  rfl

end Position
end OpenSBI
