import OpenSBI.Fdt.Address
import OpenSBI.Fdt.Edit
import Mathlib.Data.List.Find

namespace OpenSBI

def FDT_ERR_EXISTS : Int := 2

namespace Fdt

variable (t : Fdt)

/-- The tree with nodes put behind node `p`. -/
def insertBehind (p : Nat) (new : List FdtNode) : Fdt := t.take (p+1)++new++t.drop (p+1)

/-- `fdt_add_subnode()` with room for the node, which goes in front of the other children. -/
def addSubnode (parent : Nat) (name : List (BitVec 8)) : Except Int (Nat×Fdt) :=
  match t[parent]? with
  | none => .error (-FDT_ERR_BADOFFSET)
  | some n =>
    if (t.subnodes parent).any fun j => t[j]?.any fun m => m.nameEq name then .error (-FDT_ERR_EXISTS)
    else .ok (parent+1,t.insertBehind parent [⟨n.depth+1,name,[]⟩])

/-- `fdt_setprop()` with room for the value. -/
def setprop (offset : Nat) (name : PropName) (v : List (BitVec 8)) : Fdt :=
  t.modify offset (FdtNode.setprop name v)

/-- Every node is at most one level below the one in front of it. -/
def Nested : Prop := t.IsChain fun n m => m.depth ≤ n.depth+1

instance : Decidable t.Nested := inferInstanceAs (Decidable (t.IsChain fun n m => m.depth ≤ n.depth+1))

/-- The children at depth `d` in front of the first node that is not below their parent. -/
def childNodes (d : Nat) (l : List FdtNode) : List FdtNode :=
  (l.takeWhile fun n => decide (d ≤ n.depth)).filter fun n => decide (n.depth=d)

end Fdt

section Setprop

variable {n : FdtNode} {name name' : PropName} {v : List (BitVec 8)}

theorem depth_setprop : (n.setprop name v).depth=n.depth := by
  rw [FdtNode.setprop]
  split <;> rfl

theorem name_setprop : (n.setprop name v).name=n.name := by
  rw [FdtNode.setprop]
  split <;> rfl

theorem getprop_setprop_self : (n.setprop name v).getprop name=some v := by
  rw [FdtNode.setprop]
  split
  · rename_i h
    exact findSome?_replaceProp_self h
  · simp [FdtNode.getprop,FdtItem.value]

theorem getprop_setprop_ne (hne : name'≠name) : (n.setprop name v).getprop name'=n.getprop name' := by
  have hitem : ∀ i∈[FdtItem.prop name v],i.value name'=none := by
    intro i hi
    rw [List.mem_singleton.mp hi,FdtItem.value,if_neg hne.symm]
  rw [FdtNode.setprop]
  split
  · exact findSome?_replaceProp hne fun _ => hitem
  · rw [FdtNode.getprop,List.findSome?_cons,hitem _ List.mem_cons_self,FdtNode.getprop]

end Setprop

section Children

variable {t : Fdt} {d j p : Nat} {l new : List FdtNode} {n : FdtNode}

theorem childNodes_cons (n : FdtNode) (l : List FdtNode) : Fdt.childNodes d (n::l)=
    if n.depth<d then [] else if n.depth=d then n::Fdt.childNodes d l else Fdt.childNodes d l := by
  unfold Fdt.childNodes
  split_ifs with h1 h2
  · rw [List.takeWhile_cons_of_neg (by simpa using h1)]
    rfl
  · rw [List.takeWhile_cons_of_pos (by simpa using h1),List.filter_cons_of_pos (by simpa using h2)]
  · rw [List.takeWhile_cons_of_pos (by simpa using h1),List.filter_cons_of_neg (by simpa using h2)]

theorem childNodes_append (h : ∀ n∈new,n.depth=d) : Fdt.childNodes d (new++l)=new++Fdt.childNodes d l := by
  induction new with
  | nil => rfl
  | cons n new ih =>
    have hn := h n List.mem_cons_self
    rw [List.cons_append,childNodes_cons,if_neg hn.not_lt,if_pos hn,ih fun m hm => h m (List.mem_cons_of_mem n hm)]
    rfl

/-- The offsets of the children lead to their nodes. -/
theorem map_children (h : t.drop j=l) :
    (Fdt.children d j l).map (fun i => t[i]?)=(Fdt.childNodes d l).map some := by
  induction l generalizing j with
  | nil => rfl
  | cons n l ih =>
    have hn : t[j]?=some n := by
      rw [← List.head?_drop,h]
      rfl
    have hl : t.drop (j+1)=l := by
      rw [← List.tail_drop,h]
      rfl
    rw [Fdt.children,childNodes_cons]
    split_ifs with h1 h2
    · rfl
    · rw [List.map_cons,List.map_cons,ih hl,hn]
    · exact ih hl

theorem children_bounds {i : Nat} (h : i∈Fdt.children d j l) : j ≤ i ∧ i < j+l.length := by
  induction l generalizing j with
  | nil => cases h
  | cons n l ih =>
    rw [Fdt.children] at h
    rw [List.length_cons]
    split_ifs at h with h1 h2
    · cases h
    · rcases List.mem_cons.mp h with rfl | h
      · omega
      · have := ih h
        omega
    · have := ih h
      omega

theorem nodup_children : (Fdt.children d j l).Nodup := by
  induction l generalizing j with
  | nil => exact List.nodup_nil
  | cons n l ih =>
    rw [Fdt.children]
    split_ifs
    · exact List.nodup_nil
    · refine List.nodup_cons.mpr ⟨fun h => ?_,ih⟩
      have := (children_bounds h).1
      omega
    · exact ih

theorem children_append (l l' : List FdtNode) : Fdt.children d j (l++l')=
    Fdt.children d j l++if l.all fun n => decide (d ≤ n.depth) then Fdt.children d (j+l.length) l' else [] := by
  induction l generalizing j with
  | nil => rfl
  | cons n l ih =>
    have hstep : j+1+l.length=j+(n::l).length := by
      rw [List.length_cons]
      omega
    rw [List.cons_append,Fdt.children,Fdt.children,ih,hstep,List.all_cons]
    by_cases hlow : n.depth<d
    · rw [if_pos hlow,if_pos hlow,decide_eq_false (Nat.not_le.mpr hlow)]
      rfl
    · rw [if_neg hlow,if_neg hlow,decide_eq_true (Nat.not_lt.mp hlow),Bool.true_and]
      by_cases hn : n.depth=d
      · rw [if_pos hn,if_pos hn,List.cons_append]
      · rw [if_neg hn,if_neg hn]

end Children

section Insert

variable {t : Fdt} {p : Nat} {new : List FdtNode} {pn : FdtNode}

theorem take_insertBehind (hp : t[p]?=some pn) : (t.insertBehind p new).take (p+1)=t.take (p+1) := by
  have hlt := (List.getElem?_eq_some_iff.mp hp).1
  rw [Fdt.insertBehind,List.append_assoc]
  exact List.take_left' (List.length_take_of_le hlt)

theorem drop_insertBehind (hp : t[p]?=some pn) : (t.insertBehind p new).drop (p+1)=new++t.drop (p+1) := by
  have hlt := (List.getElem?_eq_some_iff.mp hp).1
  rw [Fdt.insertBehind,List.append_assoc]
  exact List.drop_left' (List.length_take_of_le hlt)

/-- The nodes up to the place stay where they are. -/
theorem getElem?_insertBehind (hp : t[p]?=some pn) {i : Nat} (hi : i ≤ p) : (t.insertBehind p new)[i]?=t[i]? := by
  rw [← List.getElem?_take_of_lt (Nat.lt_succ_of_le hi),take_insertBehind hp,
    List.getElem?_take_of_lt (Nat.lt_succ_of_le hi)]

theorem insertBehind_insertBehind (hp : t[p]?=some pn) (new' : List FdtNode) :
    (t.insertBehind p new).insertBehind p new'=t.insertBehind p (new'++new) := by
  rw [Fdt.insertBehind,take_insertBehind hp,drop_insertBehind hp,Fdt.insertBehind]
  simp only [List.append_assoc]

theorem insertBehind_nil (t : Fdt) (p : Nat) : t.insertBehind p []=t := by
  rw [Fdt.insertBehind,List.append_nil,List.take_append_drop]

theorem setprop_insertBehind (hp : t[p]?=some pn) (n : FdtNode) (name : PropName) (v : List (BitVec 8)) :
    (t.insertBehind p (n::new)).setprop (p+1) name v=t.insertBehind p (n.setprop name v::new) := by
  rw [Fdt.setprop,List.modify_eq_take_drop,take_insertBehind hp,drop_insertBehind hp]
  unfold Fdt.insertBehind
  rw [List.append_assoc]
  rfl

theorem getprop_insertBehind (hp : t[p]?=some pn) {i : Nat} (hi : i ≤ p) (name : PropName) :
    (t.insertBehind p new).getprop i name=t.getprop i name := by
  rw [Fdt.getprop,getElem?_insertBehind hp hi,Fdt.getprop]

theorem addressCells_insertBehind (hp : t[p]?=some pn) {i : Nat} (hi : i ≤ p) :
    (t.insertBehind p new).addressCells i=t.addressCells i := by
  rw [Fdt.addressCells,Fdt.addressCells,Fdt.fdtCells,Fdt.fdtCells,getprop_insertBehind hp hi]

theorem sizeCells_insertBehind (hp : t[p]?=some pn) {i : Nat} (hi : i ≤ p) :
    (t.insertBehind p new).sizeCells i=t.sizeCells i := by
  rw [Fdt.sizeCells,Fdt.sizeCells,Fdt.fdtCells,Fdt.fdtCells,getprop_insertBehind hp hi]

/-- The offsets `fdt_for_each_subnode()` visits lead to the children. -/
theorem map_subnodes (hp : t[p]?=some pn) :
    (t.subnodes p).map (fun i => t[i]?)=(Fdt.childNodes (pn.depth+1) (t.drop (p+1))).map some := by
  rw [Fdt.subnodes,hp]
  exact map_children rfl

theorem nodup_subnodes : (t.subnodes p).Nodup := by
  rw [Fdt.subnodes]
  split
  · exact nodup_children
  · exact List.nodup_nil

theorem addSubnode_eq (hp : t[p]?=some pn) (name : List (BitVec 8)) : t.addSubnode p name=
    if (Fdt.childNodes (pn.depth+1) (t.drop (p+1))).any fun n => n.nameEq name then .error (-FDT_ERR_EXISTS)
    else .ok (p+1,t.insertBehind p [⟨pn.depth+1,name,[]⟩]) := by
  have hany : (t.subnodes p).any (fun j => t[j]?.any fun n => n.nameEq name)=
      (Fdt.childNodes (pn.depth+1) (t.drop (p+1))).any fun n => n.nameEq name := by
    have hmap := congrArg (fun l => l.any fun o : Option FdtNode => o.any fun n => n.nameEq name) (map_subnodes hp)
    simpa only [List.any_map,Function.comp_def,Option.any_some] using hmap
  rw [Fdt.addSubnode,hp]
  simp only [hany]

theorem addSubnode_error {name : List (BitVec 8)} {e : Int} (h : t.addSubnode p name=.error e) : e≠0 := by
  rw [Fdt.addSubnode] at h
  split at h
  · cases h
    decide
  · split_ifs at h
    cases h
    decide

theorem pathOffset_node {name : String} (h : t.pathOffset name=.ok p) : ∃ n,t[p]?=some n := by
  unfold Fdt.pathOffset at h
  split at h
  · rename_i hfind
    cases h
    have hany := List.find?_some hfind
    cases hn : t[p]? with
    | none =>
      rw [hn] at hany
      cases hany
    | some n => exact ⟨n,rfl⟩
  · cases h

/-- A child of the root is found as before when nodes go below it. -/
theorem pathOffset_insertBehind {name : String} {root : FdtNode} (hroot : t[0]?=some root)
    (h : t.pathOffset name=.ok p) : (t.insertBehind p new).pathOffset name=.ok p := by
  have hfind : (t.subnodes 0).find? (fun j => t[j]?.any fun n => n.nameEq (cstr name))=some p := by
    unfold Fdt.pathOffset at h
    split at h
    · rename_i hj
      rw [hj,Except.ok.inj h]
    · cases h
  rw [Fdt.subnodes,hroot] at hfind
  dsimp only at hfind
  have hbounds := children_bounds (List.mem_of_find?_eq_some hfind)
  rw [List.length_drop] at hbounds
  obtain _ | ⟨r,rest⟩ := t
  · cases hroot
  have hlen : (rest.take p).length=p := by
    rw [List.length_cons] at hbounds
    rw [List.length_take]
    omega
  -- it is found among the nodes in front of the new ones
  have hfront : (Fdt.children (root.depth+1) 1 (rest.take p)).find?
      (fun j => (r::rest)[j]?.any fun n => n.nameEq (cstr name))=some p := by
    rw [List.drop_one,List.tail_cons,← List.take_append_drop p rest,children_append,List.find?_append,
      Option.or_eq_some_iff,List.take_append_drop] at hfind
    rcases hfind with hfront | ⟨-,hbehind⟩
    · exact hfront
    · have hmem := List.mem_of_find?_eq_some hbehind
      split_ifs at hmem
      · have := (children_bounds hmem).1
        omega
      · cases hmem
  have hnode : ∀ i∈Fdt.children (root.depth+1) 1 (rest.take p),
      ((Fdt.insertBehind (r::rest) p new)[i]?.any fun n => n.nameEq (cstr name))=
        (r::rest)[i]?.any fun n => n.nameEq (cstr name) := by
    intro i hi
    have hlast := (children_bounds hi).2
    have hlt : p<(r::rest).length := by
      rw [List.length_cons] at hbounds ⊢
      omega
    rw [getElem?_insertBehind (List.getElem?_eq_getElem hlt) (by omega)]
  have hdrop : (Fdt.insertBehind (r::rest) p new).drop 1=rest.take p++(new++rest.drop p) := List.append_assoc _ _ _
  rw [Fdt.pathOffset,Fdt.subnodes,show (Fdt.insertBehind (r::rest) p new)[0]?=some root from hroot]
  dsimp only
  rw [hdrop,children_append,List.find?_append,List.find?_congr hnode,hfront]
  rfl

/-- A node put behind the root is found. -/
theorem pathOffset_new {name : String} {root n : FdtNode} (hroot : t[0]?=some root)
    (hn : n.depth=root.depth+1) (hname : n.nameEq (cstr name)=true) :
    (t.insertBehind 0 [n]).pathOffset name=.ok 1 := by
  obtain _ | ⟨r,rest⟩ := t
  · cases hroot
  have htree : Fdt.insertBehind (r::rest) 0 [n]=r::n::rest := rfl
  rw [htree,Fdt.pathOffset,Fdt.subnodes,show (r::n::rest)[0]?=some root from hroot]
  dsimp only
  rw [List.drop_one,List.tail_cons,Fdt.children,if_neg hn.not_lt,if_pos hn,List.find?_cons_of_pos]
  exact hname

end Insert

end OpenSBI
