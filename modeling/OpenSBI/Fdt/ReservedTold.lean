import OpenSBI.Fdt.ReservedMemory
import OpenSBI.Math.Picks

namespace OpenSBI

open Math

variable {x : Xlen}

/-! ## Ranges in cells -/

/-- The number in `n` cells from cell `k` on. -/
def cellsNat (v : List (BitVec 8)) (k n : Nat) : Nat :=
  (List.range n).foldl (fun acc i => acc*2^32+(fdt32 v (k+i)).toNat) 0

/-- A base in `na` cells with a size in `ns` cells behind it, read with other counts. -/
def reread (na ns na' ns' : Int) (base size : Nat) : Option (Nat×Nat) :=
  if 1≤na' ∧ 0≤ns' ∧ na+ns=na'+ns' then
    some ((base*2^(32*ns.toNat)+size)/2^(32*ns'.toNat),(base*2^(32*ns.toNat)+size)%2^(32*ns'.toNat))
  else none

/-- The range that a `reg` of one entry gives, with its size. -/
def FdtNode.regRange (na ns : Int) (n : FdtNode) : Option (Nat×Nat) :=
  (n.getprop .reg).bind fun v =>
    if 1≤na ∧ 0≤ns ∧ (v.length : Int)=4*(na+ns) then
      some (cellsNat v 0 na.toNat,cellsNat v na.toNat ns.toNat)
    else none

section Cells

variable {v : List (BitVec 8)}

theorem cellsNat_lt (k n : Nat) : cellsNat v k n<2^(32*n) := by
  induction n with
  | zero => exact Nat.one_pos
  | succ n ih =>
    have hc := (fdt32 v (k+n)).isLt
    have hpow : 2^(32*(n+1))=2^(32*n)*2^32 := by rw [Nat.mul_succ,pow_add]
    rw [cellsNat,List.range_succ,List.foldl_append,hpow]
    change cellsNat v k n*2^32+(fdt32 v (k+n)).toNat<_
    nlinarith

/-- The cells in front are the higher part. -/
theorem cellsNat_add (k a b : Nat) : cellsNat v k (a+b)=cellsNat v k a*2^(32*b)+cellsNat v (k+a) b := by
  induction b with
  | zero => simp [cellsNat]
  | succ b ih =>
    have hlast : ∀ k n,cellsNat v k (n+1)=cellsNat v k n*2^32+(fdt32 v (k+n)).toNat := by
      intro k n
      rw [cellsNat,List.range_succ,List.foldl_append]
      rfl
    rw [← Nat.add_assoc,hlast,ih,hlast,Nat.mul_succ,pow_add,Nat.add_assoc k a b]
    ring

/-- The number in all cells of a value. -/
theorem cellsNat_cellBytes (cells : List (BitVec 32)) :
    cellsNat (cells.flatMap cellBytes) 0 cells.length=cells.foldl (fun acc c => acc*2^32+c.toNat) 0 := by
  have hcells : (List.range cells.length).map (fdt32 (cells.flatMap cellBytes))=cells := by
    apply List.ext_getElem?
    intro i
    rcases Nat.lt_or_ge i cells.length with hi | hi
    · rw [List.getElem?_map,List.getElem?_range hi,Option.map_some,List.getElem?_eq_getElem hi]
      have hc := fdt32_flatMap (List.getElem?_eq_getElem hi) []
      rw [List.append_nil] at hc
      rw [hc]
    · rw [List.getElem?_eq_none (by simpa using hi),List.getElem?_eq_none hi]
  conv_rhs => rw [← hcells,List.foldl_map]
  simp only [cellsNat,Nat.zero_add]

theorem toNat_cells (a : Word x) : a.toNat=(highCell a).toNat*2^32+(lowCell a).toNat := by
  have hle : 2^x.bits≤2^64 := Nat.pow_le_pow_right (by decide) x.bits_le
  have hlt := a.isLt
  rw [highCell,lowCell,toU32,BitVec.toNat_setWidth,BitVec.toNat_setWidth,BitVec.toNat_ushiftRight,
    BitVec.toNat_setWidth,Nat.shiftRight_eq_div_pow]
  omega

/-- The cells of the value hold the base and the size, if these fit. -/
theorem foldl_resvCells {na ns : Int} (hna : na=1 ∨ na=2) (hns : ns=1 ∨ ns=2) {addr size : Word x}
    (haddr : addr.toNat<2^(32*na.toNat)) (hsize : size.toNat<2^(32*ns.toNat)) :
    (resvCells na ns addr size).foldl (fun acc c => acc*2^32+c.toNat) 0=addr.toNat*2^(32*ns.toNat)+size.toNat := by
  have ha := toNat_cells addr
  have hs := toNat_cells size
  rcases hna with rfl | rfl <;> rcases hns with rfl | rfl <;> simp [resvCells] at haddr hsize ⊢ <;> omega

theorem length_resvCells {na ns : Int} (hna : na=1 ∨ na=2) (hns : ns=1 ∨ ns=2) (addr size : Word x) :
    ((resvCells na ns addr size).length : Int)=na+ns := by
  rcases hna with rfl | rfl <;> rcases hns with rfl | rfl <;> rfl

theorem resvReg_eq {na ns : Int} (hna : na=1 ∨ na=2) (hns : ns=1 ∨ ns=2) (addr size : Word x) :
    resvReg na ns addr size=some ((resvCells na ns addr size).flatMap cellBytes) := by
  have hlen := length_resvCells hna hns addr size
  rw [resvReg,if_pos (by omega),List.take_of_length_le (by omega)]

/-- What a node with the written value is read as. -/
theorem regRange_written {na ns : Int} (hna : na=1 ∨ na=2) (hns : ns=1 ∨ ns=2) {addr size : Word x}
    (haddr : addr.toNat<2^(32*na.toNat)) (hsize : size.toNat<2^(32*ns.toNat)) {n : FdtNode}
    (hn : n.getprop .reg=some ((resvCells na ns addr size).flatMap cellBytes)) (na' ns' : Int) :
    n.regRange na' ns'=reread na ns na' ns' addr.toNat size.toNat := by
  have hlen := length_resvCells hna hns addr size
  have hfold := foldl_resvCells hna hns haddr hsize
  rw [FdtNode.regRange,hn,Option.bind_some,length_flatMap_cellBytes,reread]
  by_cases hcounts : 1≤na' ∧ 0≤ns' ∧ na+ns=na'+ns'
  · rw [if_pos hcounts,if_pos ⟨hcounts.1,hcounts.2.1,by omega⟩]
    have hall := cellsNat_add (v := (resvCells na ns addr size).flatMap cellBytes) 0 na'.toNat ns'.toNat
    rw [show na'.toNat+ns'.toNat=(resvCells na ns addr size).length by omega,cellsNat_cellBytes,hfold,
      Nat.zero_add] at hall
    have hlow := cellsNat_lt (v := (resvCells na ns addr size).flatMap cellBytes) na'.toNat ns'.toNat
    rw [hall,Nat.mul_comm,Nat.mul_add_div (Nat.two_pow_pos _),Nat.mul_add_mod,Nat.div_eq_of_lt hlow,
      Nat.mod_eq_of_lt hlow]
    rfl
  · rw [if_neg hcounts,if_neg]
    rintro ⟨h1,h2,h3⟩
    exact hcounts ⟨h1,h2,by omega⟩

end Cells

/-! ## What the next stage is told -/

/-- The regions without permission that are no devices. -/
def SbiDomain.protectedRegions (dom : SbiDomain x) : List (Memregion x) := dom.memregions.filter fun r => !r.shared

def Memregion.range (r : Memregion x) : Nat×Nat := (r.base.toNat,2^r.order.toNat)

/-- Each protected region has a child of the reserved memory node for itself, and the nodes there were are
unchanged: the new ones stand together, below the node in front of them. -/
structure ResvTold (dom : SbiDomain x) (t t' : Fdt) : Prop where
  told : ∃ parent,t'.pathOffset "reserved-memory"=.ok parent ∧ ∃ picks : List Nat,picks.Nodup ∧
    (∀ j∈picks,j∈t'.subnodes parent) ∧
    picks.map (fun j => t'[j]?.bind (FdtNode.regRange (t'.addressCells parent) (t'.sizeCells parent)))=
      dom.protectedRegions.map fun r => some r.range
  kept : ∃ p n new,t[p]?=some n ∧ t'=t.insertBehind p new ∧ ∀ m∈new,n.depth < m.depth

namespace Fdt

variable (t : Fdt)

/-- The children that the reserved memory node has already. -/
def resvChildren : List FdtNode :=
  match t.pathOffset "reserved-memory" with
  | .ok p => (t.subnodes p).filterMap fun j => t[j]?
  | .error _ => []

/-- The cell counts of the reserved memory node, which are those of the root if it is new. -/
def resvCounts : Int×Int :=
  match t.pathOffset "reserved-memory" with
  | .ok p => (t.addressCells p,t.sizeCells p)
  | .error _ => (t.addressCells 0,t.sizeCells 0)

end Fdt

section Told

variable (fails : ResvCall → Option Nat) (pmpCount : Nat) (t : Fdt)

/-- A call for the region fails, or a child has the name of its node already. -/
def resvRefused (index : Nat) (r : Memregion x) : Bool :=
  (fails (.addSubnode index)).isSome || (decide (pmpCount=0) && (fails (.setNoMap index)).isSome) ||
    (fails (.setReg index)).isSome || t.resvChildren.any fun n => n.nameEq (nodeName (t.addressCells 0) r.base index)

/-- What the node for a region is read as. The shift in its size wraps at the width. -/
def ownRange (r : Memregion x×Nat) : Option (Nat×Nat) :=
  if resvRefused fails pmpCount t r.2 r.1 then none
  else reread (t.addressCells 0) (t.sizeCells 0) t.resvCounts.1 t.resvCounts.2 r.1.base.toNat
    (2^(r.1.order.toNat%x.bits))

/-- The regions that their own nodes do not tell of, with their indices. -/
def missedRegions (dom : SbiDomain x) : List (Memregion x×Nat) :=
  dom.protectedRegions.zipIdx.filter fun r => decide (ownRange fails pmpCount t r≠some r.1.range)

/-- Each of these has another child for itself: one there was, or the node of another of these regions. -/
def MissedTold (dom : SbiDomain x) : Prop :=
  ((missedRegions fails pmpCount t dom).map fun r => r.1.range).Subperm
    ((missedRegions fails pmpCount t dom).filterMap (ownRange fails pmpCount t)++
      t.resvChildren.filterMap (FdtNode.regRange t.resvCounts.1 t.resvCounts.2))

end Told

/-! ## The run -/

section Run

variable (fails : ResvCall → Option Nat) (pmpCount : Nat) {t T : Fdt} {p : Nat} {pn : FdtNode}

/-- The reserved memory node of the tree that the loop starts with. -/
structure ResvPlace (t T : Fdt) (p : Nat) (pn : FdtNode) : Prop where
  node : T[p]?=some pn
  path : T.pathOffset "reserved-memory"=.ok p
  children : Fdt.childNodes (pn.depth+1) (T.drop (p+1))=t.resvChildren
  addressCells : T.addressCells 0=t.addressCells 0
  sizeCells : T.sizeCells 0=t.sizeCells 0
  counts : (T.addressCells p,T.sizeCells p)=t.resvCounts
  kept : ∀ new : List FdtNode,(∀ n∈new,n.depth=pn.depth+1) →
    ∃ q n new',t[q]?=some n ∧ T.insertBehind p new=t.insertBehind q new' ∧ ∀ m∈new',n.depth < m.depth

/-- The last call for a node. -/
theorem setReg_eq (hp : T[p]?=some pn) {na ns : Int} (hna : na=1 ∨ na=2) (hns : ns=1 ∨ ns=2) {addr size : Word x}
    (haddr : addr.toNat<2^(32*na.toNat)) (hsize : size.toNat<2^(32*ns.toNat)) (index : Nat) {n : FdtNode}
    (hn : n.getprop .reg=none) :
    ∃ e m,(match libfdt fails (.setReg index) (.ok ()) with
        | .error e => some (e,T.insertBehind p [n])
        | .ok _ => (resvReg na ns addr size).map fun reg => (0,(T.insertBehind p [n]).setprop (p+1) .reg reg))=
          some (e,T.insertBehind p [m]) ∧ m.depth=n.depth ∧ m.name=n.name ∧
      ∀ na' ns',m.regRange na' ns'=
        if (fails (.setReg index)).isSome then none else reread na ns na' ns' addr.toNat size.toNat := by
  rw [libfdt]
  cases fails (.setReg index) with
  | some e =>
    refine ⟨_,n,rfl,rfl,rfl,fun na' ns' => ?_⟩
    rw [FdtNode.regRange,hn]
    rfl
  | none =>
    have hset : n.setprop .reg ((resvCells na ns addr size).flatMap cellBytes)=
        { n with items := .prop .reg ((resvCells na ns addr size).flatMap cellBytes)::n.items } := by
      rw [FdtNode.setprop,hn]
      rfl
    refine ⟨0,n.setprop .reg ((resvCells na ns addr size).flatMap cellBytes),?_,?_,?_,fun na' ns' => ?_⟩
    · dsimp only
      rw [resvReg_eq hna hns,Option.map_some,setprop_insertBehind hp]
    · rw [hset]
    · rw [hset]
    · rw [hset,regRange_written hna hns haddr hsize]
      · rfl
      · simp [FdtNode.getprop,FdtItem.value]

/-- One region adds at most one node, which tells what it should be read as. -/
theorem updateNode_eq (hp : T[p]?=some pn) {na ns : Int} (hna : na=1 ∨ na=2) (hns : ns=1 ∨ ns=2)
    (hroot : T.addressCells 0=na ∧ T.sizeCells 0=ns) {addr size : Word x} (haddr : addr.toNat<2^(32*na.toNat))
    (hsize : size.toNat<2^(32*ns.toNat)) {index : Nat} (hi : index<16) (noMap : Bool) :
    ∃ e added,fdtResvMemoryUpdateNode fails T addr size index p noMap=some (e,T.insertBehind p added) ∧
      (∀ n∈added,n.depth=pn.depth+1 ∧ n.name=nodeName na addr index) ∧
      ∀ na' ns',added.filterMap (FdtNode.regRange na' ns')=
        (if (fails (.addSubnode index)).isSome || (noMap && (fails (.setNoMap index)).isSome) ||
            (fails (.setReg index)).isSome ||
            (Fdt.childNodes (pn.depth+1) (T.drop (p+1))).any (fun n => n.nameEq (nodeName na addr index)) then none
          else reread na ns na' ns' addr.toNat size.toNat).toList := by
  obtain ⟨rfl,rfl⟩ := hroot
  rw [fdtResvMemoryUpdateNode]
  simp only [resvName_eq (T.addressCells 0) addr hi,Option.bind_eq_bind,Option.bind_some,libfdt,addSubnode_eq hp]
  cases hadd : fails (.addSubnode index) with
  | some e => exact ⟨_,[],by rw [insertBehind_nil],List.forall_mem_nil _,by simp⟩
  | none =>
    dsimp only
    by_cases htaken : (Fdt.childNodes (pn.depth+1) (T.drop (p+1))).any
        (fun n => n.nameEq (nodeName (T.addressCells 0) addr index))=true
    · rw [if_pos htaken]
      exact ⟨_,[],by rw [insertBehind_nil],List.forall_mem_nil _,by simp [htaken]⟩
    · rw [if_neg htaken]
      have hfree := Bool.eq_false_of_not_eq_true htaken
      generalize nodeName (T.addressCells 0) addr index=name at hfree ⊢
      dsimp only
      cases noMap with
      | false =>
        obtain ⟨e,m,hm,hdepth,hname,hrange⟩ := setReg_eq fails hp hna hns haddr hsize index
          (show (⟨pn.depth+1,name,[]⟩ : FdtNode).getprop .reg=none from rfl)
        refine ⟨e,[m],hm,List.forall_mem_singleton.mpr ⟨hdepth,hname⟩,fun na' ns' => ?_⟩
        rw [filterMap_single,hrange,hfree]
        simp
      | true =>
        cases hmap : fails (.setNoMap index) with
        | some e =>
          refine ⟨_,[⟨pn.depth+1,name,[]⟩],rfl,List.forall_mem_singleton.mpr ⟨rfl,rfl⟩,fun na' ns' => ?_⟩
          rw [filterMap_single]
          rfl
        | none =>
          obtain ⟨e,m,hm,hdepth,hname,hrange⟩ := setReg_eq fails hp hna hns haddr hsize index
            (show (⟨pn.depth+1,name,[.prop .noMap []]⟩ : FdtNode).getprop .reg=none from rfl)
          refine ⟨e,[m],?_,List.forall_mem_singleton.mpr ⟨hdepth,hname⟩,fun na' ns' => ?_⟩
          · rw [← hm]
            simp only [if_true,setprop_insertBehind hp]
            rfl
          · rw [filterMap_single,hrange,hfree]
            simp

theorem Word.toNat_bit_mod (n : Nat) : (Word.bit n : Word x).toNat=2^(n%x.bits) := by
  have h := Word.toNat_bit (x := x) (Nat.mod_lt n x.bits_pos)
  rw [Word.bit,Word.shl,Nat.mod_mod] at h
  rw [Word.bit,Word.shl,h]

/-- The nodes that the loop puts in front of the children. -/
theorem resvLoop_eq (h : ResvPlace t T p pn) (hna : t.addressCells 0=1 ∨ t.addressCells 0=2)
    (hns : t.sizeCells 0=1 ∨ t.sizeCells 0=2) {l : List (Memregion x)} {i : Nat}
    (hcount : i+(l.filter fun r => !r.shared).length≤16)
    (hfit : ∀ r∈l,r.shared=false → r.base.toNat<2^(32*(t.addressCells 0).toNat) ∧
      2^r.order.toNat<2^(32*(t.sizeCells 0).toNat)) (news : List FdtNode)
    (hnews : ∀ n∈news,n.depth=pn.depth+1 ∧
      ∃ j < i,∃ r : Memregion x,n.name=nodeName (t.addressCells 0) r.base j) :
    ∃ nodes,resvLoop fails pmpCount p i l (T.insertBehind p news)=some (T.insertBehind p (nodes++news)) ∧
      (∀ n∈nodes,n.depth=pn.depth+1) ∧
      (nodes.filterMap (FdtNode.regRange t.resvCounts.1 t.resvCounts.2)).Perm
        (((l.filter fun r => !r.shared).zipIdx i).filterMap (ownRange fails pmpCount t)) := by
  induction l generalizing i news with
  | nil => exact ⟨[],rfl,List.forall_mem_nil _,.rfl⟩
  | cons reg rest ih =>
    have hrest : ∀ r∈rest,r.shared=false → _ := fun r hr => hfit r (List.mem_cons_of_mem reg hr)
    rw [resvLoop]
    cases hshared : reg.shared with
    | true =>
      rw [List.filter_cons_of_neg (by simp [hshared])] at hcount ⊢
      exact ih hcount hrest news hnews
    | false =>
      rw [List.filter_cons_of_pos (by simp [hshared])] at hcount ⊢
      rw [List.length_cons] at hcount
      obtain ⟨hbase,horder⟩ := hfit reg List.mem_cons_self hshared
      have hsize : (Word.bit reg.order.toNat : Word x).toNat<2^(32*(t.sizeCells 0).toNat) := by
        rw [Word.toNat_bit_mod]
        exact (Nat.pow_le_pow_right (by decide) (Nat.mod_le _ _)).trans_lt horder
      have hp : (T.insertBehind p news)[p]?=some pn := by rw [getElem?_insertBehind h.node le_rfl,h.node]
      have hroot : (T.insertBehind p news).addressCells 0=t.addressCells 0 ∧
          (T.insertBehind p news).sizeCells 0=t.sizeCells 0 := by
        rw [addressCells_insertBehind h.node (Nat.zero_le p),sizeCells_insertBehind h.node (Nat.zero_le p)]
        exact ⟨h.addressCells,h.sizeCells⟩
      obtain ⟨e,added,hrun,hadded,hrange⟩ := updateNode_eq fails hp hna hns hroot hbase hsize
        (show i<16 by omega) (decide (pmpCount=0))
      -- the names of the nodes so far have other indices
      have htaken : (Fdt.childNodes (pn.depth+1) ((T.insertBehind p news).drop (p+1))).any
            (fun n => n.nameEq (nodeName (t.addressCells 0) reg.base i))=
          t.resvChildren.any fun n => n.nameEq (nodeName (t.addressCells 0) reg.base i) := by
        rw [drop_insertBehind h.node,childNodes_append fun n hn => (hnews n hn).1,h.children,List.any_append]
        have hnone : news.any (fun n => n.nameEq (nodeName (t.addressCells 0) reg.base i))=false := by
          rw [List.any_eq_false]
          intro n hn hname
          obtain ⟨-,j,hj,r,hr⟩ := hnews n hn
          have hij := nodeName_inj ((nameEq_nodeName hname).symm.trans hr)
          omega
        rw [hnone,Bool.false_or]
      rw [insertBehind_insertBehind h.node] at hrun
      have hnews' : ∀ n∈added++news,n.depth=pn.depth+1 ∧
          ∃ j < i+1,∃ r : Memregion x,n.name=nodeName (t.addressCells 0) r.base j := by
        intro n hn
        rcases List.mem_append.mp hn with hn | hn
        · exact ⟨(hadded n hn).1,i,i.lt_succ_self,reg,(hadded n hn).2⟩
        · obtain ⟨hdepth,j,hj,r,hr⟩ := hnews n hn
          exact ⟨hdepth,j,hj.trans i.lt_succ_self,r,hr⟩
      obtain ⟨nodes,hloop,hdepth,hperm⟩ := ih (i := i+1) (by omega) hrest _ hnews'
      refine ⟨nodes++added,?_,?_,?_⟩
      · rw [if_neg (by simp),hrun,List.append_assoc]
        exact hloop
      · intro n hn
        rcases List.mem_append.mp hn with hn | hn
        · exact hdepth n hn
        · exact (hadded n hn).1
      · have hown : added.filterMap (FdtNode.regRange t.resvCounts.1 t.resvCounts.2)=
            (ownRange fails pmpCount t (reg,i)).toList := by
          rw [hrange,htaken,ownRange,resvRefused,Word.toNat_bit_mod]
        have hcons : ((reg,i)::(rest.filter fun r => !r.shared).zipIdx (i+1)).filterMap (ownRange fails pmpCount t)=
            (ownRange fails pmpCount t (reg,i)).toList++
              ((rest.filter fun r => !r.shared).zipIdx (i+1)).filterMap (ownRange fails pmpCount t) := by
          rw [← filterMap_single,← List.filterMap_append]
          rfl
        rw [List.filterMap_append,hown,List.zipIdx_cons,hcons]
        exact List.perm_append_comm.trans (hperm.append_left _)

theorem resvChildren_ok (hpath : t.pathOffset "reserved-memory"=.ok p) (hp : t[p]?=some pn) :
    t.resvChildren=Fdt.childNodes (pn.depth+1) (t.drop (p+1)) := by
  have hmap := congrArg (List.filterMap id) (map_subnodes hp)
  rw [List.filterMap_map,List.filterMap_map] at hmap
  rw [Fdt.resvChildren,hpath]
  exact hmap.trans List.filterMap_some

/-- A reserved memory node that there is stays as it is. -/
theorem ResvPlace.found (hpath : t.pathOffset "reserved-memory"=.ok p) (hp : t[p]?=some pn) :
    ResvPlace t t p pn where
  node := hp
  path := hpath
  children := (resvChildren_ok hpath hp).symm
  addressCells := rfl
  sizeCells := rfl
  counts := by rw [Fdt.resvCounts,hpath]
  kept new hnew := ⟨p,pn,new,hp,rfl,fun n hn => by rw [hnew n hn]; exact Nat.lt_succ_self _⟩

theorem counts_cellBytes {na : Int} (hna : na=1 ∨ na=2) : (cellBytes (BitVec.ofInt 32 na)).length=4 ∧
    ((fdt32 (cellBytes (BitVec.ofInt 32 na)) 0).toNat : Int)=na := by
  rcases hna with rfl | rfl <;> decide

/-- The count that a node declares. -/
theorem fdtCells_declared {n : FdtNode} {name : PropName} {c : Int} (hp : T[p]?=some n)
    (hn : n.getprop name=some (cellBytes (BitVec.ofInt 32 c))) (hc : c=1 ∨ c=2) : T.fdtCells p name=c := by
  obtain ⟨hlen,hvalue⟩ := counts_cellBytes hc
  rw [Fdt.fdtCells,Fdt.getprop,hp,Option.bind_some,hn]
  dsimp only
  have hle : ¬FDT_MAX_NCELLS<(fdt32 (cellBytes (BitVec.ofInt 32 c)) 0).toNat := by
    rw [FDT_MAX_NCELLS]
    omega
  rw [if_neg (by rw [hlen]; decide),if_neg hle,hvalue]

/-- One that is put behind the root. -/
theorem ResvPlace.created {root rm : FdtNode} (hnested : t.Nested) (hroot : t[0]?=some root) {e : Int}
    (hpath : t.pathOffset "reserved-memory"=.error e) (hdepth : rm.depth=root.depth+1)
    (hname : rm.name=cstr "reserved-memory") (hna : t.addressCells 0=1 ∨ t.addressCells 0=2)
    (hns : t.sizeCells 0=1 ∨ t.sizeCells 0=2)
    (haddress : rm.getprop .addressCells=some (cellBytes (BitVec.ofInt 32 (t.addressCells 0))))
    (hsize : rm.getprop .sizeCells=some (cellBytes (BitVec.ofInt 32 (t.sizeCells 0)))) :
    ResvPlace t (t.insertBehind 0 [rm]) 1 rm := by
  obtain _ | ⟨r,rest⟩ := t
  · cases hroot
  cases hroot
  have hnode : (Fdt.insertBehind (root::rest) 0 [rm])[1]?=some rm := rfl
  refine ⟨hnode,?_,?_,?_,?_,?_,?_⟩
  · apply pathOffset_new rfl hdepth
    rw [FdtNode.nameEq,hname]
    decide
  · have hrest : (Fdt.insertBehind (root::rest) 0 [rm]).drop 2=rest := rfl
    rw [hrest,Fdt.resvChildren,hpath]
    cases rest with
    | nil => rfl
    | cons m rest =>
      -- the node behind the root is not deeper than the new one
      have hm : m.depth≤root.depth+1 := (List.isChain_cons_cons.mp hnested).1
      rw [childNodes_cons,if_pos (by omega)]
  · exact addressCells_insertBehind rfl le_rfl
  · exact sizeCells_insertBehind rfl le_rfl
  · have ha := fdtCells_declared hnode haddress hna
    have hs := fdtCells_declared hnode hsize hns
    rw [Fdt.resvCounts,hpath,Fdt.addressCells,Fdt.sizeCells,ha,hs]
    dsimp only
    generalize Fdt.addressCells (root::rest) 0=na at hna
    generalize Fdt.sizeCells (root::rest) 0=ns at hns
    rcases hna with rfl | rfl <;> rcases hns with rfl | rfl <;> rfl
  · intro new hnew
    refine ⟨0,root,rm::new,rfl,rfl,fun n hn => ?_⟩
    rcases List.mem_cons.mp hn with rfl | hn
    · omega
    · rw [hnew n hn]
      omega

/-- The reserved memory node, when there is one in the end. -/
theorem resvParent_place (hnested : t.Nested) (hna : t.addressCells 0=1 ∨ t.addressCells 0=2)
    (hns : t.sizeCells 0=1 ∨ t.sizeCells 0=2) {r : Except Int Nat×Fdt}
    (hr : resvParent fails t (t.addressCells 0) (t.sizeCells 0)=r) :
    match r.1 with
    | .error e => e≠0
    | .ok p => ∃ pn,ResvPlace t r.2 p pn := by
  subst hr
  rw [resvParent]
  cases hpath : t.pathOffset "reserved-memory" with
  | ok p =>
    obtain ⟨pn,hp⟩ := pathOffset_node hpath
    exact ⟨pn,.found hpath hp⟩
  | error e =>
    dsimp only
    cases hadd : libfdt fails .addReserved (t.addSubnode 0 (cstr "reserved-memory")) with
    | error e => exact libfdt_error hadd fun e he => addSubnode_error he
    | ok r =>
      have hnew := libfdt_ok hadd
      obtain ⟨root,hroot⟩ : ∃ root,t[0]?=some root := by
        cases h0 : t[0]? with
        | none =>
          rw [Fdt.addSubnode,h0] at hnew
          cases hnew
        | some root => exact ⟨root,rfl⟩
      rw [addSubnode_eq hroot] at hnew
      split_ifs at hnew
      cases hnew
      dsimp only
      cases hranges : libfdt fails .setRanges
          (.ok ((t.insertBehind 0 [⟨root.depth+1,cstr "reserved-memory",[]⟩]).setprop (0+1) .ranges [])) with
      | error e => exact libfdt_set_error hranges
      | ok t1 =>
        have h1 := libfdt_ok hranges
        rw [setprop_insertBehind hroot] at h1
        cases h1
        dsimp only
        generalize hsize : libfdt fails .setSizeCells _=r2
        cases r2 with
        | error e => exact libfdt_set_error hsize
        | ok t2 =>
          have h2 := libfdt_ok hsize
          rw [setprop_insertBehind hroot] at h2
          cases h2
          dsimp only
          generalize haddress : libfdt fails .setAddressCells _=r3
          cases r3 with
          | error e => exact libfdt_set_error haddress
          | ok t3 =>
            have h3 := libfdt_ok haddress
            rw [setprop_insertBehind hroot] at h3
            cases h3
            refine ⟨_,.created hnested hroot hpath ?_ ?_ hna hns ?_ ?_⟩
            · rw [depth_setprop,depth_setprop,depth_setprop]
            · rw [name_setprop,name_setprop,name_setprop]
            · rw [getprop_setprop_self]
            · rw [getprop_setprop_ne (by decide),getprop_setprop_self]

/-- Behind the loop. -/
theorem told_iff (h : ResvPlace t T p pn) {dom : SbiDomain x} {nodes : List FdtNode}
    (hdepth : ∀ n∈nodes,n.depth=pn.depth+1)
    (hperm : (nodes.filterMap (FdtNode.regRange t.resvCounts.1 t.resvCounts.2)).Perm
      (dom.protectedRegions.zipIdx.filterMap (ownRange fails pmpCount t))) :
    ResvTold dom t (T.insertBehind p nodes) ↔ MissedTold fails pmpCount t dom := by
  have hnode : (T.insertBehind p nodes)[p]?=some pn := by rw [getElem?_insertBehind h.node le_rfl,h.node]
  obtain ⟨root,hroot⟩ : ∃ root,T[0]?=some root := by
    have hlt := (List.getElem?_eq_some_iff.mp h.node).1
    exact ⟨_,List.getElem?_eq_getElem (Nat.zero_lt_of_lt hlt)⟩
  have hpath : (T.insertBehind p nodes).pathOffset "reserved-memory"=.ok p := pathOffset_insertBehind hroot h.path
  have ha : (T.insertBehind p nodes).addressCells p=t.resvCounts.1 := by
    rw [addressCells_insertBehind h.node le_rfl,← h.counts]
  have hs : (T.insertBehind p nodes).sizeCells p=t.resvCounts.2 := by
    rw [sizeCells_insertBehind h.node le_rfl,← h.counts]
  have hchildren : ((T.insertBehind p nodes).subnodes p).filterMap (fun j =>
        (T.insertBehind p nodes)[j]?.bind (FdtNode.regRange t.resvCounts.1 t.resvCounts.2))=
      nodes.filterMap (FdtNode.regRange t.resvCounts.1 t.resvCounts.2)++
        t.resvChildren.filterMap (FdtNode.regRange t.resvCounts.1 t.resvCounts.2) := by
    have hmap := congrArg (List.filterMap fun o : Option FdtNode =>
      o.bind (FdtNode.regRange t.resvCounts.1 t.resvCounts.2)) (map_subnodes hnode)
    rw [List.filterMap_map,List.filterMap_map,drop_insertBehind h.node,childNodes_append hdepth,h.children] at hmap
    rw [← List.filterMap_append]
    exact hmap
  have hpicks := exists_picks_iff (nodup_subnodes (t := T.insertBehind p nodes) (p := p))
    (f := fun j => (T.insertBehind p nodes)[j]?.bind (FdtNode.regRange t.resvCounts.1 t.resvCounts.2))
    (dom.protectedRegions.map Memregion.range)
  rw [hchildren,(hperm.append_right _).subperm_left] at hpicks
  have hwant : dom.protectedRegions.zipIdx.map (fun r => r.1.range)=dom.protectedRegions.map Memregion.range := by
    conv_rhs => rw [← List.zipIdx_map_fst 0 dom.protectedRegions,List.map_map]
    rfl
  rw [← hwant,subperm_missed_iff (ownRange fails pmpCount t) (fun r => r.1.range)
    (fun r => decide (ownRange fails pmpCount t r=some r.1.range)) fun r => decide_eq_true_iff] at hpicks
  have hmissed : (dom.protectedRegions.zipIdx.filter fun r => !decide (ownRange fails pmpCount t r=some r.1.range))=
      missedRegions fails pmpCount t dom := by
    rw [missedRegions]
    simp only [ne_eq,decide_not]
  rw [hmissed,hwant,List.map_map] at hpicks
  constructor
  · rintro ⟨⟨parent,hparent,picks,hnodup,hmem,hmap⟩,-⟩
    cases hpath.symm.trans hparent
    rw [ha,hs] at hmap
    exact hpicks.mp ⟨picks,hnodup,hmem,hmap⟩
  · intro hm
    obtain ⟨picks,hnodup,hmem,hmap⟩ := hpicks.mpr hm
    refine ⟨⟨p,hpath,picks,hnodup,hmem,?_⟩,h.kept nodes hdepth⟩
    rw [ha,hs]
    exact hmap

end Run

variable {x : Xlen}

/-- If `fdt_reserved_memory_fixup()` returns 0, the next stage is told about all protected memory exactly when
other children tell of the regions that their own nodes miss. -/
theorem fdtReservedMemoryFixup_told_iff (fails : ResvCall → Option Nat) (dom : SbiDomain x) (pmpCount : Nat)
    (t : Fdt) (hnested : t.Nested) (hna : t.addressCells 0=1 ∨ t.addressCells 0=2)
    (hns : t.sizeCells 0=1 ∨ t.sizeCells 0=2) (hcount : dom.memregions.length≤16)
    (hfit : ∀ r∈dom.protectedRegions,r.base.toNat<2^(32*(t.addressCells 0).toNat) ∧
      2^r.order.toNat<2^(32*(t.sizeCells 0).toNat)) :
    ∃ r,fdtReservedMemoryFixup fails dom pmpCount t=some r ∧
      (r.1=0 → (ResvTold dom t r.2 ↔ MissedTold fails pmpCount t dom)) := by
  rw [fdtReservedMemoryFixup]
  cases hopen : libfdt fails .openInto (.ok t) with
  | error e => exact ⟨_,rfl,fun h => absurd h (libfdt_set_error hopen)⟩
  | ok t' =>
    cases libfdt_ok hopen
    dsimp only
    have hplace := resvParent_place fails hnested hna hns rfl
    generalize resvParent fails t (t.addressCells 0) (t.sizeCells 0)=r at hplace ⊢
    obtain ⟨r,T⟩ := r
    cases r with
    | error e => exact ⟨_,rfl,fun h => absurd h hplace⟩
    | ok p =>
      obtain ⟨pn,h⟩ := hplace
      have hlen : 0+(dom.memregions.filter fun r => !r.shared).length≤16 := by
        rw [Nat.zero_add]
        exact (List.length_filter_le _ _).trans hcount
      obtain ⟨nodes,hloop,hdepth,hperm⟩ := resvLoop_eq fails pmpCount h hna hns hlen
        (fun r hr hshared => hfit r (List.mem_filter.mpr ⟨hr,by rw [hshared]; rfl⟩)) [] (List.forall_mem_nil _)
      rw [insertBehind_nil,List.append_nil] at hloop
      dsimp only
      rw [hloop]
      exact ⟨_,rfl,fun _ => told_iff fails pmpCount h hdepth hperm⟩

/-- Sixteen regions without permission. -/
def closedDomain : SbiDomain .rv64 where
  index := 1
  assignedHarts := 1
  possibleHarts := some 1
  regions := some ((List.range 16).map fun i => ⟨12,BitVec.ofNat _ (0x80000000+0x10000*i),0⟩)
  bootHartid := 0
  nextArg1 := 0
  nextAddr := 0x80200000
  nextMode := PRV_S
  systemResetAllowed := true

/-- A tree without reserved memory. -/
def plainTree : Fdt := [⟨0,[],[.prop .addressCells [0,0,0,2],.prop .sizeCells [0,0,0,2]]⟩,⟨1,cstr "cpus",[]⟩]

theorem closedDomain_told :
    ∃ t',fdtReservedMemoryFixup (fun _ => none) closedDomain 16 plainTree=some (0,t') ∧
      ResvTold closedDomain plainTree t' := by
  obtain ⟨r,hr,htold⟩ := fdtReservedMemoryFixup_told_iff (fun _ => none) closedDomain 16 plainTree (by decide)
    (by decide) (by decide) (by decide) (by decide)
  have hret : (fdtReservedMemoryFixup (fun _ => none) closedDomain 16 plainTree).map Prod.fst=some 0 := by
    decide +kernel
  rw [hr] at hret
  have h0 := Option.some.inj hret
  refine ⟨r.2,by rw [hr,← h0],(htold h0).mpr ?_⟩
  have hmissed : missedRegions (fun _ => none) 16 plainTree closedDomain=[] := by decide +kernel
  unfold MissedTold
  simp only [hmissed,List.map_nil]
  exact List.nil_subperm

/-- There is no space for the `reg` of the last of 16 regions. -/
theorem lastReg_untold :
    ¬∀ (x : Xlen) (fails : ResvCall → Option Nat) (dom : SbiDomain x) (pmpCount : Nat) (t : Fdt),t.Nested →
      (t.addressCells 0=1 ∨ t.addressCells 0=2) → (t.sizeCells 0=1 ∨ t.sizeCells 0=2) →
      dom.memregions.length≤16 →
      (∀ r∈dom.protectedRegions,r.order.toNat≤x.bits ∧ r.base.toNat<2^(32*(t.addressCells 0).toNat) ∧
        2^r.order.toNat<2^(32*(t.sizeCells 0).toNat)) →
      ∀ r,fdtReservedMemoryFixup fails dom pmpCount t=some r → r.1=0 → ResvTold dom t r.2 := by
  intro h
  have hrun : (fdtReservedMemoryFixup (fun call => if call=.setReg 15 then some 2 else none) closedDomain 16
      plainTree).map (fun r => (r.1,(r.2.pathOffset "reserved-memory").toOption,((r.2.subnodes 1).filterMap fun j =>
        r.2[j]?.bind (FdtNode.regRange (r.2.addressCells 1) (r.2.sizeCells 1))).length))=some (0,some 1,15) := by
    decide +kernel
  obtain ⟨r,hr,heq⟩ := Option.map_eq_some_iff.mp hrun
  obtain ⟨hret,hparent,hlen⟩ := Prod.mk.inj heq |>.imp_right Prod.mk.inj
  have htold := h .rv64 _ closedDomain 16 plainTree (by decide) (by decide) (by decide) (by decide) (by decide) r hr hret
  obtain ⟨parent,hpath,picks,hnodup,hmem,hmap⟩ := htold.told
  rw [hpath] at hparent
  cases hparent
  have hpicks := (exists_picks_iff nodup_subnodes (closedDomain.protectedRegions.map Memregion.range)).mp
    ⟨picks,hnodup,hmem,by rw [hmap,List.map_map]; rfl⟩
  have hle := hpicks.length_le
  rw [hlen,List.length_map] at hle
  exact absurd hle (by decide)

end OpenSBI
