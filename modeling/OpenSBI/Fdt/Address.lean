import OpenSBI.Fdt.Tree

namespace OpenSBI

def FDT_ERR_BADOFFSET : Int := 4
def FDT_ERR_INTERNAL : Int := 13
def FDT_ERR_BADNCELLS : Int := 14
def FDT_MAX_NCELLS : Nat := 4

def PropName.addressCells : PropName := .other (cstr "#address-cells")
def PropName.sizeCells : PropName := .other (cstr "#size-cells")
def PropName.ranges : PropName := .other (cstr "ranges")

namespace Fdt

variable (t : Fdt)

/-- `fdt_parent_offset()`: the last node in front that is one level up. -/
def parentOffset (offset : Nat) : Except Int Nat :=
  match t[offset]? with
  | none => .error (-FDT_ERR_BADOFFSET)
  | some n =>
    if n.depth=0 then .error (-FDT_ERR_NOTFOUND)
    else
      match ((List.range offset).filter fun i => t[i]?.any fun m => m.depth+1=n.depth).getLast? with
      | none => .error (-FDT_ERR_INTERNAL)
      | some i => .ok i

/-- `fdt_cells()`. -/
def fdtCells (offset : Nat) (name : PropName) : Int :=
  match t.getprop offset name with
  | none => -FDT_ERR_NOTFOUND
  | some v =>
    if v.length≠4 then -FDT_ERR_BADNCELLS
    else if FDT_MAX_NCELLS<(fdt32 v 0).toNat then -FDT_ERR_BADNCELLS
    else (fdt32 v 0).toNat

/-- `fdt_address_cells()`. -/
def addressCells (offset : Nat) : Int :=
  let val := t.fdtCells offset .addressCells
  if val=0 then -FDT_ERR_BADNCELLS else if val= -FDT_ERR_NOTFOUND then 2 else val

/-- `fdt_size_cells()`. -/
def sizeCells (offset : Nat) : Int :=
  let val := t.fdtCells offset .sizeCells
  if val= -FDT_ERR_NOTFOUND then 1 else val

/-- The nodes that `fdt_parent_offset()` leads through, at most `n`. -/
def ancestorsFrom : Nat → Nat → List Nat
  | 0,_ => []
  | n+1,offset =>
    match t.parentOffset offset with
    | .error _ => []
    | .ok parent => parent::ancestorsFrom n parent

/-- The parent of a node, the parent of that, and so on to the root. -/
def ancestors (offset : Nat) : List Nat := t.ancestorsFrom (offset+1) offset

theorem parentOffset_lt {t : Fdt} {offset parent : Nat} (h : t.parentOffset offset=.ok parent) :
    parent<offset := by
  unfold parentOffset at h
  split at h
  · cases h
  · split_ifs at h
    split at h
    · cases h
    · rename_i hlast
      cases h
      have hmem := List.mem_of_getLast? hlast
      exact List.mem_range.mp (List.mem_filter.mp hmem).1

theorem ancestorsFrom_fuel {t : Fdt} {n m offset : Nat} (hn : offset<n) (hm : offset < m) :
    t.ancestorsFrom n offset=t.ancestorsFrom m offset := by
  induction n generalizing m offset with
  | zero => exact absurd hn (Nat.not_lt_zero _)
  | succ n ih =>
    obtain ⟨m,rfl⟩ : ∃ k,m=k+1 := ⟨m-1,by omega⟩
    rw [ancestorsFrom,ancestorsFrom]
    cases hp : t.parentOffset offset with
    | error e => rfl
    | ok parent =>
      have hlt := parentOffset_lt hp
      simp only [ih (show parent<n by omega) (show parent < m by omega)]

/-- The ancestors of a node are its parent and the ancestors of that. -/
theorem ancestors_eq {t : Fdt} {offset parent : Nat} (h : t.parentOffset offset=.ok parent) :
    t.ancestors offset=parent::t.ancestors parent := by
  rw [ancestors,ancestorsFrom,h]
  simp only [ancestors,ancestorsFrom_fuel (parentOffset_lt h) (Nat.lt_succ_self parent)]

end Fdt

/-- `n` cells from cell `k` on, put together in a `uint64_t`; `none` is a read outside the property. -/
def readCells (v : List (BitVec 8)) (k n : Nat) : Option (BitVec 64) :=
  (List.range n).foldlM (fun acc i => (readCell (some v) (k+i)).map fun c => acc <<< 32 ||| c.setWidth 64) 0

/-- The number in `n` cells from cell `k` on, modulo the width of a `uint64_t`. -/
def cellsValue (v : List (BitVec 8)) (k n : Nat) : BitVec 64 :=
  (List.range n).foldl (fun acc i => acc <<< 32 ||| (fdt32 v (k+i)).setWidth 64) 0

theorem readCells_eq (v : List (BitVec 8)) (k n : Nat) :
    readCells v k n=if n=0 ∨ 4*(k+n)≤v.length then some (cellsValue v k n) else none := by
  induction n with
  | zero => rfl
  | succ n ih =>
    rw [readCells] at ih ⊢
    rw [cellsValue,List.range_succ,List.foldlM_append,List.foldl_append,ih]
    by_cases hn : 4*(k+(n+1))≤v.length
    · rw [if_pos (.inr (by omega)),if_pos (.inr hn)]
      simp only [List.foldlM_cons,List.foldlM_nil,List.foldl_cons,List.foldl_nil,Option.bind_eq_bind,
        Option.bind_some,readCell_eq (show 4*(k+n)+4≤v.length by omega),Option.map_some]
      rfl
    · have hlast : readCell (some v) (k+n)=none := readCell_none fun ⟨w,hw,hlen⟩ => by
        cases hw
        omega
      rw [if_neg (show ¬(n+1=0 ∨ 4*(k+(n+1))≤v.length) by omega)]
      split_ifs
      · simp only [List.foldlM_cons,Option.bind_eq_bind,Option.bind_some,hlast,Option.map_none]
        rfl
      · rfl

/-- `fdt_translate_address()`: the error, or what it writes to `addr`. -/
def fdtTranslateAddress (t : Fdt) (reg : BitVec 64) (parent : Nat) : Option (Except Int (BitVec 64)) :=
  let cellAddr := t.addressCells parent
  if cellAddr<1 then some (.error SBI_ENODEV)
  else
    let cellSize := t.sizeCells parent
    if cellSize<0 then some (.error SBI_ENODEV)
    else
      match t.getprop parent .ranges with
      | none => some (.ok reg)
      | some ranges =>
        if ranges.length=0 then some (.ok reg)
        else do
          let caddr ← readCells ranges 0 cellAddr.toNat
          let paddr ← readCells ranges cellAddr.toNat cellAddr.toNat
          let rsize ← readCells ranges (2*cellAddr.toNat) cellSize.toNat
          if reg<caddr ∨ reg+rsize≤caddr then some (.error SBI_ENODEV)
          else some (.ok (paddr+(reg-caddr)))

/-- The loop of `fdt_get_node_addr_size()` over the ancestors: an error of a translation ends it and
is not passed on. -/
def translateLoop (t : Fdt) : List Nat → BitVec 64 → BitVec 64 → Option (BitVec 64)
  | [],_,addr => some addr
  | parent::rest,temp,addr => do
    match ← fdtTranslateAddress t temp parent with
    | .error _ => some addr
    | .ok a => translateLoop t rest a a

/-- The two results of `fdt_get_node_addr_size()`; `none` is a null pointer. -/
structure AddrSize where
  addr : Option (BitVec 64)
  size : Option (BitVec 64)
  deriving DecidableEq

/-- `fdt_get_node_addr_size()`; `out` is what the pointers point to. -/
def fdtGetNodeAddrSize (t : Fdt) (node : Nat) (index : Int) (out : AddrSize) : Option (Int×AddrSize) :=
  if index<0 then some (SBI_EINVAL,out)
  else
    match t.parentOffset node with
    | .error e => some (e,out)
    | .ok parent =>
      let cellAddr := t.addressCells parent
      if cellAddr<1 then some (SBI_ENODEV,out)
      else
        let cellSize := t.sizeCells parent
        if cellSize<0 then some (SBI_ENODEV,out)
        else
          match t.getprop node .reg with
          | none => some (SBI_ENODEV,out)
          | some reg =>
            let start := index.toNat*(cellAddr.toNat+cellSize.toNat)
            if reg.length/4 ≤ start then some (SBI_EINVAL,out)
            else do
              let addr ← (match out.addr with
                | none => some none
                | some addr => do
                  let temp ← readCells reg start cellAddr.toNat
                  let addr ← translateLoop t (t.ancestors node) temp addr
                  some (some addr))
              let size ← (match out.size with
                | none => some none
                | some _ => (readCells reg (start+cellAddr.toNat) cellSize.toNat).map some)
              some (SBI_OK,⟨addr,size⟩)

end OpenSBI
