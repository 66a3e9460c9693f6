import OpenSBI.Console.Plain
import OpenSBI.Domain.Memregion
import OpenSBI.Fdt.Subnode
import OpenSBI.Riscv.Bitops

namespace OpenSBI

variable {x : Xlen}

def PropName.noMap : PropName := .other (cstr "no-map")

/-- The upper and the lower half of a `u64`. -/
def highCell (a : Word x) : BitVec 32 := (a.setWidth 64 >>> 32).setWidth 32
def lowCell (a : Word x) : BitVec 32 := toU32 a

/-- No argument is a string. -/
def noStrings : Word x → CStr := fun _ => ⟨[],List.not_mem_nil⟩

/-- The string in the 32 bytes of `name` behind `sbi_snprintf()`; `none` is a store behind them. -/
def snprintfName (format : List (BitVec 8)) (args : List (Word x)) : Option (List (BitVec 8)) := do
  let (stores,_) ← sbiSnprintf noStrings 32 format args
  if ∀ store∈stores,store.2<32 then
    some (((List.range 32).map (storedMemory (fun _ => 0) stores)).takeWhile (·≠0))
  else none

/-- What `fdt_resv_memory_update_node()` leaves in `name`. -/
def resvName (na : Int) (addr : Word x) (index : Nat) : Option (List (BitVec 8)) :=
  if 1<na ∧ highCell addr≠0 then
    snprintfName (cstr "mmode_resv%d@%x,%x")
      [BitVec.ofNat x.bits index,(highCell addr).signExtend x.bits,(lowCell addr).signExtend x.bits]
  else snprintfName (cstr "mmode_resv%d@%x") [BitVec.ofNat x.bits index,(lowCell addr).signExtend x.bits]

/-- The cells of `reg` that are written. -/
def resvCells (na ns : Int) (addr size : Word x) : List (BitVec 32) :=
  (if 1<na then [highCell addr] else [])++(lowCell addr::
    ((if 1<ns then [highCell size] else [])++[lowCell size]))

/-- The property value; `none` is a read of cells that are not written. -/
def resvReg (na ns : Int) (addr size : Word x) : Option (List (BitVec 8)) :=
  let cells := resvCells na ns addr size
  if 0≤na+ns ∧ na+ns≤cells.length then some ((cells.take (na+ns).toNat).flatMap cellBytes) else none

/-- The calls to libfdt that can fail, those for a region with its index. -/
inductive ResvCall where
  | openInto
  | addReserved
  | setRanges
  | setSizeCells
  | setAddressCells
  | addSubnode (index : Nat)
  | setNoMap (index : Nat)
  | setReg (index : Nat)
  deriving DecidableEq

section Calls

variable (fails : ResvCall → Option Nat)

/-- The result of a call. One that fails returns the error one above the given number and leaves the tree. -/
def libfdt {α : Type} (call : ResvCall) (r : Except Int α) : Except Int α :=
  match fails call with
  | some e => .error (-(e+1))
  | none => r

/-- `fdt_resv_memory_update_node()`. -/
def fdtResvMemoryUpdateNode (t : Fdt) (addr size : Word x) (index parent : Nat) (noMap : Bool) :
    Option (Int×Fdt) := do
  let na := t.addressCells 0
  let ns := t.sizeCells 0
  let name ← resvName na addr index
  match libfdt fails (.addSubnode index) (t.addSubnode parent name) with
  | .error e => some (e,t)
  | .ok (subnode,t) =>
    match if noMap then libfdt fails (.setNoMap index) (.ok (t.setprop subnode .noMap [])) else .ok t with
    | .error e => some (e,t)
    | .ok t =>
      match libfdt fails (.setReg index) (.ok ()) with
      | .error e => some (e,t)
      | .ok _ => (resvReg na ns addr size).map fun reg => (0,t.setprop subnode .reg reg)

/-- The region is passed over. -/
def Memregion.shared (r : Memregion x) : Bool :=
  hasFlag r.flags SBI_DOMAIN_MEMREGION_MMIO || hasFlag r.flags SBI_DOMAIN_MEMREGION_READABLE ||
    hasFlag r.flags SBI_DOMAIN_MEMREGION_WRITEABLE || hasFlag r.flags SBI_DOMAIN_MEMREGION_EXECUTABLE

/-- The loop over the regions with `i`; nothing looks at the result of a node. -/
def resvLoop (pmpCount parent : Nat) : Nat → List (Memregion x) → Fdt → Option Fdt
  | _,[],t => some t
  | i,reg::rest,t =>
    if reg.shared then resvLoop pmpCount parent i rest t
    else do
      let (_,t) ← fdtResvMemoryUpdateNode fails t reg.base (Word.bit reg.order.toNat) i parent (decide (pmpCount=0))
      resvLoop pmpCount parent (i+1) rest t

/-- The reserved memory node, which is created if there is none. -/
def resvParent (t : Fdt) (na ns : Int) : Except Int Nat×Fdt :=
  match t.pathOffset "reserved-memory" with
  | .ok parent => (.ok parent,t)
  | .error _ =>
    match libfdt fails .addReserved (t.addSubnode 0 (cstr "reserved-memory")) with
    | .error e => (.error e,t)
    | .ok (parent,t) =>
      match libfdt fails .setRanges (.ok (t.setprop parent .ranges [])) with
      | .error e => (.error e,t)
      | .ok t =>
        match libfdt fails .setSizeCells (.ok (t.setprop parent .sizeCells (cellBytes (BitVec.ofInt 32 ns)))) with
        | .error e => (.error e,t)
        | .ok t =>
          match libfdt fails .setAddressCells
              (.ok (t.setprop parent .addressCells (cellBytes (BitVec.ofInt 32 na)))) with
          | .error e => (.error e,t)
          | .ok t => (.ok parent,t)

/-- `fdt_reserved_memory_fixup()` in a domain, on a hart with so many PMP regions. -/
def fdtReservedMemoryFixup (dom : SbiDomain x) (pmpCount : Nat) (t : Fdt) : Option (Int×Fdt) :=
  let na := t.addressCells 0
  let ns := t.sizeCells 0
  match libfdt fails .openInto (.ok t) with
  | .error e => some (e,t)
  | .ok t =>
    match resvParent fails t na ns with
    | (.error e,t) => some (e,t)
    | (.ok parent,t) => (resvLoop fails pmpCount parent 0 dom.memregions t).map fun t => (0,t)

end Calls

section Results

variable {fails : ResvCall → Option Nat}

theorem libfdt_ok {α : Type} {call : ResvCall} {r : Except Int α} {a : α}
    (h : libfdt fails call r=.ok a) : r=.ok a := by
  rw [libfdt] at h
  split at h
  · cases h
  · exact h

theorem libfdt_error {α : Type} {call : ResvCall} {r : Except Int α} {e : Int} (h : libfdt fails call r=.error e)
    (hr : ∀ e,r=.error e → e≠0) : e≠0 := by
  rw [libfdt] at h
  split at h
  · cases h
    omega
  · exact hr e h

/-- A call that fails for no reason of its own. -/
theorem libfdt_set_error {α : Type} {call : ResvCall} {a : α} {e : Int}
    (h : libfdt fails call (.ok a)=.error e) : e≠0 := by
  apply libfdt_error h
  intro e he
  cases he

end Results

/-! ## The names -/

section Names

theorem snprintfName_eq (items : List (Item x)) (hr : ∀ item∈items,∀ earlier,item.Right noStrings earlier)
    (hlen : (items.flatMap (Item.render noStrings)).length<32) :
    snprintfName (items.flatMap Item.spelling) (items.flatMap Item.words)=
      some (items.flatMap (Item.render noStrings)) := by
  have htext := (formatRight_iff items).mp (formatRight_of_forall hr) []
  rw [List.append_nil] at htext
  have hstores : sbiSnprintf noStrings 32 (items.flatMap Item.spelling) (items.flatMap Item.words)=
      some (((items.flatMap (Item.render noStrings))++[0]).zipIdx,(items.flatMap (Item.render noStrings)).length) := by
    rw [sbiSnprintf_eq_sbiSprintf,sbiSprintf_eq,htext]
    rfl
  have hinside : ∀ store∈((items.flatMap (Item.render noStrings))++[0]).zipIdx,store.2<32 := by
    intro store hstore
    have hlast := List.snd_lt_of_mem_zipIdx hstore
    rw [List.length_append,List.length_singleton] at hlast
    omega
  rw [snprintfName,hstores]
  simp only [Option.bind_eq_bind,Option.bind_some,if_pos hinside]
  rw [takeWhile_holdsString (holdsString_stores (zero_notMem_formatText htext) _) hlen]

/-- The unit address of a node. -/
def unitAddress (na : Int) (addr : Word x) : List (BitVec 8) :=
  if 1<na ∧ highCell addr≠0 then
    Numeral.x.digits (highCell addr).toNat++(cstr ","++Numeral.x.digits (lowCell addr).toNat)
  else Numeral.x.digits (lowCell addr).toNat

/-- The name of the node for region `index`. -/
def nodeName (na : Int) (addr : Word x) (index : Nat) : List (BitVec 8) :=
  cstr "mmode_resv"++(Numeral.d.digits index++(cstr "@"++unitAddress na addr))

/-- A name fits in its buffer: the index has at most two digits. -/
theorem snprintfName_node {index : Nat} (hi : index<16) (unit : List (Item x))
    (hr : ∀ item∈unit,∀ earlier,item.Right noStrings earlier)
    (hlen : (unit.flatMap (Item.render noStrings)).length≤17) :
    snprintfName (cstr "mmode_resv"++((chr '%'::Numeral.d.spelling)++(cstr "@"++unit.flatMap Item.spelling)))
        (BitVec.ofNat x.bits index::unit.flatMap Item.words)=
      some (cstr "mmode_resv"++(Numeral.d.digits index++(cstr "@"++unit.flatMap (Item.render noStrings)))) := by
  have hname : ∀ c∈cstr "mmode_resv",c≠0 ∧ c≠chr '%' := by decide
  have hat : ∀ c∈cstr "@",c≠0 ∧ c≠chr '%' := by decide
  have hnameLen : (cstr "mmode_resv").length=10 := by decide
  have hatLen : (cstr "@").length=1 := by decide
  have hd : (Numeral.d.digits index).length≤2 := by
    apply length_digits_le
    · rw [show Numeral.d.base=10 from rfl]
      omega
    · decide
  have hs := snprintfName_eq (literals (x := x) (cstr "mmode_resv") hname++
    (plain .d (BitVec.ofNat x.bits index)::(literals (cstr "@") hat++unit)))
  simp only [List.flatMap_append,List.flatMap_cons,spelling_literals,words_literals,render_literals,spelling_plain,
    words_plain,render_index (show index<2^31 by omega),List.length_append,List.nil_append,
    List.singleton_append] at hs
  apply hs
  · intro item hitem earlier
    simp only [List.mem_append,List.mem_cons] at hitem
    rcases hitem with h | rfl | h | h
    · exact right_literals h earlier
    · exact right_plain _ _ earlier
    · exact right_literals h earlier
    · exact hr item h earlier
  · omega

theorem length_hexDigits_le (c : BitVec 32) : (Numeral.x.digits c.toNat).length≤8 := by
  apply length_digits_le
  · rw [show Numeral.x.base=16 from rfl]
    exact c.isLt
  · decide

theorem resvName_eq (na : Int) (addr : Word x) {index : Nat} (hi : index<16) :
    resvName na addr index=some (nodeName na addr index) := by
  have hhigh := length_hexDigits_le (highCell addr)
  have hlow := length_hexDigits_le (lowCell addr)
  have hcomma : ∀ c∈cstr ",",c≠0 ∧ c≠chr '%' := by decide
  have hcommaLen : (cstr ",").length=1 := by decide
  have hshort : cstr "mmode_resv%d@%x"=cstr "mmode_resv"++((chr '%'::Numeral.d.spelling)++(cstr "@"++
      (chr '%'::Numeral.x.spelling))) := by decide
  have hlong : cstr "mmode_resv%d@%x,%x"=cstr "mmode_resv"++((chr '%'::Numeral.d.spelling)++(cstr "@"++
      ((chr '%'::Numeral.x.spelling)++(cstr ","++(chr '%'::Numeral.x.spelling))))) := by decide
  rw [resvName,nodeName,unitAddress,hshort,hlong]
  split_ifs
  · have hs := snprintfName_node hi (plain .x ((highCell addr).signExtend x.bits)::
      (literals (cstr ",") hcomma++[plain .x ((lowCell addr).signExtend x.bits)]))
    simp only [List.flatMap_append,List.flatMap_cons,List.flatMap_nil,spelling_literals,words_literals,
      render_literals,spelling_plain,words_plain,render_cell,List.length_append,List.append_nil,List.nil_append,
      List.singleton_append] at hs
    apply hs
    · intro item hitem earlier
      simp only [List.mem_append,List.mem_cons,List.not_mem_nil,or_false] at hitem
      rcases hitem with rfl | h | rfl
      · exact right_plain _ _ earlier
      · exact right_literals h earlier
      · exact right_plain _ _ earlier
    · omega
  · have hs := snprintfName_node hi [plain .x ((lowCell addr).signExtend x.bits)]
    simp only [List.flatMap_cons,List.flatMap_nil,spelling_plain,words_plain,render_cell,List.append_nil] at hs
    apply hs
    · intro item hitem earlier
      rw [List.mem_singleton.mp hitem]
      exact right_plain _ _ earlier
    · omega

/-- The indices in the names keep the nodes apart. -/
theorem nodeName_inj {na : Int} {addr addr' : Word x} {i j : Nat}
    (h : nodeName na addr i=nodeName na addr' j) : i=j := by
  have hdigits : ∀ k,∀ a : Word x,
      ((Numeral.d.digits k)++(cstr "@"++unitAddress na a)).takeWhile isDigit=Numeral.u.digits k := by
    intro k a
    exact (takeWhile_digits (fun c hc => isDigit_of_mem_digits hc) (by rfl)).1
  have htail := List.append_cancel_left h
  rw [← foldl_digits i,← foldl_digits j,← hdigits i addr,← hdigits j addr',htail]

theorem nameEq_nodeName {n : FdtNode} {na : Int} {addr : Word x} {i : Nat} (h : n.nameEq (nodeName na addr i)=true) :
    n.name=nodeName na addr i := by
  have hat : (nodeName na addr i).contains 64=true := by
    rw [List.contains_iff_mem]
    exact List.mem_append_right _ (List.mem_append_right _ (List.mem_append_left _ (by decide)))
  rw [FdtNode.nameEq,hat] at h
  simp only [Bool.not_true,Bool.false_and,Bool.or_false,Bool.and_eq_true,decide_eq_true_eq] at h
  exact (h.1.eq_of_length h.2.symm).symm

end Names
end OpenSBI
