import OpenSBI.Fdt.Address

namespace OpenSBI

/-- An entry of a `ranges` property. -/
structure RangeEntry where
  child : BitVec 64
  parent : BitVec 64
  size : BitVec 64

def RangeEntry.Covers (e : RangeEntry) (a : BitVec 64) : Prop :=
  e.child≤a ∧ a.toNat<e.child.toNat+e.size.toNat

instance (e : RangeEntry) (a : BitVec 64) : Decidable (e.Covers a) :=
  inferInstanceAs (Decidable (_ ∧ _))

/-- The entries of a `ranges` property with `na` cells for a child address, `pna` for a parent address
and `ns` for a size. -/
def rangeEntries (v : List (BitVec 8)) (na pna ns : Nat) : List RangeEntry :=
  (List.range (v.length/(4*(na+pna+ns)))).map fun i =>
    let k := i*(na+pna+ns)
    ⟨cellsValue v k na,cellsValue v (k+na) pna,cellsValue v (k+na+pna) ns⟩

/-- What the tree says about an address: its translation, that a bus does not cover it, or nothing, where
a bus has no `ranges` or one that is not made of whole entries. -/
inductive BusAddress where
  | address (a : BitVec 64)
  | uncovered
  | undefined
  deriving DecidableEq

/-- An ancestor with an address on it and the translation of that address. -/
structure Hop where
  bus : Nat
  child : BitVec 64
  parent : BitVec 64

namespace Fdt

variable (t : Fdt)

/-- An address on a bus as an address of the bus above it. -/
def translateAt (bus parent : Nat) (a : BitVec 64) : BusAddress :=
  match t.getprop bus .ranges with
  | none => .undefined
  | some v =>
    if v.length=0 then .address a
    else
      let na := (t.addressCells bus).toNat
      let pna := (t.addressCells parent).toNat
      let ns := (t.sizeCells bus).toNat
      if v.length%(4*(na+pna+ns))≠0 then .undefined
      else
        match (rangeEntries v na pna ns).find? fun e => e.Covers a with
        | none => .uncovered
        | some e => .address (e.parent+(a-e.child))

/-- The translation of an address along the ancestors, the last of which is the root. -/
def translateUp : List Nat → BitVec 64 → BusAddress
  | bus::parent::rest,a =>
    match t.translateAt bus parent a with
    | .address b => translateUp (parent::rest) b
    | r => r
  | _,a => .address a

/-- The steps of that translation; the root leaves the address as it is. -/
def hops : List Nat → BitVec 64 → List Hop
  | bus::parent::rest,a =>
    match t.translateAt bus parent a with
    | .address b => ⟨bus,a,b⟩::hops (parent::rest) b
    | _ => []
  | [root],a => [⟨root,a,a⟩]
  | [],_ => []

/-- The first entry of the ancestor, both its addresses read with the ancestor's own cell count, starts
at the address or below it, ends behind its own start counted from the address, and moves the address to
its translation. -/
structure FirstEntryCarries (v : List (BitVec 8)) (na ns : Nat) (h : Hop) : Prop where
  whole : 4*(2*na+ns)≤v.length
  start : cellsValue v 0 na≤h.child
  size : cellsValue v 0 na<h.child+cellsValue v (2*na) ns
  moved : cellsValue v na na+(h.child-cellsValue v 0 na)=h.parent

/-- Where `ranges` has entries, the first one carries the address. -/
def Carries (h : Hop) : Prop :=
  ∀ v,t.getprop h.bus .ranges=some v → v.length≠0 →
    FirstEntryCarries v (t.addressCells h.bus).toNat (t.sizeCells h.bus).toNat h

/-- One or two address cells and up to two size cells. -/
structure SmallCells (b : Nat) : Prop where
  address : t.addressCells b=1 ∨ t.addressCells b=2
  size_ge : 0≤t.sizeCells b
  size_le : t.sizeCells b≤2

/-- What a call about the address `a` has to return: the translation, every ancestor in turn having
translated the address on it, or an error where an ancestor does not cover the address. -/
def TranslatedRight (l : List Nat) (a : BitVec 64) (result : Option (Int×AddrSize)) : Prop :=
  match t.translateUp l a with
  | .undefined => True
  | .uncovered => ∃ e out,result=some (e,out) ∧ e≠SBI_OK
  | .address b => (∃ size,result=some (SBI_OK,⟨some b,size⟩)) ∧
      ∀ h∈t.hops l a,fdtTranslateAddress t h.child h.bus=some (.ok h.parent)

end Fdt

section Translate

variable {t : Fdt}

theorem fdtTranslateAddress_empty {bus : Nat} (hc : t.SmallCells bus)
    (h : ∀ v,t.getprop bus .ranges=some v → v.length=0) (a : BitVec 64) :
    fdtTranslateAddress t a bus=some (.ok a) := by
  have ha : ¬t.addressCells bus<1 := by
    rcases hc.address with h | h <;> omega
  rw [fdtTranslateAddress,if_neg ha,if_neg (not_lt.mpr hc.size_ge)]
  cases hv : t.getprop bus .ranges with
  | none => rfl
  | some v => exact if_pos (h v hv)

theorem fdtTranslateAddress_entry {bus : Nat} {v : List (BitVec 8)} (hc : t.SmallCells bus)
    (hv : t.getprop bus .ranges=some v) (hlen : v.length≠0) (a b : BitVec 64) :
    fdtTranslateAddress t a bus=some (.ok b) ↔
      Fdt.FirstEntryCarries v (t.addressCells bus).toNat (t.sizeCells bus).toNat ⟨bus,a,b⟩ := by
  have ha : ¬t.addressCells bus<1 := by
    rcases hc.address with h | h <;> omega
  have hpos : (t.addressCells bus).toNat≠0 := by omega
  rw [fdtTranslateAddress,if_neg ha,if_neg (not_lt.mpr hc.size_ge),hv]
  generalize (t.addressCells bus).toNat=na at hpos ⊢
  generalize (t.sizeCells bus).toNat=ns
  simp only [if_neg hlen,readCells_eq,hpos,false_or]
  by_cases hwhole : 4*(2*na+ns)≤v.length
  · rw [if_pos (by omega),if_pos (by omega),if_pos (.inr hwhole)]
    simp only [Option.bind_eq_bind,Option.bind_some]
    split_ifs with htest
    · refine iff_of_false (by simp) fun h => ?_
      rcases htest with h1 | h1
      · exact absurd h.start (BitVec.not_le.mpr h1)
      · exact absurd h.size (BitVec.not_lt.mpr h1)
    · rw [not_or,BitVec.not_lt,BitVec.not_le] at htest
      simp only [Option.some.injEq,Except.ok.injEq]
      exact ⟨fun h => ⟨hwhole,htest.1,htest.2,h⟩,fun h => h.moved⟩
  · refine iff_of_false (fun h => ?_) fun h => hwhole h.whole
    obtain ⟨c,-,h⟩ := Option.bind_eq_some_iff.mp h
    obtain ⟨p,hp,h⟩ := Option.bind_eq_some_iff.mp h
    obtain ⟨z,hz,-⟩ := Option.bind_eq_some_iff.mp h
    split_ifs at hp hz with h1 h2
    rcases h2 with rfl | h2
    · omega
    · exact hwhole h2

/-- An ancestor with no entries, and the root, leave the address. -/
theorem hops_identity {l : List Nat} {a : BitVec 64} {h : Hop} (hh : h∈t.hops l a)
    (he : ∀ v,t.getprop h.bus .ranges=some v → v.length=0) : h.parent=h.child := by
  induction l generalizing a with
  | nil => cases hh
  | cons bus l ih =>
    cases l with
    | nil =>
      obtain rfl := List.mem_singleton.mp hh
      rfl
    | cons parent rest =>
      rw [Fdt.hops] at hh
      split at hh
      · rename_i b hb
        rcases List.mem_cons.mp hh with rfl | hh
        · unfold Fdt.translateAt at hb
          split at hb
          · cases hb
          · rename_i v hv
            rw [if_pos (he v hv)] at hb
            cases hb
            rfl
        · exact ih hh
      · cases hh

theorem hops_bus {l : List Nat} {a : BitVec 64} {h : Hop} (hh : h∈t.hops l a) : h.bus∈l := by
  induction l generalizing a with
  | nil => cases hh
  | cons bus l ih =>
    cases l with
    | nil =>
      obtain rfl := List.mem_singleton.mp hh
      exact List.mem_singleton_self _
    | cons parent rest =>
      rw [Fdt.hops] at hh
      split at hh
      · rcases List.mem_cons.mp hh with rfl | hh
        · exact List.mem_cons_self
        · exact List.mem_cons_of_mem _ (ih hh)
      · cases hh

/-- A step of the translation is what `fdt_translate_address()` does exactly when the first entry carries
the address. -/
theorem hop_translated_iff {l : List Nat} {a : BitVec 64} (hc : ∀ b∈l,t.SmallCells b) {h : Hop}
    (hh : h∈t.hops l a) : fdtTranslateAddress t h.child h.bus=some (.ok h.parent) ↔ t.Carries h := by
  have hcell := hc h.bus (hops_bus hh)
  by_cases he : ∀ v,t.getprop h.bus .ranges=some v → v.length=0
  · rw [fdtTranslateAddress_empty hcell he,hops_identity hh he]
    exact iff_of_true rfl fun v hv hlen => absurd (he v hv) hlen
  · push Not at he
    obtain ⟨v,hv,hlen⟩ := he
    rw [fdtTranslateAddress_entry hcell hv hlen]
    refine ⟨fun hf w hw _ => ?_,fun hf => hf v hv hlen⟩
    rw [hv] at hw
    cases hw
    exact hf

/-- The loop follows the steps. -/
theorem translateLoop_hops {l : List Nat} {a b : BitVec 64} (addr : BitVec 64) (hl : l≠[])
    (hb : t.translateUp l a=.address b)
    (hs : ∀ h∈t.hops l a,fdtTranslateAddress t h.child h.bus=some (.ok h.parent)) :
    translateLoop t l a addr=some b := by
  induction l generalizing a addr with
  | nil => exact absurd rfl hl
  | cons bus l ih =>
    cases l with
    | nil =>
      have hroot := hs ⟨bus,a,a⟩ (List.mem_singleton_self _)
      cases hb
      rw [translateLoop,hroot]
      rfl
    | cons parent rest =>
      rw [Fdt.translateUp] at hb
      rw [Fdt.hops] at hs
      cases hat : t.translateAt bus parent a with
      | address c =>
        rw [hat] at hb hs
        have hfirst := hs ⟨bus,a,c⟩ List.mem_cons_self
        rw [translateLoop,hfirst]
        exact ih c (List.cons_ne_nil _ _) hb fun h hh => hs h (List.mem_cons_of_mem _ hh)
      | uncovered =>
        rw [hat] at hb
        cases hb
      | undefined =>
        rw [hat] at hb
        cases hb

/-- The address and the size of a whole entry of `reg`. -/
theorem fdtGetNodeAddrSize_reg {node parent index : Nat} {reg : List (BitVec 8)} (hp : t.parentOffset node=.ok parent)
    (hc : t.SmallCells parent) (hreg : t.getprop node .reg=some reg)
    (hlen : 4*((index+1)*((t.addressCells parent).toNat+(t.sizeCells parent).toNat)) ≤ reg.length)
    (addr : BitVec 64) (size : Option (BitVec 64)) :
    ∃ s,fdtGetNodeAddrSize t node index ⟨some addr,size⟩=
      (translateLoop t (t.ancestors node) (cellsValue reg
        (index*((t.addressCells parent).toNat+(t.sizeCells parent).toNat)) (t.addressCells parent).toNat) addr).map
          fun a => (SBI_OK,⟨some a,s⟩) := by
  have ha : ¬t.addressCells parent<1 := by
    rcases hc.address with h | h <;> omega
  have hpos : (t.addressCells parent).toNat≠0 := by omega
  rw [fdtGetNodeAddrSize,if_neg (by omega),hp]
  dsimp only
  rw [if_neg ha,if_neg (not_lt.mpr hc.size_ge),hreg,Int.toNat_natCast]
  generalize (t.addressCells parent).toNat=na at hpos hlen ⊢
  generalize (t.sizeCells parent).toNat=ns at hlen ⊢
  rw [Nat.add_one_mul index] at hlen
  dsimp only
  rw [if_neg (by omega),readCells_eq,if_pos (.inr (by omega)),readCells_eq,if_pos (.inr (by omega))]
  simp only [Option.bind_eq_bind,Option.bind_some]
  cases size with
  | none =>
    refine ⟨none,?_⟩
    cases translateLoop t (t.ancestors node) (cellsValue reg (index*(na+ns)) na) addr <;> rfl
  | some z =>
    refine ⟨some (cellsValue reg (index*(na+ns)+na) ns),?_⟩
    cases translateLoop t (t.ancestors node) (cellsValue reg (index*(na+ns)) na) addr <;> rfl

/-- The first entries do what the tree says about an address: it says nothing, or every bus covers the
address and every first entry carries it. -/
def Fdt.FirstEntriesServe (t : Fdt) (l : List Nat) (a : BitVec 64) : Prop :=
  t.translateUp l a=.undefined ∨ (t.translateUp l a≠.uncovered ∧ ∀ h∈t.hops l a,t.Carries h)

/-- `fdt_get_node_addr_size()` translates the address of an entry of `reg` as the tree says exactly when
the first entries of the `ranges` do. -/
theorem fdtGetNodeAddrSize_translated_iff (t : Fdt) (node index parent : Nat) (reg : List (BitVec 8))
    (hp : t.parentOffset node=.ok parent) (hc : ∀ b∈t.ancestors node,t.SmallCells b)
    (hreg : t.getprop node .reg=some reg)
    (hlen : 4*((index+1)*((t.addressCells parent).toNat+(t.sizeCells parent).toNat)) ≤ reg.length)
    (addr : BitVec 64) (size : Option (BitVec 64)) :
    let a := cellsValue reg (index*((t.addressCells parent).toNat+(t.sizeCells parent).toNat))
      (t.addressCells parent).toNat
    t.TranslatedRight (t.ancestors node) a (fdtGetNodeAddrSize t node index ⟨some addr,size⟩) ↔
      t.FirstEntriesServe (t.ancestors node) a := by
  intro a
  have hl : t.ancestors node≠[] := by
    rw [Fdt.ancestors_eq hp]
    exact List.cons_ne_nil _ _
  have hcp : t.SmallCells parent := hc parent (by rw [Fdt.ancestors_eq hp]; exact List.mem_cons_self)
  obtain ⟨s,hs⟩ := fdtGetNodeAddrSize_reg hp hcp hreg hlen addr size
  have hsteps : (∀ h∈t.hops (t.ancestors node) a,fdtTranslateAddress t h.child h.bus=some (.ok h.parent)) ↔
      ∀ h∈t.hops (t.ancestors node) a,t.Carries h :=
    forall₂_congr fun h hh => hop_translated_iff hc hh
  rw [hs,Fdt.TranslatedRight,Fdt.FirstEntriesServe]
  cases htr : t.translateUp (t.ancestors node) a with
  | undefined => simp
  | uncovered =>
    -- an error of a translation is not passed on
    refine iff_of_false ?_ (by simp)
    rintro ⟨e,out,he,hne⟩
    obtain ⟨b,-,heq⟩ := Option.map_eq_some_iff.mp he
    cases heq
    exact hne rfl
  | address b =>
    simp only [reduceCtorEq,false_or,ne_eq,not_false_eq_true,true_and]
    rw [← hsteps]
    refine ⟨fun h => h.2,fun h => ⟨⟨s,?_⟩,h⟩⟩
    rw [translateLoop_hops addr hl htr h]
    rfl

/-- A bus with a window of two pages, given as the entries `entries`, and a device on it. -/
def windowTree (entries : List (BitVec 32)) : Fdt :=
  [⟨0,[],[.prop .addressCells (cellBytes 1),.prop .sizeCells (cellBytes 1)]⟩,
   ⟨1,cstr "soc",[.prop .addressCells (cellBytes 1),.prop .sizeCells (cellBytes 1),
     .prop .ranges (entries.flatMap cellBytes)]⟩,
   ⟨2,cstr "uart",[.prop .reg (cellBytes 0x1100 ++ cellBytes 0x100)]⟩]

theorem windowTree_cells (entries : List (BitVec 32)) {b : Nat} (hb : b∈(windowTree entries).ancestors 2) :
    (windowTree entries).SmallCells b := by
  have hb : b∈[1,0] := hb
  have hone : (windowTree entries).sizeCells b=1 := by
    rw [List.mem_cons,List.mem_singleton] at hb
    rcases hb with rfl | rfl <;> rfl
  refine ⟨.inl ?_,by omega,by omega⟩
  rw [List.mem_cons,List.mem_singleton] at hb
  rcases hb with rfl | rfl <;> rfl

theorem windowTree_translated : (windowTree [0,0x10000000,0x2000]).TranslatedRight
    ((windowTree [0,0x10000000,0x2000]).ancestors 2) 0x1100
    (fdtGetNodeAddrSize (windowTree [0,0x10000000,0x2000]) 2 0 ⟨some 0,none⟩) := by
  refine (fdtGetNodeAddrSize_translated_iff (windowTree [0,0x10000000,0x2000]) 2 0 1 _ rfl
    (fun _ hb => windowTree_cells _ hb) rfl (by decide) 0 none).mpr (.inr ⟨by decide,fun h hh => ?_⟩)
  have hh : h∈[⟨1,0x1100,0x10001100⟩,⟨0,0x10001100,0x10001100⟩] := hh
  rw [List.mem_cons,List.mem_singleton] at hh
  rcases hh with rfl | rfl
  · intro v hv _
    cases hv
    exact ⟨by decide,by decide,by decide,by decide⟩
  · intro v hv
    cases hv

/-- With an entry for each page the device on the second page gets an address behind the first one. -/
theorem secondWindow_missed :
    ¬∀ (t : Fdt) (node index parent : Nat) (reg : List (BitVec 8)),t.parentOffset node=.ok parent →
      (∀ b∈t.ancestors node,t.SmallCells b) → t.getprop node .reg=some reg →
      4*((index+1)*((t.addressCells parent).toNat+(t.sizeCells parent).toNat)) ≤ reg.length →
      ∀ (addr : BitVec 64) (size : Option (BitVec 64)),
        t.TranslatedRight (t.ancestors node) (cellsValue reg
          (index*((t.addressCells parent).toNat+(t.sizeCells parent).toNat)) (t.addressCells parent).toNat)
          (fdtGetNodeAddrSize t node index ⟨some addr,size⟩) := by
  intro h
  have hw := h (windowTree [0,0x10000000,0x1000,0x1000,0x20000000,0x1000]) 2 0 1 _ rfl
    (fun _ hb => windowTree_cells _ hb) rfl (by decide) 0 none
  obtain ⟨⟨s,hs⟩,-⟩ : (∃ s,fdtGetNodeAddrSize (windowTree [0,0x10000000,0x1000,0x1000,0x20000000,0x1000]) 2 0
    ⟨some 0,none⟩=some (SBI_OK,⟨some 0x20000100,s⟩)) ∧ _ := hw
  have hcode : fdtGetNodeAddrSize (windowTree [0,0x10000000,0x1000,0x1000,0x20000000,0x1000]) 2 0
    ⟨some 0,none⟩=some (SBI_OK,⟨some 0x10001100,none⟩) := by decide
  rw [hcode] at hs
  cases hs

end Translate
end OpenSBI
