import OpenSBI.Fdt.Tree

namespace OpenSBI

/-- How a state holds the device tree: the tree itself, and the cells behind the pointer that
`fdt_getprop()` returned in one state, as a later state has them. -/
structure FdtAccess (σ : Type) where
  tree : σ → Fdt
  cell : σ → Nat → PropName → σ → Nat → BitVec 32

/-- A tree that nothing changes. -/
def FdtAccess.fixed {σ : Type} (t : Fdt) : FdtAccess σ where
  tree _ := t
  cell _ offset name _ k := fdt32 ((t.getprop offset name).getD []) k

section Loops

variable {σ : Type}

/-- The nodes that `fdt_iterate_each_domain()` hands to its callback. -/
def domainInstances (t : Fdt) : List Nat :=
  match t.pathOffset "chosen" with
  | .error _ => []
  | .ok chosen =>
    match t.offsetByCompatible chosen "opensbi,domain,config" with
    | .error _ => []
    | .ok config => (t.subnodes config).filter fun d => t.compatible d "opensbi,domain,instance"

def domainLoop (fn : Nat → σ → Option (Int×σ)) : List Nat → σ → Option (Int×σ)
  | [],s => some (SBI_OK,s)
  | d::l,s => do
    let r ← fn d s
    if r.1≠SBI_OK then some r else domainLoop fn l r.2

/-- `fdt_iterate_each_domain()`; `none` is a read outside a property. -/
def fdtIterateEachDomain (t : Fdt) (fn : Nat → σ → Option (Int×σ)) (s : σ) : Option (Int×σ) :=
  domainLoop fn (domainInstances t) s

variable (a : FdtAccess σ) (fn : Nat → BitVec 32 → σ → Option (Int×σ))

/-- The loop of `fdt_iterate_each_memregion()` from entry `i` on, `n` entries; `regions` is the pointer. -/
def memregionLoop (regions : σ → Nat → BitVec 32) : Nat → Nat → σ → Option (Int×σ)
  | 0,_,s => some (SBI_OK,s)
  | n+1,i,s =>
    match (a.tree s).offsetByPhandle (regions s (2*i)) with
    | .error e => some (e,s)
    | .ok region =>
      if !(a.tree s).compatible region "opensbi,domain,memregion" then some (SBI_EINVAL,s)
      else do
        let r ← fn region (regions s (2*i+1)) s
        if r.1≠SBI_OK then some r else memregionLoop regions n (i+1) r.2

/-- A round on an entry that is the phandle of a region. -/
theorem memregionLoop_ok (regions : σ → Nat → BitVec 32) {n i r : Nat} {s : σ}
    (hp : (a.tree s).offsetByPhandle (regions s (2*i))=.ok r)
    (hc : (a.tree s).compatible r "opensbi,domain,memregion"=true) :
    memregionLoop a fn regions (n+1) i s=(fn r (regions s (2*i+1)) s).bind fun q =>
      if q.1≠SBI_OK then some q else memregionLoop a fn regions n (i+1) q.2 := by
  rw [memregionLoop,hp]
  simp only [hc]
  rfl

/-- `fdt_iterate_each_memregion()`. -/
def fdtIterateEachMemregion (domainOffset : Nat) (s : σ) : Option (Int×σ) :=
  if !(a.tree s).compatible domainOffset "opensbi,domain,instance" then some (SBI_EINVAL,s)
  else
    match (a.tree s).getprop domainOffset .regions with
    | none => some (SBI_OK,s)
    | some v => memregionLoop a fn (a.cell s domainOffset .regions) (v.length/8) 0 s

end Loops

namespace Fdt

variable (t : Fdt)

/-- The entries of a domain instance: region phandles and access flags. -/
def regionCount (d : Nat) : Nat := ((t.getprop d .regions).getD []).length/8
def regionPhandle (d i : Nat) : BitVec 32 := fdt32 ((t.getprop d .regions).getD []) (2*i)
def regionAccess (d i : Nat) : BitVec 32 := fdt32 ((t.getprop d .regions).getD []) (2*i+1)

/-- Entry `i` of a domain instance names the memory region node `r`. -/
def Names (d i r : Nat) : Prop :=
  i<t.regionCount d ∧ t.offsetByPhandle (t.regionPhandle d i)=.ok r ∧
    t.compatible r "opensbi,domain,memregion"=true

theorem offsetByPhandle_ne_ok {t : Fdt} {c : BitVec 32} {e : Int} (h : t.offsetByPhandle c=.error e) :
    e≠SBI_OK := by
  unfold Fdt.offsetByPhandle at h
  split at h
  · cases h
    decide
  · split at h <;> cases h
    decide

theorem Names.unique {t : Fdt} {d i r r' : Nat} (h : t.Names d i r) (h' : t.Names d i r') : r=r' :=
  Except.ok.inj (h.2.1.symm.trans h'.2.1)

end Fdt

section Instances

variable {t : Fdt}

theorem children_ge {d j i : Nat} {l : List FdtNode} (h : i∈Fdt.children d j l) : j ≤ i := by
  induction l generalizing j with
  | nil => cases h
  | cons n l ih =>
    rw [Fdt.children] at h
    split_ifs at h
    · cases h
    · rcases List.mem_cons.mp h with rfl | h
      · exact le_rfl
      · exact (Nat.le_succ j).trans (ih h)
    · exact (Nat.le_succ j).trans (ih h)

theorem children_sorted (d j : Nat) (l : List FdtNode) : (Fdt.children d j l).Pairwise (· < ·) := by
  induction l generalizing j with
  | nil => exact .nil
  | cons n l ih =>
    rw [Fdt.children]
    split_ifs
    · exact .nil
    · exact List.pairwise_cons.mpr ⟨fun i h => children_ge h,ih (j+1)⟩
    · exact ih (j+1)

/-- The instances come in the order of their nodes. -/
theorem domainInstances_sorted (t : Fdt) : (domainInstances t).Pairwise (· < ·) := by
  unfold domainInstances
  split
  · exact .nil
  · split
    · exact .nil
    · apply List.Pairwise.filter
      unfold Fdt.subnodes
      split
      · exact children_sorted _ _ _
      · exact .nil

theorem domainInstances_nodup (t : Fdt) : (domainInstances t).Nodup :=
  (domainInstances_sorted t).imp fun h => h.ne

theorem domainInstances_compatible {d : Nat} (h : d∈domainInstances t) :
    t.compatible d "opensbi,domain,instance"=true := by
  unfold domainInstances at h
  split at h
  · cases h
  · split at h
    · cases h
    · exact (List.mem_filter.mp h).2

end Instances

section Fixed

variable {σ : Type} {t : Fdt} {d : Nat} {fn : Nat → BitVec 32 → σ → Option (Int×σ)}

/-- The loop over the entries of `d` in a tree that nothing changes. -/
def entryLoop (t : Fdt) (d : Nat) (fn : Nat → BitVec 32 → σ → Option (Int×σ)) (n i : Nat) (s : σ) :
    Option (Int×σ) :=
  memregionLoop (.fixed t) fn (fun _ k => fdt32 ((t.getprop d .regions).getD []) k) n i s

theorem entryLoop_zero (i : Nat) (s : σ) : entryLoop t d fn 0 i s=some (SBI_OK,s) := rfl

theorem entryLoop_succ (n i : Nat) (s : σ) : entryLoop t d fn (n+1) i s=
    match t.offsetByPhandle (t.regionPhandle d i) with
    | .error e => some (e,s)
    | .ok region =>
      if !t.compatible region "opensbi,domain,memregion" then some (SBI_EINVAL,s)
      else (fn region (t.regionAccess d i) s).bind fun q =>
        if q.1≠SBI_OK then some q else entryLoop t d fn n (i+1) q.2 := rfl

/-- A round on an entry that names a region. -/
theorem entryLoop_names {r n i : Nat} (h : t.Names d i r) (s : σ) : entryLoop t d fn (n+1) i s=
    (fn r (t.regionAccess d i) s).bind fun q =>
      if q.1≠SBI_OK then some q else entryLoop t d fn n (i+1) q.2 :=
  memregionLoop_ok (.fixed t) fn _ h.2.1 h.2.2

/-- A round on any other entry. -/
theorem entryLoop_error {n i : Nat} (hi : i<t.regionCount d) (h : ∀ r,¬t.Names d i r) (s : σ) :
    ∃ e≠SBI_OK,entryLoop t d fn (n+1) i s=some (e,s) := by
  rw [entryLoop_succ]
  cases hp : t.offsetByPhandle (t.regionPhandle d i) with
  | error e =>
    exact ⟨e,Fdt.offsetByPhandle_ne_ok hp,rfl⟩
  | ok r =>
    have hc : t.compatible r "opensbi,domain,memregion"=false := by
      rw [← Bool.not_eq_true]
      exact fun hc => h r ⟨hi,hp,hc⟩
    exact ⟨SBI_EINVAL,by decide,by simp only [hc]; rfl⟩

theorem fdtIterateEachMemregion_eq {a : FdtAccess σ} {s : σ}
    (hd : (a.tree s).compatible d "opensbi,domain,instance"=true) : fdtIterateEachMemregion a fn d s=
      memregionLoop a fn (a.cell s d .regions) ((a.tree s).regionCount d) 0 s := by
  rw [fdtIterateEachMemregion,hd,Fdt.regionCount]
  cases (a.tree s).getprop d .regions <;> rfl

theorem fdtIterateEachMemregion_fixed (hd : t.compatible d "opensbi,domain,instance"=true) (s : σ) :
    fdtIterateEachMemregion (.fixed t) fn d s=entryLoop t d fn (t.regionCount d) 0 s :=
  fdtIterateEachMemregion_eq (a := .fixed t) hd

end Fixed
end OpenSBI
