import OpenSBI.Fdt.Disable

namespace OpenSBI

namespace Fdt

variable (t : Fdt)

/-- The devices of a region node, by their phandles. -/
def deviceCount (r : Nat) : Nat := ((t.getprop r .devices).getD []).length/4
def devicePhandle (r k : Nat) : BitVec 32 := fdt32 ((t.getprop r .devices).getD []) k

/-- Entry `i` of instance `d` is a region without access, whose device `k` is node `j`. -/
def Lists (d i k j : Nat) : Prop :=
  ∃ r,t.Names d i r ∧ t.regionAccess d i &&& DISABLE_DEVICES_MASK=0 ∧ k<t.deviceCount r ∧
    t.offsetByPhandle (t.devicePhandle r k)=.ok j

/-- Instance `d` keeps node `j` from its harts. -/
def Reserved (d j : Nat) : Prop := ∃ i k,t.Lists d i k j

/-- Node `j` is listed in front of device `k` of entry `i`. -/
def Before (d i k j : Nat) : Prop := ∃ i' k',(i' < i ∨ i'=i ∧ k'<k) ∧ t.Lists d i' k' j

/-- The devices of an entry, and of `n` entries from `i` on. -/
def entryDevices (d i : Nat) : Nat :=
  match t.offsetByPhandle (t.regionPhandle d i) with
  | .ok r => if t.regionAccess d i &&& DISABLE_DEVICES_MASK=0 then t.deviceCount r else 0
  | .error _ => 0

def listed (d : Nat) : Nat → Nat → Nat
  | 0,_ => 0
  | n+1,i => t.entryDevices d i+listed d n (i+1)

/-- The regions of an instance, and the devices of its regions without access, are phandles of such nodes. -/
structure Readable (t : Fdt) (d : Nat) : Prop where
  entries : ∀ i,i<t.regionCount d → ∃ r,t.Names d i r
  devices : ∀ i r k,t.Names d i r → t.regionAccess d i &&& DISABLE_DEVICES_MASK=0 → k<t.deviceCount r →
    ∃ j,t.offsetByPhandle (t.devicePhandle r k)=.ok j

/-- No device that gets another size, when it is disabled, stands in front of a property that the loops are
still reading: the entries of the instance up to the last one, the devices of a region up to its last one. -/
structure Steady (t : Fdt) (d : Nat) : Prop where
  regions : ∀ i k j,t.Lists d i k j → ¬t.Before d i k j → t.Resizes j → i+1<t.regionCount d → d<j
  devices : ∀ i k j r,t.Lists d i k j → ¬t.Before d i k j → t.Resizes j → t.Names d i r →
    k+1<t.deviceCount r → r<j

variable {t} {u : Fdt} {d i k j r : Nat}

theorem Lists.region (h : t.Lists d i k j) (hn : t.Names d i r) :
    t.regionAccess d i &&& DISABLE_DEVICES_MASK=0 ∧ k<t.deviceCount r ∧
      t.offsetByPhandle (t.devicePhandle r k)=.ok j := by
  obtain ⟨r',hn',h⟩ := h
  exact hn.unique hn' ▸ h

theorem Lists.before (h : t.Lists d i k j) {i' k' : Nat} (hlt : i < i' ∨ i=i' ∧ k<k') :
    t.Before d i' k' j := ⟨i,k,hlt,h⟩

/-- The first place where a node is listed. -/
theorem Before.first (h : t.Before d i k j) :
    ∃ i' k',(i' < i ∨ i'=i ∧ k'<k) ∧ t.Lists d i' k' j ∧ ¬t.Before d i' k' j := by
  classical
  obtain ⟨i',k',hlt,hl⟩ := h
  have hi : ∃ a,∃ k,t.Lists d a k j := ⟨i',k',hl⟩
  have hk : ∃ k,t.Lists d (Nat.find hi) k j := Nat.find_spec hi
  have hle : Nat.find hi ≤ i' := Nat.find_min' hi ⟨k',hl⟩
  refine ⟨Nat.find hi,Nat.find hk,?_,Nat.find_spec hk,?_⟩
  · rcases hle.lt_or_eq with h | h
    · omega
    · have hlk : Nat.find hk≤k' := Nat.find_min' hk (by rw [h]; exact hl)
      omega
  · rintro ⟨a,b,hab,hl'⟩
    have h1 := Nat.find_min' hi ⟨b,hl'⟩
    rcases hab with hab | ⟨rfl,hb⟩
    · omega
    · have h2 := Nat.find_min' hk hl'
      omega

/-- One more device. -/
theorem before_succ (h : t.Lists d i k j) (c : Nat) : t.Before d i (k+1) c ↔ t.Before d i k c ∨ c=j := by
  constructor
  · rintro ⟨i',k',hlt,hl⟩
    by_cases hb : i' < i ∨ i'=i ∧ k'<k
    · exact .inl ⟨i',k',hb,hl⟩
    · have hi : i'=i := by omega
      have hk : k'=k := by omega
      subst hi hk
      obtain ⟨r,hn,-,-,hj⟩ := h
      exact .inr (Except.ok.inj ((hl.region hn).2.2.symm.trans hj))
  · rintro (⟨i',k',hlt,hl⟩ | rfl)
    · exact ⟨i',k',by omega,hl⟩
    · exact h.before (by omega)

/-- The next entry. -/
theorem before_next (hn : t.Names d i r) (hk : t.regionAccess d i &&& DISABLE_DEVICES_MASK=0 →
    t.deviceCount r≤k) (c : Nat) : t.Before d (i+1) 0 c ↔ t.Before d i k c := by
  constructor
  · rintro ⟨i',k',hlt,hl⟩
    refine ⟨i',k',?_,hl⟩
    rcases Nat.lt_or_ge i' i with h | h
    · exact .inl h
    · have hi : i'=i := by omega
      subst hi
      obtain ⟨ha,hlt',-⟩ := hl.region hn
      have := hk ha
      omega
  · rintro ⟨i',k',hlt,hl⟩
    exact ⟨i',k',by omega,hl⟩

theorem before_end (c : Nat) : t.Before d (t.regionCount d) 0 c ↔ t.Reserved d c := by
  constructor
  · rintro ⟨i,k,-,h⟩
    exact ⟨i,k,h⟩
  · rintro ⟨i,k,h⟩
    obtain ⟨r,hn,-⟩ := id h
    exact ⟨i,k,.inl hn.1,h⟩

theorem entryDevices_names (hn : t.Names d i r) : t.entryDevices d i=
    if t.regionAccess d i &&& DISABLE_DEVICES_MASK=0 then t.deviceCount r else 0 := by
  rw [entryDevices,hn.2.1]

theorem Lists.listed_pos (h : t.Lists d i k j) {n m : Nat} (hm : m ≤ i) (hn : i < m+n) : 0<t.listed d n m := by
  induction n generalizing m with
  | zero => omega
  | succ n ih =>
    rw [listed]
    rcases hm.eq_or_lt with rfl | hlt
    · obtain ⟨r,hnames,ha,hk,-⟩ := h
      rw [entryDevices_names hnames,if_pos ha]
      omega
    · have := ih (m := m+1) hlt (by omega)
      omega

end Fdt

section Lookups

variable {t u : Fdt}

/-- Trees with the same core answer the lookups alike. -/
theorem offsetByPhandle_congr (h : u.core=t.core) : u.offsetByPhandle=t.offsetByPhandle := by
  funext c
  rw [← Fdt.offsetByPhandle_core,h,Fdt.offsetByPhandle_core]

theorem getprop_congr (h : u.core=t.core) {name : PropName} (hs : name≠.status) (ho : name≠.opensbiDomain)
    (offset : Nat) : u.getprop offset name=t.getprop offset name := by
  rw [← Fdt.getprop_core offset hs ho,h,Fdt.getprop_core offset hs ho]

theorem compatible_congr (h : u.core=t.core) : u.compatible=t.compatible := by
  funext offset s
  rw [← Fdt.compatible_core,h,Fdt.compatible_core]

theorem names_congr (h : u.core=t.core) : u.Names=t.Names := by
  funext d i r
  rw [← eq_iff_iff.mpr (Fdt.names_core (t := u)),h,eq_iff_iff.mpr Fdt.names_core]

theorem regions_congr (h : u.core=t.core) (d : Nat) : u.getprop d .regions=t.getprop d .regions :=
  getprop_congr h (by decide) (by decide) d

theorem devices_congr (h : u.core=t.core) (r : Nat) : u.getprop r .devices=t.getprop r .devices :=
  getprop_congr h (by decide) (by decide) r

theorem regionCount_congr (h : u.core=t.core) : u.regionCount=t.regionCount := by
  funext d
  rw [Fdt.regionCount,Fdt.regionCount,regions_congr h]

theorem regionPhandle_congr (h : u.core=t.core) : u.regionPhandle=t.regionPhandle := by
  funext d i
  rw [Fdt.regionPhandle,Fdt.regionPhandle,regions_congr h]

theorem regionAccess_congr (h : u.core=t.core) : u.regionAccess=t.regionAccess := by
  funext d i
  rw [Fdt.regionAccess,Fdt.regionAccess,regions_congr h]

theorem deviceCount_congr (h : u.core=t.core) : u.deviceCount=t.deviceCount := by
  funext r
  rw [Fdt.deviceCount,Fdt.deviceCount,devices_congr h]

theorem devicePhandle_congr (h : u.core=t.core) : u.devicePhandle=t.devicePhandle := by
  funext r k
  rw [Fdt.devicePhandle,Fdt.devicePhandle,devices_congr h]

theorem lists_congr (h : u.core=t.core) : u.Lists=t.Lists := by
  funext d i k j
  simp only [Fdt.Lists,names_congr h,regionAccess_congr h,deviceCount_congr h,devicePhandle_congr h,
    offsetByPhandle_congr h]

theorem before_congr (h : u.core=t.core) : u.Before=t.Before := by
  funext d i k j
  simp only [Fdt.Before,lists_congr h]

theorem listed_congr (h : u.core=t.core) : u.listed=t.listed := by
  have hentry : u.entryDevices=t.entryDevices := by
    funext d i
    rw [Fdt.entryDevices,Fdt.entryDevices,offsetByPhandle_congr h,regionPhandle_congr h,
      regionAccess_congr h,deviceCount_congr h]
  funext d n i
  induction n generalizing i with
  | zero => rfl
  | succ n ih => rw [Fdt.listed,Fdt.listed,ih,hentry]

theorem Fdt.Readable.congr {d : Nat} (h : u.core=t.core) (hr : t.Readable d) : u.Readable d where
  entries := by
    rw [regionCount_congr h,names_congr h]
    exact hr.entries
  devices := by
    rw [names_congr h,regionAccess_congr h,deviceCount_congr h,offsetByPhandle_congr h,devicePhandle_congr h]
    exact hr.devices

theorem resizes_congr (h : ∀ j,u.getprop j .status=t.getprop j .status) : u.Resizes=t.Resizes := by
  have hiff : ∀ (t : Fdt) j,t.Resizes j ↔ ¬∃ v,t.getprop j .status=some v ∧ (v.length+3)/4=3 := by
    intro t j
    rw [Fdt.Resizes,Fdt.getprop]
    cases t[j]? with
    | none => simp
    | some n => simp [FdtNode.Fitting]
  funext j
  rw [eq_iff_iff,hiff,hiff,h]

theorem Fdt.Steady.congr {d : Nat} (h : u.core=t.core) (hstatus : ∀ j,u.getprop j .status=t.getprop j .status)
    (hs : t.Steady d) : u.Steady d where
  regions := by
    rw [lists_congr h,before_congr h,resizes_congr hstatus,regionCount_congr h]
    exact hs.regions
  devices := by
    rw [lists_congr h,before_congr h,resizes_congr hstatus,names_congr h,deviceCount_congr h]
    exact hs.devices

end Lookups
end OpenSBI
