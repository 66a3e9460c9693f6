import OpenSBI.Fdt.Reserved

namespace OpenSBI

section Loops

variable {t : Fdt} {L : FdtLayout} {s b : Blob} {d i k r n m : Nat} {D E : Nat → Prop}

/-- A pointer that was taken with the nodes of `D` disabled, read with those of `E` disabled. -/
theorem cell_disabled (hs : Disabled t D s.tree) (hb : Disabled t E b.tree) (hDE : ∀ j,D j → E j)
    (hsize : ∀ j,E j → ¬D j → t.Resizes j → d<j) {name : PropName} {v : List (BitVec 8)}
    (hst : name≠.status) (hdom : name≠.opensbiDomain) (hv : t.getprop d name=some v)
    (hk : k<(v.length+3)/4) : (Blob.access L).cell s d name b k=fdt32 v k := by
  have hv' : b.tree.getprop d name=some v := (getprop_congr hb.core hst hdom d).trans hv
  rw [Fdt.getprop,Option.bind_eq_some_iff] at hv'
  obtain ⟨node,hnode,hval⟩ := hv'
  have hread := read_position (L := L) hnode hval hk
  rwa [← position_disabled hs hb hDE hsize hst] at hread

/-- A device is disabled while there are 32 bytes. -/
theorem setDisabled_room (hroom : b.used+32≤b.totalsize.toNat) (c : Nat) :
    (b.setDisabled c).tree=b.tree.modify c FdtNode.disable ∧ (b.setDisabled c).used≤b.used+32 ∧
      (b.setDisabled c).totalsize=b.totalsize := by
  have hplace : ∃ b',b.setpropPlaceholder c=some b' ∧ b'.used≤b.used+32 ∧ b'.totalsize=b.totalsize := by
    have hlen : fdtTagalign disabledValue.length=12 := by decide
    have hsplice : ∀ (b : Blob) o n,b.used+n≤b.totalsize.toNat → ∃ b',b.splice o n=some b' ∧
        b'.used≤b.used+n ∧ b'.totalsize=b.totalsize := by
      intro b o n h
      rw [Blob.splice,if_neg (by omega)]
      exact ⟨_,rfl,by dsimp only; omega,rfl⟩
    rw [Blob.setpropPlaceholder,hlen]
    cases b.tree.getprop c .status with
    | some v =>
      obtain ⟨b',hb',hused,htotal⟩ := hsplice b (fdtTagalign v.length) 12 (by omega)
      exact ⟨b',hb',by omega,htotal⟩
    | none =>
      have hname : ∃ b',b.findAddString=some b' ∧ b'.used≤b.used+7 ∧ b'.totalsize=b.totalsize := by
        rw [Blob.findAddString]
        split_ifs
        · exact ⟨b,rfl,by omega,rfl⟩
        · obtain ⟨b',hb',hused,htotal⟩ := hsplice b 0 7 (by omega)
          rw [hb']
          exact ⟨_,rfl,hused,htotal⟩
      obtain ⟨b1,hb1,hused1,htotal1⟩ := hname
      obtain ⟨b2,hb2,hused2,htotal2⟩ := hsplice b1 0 (12+12) (by rw [htotal1]; omega)
      refine ⟨b2,?_,by omega,htotal2.trans htotal1⟩
      simp only [hb1,Option.bind_some,hb2]
  obtain ⟨b',hb',hused,htotal⟩ := hplace
  rw [Blob.setDisabled,hb']
  exact ⟨rfl,hused,htotal⟩

theorem disableLoop_run (hsteady : t.Steady d) (hread : t.Readable d) (hn : t.Names d i r)
    (ha : t.regionAccess d i &&& DISABLE_DEVICES_MASK=0) (hs : Disabled t (t.Before d i 0) s.tree)
    (hk : k+n=t.deviceCount r) (hb : Disabled t (t.Before d i k) b.tree)
    (hroom : b.used+32*(n+m)≤b.totalsize.toNat) :
    ∃ b',disableLoop ((Blob.access L).cell s r .devices) n k b=(0,b') ∧
      Disabled t (t.Before d i (t.deviceCount r)) b'.tree ∧ b'.used+32*m≤b'.totalsize.toNat := by
  induction n generalizing k b with
  | zero =>
    rw [Nat.add_zero] at hk
    subst hk
    exact ⟨b,rfl,hb,by omega⟩
  | succ n ih =>
    have hlt : k<t.deviceCount r := by omega
    have hcell : (Blob.access L).cell s r .devices b k=t.devicePhandle r k := by
      unfold Fdt.deviceCount at hlt
      rw [Fdt.devicePhandle]
      cases hv : t.getprop r .devices with
      | none =>
        rw [hv] at hlt
        simp at hlt
      | some v =>
        rw [hv,Option.getD_some] at hlt
        apply cell_disabled hs hb _ _ (by decide) (by decide) hv (by omega)
        · rintro j ⟨i',k',hij,hl⟩
          exact ⟨i',k',by omega,hl⟩
        · -- A node that changed its size under the pointer was first listed in this entry.
          intro j hj hold hres
          obtain ⟨i',k',hij,hl,hfirst⟩ := hj.first
          have hi : i'=i := by
            rcases hij with h | h
            · exact absurd (hl.before (.inl h)) hold
            · exact h.1
          subst hi
          exact hsteady.devices i' k' j r hl hfirst hres hn (by omega)
    obtain ⟨j,hj⟩ := hread.devices i r k hn ha hlt
    have hlist : t.Lists d i k j := ⟨r,hn,ha,hlt,hj⟩
    obtain ⟨htree,hused,htotal⟩ := setDisabled_room (b := b) (by omega) j
    have hb' : Disabled t (t.Before d i (k+1)) (b.setDisabled j).tree := by
      rw [htree]
      exact (hb.modify j).congr fun c => (Fdt.before_succ hlist c).symm
    rw [disableLoop,hcell,offsetByPhandle_congr hb.core,hj]
    exact ih (by omega) hb' (by rw [htotal]; omega)

/-- `__fixup_disable_devices()` on an entry. -/
theorem fixupDisableDevices_run (hsteady : t.Steady d) (hread : t.Readable d) (hn : t.Names d i r)
    (hb : Disabled t (t.Before d i 0) b.tree)
    (hroom : b.used+32*(t.entryDevices d i+m)≤b.totalsize.toNat) :
    ∃ b',fixupDisableDevices L r (t.regionAccess d i) b=some (0,b') ∧
      Disabled t (t.Before d (i+1) 0) b'.tree ∧ b'.used+32*m≤b'.totalsize.toNat := by
  rw [Fdt.entryDevices_names hn] at hroom
  rw [fixupDisableDevices]
  split_ifs with ha
  · rw [if_neg ha] at hroom
    refine ⟨b,rfl,hb.congr fun c => (Fdt.before_next hn (fun h => absurd h ha) c).symm,by omega⟩
  · rw [not_not] at ha
    rw [if_pos ha] at hroom
    rw [devices_congr hb.core]
    cases hv : t.getprop r .devices with
    | none =>
      have hcount : t.deviceCount r=0 := by
        rw [Fdt.deviceCount,hv]
        rfl
      exact ⟨b,rfl,hb.congr fun c => (Fdt.before_next hn (fun _ => hcount.le) c).symm,by omega⟩
    | some v =>
      have hcount : v.length/4=t.deviceCount r := by
        rw [Fdt.deviceCount,hv]
        rfl
      obtain ⟨b',hrun,hb',hroom'⟩ := disableLoop_run (L := L) (m := m) hsteady hread hn ha hb
        (Nat.zero_add _) hb hroom
      refine ⟨b',?_,hb'.congr fun c => (Fdt.before_next hn (fun _ => le_rfl) c).symm,hroom'⟩
      simp only [hcount,hrun]

/-- The loop over the entries of an instance. -/
theorem memregionLoop_run (hsteady : t.Steady d) (hread : t.Readable d)
    (hs : Disabled t (t.Before d 0 0) s.tree) (hi : i+n=t.regionCount d)
    (hb : Disabled t (t.Before d i 0) b.tree) (hroom : b.used+32*t.listed d n i≤b.totalsize.toNat) :
    ∃ b',memregionLoop (Blob.access L) (fixupDisableDevices L) ((Blob.access L).cell s d .regions) n i b=
      some (0,b') ∧ Disabled t (t.Reserved d) b'.tree := by
  induction n generalizing i b with
  | zero =>
    rw [Nat.add_zero] at hi
    subst hi
    exact ⟨b,rfl,hb.congr Fdt.before_end⟩
  | succ n ih =>
    have hlt : i<t.regionCount d := by omega
    have hcell : ∀ k,k<2*i+2 → (Blob.access L).cell s d .regions b k=
        fdt32 ((t.getprop d .regions).getD []) k := by
      intro k hk
      unfold Fdt.regionCount at hlt
      cases hv : t.getprop d .regions with
      | none =>
        rw [hv] at hlt
        simp at hlt
      | some v =>
        rw [hv,Option.getD_some] at hlt
        rw [Option.getD_some]
        apply cell_disabled hs hb _ _ (by decide) (by decide) hv (by omega)
        · rintro j ⟨i',k',hij,hl⟩
          exact ⟨i',k',by omega,hl⟩
        · intro j hj _ hres
          obtain ⟨i',k',hij,hl,hfirst⟩ := hj.first
          exact hsteady.regions i' k' j hl hfirst hres (by omega)
    obtain ⟨r,hn⟩ := hread.entries i hlt
    rw [Fdt.listed] at hroom
    obtain ⟨b1,hrun,hb1,hroom1⟩ := fixupDisableDevices_run (L := L) hsteady hread hn hb hroom
    obtain ⟨b',hrun',hb'⟩ := ih (by omega) hb1 hroom1
    refine ⟨b',?_,hb'⟩
    have hphandle : b.tree.offsetByPhandle (t.regionPhandle d i)=.ok r := by
      rw [offsetByPhandle_congr hb.core]
      exact hn.2.1
    have hregion : b.tree.compatible r "opensbi,domain,memregion"=true := by
      rw [compatible_congr hb.core]
      exact hn.2.2
    have hround := memregionLoop_ok (Blob.access L) (fixupDisableDevices L) ((Blob.access L).cell s d .regions)
      (n := n) (i := i) (r := r) (s := b)
      (by rw [hcell (2*i) (by omega)]; exact hphandle) hregion
    have haccess : (Blob.access L).cell s d .regions b (2*i+1)=t.regionAccess d i := hcell (2*i+1) (by omega)
    rw [hround,haccess,hrun]
    exact hrun'

theorem fdtIterateEachMemregion_disable (hc : b.tree.compatible d "opensbi,domain,instance"=true)
    (hsteady : b.tree.Steady d) (hread : b.tree.Readable d)
    (hroom : b.used+32*b.tree.listed d (b.tree.regionCount d) 0≤b.totalsize.toNat) :
    ∃ b',fdtIterateEachMemregion (Blob.access L) (fixupDisableDevices L) d b=some (0,b') ∧
      Disabled b.tree (b.tree.Reserved d) b'.tree := by
  have hstart : Disabled b.tree (b.tree.Before d 0 0) b.tree := by
    apply Disabled.refl
    rintro j ⟨i',k',hij,-⟩
    omega
  obtain ⟨b',hrun,hb'⟩ := memregionLoop_run (L := L) hsteady hread hstart (Nat.zero_add _) hstart hroom
  exact ⟨b',(fdtIterateEachMemregion_eq (a := Blob.access L) hc).trans hrun,hb'⟩

theorem entryLoop_count (hread : t.Readable d) (hi : i+n=t.regionCount d) (dcount : BitVec 32) :
    entryLoop t d (fixupCountDisableDevices t) n i dcount=
      some (0,dcount+BitVec.ofNat 32 (t.listed d n i)) := by
  induction n generalizing i dcount with
  | zero => simp [entryLoop_zero,Fdt.listed,SBI_OK]
  | succ n ih =>
    obtain ⟨r,hn⟩ := hread.entries i (by omega)
    have hfn : fixupCountDisableDevices t r (t.regionAccess d i) dcount=
        some (0,dcount+BitVec.ofNat 32 (t.entryDevices d i)) := by
      rw [fixupCountDisableDevices,Fdt.entryDevices_names hn]
      by_cases ha : t.regionAccess d i &&& DISABLE_DEVICES_MASK=0
      · rw [if_neg (not_not.mpr ha),if_pos ha,Fdt.deviceCount]
        cases t.getprop r .devices <;> simp
      · rw [if_pos ha,if_neg ha]
        simp
    rw [entryLoop_names hn,hfn,Option.bind_some]
    have hnext := ih (i := i+1) (by omega) (dcount+BitVec.ofNat 32 (t.entryDevices d i))
    rw [BitVec.add_assoc,← BitVec.ofNat_add] at hnext
    exact hnext

end Loops

section Find

variable {t : Fdt} {name : List (BitVec 8)}

namespace Fdt

/-- The name of a node starts with that of the domain, which is what `strncmp()` compares. -/
def Named (t : Fdt) (name : List (BitVec 8)) (d : Nat) : Prop := ∃ n,t[d]?=some n ∧ name <+: n.name

/-- The last instance with such a name. -/
structure LastNamed (t : Fdt) (name : List (BitVec 8)) (d : Nat) : Prop where
  mem : d∈domainInstances t
  named : t.Named name d
  last : ∀ q∈domainInstances t,d<q → ¬t.Named name q

theorem LastNamed.unique {d d' : Nat} (h : t.LastNamed name d) (h' : t.LastNamed name d') : d=d' := by
  rcases Nat.lt_trichotomy d d' with hlt | heq | hlt
  · exact absurd h'.named (h.last d' h'.mem hlt)
  · exact heq
  · exact absurd h.named (h'.last d h.mem hlt)

end Fdt

theorem domainLoop_find {l : List Nat} (hl : l.Pairwise (· < ·)) (acc : Option Nat) :
    ∃ r,domainLoop (fixupFindDomainOffset t name) l acc=some (0,r) ∧
      ((r=acc ∧ ∀ d∈l,¬t.Named name d) ∨
        ∃ d∈l,r=some d ∧ t.Named name d ∧ ∀ q∈l,d<q → ¬t.Named name q) := by
  induction l generalizing acc with
  | nil => exact ⟨acc,rfl,.inl ⟨rfl,fun d hd => by cases hd⟩⟩
  | cons a l ih =>
    obtain ⟨hhead,htail⟩ := List.pairwise_cons.mp hl
    have hnamed : (t[a]?.any fun n => decide (name <+: n.name))=true ↔ t.Named name a := by
      simp [Fdt.Named,Option.any_eq_true]
    rw [domainLoop]
    obtain ⟨r,hrun,hr⟩ := ih htail (if t[a]?.any fun n => decide (name <+: n.name) then some a else acc)
    refine ⟨r,hrun,?_⟩
    rcases hr with ⟨hacc,hno⟩ | ⟨d,hd,hrd,hdn,hlast⟩
    · by_cases ha : t.Named name a
      · rw [if_pos (hnamed.mpr ha)] at hacc
        refine .inr ⟨a,List.mem_cons_self,hacc,ha,fun q hq hlt => ?_⟩
        rcases List.mem_cons.mp hq with rfl | hq
        · omega
        · exact hno q hq
      · rw [if_neg (mt hnamed.mp ha)] at hacc
        refine .inl ⟨hacc,fun d hd => ?_⟩
        rcases List.mem_cons.mp hd with rfl | hd
        · exact ha
        · exact hno d hd
    · refine .inr ⟨d,List.mem_cons_of_mem a hd,hrd,hdn,fun q hq hlt => ?_⟩
      rcases List.mem_cons.mp hq with rfl | hq
      · have := hhead d hd
        omega
      · exact hlast q hq hlt

theorem findDomain_of_named {d : Nat} (hd : d∈domainInstances t) (hn : t.Named name d) :
    ∃ q,t.findDomain name=some q ∧ t.LastNamed name q := by
  obtain ⟨r,hrun,hr⟩ := @domainLoop_find t name _ (domainInstances_sorted t) none
  have hfind : t.findDomain name=r := by
    rw [Fdt.findDomain,fdtIterateEachDomain,hrun]
    rfl
  rcases hr with ⟨-,hno⟩ | ⟨q,hq,hrq,hqn,hlast⟩
  · exact absurd hn (hno d hd)
  · exact ⟨q,hfind.trans hrq,hq,hqn,hlast⟩

theorem findDomain_lastNamed {d : Nat} (h : t.LastNamed name d) : t.findDomain name=some d := by
  obtain ⟨q,hq,hlast⟩ := findDomain_of_named h.mem h.named
  rw [hq,h.unique hlast]

theorem findDomain_core : t.core.findDomain name=t.findDomain name := by
  have hfn : fixupFindDomainOffset t.core name=fixupFindDomainOffset t name := by
    funext doff doffset
    rw [fixupFindDomainOffset,fixupFindDomainOffset,Fdt.core,List.getElem?_map,Option.any_map]
    rfl
  rw [Fdt.findDomain,Fdt.findDomain,fdtIterateEachDomain,fdtIterateEachDomain,Fdt.domainInstances_core,hfn]

end Find

section Fixup

variable {t u : Fdt} {L : FdtLayout} {b : Blob} {d : Nat} {name : List (BitVec 8)}

/-- The tree without the `opensbi-domain` properties of the CPU nodes. -/
theorem nopDomains_same (l : List Nat) (t : Fdt) : (nopDomains l t).core=t.core ∧
    ∀ j,(nopDomains l t).getprop j .status=t.getprop j .status := by
  induction l generalizing t with
  | nil => exact ⟨rfl,fun _ => rfl⟩
  | cons c l ih =>
    rw [nopDomains]
    cases fdtParseHartId t c with
    | error e => exact ih t
    | ok hartid =>
      obtain ⟨hcore,hstatus⟩ := ih (t.modify c (FdtNode.nopProperty .opensbiDomain))
      have hnode : ∀ n : FdtNode,(n.nopProperty .opensbiDomain).core=n.core ∧
          (n.nopProperty .opensbiDomain).getprop .status=n.getprop .status := by
        intro n
        rw [FdtNode.nopProperty,FdtNode.core,FdtNode.getprop]
        constructor
        · rw [filter_replaceProp (fun _ => rfl)]
          · rfl
          · intro _ i hi
            rw [List.eq_of_mem_replicate hi]
            rfl
        · apply findSome?_replaceProp (by decide)
          intro _ i hi
          rw [List.eq_of_mem_replicate hi]
          rfl
      refine ⟨hcore.trans ?_,fun j => (hstatus j).trans ?_⟩
      · apply List.ext_getElem?
        intro j
        rw [Fdt.core,Fdt.core,List.getElem?_map,List.getElem?_map,List.getElem?_modify]
        cases t[j]? with
        | none => rfl
        | some n =>
          simp only [Option.map_eq_map,Option.map_some]
          split_ifs
          · rw [(hnode n).1]
          · rfl
      · rw [Fdt.getprop,Fdt.getprop,List.getElem?_modify]
        cases t[j]? with
        | none => rfl
        | some n =>
          simp only [Option.map_eq_map,Option.map_some,Option.bind_some]
          split_ifs
          · exact (hnode n).2
          · rfl

/-- What the loops need of the instance they go through: lists they can read to the end, pointers that stay
where they are, and a blob that stays below `INT32_MAX` with 32 bytes more for each device. -/
structure Blob.Hideable (b : Blob) (d : Nat) : Prop where
  readable : b.tree.Readable d
  steady : b.tree.Steady d
  used : b.used≤b.totalsize.toNat
  size : b.totalsize.toNat+32*b.tree.listed d (b.tree.regionCount d) 0<INT32_MAX

theorem Blob.Hideable.congr (h : u.core=b.tree.core)
    (hstatus : ∀ j,u.getprop j .status=b.tree.getprop j .status) (hb : b.Hideable d) :
    Blob.Hideable { b with tree := u } d where
  readable := hb.readable.congr h
  steady := hb.steady.congr h hstatus
  used := hb.used
  size := by
    dsimp only
    rw [regionCount_congr h,listed_congr h]
    exact hb.size

theorem fixupDisable_run (hfind : b.tree.findDomain name=some d) (hd : d∈domainInstances b.tree)
    (hb : b.Hideable d) :
    ∃ b',fixupDisable L name b=some b' ∧ Disabled b.tree (b.tree.Reserved d) b'.tree := by
  have hc := domainInstances_compatible hd
  have hmax : INT32_MAX=2147483647 := by decide
  have hsize := hb.size
  have hused := hb.used
  obtain ⟨N,hN⟩ : ∃ N,N=b.tree.listed d (b.tree.regionCount d) 0 := ⟨_,rfl⟩
  rw [← hN] at hsize
  have hcount : ((fdtIterateEachMemregion (.fixed b.tree) (fixupCountDisableDevices b.tree) d 0).map
      Prod.snd).getD 0=BitVec.ofNat 32 N := by
    rw [fdtIterateEachMemregion_fixed hc,entryLoop_count hb.readable (Nat.zero_add _),hN]
    simp
  have hNat : (BitVec.ofNat 32 N).toNat=N := by
    rw [BitVec.toNat_ofNat]
    exact Nat.mod_eq_of_lt (by omega)
  rw [fixupDisable,hfind]
  simp only [hcount]
  split_ifs with hzero
  · -- Nothing is listed.
    have hN0 : N=0 := by
      rw [← hNat,hzero]
      rfl
    refine ⟨b,rfl,.refl b.tree ?_⟩
    rintro j ⟨i,k,hl⟩
    obtain ⟨r,hn,-⟩ := id hl
    have hpos := hl.listed_pos (n := b.tree.regionCount d) (Nat.zero_le i) (by rw [Nat.zero_add]; exact hn.1)
    omega
  · have hbuf : (b.totalsize+BitVec.ofNat 32 N*32).toNat=b.totalsize.toNat+32*N := by
      have h32 : (32 : BitVec 32).toNat=32 := rfl
      rw [BitVec.toNat_add,BitVec.toNat_mul,hNat,h32]
      omega
    have hopen : b.openInto (b.totalsize+BitVec.ofNat 32 N*32)=
        some { b with totalsize := b.totalsize+BitVec.ofNat 32 N*32 } := by
      rw [Blob.openInto,if_neg]
      rw [BitVec.lt_def,hbuf]
      omega
    obtain ⟨b',hrun,hb'⟩ := fdtIterateEachMemregion_disable (L := L)
      (b := { b with totalsize := b.totalsize+BitVec.ofNat 32 N*32 }) hc hb.steady hb.readable
      (by dsimp only; rw [hbuf,← hN]; omega)
    refine ⟨b',?_,hb'⟩
    simp only [hopen,hfind,hrun]
    rfl

/-- The name that `strncpy()` leaves in `dom->name`, an array of 64 characters. -/
def domainName (n : FdtNode) : List (BitVec 8) := n.name.take 63

/-- What the fixup has to do for the harts of instance `own`: the devices it keeps from them are disabled,
and every other node keeps its status. -/
structure Hides (t : Fdt) (own : Nat) (t' : Fdt) : Prop where
  disabled : ∀ j,t.Reserved own j → t'.getprop j .status=some disabledValue
  untouched : ∀ j,¬t.Reserved own j → t'.getprop j .status=t.getprop j .status

theorem Fdt.Reserved.lt {j : Nat} (h : t.Reserved d j) : j<t.length := by
  obtain ⟨i,k,r,-,-,-,hj⟩ := h
  rw [Fdt.offsetByPhandle] at hj
  split_ifs at hj
  cases hfind : t.findIdx? fun n => n.phandle=t.devicePhandle r k with
  | none =>
    rw [hfind] at hj
    cases hj
  | some i =>
    rw [hfind] at hj
    cases hj
    exact (List.findIdx?_eq_some_iff_getElem.mp hfind).1

/-- The devices that are disabled are those of the last instance whose name starts with that of the domain. -/
theorem fdtDomainFixup_disabled {index cpus : Nat} (hindex : index≠0) (hcpus : b.tree.pathOffset "cpus"=.ok cpus)
    (hd : b.tree.LastNamed name d) (hb : b.Hideable d) :
    Hides b.tree d (fdtDomainFixup L index name b).1.tree := by
  obtain ⟨hcore,hstatus⟩ := nopDomains_same (b.tree.subnodes cpus) b.tree
  have hb1 : Blob.Hideable { b with tree := nopDomains (b.tree.subnodes cpus) b.tree } d :=
    hb.congr hcore hstatus
  have hinst : domainInstances (nopDomains (b.tree.subnodes cpus) b.tree)=domainInstances b.tree := by
    rw [← Fdt.domainInstances_core,hcore,Fdt.domainInstances_core]
  have hfind : (nopDomains (b.tree.subnodes cpus) b.tree).findDomain name=some d := by
    rw [← findDomain_core,hcore,findDomain_core]
    exact findDomain_lastNamed hd
  obtain ⟨b',hrun,hb'⟩ := fixupDisable_run (L := L) hfind (by rw [hinst]; exact hd.mem) hb1
  have htree : (fdtDomainFixup L index name b).1.tree=b'.tree := by
    rw [fdtDomainFixup,hcpus]
    simp only [if_neg hindex,hrun]
    cases b'.tree.pathOffset "chosen" <;> rfl
  have hreserved : ∀ j,(nopDomains (b.tree.subnodes cpus) b.tree).Reserved d j ↔ b.tree.Reserved d j := by
    intro j
    rw [Fdt.Reserved,lists_congr hcore]
    rfl
  rw [htree]
  refine ⟨fun j hj => ?_,fun j hj => ?_⟩
  · rw [← hreserved] at hj
    exact hb'.status hj hj.lt
  · rw [← hreserved] at hj
    rw [← hstatus,Fdt.getprop,Fdt.getprop,hb'.others j hj]

end Fixup

/-- For the harts of instance `own` the fixup hides the right devices exactly when the last instance whose name
starts with that of the domain keeps the same devices from its harts, those aside that were disabled before. -/
theorem fdtDomainFixup_hides_iff (L : FdtLayout) (b : Blob) (index own cpus : Nat) (n : FdtNode) (hindex : index≠0)
    (hcpus : b.tree.pathOffset "cpus"=.ok cpus) (hown : own∈domainInstances b.tree) (hn : b.tree[own]?=some n)
    (hb : ∀ d,b.tree.LastNamed (domainName n) d → b.Hideable d) :
    Hides b.tree own (fdtDomainFixup L index (domainName n) b).1.tree ↔
      ∀ d,b.tree.LastNamed (domainName n) d → ∀ j,b.tree.getprop j .status≠some disabledValue →
        (b.tree.Reserved own j ↔ b.tree.Reserved d j) := by
  obtain ⟨d,-,hd⟩ := findDomain_of_named hown
    (show b.tree.Named (domainName n) own from ⟨n,hn,List.take_prefix _ _⟩)
  have hdone := fdtDomainFixup_disabled (L := L) hindex hcpus hd (hb d hd)
  constructor
  · intro h d' hd' j hj
    obtain rfl := hd.unique hd'
    constructor
    · intro ho
      by_contra hno
      rw [← hdone.untouched j hno] at hj
      exact hj (h.disabled j ho)
    · intro hr
      by_contra hno
      rw [← h.untouched j hno] at hj
      exact hj (hdone.disabled j hr)
  · intro h
    have hiff := h d hd
    refine ⟨fun j ho => ?_,fun j hno => ?_⟩
    · by_cases hr : b.tree.Reserved d j
      · exact hdone.disabled j hr
      · by_cases hj : b.tree.getprop j .status=some disabledValue
        · rw [hdone.untouched j hr,hj]
        · exact absurd ((hiff j hj).mp ho) hr
    · by_cases hr : b.tree.Reserved d j
      · by_cases hj : b.tree.getprop j .status=some disabledValue
        · rw [hdone.disabled j hr,hj]
        · exact absurd ((hiff j hj).mpr hr) hno
      · exact hdone.untouched j hr

/-- Two instances that keep one device each from their harts. The name of the first is where that of the second
starts. -/
def prefixTree : Fdt :=
  [⟨0,[],[]⟩,
   ⟨1,cstr "cpus",[]⟩,
   ⟨1,cstr "chosen",[]⟩,
   ⟨2,cstr "opensbi-domains",[.prop .compatible (cstr "opensbi,domain,config" ++ [0])]⟩,
   ⟨3,cstr "tuart",[.prop .compatible (cstr "opensbi,domain,memregion" ++ [0]),
     .prop .devices (cellBytes 3),.prop .phandle (cellBytes 1)]⟩,
   ⟨3,cstr "trtc",[.prop .compatible (cstr "opensbi,domain,memregion" ++ [0]),
     .prop .devices (cellBytes 4),.prop .phandle (cellBytes 2)]⟩,
   ⟨3,cstr "tdomain",[.prop .compatible (cstr "opensbi,domain,instance" ++ [0]),
     .prop .regions (cellBytes 1 ++ cellBytes 0)]⟩,
   ⟨3,cstr "tdomain-2",[.prop .compatible (cstr "opensbi,domain,instance" ++ [0]),
     .prop .regions (cellBytes 2 ++ cellBytes 0)]⟩,
   ⟨1,cstr "uart",[.prop .phandle (cellBytes 3)]⟩,
   ⟨1,cstr "rtc",[.prop .phandle (cellBytes 4)]⟩]

/-- Its blob, with room behind the blocks. -/
def prefixBlob : Blob := ⟨prefixTree,1024,700,false⟩

def plainLayout : FdtLayout := ⟨fun _ => 0,fun _ => [],fun _ => 0⟩

theorem prefixTree_instances : domainInstances prefixTree=[6,7] := by decide

theorem prefixTree_names {r : Nat} (h : prefixTree.Names 7 0 r) : r=5 := h.unique ⟨by decide,rfl,by decide⟩

theorem prefixTree_hideable : prefixBlob.Hideable 7 := by
  have hcount : prefixTree.regionCount 7=1 := by decide
  have hdevices : prefixTree.deviceCount 5=1 := by decide
  have hentry : ∀ {i r},prefixTree.Names 7 i r → i=0 ∧ r=5 := by
    intro i r h
    have hi := h.1
    rw [hcount] at hi
    obtain rfl := Nat.lt_one_iff.mp hi
    exact ⟨rfl,prefixTree_names h⟩
  refine ⟨⟨fun i hi => ?_,fun i r k hn _ hk => ?_⟩,⟨fun i k j _ _ _ hi => ?_,
    fun i k j r _ _ _ hn hk => ?_⟩,by decide,by decide⟩
  · have hi' : i<1 := hcount ▸ hi
    obtain rfl := Nat.lt_one_iff.mp hi'
    exact ⟨5,by decide,rfl,by decide⟩
  · obtain ⟨rfl,rfl⟩ := hentry hn
    have hk' : k<1 := hdevices ▸ hk
    obtain rfl := Nat.lt_one_iff.mp hk'
    exact ⟨9,rfl⟩
  · have hi' : i+1<1 := hcount ▸ hi
    omega
  · obtain ⟨rfl,rfl⟩ := hentry hn
    have hk' : k+1<1 := hdevices ▸ hk
    omega

/-- The harts of the second instance do not see its clock. -/
theorem prefixTree_hides :
    Hides prefixTree 7 (fdtDomainFixup plainLayout 2 (cstr "tdomain-2") prefixBlob).1.tree := by
  have hlast : ∀ {d},prefixTree.LastNamed (cstr "tdomain-2") d → d=7 := by
    intro d h
    have hmem := h.mem
    rw [prefixTree_instances,List.mem_cons,List.mem_singleton] at hmem
    rcases hmem with rfl | rfl
    · obtain ⟨n,hn,hstart⟩ := h.named
      cases hn
      exact absurd hstart (by decide)
    · rfl
  obtain ⟨n,hn,hname⟩ : ∃ n,prefixTree[7]?=some n ∧ domainName n=cstr "tdomain-2" := ⟨_,rfl,by decide⟩
  have h := fdtDomainFixup_hides_iff plainLayout prefixBlob 2 7 1 n (by decide) rfl
    (by rw [show prefixBlob.tree=prefixTree from rfl,prefixTree_instances]; decide) hn
    (fun d hd => by rw [hname] at hd; rw [hlast hd]; exact prefixTree_hideable)
  rw [hname] at h
  exact h.mpr fun d hd j _ => by rw [hlast hd]

/-- The harts of the first instance still see its console: the devices of the other one are disabled. -/
theorem prefixTree_misses : domainInstances prefixTree=[6,7] ∧
    prefixTree[6]?.map domainName=some (cstr "tdomain") ∧
    ¬Hides prefixTree 6 (fdtDomainFixup plainLayout 1 (cstr "tdomain") prefixBlob).1.tree := by
  refine ⟨prefixTree_instances,by decide,fun h => ?_⟩
  have hstatus := h.disabled 8 ⟨0,0,4,⟨by decide,rfl,by decide⟩,by decide,by decide,rfl⟩
  revert hstatus
  decide

/-- One instance, whose devices stand in front of it. -/
def movingTree : Fdt :=
  [⟨0,[],[]⟩,
   ⟨1,cstr "cpus",[]⟩,
   ⟨1,cstr "uart",[.prop .phandle (cellBytes 3)]⟩,
   ⟨1,cstr "rtc",[.prop .phandle (cellBytes 4)]⟩,
   ⟨1,cstr "chosen",[]⟩,
   ⟨2,cstr "opensbi-domains",[.prop .compatible (cstr "opensbi,domain,config" ++ [0])]⟩,
   ⟨3,cstr "tuart",[.prop .compatible (cstr "opensbi,domain,memregion" ++ [0]),
     .prop .devices (cellBytes 3),.prop .phandle (cellBytes 1)]⟩,
   ⟨3,cstr "trtc",[.prop .compatible (cstr "opensbi,domain,memregion" ++ [0]),
     .prop .devices (cellBytes 4),.prop .phandle (cellBytes 2)]⟩,
   ⟨3,cstr "tdomain",[.prop .compatible (cstr "opensbi,domain,instance" ++ [0]),
     .prop .regions (cellBytes 1 ++ cellBytes 0 ++ cellBytes 2 ++ cellBytes 0)]⟩]

/-- The status of the first device moves the entries under the pointer of the loop, and the second device is
missed. -/
example : movingTree.Reserved 8 3 ∧ (fdtDomainFixup plainLayout 1 (cstr "tdomain")
    ⟨movingTree,1024,700,false⟩).1.tree.getprop 3 .status=none :=
  ⟨⟨1,0,7,⟨by decide,rfl,by decide⟩,by decide,by decide,rfl⟩,by decide⟩

end OpenSBI
