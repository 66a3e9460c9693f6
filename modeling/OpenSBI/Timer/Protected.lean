import OpenSBI.Timer.AclintMtimer

namespace OpenSBI

open Math

variable {x : Xlen} {pos stop size : Word x}

/-! ## What guards the range -/

/-- The region grants some access below M-mode. -/
def Memregion.Grants (r : Memregion x) : Prop :=
  r.flags &&& (SBI_DOMAIN_MEMREGION_READABLE ||| SBI_DOMAIN_MEMREGION_WRITEABLE |||
    SBI_DOMAIN_MEMREGION_EXECUTABLE)≠0

/-- An aligned block starts at its size's multiple below each of its addresses. -/
theorem block_base {b k a : Nat} (hb : 2^k∣b) (ha : InBlock b k a) : a/2^k*2^k=b := by
  rw [(inBlock_iff_div hb a).mp ha,Nat.div_mul_cancel hb]

variable {L l : List (Memregion x)} {a : Word x} {k : Nat}

/-- A region without permission lies over the address; it grew from order `k` by unions, each of a block that
such regions of `L` fill. -/
def Guarded (L l : List (Memregion x)) (k : Nat) (a : Word x) : Prop :=
  ∃ q∈l,q.flags= SBI_DOMAIN_MEMREGION_MMIO ∧ q.Holds a ∧ 2^q.order.toNat∣q.base.toNat ∧
    ∀ j,k ≤ j → j ≤ q.order.toNat → Fills L SBI_DOMAIN_MEMREGION_MMIO (a.toNat/2^j*2^j) j

theorem TimerBlock.guarded {b : Memregion x} (h : TimerBlock b) (hL : b∈L) (hl : b∈l) (ha : b.Holds a) :
    Guarded L l b.order.toNat a := by
  refine ⟨b,hl,h.flags,ha,h.base,fun j hlo hhi => ?_⟩
  obtain rfl := le_antisymm hhi hlo
  rw [block_base h.base ha]
  exact .region b hL h.flags

theorem Guarded.perm {l' : List (Memregion x)} (h : Guarded L l k a) (hp : l.Perm l') : Guarded L l' k a := by
  obtain ⟨q,hq,hrest⟩ := h
  exact ⟨q,hp.mem_iff.mp hq,hrest⟩

/-- A merging pass keeps the guard, which may go into a union. -/
theorem Guarded.merge (h : Guarded L l k a) (hfill : FilledBy L (mergeRegions l).2)
    (hv : ∀ r∈l,isRegionValid r=true) (hv' : ∀ r∈(mergeRegions l).2,isRegionValid r=true)
    (hs : l.Pairwise (fun a b => isRegionBefore b a=false)) : Guarded L (mergeRegions l).2 k a := by
  obtain ⟨q,hq,hflags,hqa,hbase,hgrown⟩ := h
  rcases (mergeRegions_mem hv hv' hs).2 q hq with hkept | ⟨m,hm,c,-,d,-,hmf,hcd⟩
  · exact ⟨q,hkept,hflags,hqa,hbase,hgrown⟩
  have hqc : q.order=c.order ∧ q.flags=c.flags := by
    rcases hcd with rfl | rfl
    · exact ⟨rfl,rfl⟩
    · exact ⟨hmf.sameOrder,hmf.sameFlags⟩
  have hmflags : m.flags= SBI_DOMAIN_MEMREGION_MMIO := by rw [hmf.flags,← hqc.2,hflags]
  have hma : m.Holds a := by
    rw [hmf.holds]
    rcases hcd with rfl | rfl
    · exact .inl hqa
    · exact .inr hqa
  have hmbase : 2^m.order.toNat∣m.base.toNat := by
    rw [hmf.order,hmf.base]
    exact hmf.aligned
  refine ⟨m,hm,hmflags,hma,hmbase,fun j hlo hhi => ?_⟩
  rcases Nat.lt_or_eq_of_le hhi with hlt | rfl
  · apply hgrown j hlo
    rw [hqc.1]
    have := hmf.order
    omega
  · rw [block_base hmbase hma,← hmflags]
    exact hfill m hm

/-- The region table and the blocks with which the range ends up protected: the table is as the last sort left
it, no region that grants access over a block is filled exactly by regions without permission, and
away from the blocks none is filled by regions that answer otherwise. -/
structure Screened (l blocks : List (Memregion x)) : Prop where
  sorted : l.Pairwise (fun a b => isRegionBefore b a=false)
  inside : ∀ g∈l,g.Grants → (∃ a,g.Holds a ∧ ∃ b∈blocks,b.Holds a) →
    ¬Fills (blocks++l) SBI_DOMAIN_MEMREGION_MMIO g.base.toNat g.order.toNat
  outside : Coherent (fun a => ∀ b∈blocks,¬b.Holds a) (blocks++l)

/-- The root domain with some of the blocks added. -/
structure MtimerProgress (root : SbiDomain x) (blocks : List (Memregion x)) (root' : SbiDomain x) (count : Nat)
    (done : List (Memregion x)) : Prop where
  counted : RootCount root' count
  sorted : root'.memregions.Pairwise (fun a b => isRegionBefore b a=false)
  valid : done≠[] → ∀ r∈root'.memregions,isRegionValid r=true
  filled : FilledBy (blocks++root.memregions) root'.memregions
  guarded : ∀ b∈done,∀ a,b.Holds a → Guarded (blocks++root.memregions) root'.memregions b.order.toNat a
  same : ∀ a,(∀ b∈blocks,¬b.Holds a) → ∀ mode,mode≠PRV_M → ∀ accessFlags,
    sbiDomainCheckAddr root' a mode accessFlags=sbiDomainCheckAddr root a mode accessFlags

variable {plat : Platform} {fw : Memregion x} {finalized : Bool} {root root' : SbiDomain x} {count : Nat}
  {blocks done : List (Memregion x)}

theorem MtimerProgress.start (hroot : RootCount root count) (hs : Screened root.memregions blocks) :
    MtimerProgress root blocks root count [] where
  counted := hroot
  sorted := hs.sorted
  valid h := absurd rfl h
  filled r hr := .region r (List.mem_append_right blocks hr) rfl
  guarded b hb := by cases hb
  same _ _ _ _ _ := rfl

/-- One more block. -/
theorem MtimerProgress.add {b : Memregion x} (h : MtimerProgress root blocks root' count done)
    (hs : Screened root.memregions blocks) (hb : b∈blocks) (htb : TimerBlock b)
    (hok : (sbiDomainRootAddMemregion plat fw finalized root' count b).1=SBI_OK) :
    MtimerProgress root blocks (sbiDomainRootAddMemregion plat fw finalized root' count b).2.1
      (sbiDomainRootAddMemregion plat fw finalized root' count b).2.2 (done++[b]) := by
  obtain ⟨hsane,-⟩ := sbiDomainRootAddMemregion_sane h.counted htb.order hok
  have hbL : b∈blocks++root.memregions := List.mem_append_left _ hb
  have hfilled : FilledBy (blocks++root.memregions) (b::root'.memregions) := by
    intro r hr
    rcases List.mem_cons.mp hr with rfl | hr
    · exact .region r hbL rfl
    · exact h.filled r hr
  -- what the sorts and merges of the call keep
  have hkept : ∀ {I : List (Memregion x) → Prop},(∀ l l',l.Perm l' → I l → I l') →
      (∀ l,(∀ r∈l,isRegionValid r=true) → (∀ r∈(mergeRegions l).2,isRegionValid r=true) →
        l.Pairwise (fun a b => isRegionBefore b a=false) → I l → I (mergeRegions l).2) →
      I (b::root'.memregions) →
      I (sbiDomainRootAddMemregion plat fw finalized root' count b).2.1.memregions :=
    fun hperm hmerge => sbiDomainRootAddMemregion_rule hperm hmerge h.counted htb.order hok
  have hmergeFilled : ∀ l,(∀ r∈l,isRegionValid r=true) → (∀ r∈(mergeRegions l).2,isRegionValid r=true) →
      l.Pairwise (fun a b => isRegionBefore b a=false) → FilledBy (blocks++root.memregions) l →
      FilledBy (blocks++root.memregions) (mergeRegions l).2 :=
    fun l hv hv' hsort hl r hr => hl.fills (mergeRegions_filledBy hv hv' hsort r hr)
  refine ⟨h.counted.add plat fw finalized htb.order,hsane.sorted,fun _ => hsane.valid,?_,?_,?_⟩
  · exact hkept (fun l l' hp hl => hl.perm hp) hmergeFilled hfilled
  · intro c hc a hca
    have hguard : Guarded (blocks++root.memregions) (b::root'.memregions) c.order.toNat a := by
      rcases List.mem_append.mp hc with hc | hc
      · obtain ⟨q,hq,hrest⟩ := h.guarded c hc a hca
        exact ⟨q,List.mem_cons_of_mem b hq,hrest⟩
      · obtain rfl := List.mem_singleton.mp hc
        exact htb.guarded hbL List.mem_cons_self hca
    refine (hkept (I := fun l => FilledBy (blocks++root.memregions) l ∧
      Guarded (blocks++root.memregions) l c.order.toNat a) ?_ ?_ ⟨hfilled,hguard⟩).2
    · exact fun l l' hp hl => ⟨hl.1.perm hp,hl.2.perm hp⟩
    · intro l hv hv' hsort hl
      have hfill := hmergeFilled l hv hv' hsort hl.1
      exact ⟨hfill,hl.2.merge hfill hv hv' hsort⟩
  · intro a ha mode hmode accessFlags
    rw [← h.same a ha mode hmode accessFlags]
    exact sbiDomainRootAddMemregion_answersOn h.counted htb.order h.sorted (hs.outside.of_filledBy hfilled) hok
      hmode ha (ha b hb) accessFlags

/-- The loop. -/
theorem MtimerProgress.run {fuel : Nat} {r : Int×SbiDomain x×Nat} (h : MtimerProgress root blocks root' count done)
    (hs : Screened root.memregions blocks) (hblocks : ∀ b∈mtimerBlocksLoop stop fuel pos,b∈blocks ∧ TimerBlock b)
    (hrun : mtimerAddLoop plat fw finalized stop fuel pos root' count=some r) (hok : r.1=SBI_OK) :
    MtimerProgress root blocks r.2.1 r.2.2 (done++mtimerBlocksLoop stop fuel pos) := by
  induction fuel generalizing pos root' count done with
  | zero => cases hrun
  | succ fuel ih =>
    rw [mtimerAddLoop] at hrun
    rw [mtimerBlocksLoop] at hblocks ⊢
    by_cases hlt : pos<stop
    · rw [if_pos hlt] at hrun hblocks ⊢
      dsimp only at hrun
      split_ifs at hrun with hrc
      · cases hrun
        exact absurd hok hrc
      · obtain ⟨hb,htb⟩ := hblocks _ List.mem_cons_self
        have hadd := h.add hs hb htb (not_not.mp hrc)
        rw [List.append_cons]
        exact ih hadd (fun b hb => hblocks b (List.mem_cons_of_mem _ hb)) hrun
    · rw [if_neg hlt] at hrun ⊢
      cases hrun
      rwa [List.append_nil]

end OpenSBI
