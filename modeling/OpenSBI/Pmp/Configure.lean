import OpenSBI.Domain.Memregion
import OpenSBI.Pmp.Match
import OpenSBI.Riscv.SbiMath

namespace OpenSBI

open Math

variable {x : Xlen}

/-- The PMP part of `struct hart_features`. -/
structure HartFeatures (x : Xlen) where
  pmpCount : Nat
  pmpAddrBits : BitVec 32
  pmpGran : Word x

def HartFeatures.pmpGranLog2 (f : HartFeatures x) : Nat := log2roundup f.pmpGran

/-- `pmp_addr_max` of `sbi_hart_pmp_configure()`; the subtraction is one of `unsigned int`. -/
def HartFeatures.pmpAddrMax (f : HartFeatures x) : Word x :=
  let pmpBits := (f.pmpAddrBits-1).toNat
  Word.bit pmpBits ||| (Word.bit pmpBits-1)

/-- `pmp_flags` of a region. -/
def pmpFlags (reg : Memregion x) : Word x :=
  (if reg.flags &&& SBI_DOMAIN_MEMREGION_READABLE≠0 then PMP_R else 0) |||
  (if reg.flags &&& SBI_DOMAIN_MEMREGION_WRITEABLE≠0 then PMP_W else 0) |||
  (if reg.flags &&& SBI_DOMAIN_MEMREGION_EXECUTABLE≠0 then PMP_X else 0) |||
  (if reg.flags &&& SBI_DOMAIN_MEMREGION_MMODE≠0 then PMP_L else 0)

/-- The test a region has to pass to be given an entry. -/
def pmpInRange (f : HartFeatures x) (reg : Memregion x) : Bool :=
  decide (f.pmpGranLog2≤reg.order.toNat) && decide (Word.shr reg.base PMP_SHIFT<f.pmpAddrMax)

/-- The loop of `sbi_hart_pmp_configure()`; the result of `pmp_set()` is dropped. -/
def pmpConfigureLoop (f : HartFeatures x) (pmpIdx : Nat) (csrs : Csrs x) :
    List (Memregion x) → Option (Csrs x)
  | [] => some csrs
  | reg::rest =>
      if f.pmpCount≤pmpIdx then some csrs
      else if pmpInRange f reg then do
        let set ← pmpSet csrs pmpIdx (pmpFlags reg) reg.base reg.order.toNat
        pmpConfigureLoop f (pmpIdx+1) set.2 rest
      else pmpConfigureLoop f pmpIdx csrs rest

/-- `sbi_hart_pmp_configure()` on a hart of domain `dom`. -/
def sbiHartPmpConfigure (f : HartFeatures x) (dom : SbiDomain x) (csrs : Csrs x) :
    Option (Int × Csrs x) :=
  if f.pmpCount=0 then some (0,csrs)
  else do
    let csrs' ← pmpConfigureLoop f 0 csrs dom.memregions
    some (0,csrs')

/-- The regions of a table that are given an entry when `n` entries are left. -/
def pmpRegions (f : HartFeatures x) (n : Nat) (l : List (Memregion x)) : List (Memregion x) :=
  (l.filter (pmpInRange f)).take n

theorem pmpRegions_mem {f : HartFeatures x} {n : Nat} {l : List (Memregion x)} {r : Memregion x}
    (h : r∈pmpRegions f n l) : r∈l ∧ pmpInRange f r=true :=
  List.mem_filter.mp (List.mem_of_mem_take h)

theorem pmpRegions_length_le (f : HartFeatures x) (n : Nat) (l : List (Memregion x)) :
    (pmpRegions f n l).length≤n := by
  simp only [pmpRegions,List.length_take]
  exact Nat.min_le_left _ _

/-- An entry has the same configuration and address in both register files. -/
def SameEntry (csrs csrs' : Csrs x) (j : Nat) : Prop :=
  pmpcfg csrs' j=pmpcfg csrs j ∧ pmpaddr csrs' j=pmpaddr csrs j

/-- The entries from `idx` on hold the regions of `l`, the other ones are those of `csrs`. -/
structure Programmed (csrs csrs' : Csrs x) (idx : Nat) (l : List (Memregion x)) : Prop where
  entry : ∀ i (hi : i<l.length),
    PmpEntry csrs' (idx+i) (pmpFlags l[i]) l[i].base l[i].order.toNat
  others : ∀ j,j<PMP_COUNT → j < idx ∨ idx+l.length≤j → SameEntry csrs csrs' j

theorem Programmed.refl (csrs : Csrs x) (idx : Nat) : Programmed csrs csrs idx [] where
  entry i hi := absurd hi (Nat.not_lt_zero i)
  others _ _ _ := ⟨rfl,rfl⟩

/-- Programming one entry and then those behind it. -/
theorem Programmed.cons {csrs csrs1 csrs2 : Csrs x} {idx : Nat} {r : Memregion x}
    {l : List (Memregion x)} (hidx : idx<PMP_COUNT)
    (hr : PmpEntry csrs1 idx (pmpFlags r) r.base r.order.toNat)
    (hkeep : ∀ j,j<PMP_COUNT → j≠idx → SameEntry csrs csrs1 j)
    (h : Programmed csrs1 csrs2 (idx+1) l) : Programmed csrs csrs2 idx (r::l) where
  entry i hi := by
    cases i with
    | zero =>
      obtain ⟨hc,ha⟩ := h.others idx hidx (.inl (Nat.lt_succ_self idx))
      exact ⟨hc.trans hr.cfg,ha.trans hr.addr⟩
    | succ i =>
      have he := h.entry i (Nat.lt_of_succ_lt_succ hi)
      rwa [Nat.add_assoc,Nat.add_comm 1 i] at he
  others j hj hout := by
    simp only [List.length_cons] at hout
    obtain ⟨hc,ha⟩ := h.others j hj (by omega)
    obtain ⟨hc1,ha1⟩ := hkeep j hj (by omega)
    exact ⟨hc.trans hc1,ha.trans ha1⟩

/-- Past the last entry of the architecture nothing is written. -/
private theorem pmpConfigureLoop_beyond (f : HartFeatures x) (l : List (Memregion x)) {idx : Nat}
    (hidx : PMP_COUNT ≤ idx) (csrs : Csrs x) : pmpConfigureLoop f idx csrs l=some csrs := by
  induction l generalizing idx with
  | nil => rfl
  | cons r l ih =>
    rw [pmpConfigureLoop]
    split_ifs with h1 h2
    · rfl
    · rw [pmpSet,if_pos (.inl hidx)]
      exact ih (Nat.le_succ_of_le hidx)
    · exact ih hidx

/-- The loop gives entries to the regions in range, in order, while there are any left. -/
theorem pmpConfigureLoop_spec (f : HartFeatures x) (l : List (Memregion x))
    (hl : ∀ r∈l,PMP_SHIFT≤r.order.toNat ∧ r.order.toNat≤x.bits) (idx : Nat) (csrs : Csrs x) :
    ∃ csrs',pmpConfigureLoop f idx csrs l=some csrs' ∧
      Programmed csrs csrs' idx (pmpRegions f (min f.pmpCount PMP_COUNT-idx) l) := by
  induction l generalizing idx csrs with
  | nil => exact ⟨csrs,rfl,by simpa [pmpRegions] using Programmed.refl csrs idx⟩
  | cons r l ih =>
    have hrest : ∀ r∈l,PMP_SHIFT≤r.order.toNat ∧ r.order.toNat≤x.bits :=
      fun q hq => hl q (List.mem_cons_of_mem r hq)
    by_cases hfull : f.pmpCount ≤ idx
    · have hzero : min f.pmpCount PMP_COUNT-idx=0 := by omega
      refine ⟨csrs,by rw [pmpConfigureLoop,if_pos hfull],?_⟩
      simpa [hzero,pmpRegions] using Programmed.refl csrs idx
    by_cases hbig : PMP_COUNT ≤ idx
    · have hzero : min f.pmpCount PMP_COUNT-idx=0 := by omega
      refine ⟨csrs,pmpConfigureLoop_beyond f (r::l) hbig csrs,?_⟩
      simpa [hzero,pmpRegions] using Programmed.refl csrs idx
    by_cases hr : pmpInRange f r=true
    · obtain ⟨ho2,hox⟩ := hl r List.mem_cons_self
      have hidx : idx<PMP_COUNT := by omega
      obtain ⟨csrs1,hset,hentry,hkeep⟩ := pmpSet_spec csrs (pmpFlags r) r.base hidx ho2 hox
      obtain ⟨csrs2,hloop,hprog⟩ := ih hrest (idx+1) csrs1
      refine ⟨csrs2,?_,?_⟩
      · rw [pmpConfigureLoop,if_neg hfull,if_pos hr,hset]
        exact hloop
      · have hsucc : min f.pmpCount PMP_COUNT-idx=(min f.pmpCount PMP_COUNT-(idx+1))+1 := by
          omega
        rw [pmpRegions,List.filter_cons_of_pos hr,hsucc,List.take_succ_cons]
        exact hprog.cons hidx hentry hkeep
    · obtain ⟨csrs1,hloop,hprog⟩ := ih hrest idx csrs
      refine ⟨csrs1,?_,?_⟩
      · rw [pmpConfigureLoop,if_neg hfull,if_neg hr]
        exact hloop
      · rw [pmpRegions,List.filter_cons_of_neg hr]
        exact hprog

/-- `sbi_hart_pmp_configure()` always reports success. -/
theorem sbiHartPmpConfigure_spec (f : HartFeatures x) (dom : SbiDomain x)
    (hd : ∀ r∈dom.memregions,PMP_SHIFT≤r.order.toNat ∧ r.order.toNat≤x.bits) (csrs : Csrs x) :
    ∃ csrs',sbiHartPmpConfigure f dom csrs=some (0,csrs') ∧
      Programmed csrs csrs' 0 (pmpRegions f (min f.pmpCount PMP_COUNT) dom.memregions) := by
  by_cases h0 : f.pmpCount=0
  · refine ⟨csrs,by rw [sbiHartPmpConfigure,if_pos h0],?_⟩
    simpa [h0,pmpRegions] using Programmed.refl csrs 0
  · obtain ⟨csrs',hloop,hprog⟩ := pmpConfigureLoop_spec f dom.memregions hd 0 csrs
    refine ⟨csrs',?_,hprog⟩
    rw [sbiHartPmpConfigure,if_neg h0,hloop]
    rfl

/-- What the entry of a region matches: every address when it is as large as the address space,
wherever it starts. -/
def Memregion.pmpBlock (r : Memregion x) (a : Word x) : Bool :=
  decide (r.order.toNat=x.bits) || r.contains a

/-- The permission an access asks for. -/
def Access.among (r w e : Bool) : Access → Bool
  | .read => r
  | .write => w
  | .execute => e

theorem pmpFlags_getLsbD (reg : Memregion x) (acc : Access) :
    (pmpFlags reg).getLsbD acc.bit=reg.flags.getLsbD acc.bit := by
  have hx := x.bits_ge
  have hr : reg.flags &&& SBI_DOMAIN_MEMREGION_READABLE≠0 ↔ reg.flags.getLsbD 0=true :=
    Word.and_bit_ne_zero (by omega) _
  have hw : reg.flags &&& SBI_DOMAIN_MEMREGION_WRITEABLE≠0 ↔ reg.flags.getLsbD 1=true :=
    Word.and_bit_ne_zero (by omega) _
  have he : reg.flags &&& SBI_DOMAIN_MEMREGION_EXECUTABLE≠0 ↔ reg.flags.getLsbD 2=true :=
    Word.and_bit_ne_zero (by omega) _
  -- the four entry bits are distinct, so each test contributes to its own position only
  have bits : ∀ (r w e m : Bool),
      ((if r then PMP_R else 0) ||| (if w then PMP_W else 0) ||| (if e then PMP_X else 0) |||
        (if m then PMP_L else 0) : Word x).getLsbD acc.bit=acc.among r w e := by
    intro r w e m
    cases x <;> cases acc <;> cases r <;> cases w <;> cases e <;> cases m <;> rfl
  have h := bits (reg.flags.getLsbD 0) (reg.flags.getLsbD 1) (reg.flags.getLsbD 2)
    (decide (reg.flags &&& SBI_DOMAIN_MEMREGION_MMODE≠0))
  simp only [decide_eq_true_iff] at h
  simp only [pmpFlags,hr,hw,he]
  rw [h]
  cases acc <;> rfl

/-- After programming, the PMP decides as the table of the programmed regions does. -/
theorem Programmed.pmpAllows_eq {csrs csrs' : Csrs x} {l : List (Memregion x)}
    (h : Programmed csrs csrs' 0 l) (hlen : l.length≤PMP_COUNT)
    (hoff : ∀ i,l.length ≤ i → i<PMP_COUNT → pmpMode (pmpcfg csrs i)=.off)
    (hsize : ∀ r∈l,PMP_SHIFT≤r.order.toNat ∧ r.order.toNat≤x.bits)
    (haligned : ∀ r∈l,r.order.toNat<x.bits → r.Aligned) (acc : Access) (a : Word x) :
    pmpAllows csrs' acc a=
      firstMatch l (fun r => r.pmpBlock a) (fun r => r.flags.getLsbD acc.bit) := by
  refine firstMatch_range l hlen ?_ ?_
  · intro i hi
    have he := h.entry i hi
    rw [Nat.zero_add] at he
    have hmem : l[i]∈l := List.getElem_mem hi
    obtain ⟨h2,hx⟩ := hsize _ hmem
    refine ⟨?_,by rw [he.permits,pmpFlags_getLsbD]⟩
    by_cases hfull : l[i].order.toNat=x.bits
    · rw [hfull] at he
      rw [he.match_full,Memregion.pmpBlock,decide_eq_true hfull,Bool.true_or]
    · have hal := haligned _ hmem (by omega)
      rw [Memregion.pmpBlock,decide_eq_false hfull,Bool.false_or,Bool.eq_iff_iff,
        he.match_iff h2 hal.order hal.base,hal.contains_iff]
  · intro i hi hn
    obtain ⟨hc,-⟩ := h.others i hn (.inr (by omega))
    rw [pmpMatch,hc,hoff i hi hn]

end OpenSBI
