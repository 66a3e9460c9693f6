import OpenSBI.Pmp.Configure
import OpenSBI.Riscv.Bitops

namespace OpenSBI

variable {x : Xlen}

def PMP_ADDR_MASK (x : Xlen) : Word x :=
  match x with
  | .rv32 => (0xFFFFFFFF : BitVec 32)
  | .rv64 => (2^54-1 : BitVec 64)

/-- The registers as `csr_read_allowed()`, `csr_write_allowed()` and `csr_swap()` reach them: which
accesses trap, and what the others do. -/
structure CsrFile (x : Xlen) (σ : Type) where
  traps : Nat → Bool
  read : σ → Nat → Word x
  write : σ → Nat → Word x → σ

section Probe

variable {σ : Type} (c : CsrFile x σ)

/-- `__check_csr()`: the argument `wrval` is a text, which may name the variable `val` that the macro
itself assigns. The result says whether to go on. -/
def checkCsr (csr : Nat) (rdonly : Bool) (wrval : Word x → Word x) (s : σ) : Bool×σ :=
  if c.traps csr then (false,s)
  else
    let val := c.read s csr
    if rdonly then (true,s)
    else
      let written := c.write s csr (wrval val)
      (decide (c.read written csr=wrval val),c.write written csr val)

/-- The chain of `__check_csr_64()` and the smaller ones, `n` registers from `csr` on. -/
def checkCsrs (rdonly : Bool) (wrval : Word x → Word x) : Nat → Nat → Nat → σ → Nat×σ
  | 0,_,field,s => (field,s)
  | n+1,csr,field,s =>
    let r := checkCsr c csr rdonly wrval s
    if r.1 then checkCsrs rdonly wrval n (csr+1) (field+1) r.2 else (field,r.2)

/-- `hart_pmp_get_allowed_addr()`. -/
def hartPmpGetAllowedAddr (s : σ) : Word x×σ :=
  if c.traps CSR_PMPCFG0 then (0,s)
  else
    let s := c.write s CSR_PMPCFG0 0
    if c.traps CSR_PMPADDR0 then (0,s)
    else
      let s := c.write s CSR_PMPADDR0 (PMP_ADDR_MASK x)
      (c.read s CSR_PMPADDR0,s)

/-- `1 << n` on an `int`, as it becomes an `unsigned long`. -/
def intBit (n : Nat) : Word x := ((1 : BitVec 32) <<< (n%32)).signExtend x.bits

/-- The part of `hart_detect_features()` on the PMP; `old` is what the structure holds before. -/
def hartDetectFeatures (old : HartFeatures x) (s : σ) : HartFeatures x×σ :=
  let r := hartPmpGetAllowedAddr c s
  if r.1≠0 then
    let n := checkCsrs c false (fun val => val) 64 CSR_PMPADDR0 0 r.2
    (⟨n.1,BitVec.ofNat 32 (fls r.1+1),intBit (ffs r.1+2)⟩,n.2)
  else ({ old with pmpCount := 0 },r.2)

/-- Every probe of a register that gives back what it was last seen to hold goes on. -/
theorem checkCsrs_kept (first : Nat) (hkept : ∀ csr s,first≤csr → c.traps csr=false →
      c.read (c.write s csr (c.read s csr)) csr=c.read s csr) (n field : Nat) {csr : Nat} (s : σ)
    (hcsr : first≤csr) : ∃ m≤n,(checkCsrs c false (fun val => val) n csr field s).1=field+m ∧
      (∀ j < m,c.traps (csr+j)=false) ∧ (m<n → c.traps (csr+m)=true) := by
  induction n generalizing csr field s with
  | zero => exact ⟨0,le_rfl,rfl,fun j hj => absurd hj (Nat.not_lt_zero j),fun h => absurd h (lt_irrefl 0)⟩
  | succ n ih =>
    rw [checkCsrs,checkCsr]
    cases ht : c.traps csr with
    | true => exact ⟨0,Nat.zero_le _,rfl,fun j hj => absurd hj (Nat.not_lt_zero j),fun _ => ht⟩
    | false =>
      simp only [Bool.false_eq_true,if_false,hkept csr s hcsr ht,decide_true,if_true]
      obtain ⟨m,hm,hcount,hlow,hend⟩ := ih (field+1)
        (c.write (c.write s csr (c.read s csr)) csr (c.read s csr)) (Nat.le_succ_of_le hcsr)
      have hnext : ∀ j,csr+1+j=csr+(j+1) := fun j => by omega
      refine ⟨m+1,Nat.succ_le_succ hm,by rw [hcount]; omega,?_,?_⟩
      · intro j hj
        cases j with
        | zero => exact ht
        | succ j => exact hnext j ▸ hlow j (Nat.lt_of_succ_lt_succ hj)
      · intro h
        exact hnext m ▸ hend (Nat.lt_of_succ_lt_succ h)

end Probe

/-- The most bits a PMP address register has. -/
def PMP_ADDR_BITS : Xlen → Nat
  | .rv32 => 32
  | .rv64 => 54

/-- The physical memory protection of a conforming hart: `entries` writable entries from 0 on, each
later one read-only zero or trapping; `width` bits in an address register, those below `gran` not
writable; `legal` is what a write of a configuration byte leaves. -/
structure PmpUnit (x : Xlen) where
  entries : Nat
  gran : Nat
  width : Nat
  trapsAt : Nat → Bool
  cfgTraps : Bool
  legal : BitVec 8 → BitVec 8
  entries_le : entries≤PMP_COUNT
  gran_lt : gran<width
  width_le : width≤PMP_ADDR_BITS x
  cfg_present : 0<entries → cfgTraps=false
  legal_off : legal 0=0

/-- What the entries hold: the stored address bits and the configuration bytes. -/
structure PmpRegs where
  addr : Nat → Nat
  cfg : Nat → BitVec 8

namespace PmpUnit

variable (p : PmpUnit x)

/-- An address register reads its low bits as ones in the NAPOT modes and as zeros in the other ones;
bit `gran-1` is seen in the former only. -/
def view (cfg : BitVec 8) (v : Nat) : Nat :=
  if cfg.getLsbD 4 then v%2^p.width ||| (2^(p.gran-1)-1) else v%2^p.width/2^p.gran*2^p.gran

/-- The bytes of `pmpcfg0`. -/
def cfgWord (r : PmpRegs) : Nat → Word x
  | 0 => 0
  | n+1 => cfgWord r n ||| ((if n<p.entries then r.cfg n else 0).setWidth x.bits <<< (8*n))

def csrs : CsrFile x PmpRegs where
  traps csr :=
    if csr=CSR_PMPCFG0 then p.cfgTraps
    else if csrBlock CSR_PMPADDR0 PMP_COUNT csr then
      decide (p.entries≤csr-CSR_PMPADDR0) && p.trapsAt (csr-CSR_PMPADDR0)
    else true
  read r csr :=
    let i := csr-CSR_PMPADDR0
    if csr=CSR_PMPCFG0 then p.cfgWord r (x.bits/8)
    else if i<p.entries then BitVec.ofNat x.bits (p.view (r.cfg i) (r.addr i)) else 0
  write r csr v :=
    let i := csr-CSR_PMPADDR0
    if csr=CSR_PMPCFG0 then
      { r with cfg := fun i =>
          if i<p.entries ∧ i<x.bits/8 then p.legal (v.extractLsb' (8*i) 8) else r.cfg i }
    else if i<p.entries then { r with addr := Function.update r.addr i v.toNat } else r

theorem view_lt (cfg : BitVec 8) (v : Nat) : p.view cfg v<2^p.width := by
  have hv : v%2^p.width<2^p.width := Nat.mod_lt _ (Nat.two_pow_pos _)
  unfold view
  split
  · apply Nat.or_lt_two_pow hv
    have hle : 2^(p.gran-1)≤2^p.width :=
      Nat.pow_le_pow_right (by decide) ((Nat.sub_le _ _).trans p.gran_lt.le)
    have := Nat.two_pow_pos (p.gran-1)
    omega
  · exact (Nat.div_mul_le_self _ _).trans_lt hv

/-- A register that is written what it reads goes on reading it. -/
theorem view_view (cfg : BitVec 8) (v : Nat) : p.view cfg (p.view cfg v)=p.view cfg v := by
  have hlt := p.view_lt cfg v
  unfold view at hlt ⊢
  by_cases hm : cfg.getLsbD 4=true
  · simp only [if_pos hm] at hlt ⊢
    rw [Nat.mod_eq_of_lt hlt,Nat.or_assoc,Nat.or_self]
  · simp only [if_neg hm] at hlt ⊢
    rw [Nat.mod_eq_of_lt hlt,Nat.mul_div_cancel _ (Nat.two_pow_pos _)]

theorem width_le_bits : p.width≤x.bits := by
  have := p.width_le
  cases x <;> simp only [PMP_ADDR_BITS,Xlen.bits] at * <;> omega

theorem toNat_view (cfg : BitVec 8) (v : Nat) :
    (BitVec.ofNat x.bits (p.view cfg v)).toNat=p.view cfg v := by
  rw [BitVec.toNat_ofNat]
  exact Nat.mod_eq_of_lt ((p.view_lt cfg v).trans_le (Nat.pow_le_pow_right (by decide) p.width_le_bits))

theorem cfg_ne {csr : Nat} (h : CSR_PMPADDR0≤csr) : csr≠CSR_PMPCFG0 := by
  unfold CSR_PMPADDR0 at h
  unfold CSR_PMPCFG0
  omega

theorem csrs_kept (csr : Nat) (r : PmpRegs) (h : CSR_PMPADDR0≤csr) :
    p.csrs.read (p.csrs.write r csr (p.csrs.read r csr)) csr=p.csrs.read r csr := by
  simp only [csrs,if_neg (cfg_ne h)]
  by_cases hi : csr-CSR_PMPADDR0<p.entries
  · simp only [if_pos hi,Function.update_self,p.toNat_view,p.view_view]
  · simp only [if_neg hi]

theorem traps_addr {i : Nat} (hi : i<PMP_COUNT) :
    p.csrs.traps (CSR_PMPADDR0+i)=(decide (p.entries ≤ i) && p.trapsAt i) := by
  have hb : csrBlock CSR_PMPADDR0 PMP_COUNT (CSR_PMPADDR0+i)=true := by
    simp [csrBlock,hi]
  simp only [csrs,if_neg (cfg_ne (Nat.le_add_right _ _)),hb,if_true,Nat.add_sub_cancel_left]

/-- The chain of probes counts the registers before the first one that traps. -/
theorem checkCsrs_count (r : PmpRegs) : ∃ m≤PMP_COUNT,
    (checkCsrs p.csrs false (fun val => val) 64 CSR_PMPADDR0 0 r).1=m ∧
      (m=p.entries ↔ p.entries=PMP_COUNT ∨ p.trapsAt p.entries=true) := by
  obtain ⟨m,hm,hcount,hlow,hend⟩ := checkCsrs_kept p.csrs CSR_PMPADDR0
    (fun csr s h _ => p.csrs_kept csr s h) 64 0 r le_rfl
  have hle : m≤PMP_COUNT := hm
  refine ⟨m,hm,hcount.trans (Nat.zero_add m),?_⟩
  have hlow' : ∀ j < m,¬(p.entries≤j ∧ p.trapsAt j=true) := by
    intro j hj
    have h := hlow j hj
    rw [p.traps_addr (by omega)] at h
    simpa using h
  have hend' : m<PMP_COUNT → p.entries ≤ m ∧ p.trapsAt m=true := by
    intro h
    have ht := hend h
    rw [p.traps_addr h] at ht
    simpa using ht
  have hn := p.entries_le
  constructor
  · rintro rfl
    rcases hn.eq_or_lt with h | h
    · exact .inl h
    · exact .inr (hend' h).2
  · rintro (h | h)
    · by_contra hc
      have := (hend' (by omega)).1
      omega
    · rcases Nat.lt_trichotomy m p.entries with hlt | he | hgt
      · have := (hend' (by omega)).1
        omega
      · exact he
      · exact absurd ⟨le_rfl,h⟩ (hlow' _ hgt)

/-- The implemented bits of an address register of a switched off entry. -/
def addrMask : Nat := (2^p.width-1)/2^p.gran*2^p.gran

theorem addrMask_testBit (i : Nat) : p.addrMask.testBit i=(decide (p.gran ≤ i) && decide (i<p.width)) := by
  rw [addrMask,Nat.testBit_mul_two_pow,Nat.testBit_div_two_pow,Nat.testBit_two_pow_sub_one]
  by_cases h : p.gran ≤ i
  · simp only [h,decide_true,Bool.true_and,Nat.sub_add_cancel h]
  · simp only [h,decide_false,Bool.false_and]

theorem addrMask_lt : p.addrMask<2^p.width := by
  have := Nat.two_pow_pos p.width
  exact (Nat.div_mul_le_self _ _).trans_lt (by omega)

theorem view_mask : p.view 0 (PMP_ADDR_MASK x).toNat=p.addrMask := by
  have hm : (PMP_ADDR_MASK x).toNat=2^PMP_ADDR_BITS x-1 := by cases x <;> rfl
  have hd : 2^p.width ∣ 2^PMP_ADDR_BITS x := Nat.pow_dvd_pow 2 p.width_le
  obtain ⟨c,hc⟩ := hd
  have hc0 : 0<c := by
    have := Nat.two_pow_pos (PMP_ADDR_BITS x)
    rw [hc] at this
    exact Nat.pos_of_mul_pos_left this
  have hmod : (2^PMP_ADDR_BITS x-1)%2^p.width=2^p.width-1 := by
    obtain ⟨d,rfl⟩ := Nat.exists_eq_add_of_le' hc0
    have hp := Nat.two_pow_pos p.width
    rw [hc,Nat.mul_add,Nat.mul_one,Nat.add_sub_assoc hp,Nat.mul_add_mod]
    exact Nat.mod_eq_of_lt (by omega)
  unfold view
  rw [if_neg (by decide),hm,hmod,addrMask]

/-- `hart_pmp_get_allowed_addr()` returns the implemented bits, or 0 where there is no entry. -/
theorem hartPmpGetAllowedAddr_eq (r : PmpRegs) : (hartPmpGetAllowedAddr p.csrs r).1=
    if p.entries=0 then 0 else BitVec.ofNat x.bits p.addrMask := by
  have hne : CSR_PMPADDR0≠CSR_PMPCFG0 := cfg_ne le_rfl
  have htraps := p.traps_addr (i := 0) (by decide)
  rw [Nat.add_zero] at htraps
  rw [hartPmpGetAllowedAddr]
  by_cases h0 : p.entries=0
  · rw [if_pos h0]
    split_ifs
    · rfl
    · rfl
    · simp only [csrs,hne,if_false,Nat.sub_self,h0,lt_irrefl]
  · have hpos : 0<p.entries := by omega
    have hcfg : p.csrs.traps CSR_PMPCFG0=false := p.cfg_present hpos
    have haddr : p.csrs.traps CSR_PMPADDR0=false := by
      rw [htraps]
      simp [h0]
    have hb : 0<x.bits/8 := by cases x <;> decide
    rw [hcfg,haddr,if_neg h0]
    simp only [Bool.false_eq_true,if_false,csrs,hne,if_true,Nat.sub_self,hpos,hb,and_self,
      Function.update_self]
    have hz : (0 : Word x).extractLsb' (8*0) 8=0 := by cases x <;> rfl
    rw [hz,p.legal_off,p.view_mask]

section Bits

theorem getLsbD_addrMask (i : Nat) : (BitVec.ofNat x.bits p.addrMask).getLsbD i=
    (decide (p.gran ≤ i) && decide (i<p.width)) := by
  have hw := p.width_le_bits
  rw [BitVec.getLsbD_ofNat,p.addrMask_testBit]
  by_cases hi : i<p.width
  · simp [hi,hi.trans_le hw]
  · simp [hi]

theorem ffs_addrMask : ffs (BitVec.ofNat x.bits p.addrMask)=p.gran := by
  apply ffs_eq
  · intro i hi
    rw [p.getLsbD_addrMask]
    simp [Nat.not_le.mpr hi]
  · rw [p.getLsbD_addrMask]
    simp [p.gran_lt]

theorem fls_addrMask : fls (BitVec.ofNat x.bits p.addrMask)+1=p.width := by
  have hlt := p.addrMask_lt
  have hg := p.gran_lt
  have hpow : 2^p.width≤2^x.bits := Nat.pow_le_pow_right (by decide) p.width_le_bits
  have hbit : p.addrMask.testBit (p.width-1)=true := by
    rw [p.addrMask_testBit]
    simp
    omega
  have hge := Nat.ge_two_pow_of_testBit hbit
  rw [fls,BitVec.toNat_ofNat,Nat.mod_eq_of_lt (hlt.trans_le hpow)]
  have hne : p.addrMask≠0 := by
    have := Nat.two_pow_pos (p.width-1)
    omega
  have hlog : Nat.log2 p.addrMask=p.width-1 := by
    rw [Nat.log2_eq_iff hne,Nat.sub_add_cancel (by omega)]
    exact ⟨hge,hlt⟩
  omega

theorem addrMask_ne_zero : BitVec.ofNat x.bits p.addrMask≠0 := by
  intro h
  have hb := p.getLsbD_addrMask p.gran
  rw [h] at hb
  simp [p.gran_lt] at hb

end Bits

end PmpUnit

/-- The highest shift of an `int` one that is the power of two as an `unsigned long`. -/
def INT_SHIFT_MAX : Xlen → Nat
  | .rv32 => 31
  | .rv64 => 30

theorem toNat_intBit_iff {n : Nat} (hn : n<64) :
    (intBit n : Word x).toNat=2^n ↔ n≤INT_SHIFT_MAX x := by
  revert n
  cases x <;> decide

section Configure

variable {f : HartFeatures x}

/-- `pmp_set()` changes one entry at most. -/
theorem pmpSet_others {csrs : Csrs x} {n : Nat} {prot addr : Word x} {log2len : Nat}
    {r : Int×Csrs x} (h : pmpSet csrs n prot addr log2len=some r) {j : Nat} (hj : j<PMP_COUNT)
    (hne : j≠n) : SameEntry csrs r.2 j := by
  by_cases hbad : PMP_COUNT≤n ∨ x.bits<log2len ∨ log2len<PMP_SHIFT
  · rw [pmpSet,if_pos hbad] at h
    cases h
    exact ⟨rfl,rfl⟩
  · obtain ⟨csrs',hset,-,hkeep⟩ := pmpSet_spec csrs prot addr (show n<PMP_COUNT by omega)
      (show PMP_SHIFT≤log2len by omega) (by omega)
    rw [hset] at h
    cases h
    exact hkeep j hj hne

/-- The loop touches no entry from `pmp_count` on. -/
theorem pmpConfigureLoop_others (l : List (Memregion x)) {idx : Nat} {csrs csrs' : Csrs x}
    (h : pmpConfigureLoop f idx csrs l=some csrs') {j : Nat} (hj : j<PMP_COUNT)
    (hout : f.pmpCount≤j) : SameEntry csrs csrs' j := by
  induction l generalizing idx csrs with
  | nil =>
    cases h
    exact ⟨rfl,rfl⟩
  | cons r l ih =>
    rw [pmpConfigureLoop] at h
    split_ifs at h with hfull hr
    · cases h
      exact ⟨rfl,rfl⟩
    · obtain ⟨set,hset,hloop⟩ := Option.bind_eq_some_iff.mp h
      have hone := pmpSet_others hset hj (show j≠idx by omega)
      have hrest := ih hloop
      exact ⟨hrest.1.trans hone.1,hrest.2.trans hone.2⟩
    · exact ih h

end Configure

/-- What `hart_detect_features()` has to record, and that `sbi_hart_pmp_configure()` then programs
no entry that does not exist. -/
structure PmpUnit.Detected (p : PmpUnit x) (f : HartFeatures x) : Prop where
  count : f.pmpCount=p.entries
  gran : 0<p.entries → f.pmpGran.toNat=2^(p.gran+2)
  addrBits : 0<p.entries → f.pmpAddrBits.toNat=p.width
  existing : ∀ dom csrs rc csrs',sbiHartPmpConfigure f dom csrs=some (rc,csrs') →
    ∀ j,p.entries≤j → j<PMP_COUNT → SameEntry csrs csrs' j

theorem sbiHartPmpConfigure_others {f : HartFeatures x} {dom : SbiDomain x} {csrs csrs' : Csrs x}
    {rc : Int} (h : sbiHartPmpConfigure f dom csrs=some (rc,csrs')) {j : Nat} (hj : j<PMP_COUNT)
    (hout : f.pmpCount≤j) : SameEntry csrs csrs' j := by
  rw [sbiHartPmpConfigure] at h
  split_ifs at h with h0
  · cases h
    exact ⟨rfl,rfl⟩
  · obtain ⟨csrs1,hloop,he⟩ := Option.bind_eq_some_iff.mp h
    cases he
    exact pmpConfigureLoop_others _ hloop hj hout

theorem hartDetectFeatures_eq (p : PmpUnit x) (old : HartFeatures x) (r : PmpRegs) (h0 : p.entries≠0) :
    ∃ m,(hartDetectFeatures p.csrs old r).1=⟨m,BitVec.ofNat 32 p.width,intBit (p.gran+2)⟩ ∧
      (m=p.entries ↔ p.entries=PMP_COUNT ∨ p.trapsAt p.entries=true) := by
  have hval := p.hartPmpGetAllowedAddr_eq r
  rw [if_neg h0] at hval
  obtain ⟨m,-,hcount,hm⟩ := p.checkCsrs_count (hartPmpGetAllowedAddr p.csrs r).2
  refine ⟨m,?_,hm⟩
  rw [hartDetectFeatures,hval,if_pos p.addrMask_ne_zero]
  dsimp only
  rw [hcount,p.ffs_addrMask,p.fls_addrMask]

/-- Detection is right exactly when there is no PMP, or the first missing entry traps (or none is
missing) and an `int` holds the granularity. -/
theorem hartDetectFeatures_detected_iff (p : PmpUnit x) (old : HartFeatures x) (r : PmpRegs) :
    p.Detected (hartDetectFeatures p.csrs old r).1 ↔ p.entries=0 ∨
      (p.entries=PMP_COUNT ∨ p.trapsAt p.entries=true) ∧ p.gran+2≤INT_SHIFT_MAX x := by
  by_cases h0 : p.entries=0
  · have hval := p.hartPmpGetAllowedAddr_eq r
    rw [if_pos h0] at hval
    rw [hartDetectFeatures,if_neg (not_not.mpr hval)]
    refine iff_of_true ⟨h0.symm,?_,?_,?_⟩ (.inl h0)
    · omega
    · omega
    · exact fun dom csrs rc csrs' h j _ hj => sbiHartPmpConfigure_others h hj (Nat.zero_le _)
  · have hw := p.width_le
    have hg := p.gran_lt
    have hb : p.width≤54 := by cases x <;> simp only [PMP_ADDR_BITS] at hw <;> omega
    obtain ⟨m,he,hm⟩ := hartDetectFeatures_eq p old r h0
    rw [he,or_iff_right h0,← hm,← toNat_intBit_iff (x := x) (show p.gran+2<64 by omega)]
    constructor
    · intro h
      exact ⟨h.count,h.gran (Nat.pos_of_ne_zero h0)⟩
    · rintro ⟨hcount,hgran⟩
      refine ⟨hcount,fun _ => hgran,fun _ => ?_,?_⟩
      · rw [BitVec.toNat_ofNat,Nat.mod_eq_of_lt (by omega)]
      · intro dom csrs rc csrs' h j hout hj
        apply sbiHartPmpConfigure_others h hj
        exact hcount.trans_le hout

/-- A hart with sixteen entries, a granularity of four bytes and missing entries that read as zero. -/
def PmpUnit.sixteen : PmpUnit .rv64 where
  entries := 16
  gran := 0
  width := 54
  trapsAt _ := false
  cfgTraps := false
  legal b := b
  entries_le := by decide
  gran_lt := by decide
  width_le := by decide
  cfg_present _ := rfl
  legal_off := rfl

/-- It is taken for a hart with another number of entries. -/
theorem sixteenEntries_undetected : ¬PmpUnit.sixteen.Detected
    (hartDetectFeatures PmpUnit.sixteen.csrs ⟨0,0,0⟩ ⟨fun _ => 0,fun _ => 0⟩).1 := by
  intro h
  obtain ⟨m,he,hm⟩ := hartDetectFeatures_eq PmpUnit.sixteen ⟨0,0,0⟩ ⟨fun _ => 0,fun _ => 0⟩ (by decide)
  rw [he] at h
  exact absurd (hm.mp h.count) (by decide)

end OpenSBI
