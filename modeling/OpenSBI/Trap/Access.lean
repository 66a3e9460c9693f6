import OpenSBI.Trap.Misaligned

namespace OpenSBI

variable {x : Xlen}

/-- The instruction at the interrupted pc: one parcel of 16 bits, or two. -/
def Fetched (env : TrapEnv x) (s : TrapState x) (insn : Word x) : Prop :=
  env.fetchFault s.regs.mepc=none ∧
    if readBytes s.mem s.regs.mepc 2%4=3 then
      env.fetchFault (s.regs.mepc+2)=none ∧ insn.toNat=readBytes s.mem s.regs.mepc 4
    else insn.toNat=readBytes s.mem s.regs.mepc 2

/-- Byte `i` is the first of `n` bytes that faults, with `f`. -/
def FirstFault (fault : Word x → Nat → Option (Fault x)) (addr : Word x) (n : Nat) (f : Fault x) : Prop :=
  ∃ i<n, fault (addr+BitVec.ofNat x.bits i) 1=some f ∧
    ∀ j < i, fault (addr+BitVec.ofNat x.bits j) 1=none

/-- None of `n` bytes faults. -/
def NoFault (fault : Word x → Nat → Option (Fault x)) (addr : Word x) (n : Nat) : Prop :=
  ∀ i<n, fault (addr+BitVec.ofNat x.bits i) 1=none

theorem readBytes_lt (mem : Word x → BitVec 8) (addr : Word x) (n : Nat) :
    readBytes mem addr n<2^(8*n) := by
  induction n generalizing addr with
  | zero => simp [readBytes]
  | succ n ih =>
    have hb := (mem addr).isLt
    have hr := ih (addr+1)
    have hp : 2^(8*(n+1))=2^8*2^(8*n) := by rw [← Nat.pow_add]; congr 1; ring
    rw [readBytes,hp]
    omega

theorem succ_address (addr : Word x) (i : Nat) :
    addr+1+BitVec.ofNat x.bits i=addr+BitVec.ofNat x.bits (i+1) := by
  rw [BitVec.add_assoc]
  congr 1
  apply BitVec.eq_of_toNat_eq
  simp [BitVec.toNat_add,Nat.add_comm]

theorem readBytes_add (mem : Word x → BitVec 8) (addr : Word x) (m n : Nat) :
    readBytes mem addr (m+n)=
      readBytes mem addr m+2^(8*m)*readBytes mem (addr+BitVec.ofNat x.bits m) n := by
  induction m generalizing addr with
  | zero => simp [readBytes]
  | succ m ih =>
    have hp : 2^(8*(m+1))=2^8*2^(8*m) := by rw [← Nat.pow_add]; congr 1; ring
    rw [Nat.succ_add,readBytes,ih,readBytes,succ_address,hp]
    ring

section Bytes

variable {fault : Word x → Nat → Option (Fault x)} {addr : Word x} {n : Nat} {f : Fault x}

theorem noFault_succ : NoFault fault addr (n+1) ↔ fault addr 1=none ∧ NoFault fault (addr+1) n := by
  constructor
  · intro h
    constructor
    · simpa using h 0 (by omega)
    · intro i hi
      rw [succ_address]
      exact h (i+1) (by omega)
  · intro h i hi
    cases i with
    | zero => simpa using h.1
    | succ i =>
      rw [← succ_address]
      exact h.2 i (by omega)

theorem firstFault_succ : FirstFault fault addr (n+1) f ↔
    fault addr 1=some f ∨ fault addr 1=none ∧ FirstFault fault (addr+1) n f := by
  constructor
  · intro h
    obtain ⟨i,hi,hf,hb⟩ := h
    cases i with
    | zero => exact .inl (by simpa using hf)
    | succ i =>
      refine .inr ⟨by simpa using hb 0 (by omega),i,by omega,?_,?_⟩
      · rw [succ_address]; exact hf
      · intro j hj
        rw [succ_address]
        exact hb (j+1) (by omega)
  · intro h
    obtain hf | ⟨h0,i,hi,hf,hb⟩ := h
    · exact ⟨0,by omega,by simpa using hf,fun j hj => absurd hj (by omega)⟩
    · refine ⟨i+1,by omega,by rw [← succ_address]; exact hf,?_⟩
      intro j hj
      cases j with
      | zero => simpa using h0
      | succ j =>
        rw [← succ_address]
        exact hb j (by omega)

theorem noFault_or_firstFault (fault : Word x → Nat → Option (Fault x)) (addr : Word x) (n : Nat) :
    NoFault fault addr n ∨ ∃ f,FirstFault fault addr n f := by
  induction n generalizing addr with
  | zero => exact .inl fun i hi => absurd hi (by omega)
  | succ n ih =>
    cases h0 : fault addr 1 with
    | some f => exact .inr ⟨f,firstFault_succ.mpr (.inl h0)⟩
    | none =>
      obtain h | ⟨f,h⟩ := ih (addr+1)
      · exact .inl (noFault_succ.mpr ⟨h0,h⟩)
      · exact .inr ⟨f,firstFault_succ.mpr (.inr ⟨h0,h⟩)⟩

end Bytes

section Loops

variable {env : TrapEnv x} {s : TrapState x} {addr : Word x} {n : Nat}

theorem sbiLoad_none {n : Nat} (h : env.loadFault addr n=none) :
    sbiLoad env n addr s=(readBytes s.mem addr n,none) := by
  rw [sbiLoad,h]

theorem sbiLoad_some {f : Fault x} {n : Nat} (h : env.loadFault addr n=some f) :
    (sbiLoad env n addr s).2=some f := by
  rw [sbiLoad,h]

/-- The byte loop reads the little-endian number when no byte faults. -/
theorem loadLoop_ok (h : NoFault env.loadFault addr n) :
    loadLoop env s addr n=.ok (readBytes s.mem addr n) := by
  induction n generalizing addr with
  | zero => rfl
  | succ n ih =>
    obtain ⟨h0,hs⟩ := noFault_succ.mp h
    rw [loadLoop,sbiLoad_none h0]
    dsimp only
    rw [ih hs]
    simp [readBytes,Except.map]

/-- It stops at the first byte that faults. -/
theorem loadLoop_error {f : Fault x} (h : FirstFault env.loadFault addr n f) :
    loadLoop env s addr n=.error f := by
  induction n generalizing addr with
  | zero => obtain ⟨i,hi,-⟩ := h; exact absurd hi (by omega)
  | succ n ih =>
    obtain h0 | ⟨h0,hs⟩ := firstFault_succ.mp h
    · rw [loadLoop,sbiLoad_some h0]
    · rw [loadLoop,sbiLoad_none h0]
      dsimp only
      rw [ih hs]
      rfl

/-- The byte loop writes the low bytes of the value when no byte faults. -/
theorem storeLoop_ok (val : Nat) (h : NoFault env.storeFault addr n) :
    storeLoop env addr val n s=({ s with mem := writeBytes s.mem addr val n },none) := by
  induction n generalizing addr val s with
  | zero => rfl
  | succ n ih =>
    obtain ⟨h0,hs⟩ := noFault_succ.mp h
    rw [storeLoop,sbiStore,h0]
    dsimp only
    have hb : BitVec.ofNat 8 (val%2^8)=BitVec.ofNat 8 val := by
      apply BitVec.eq_of_toNat_eq
      simp
    rw [ih _ hs]
    simp only [writeBytes,hb]

/-- A store loop that stops at a fault has changed bytes of memory only. -/
theorem storeLoop_error {f : Fault x} (val : Nat) (h : FirstFault env.storeFault addr n f) :
    ∃ mem,storeLoop env addr val n s=({ s with mem := mem },some f) := by
  induction n generalizing addr val s with
  | zero => obtain ⟨i,hi,-⟩ := h; exact absurd hi (by omega)
  | succ n ih =>
    obtain h0 | ⟨h0,hs⟩ := firstFault_succ.mp h
    · rw [storeLoop,sbiStore,h0]
      exact ⟨s.mem,rfl⟩
    · rw [storeLoop,sbiStore,h0]
      dsimp only
      exact ih _ hs

end Loops

section Fetch

variable {env : TrapEnv x} {s : TrapState x} {insn : Word x}

theorem fetchHalf_none {addr : Word x} (h : env.fetchFault addr=none) :
    fetchHalf env addr s=(BitVec.ofNat x.bits (readBytes s.mem addr 2),none) := by
  rw [fetchHalf,h]

theorem toNat_ofNat_lt {n : Nat} (h : n<2^32) : (BitVec.ofNat x.bits n).toNat=n := by
  have hp : 2^32 ≤ 2^x.bits := Nat.pow_le_pow_right (by decide) x.bits_ge
  rw [BitVec.toNat_ofNat,Nat.mod_eq_of_lt (by omega)]

theorem andMask_toNat (a : Word x) (m : Nat) (h : m<2^32) : (andMask a m).toNat=a.toNat &&& m := by
  rw [andMask,BitVec.toNat_and,toNat_ofNat_lt h]

theorem andMask_three (a : Word x) : andMask a 3=BitVec.ofNat x.bits 3 ↔ a.toNat%4=3 := by
  rw [← BitVec.toNat_inj,andMask_toNat a 3 (by decide),toNat_ofNat_lt (by decide),
    Nat.and_two_pow_sub_one_eq_mod a.toNat 2]

/-- `sbi_get_insn()` returns the instruction at the interrupted pc. -/
theorem sbiGetInsn_fetched (h : Fetched env s insn) :
    sbiGetInsn env s.regs.mepc s=(insn,none) := by
  obtain ⟨h1,h2⟩ := h
  have hlo : readBytes s.mem s.regs.mepc 2<2^16 := readBytes_lt s.mem s.regs.mepc 2
  have hl : (BitVec.ofNat x.bits (readBytes s.mem s.regs.mepc 2)).toNat=
      readBytes s.mem s.regs.mepc 2 := toNat_ofNat_lt (by omega)
  rw [sbiGetInsn,fetchHalf_none h1]
  dsimp only
  by_cases hq : readBytes s.mem s.regs.mepc 2%4=3
  · rw [if_pos hq] at h2
    rw [if_pos ((andMask_three _).mpr (by rw [hl]; exact hq)),fetchHalf_none h2.1]
    have hw := readBytes_add s.mem s.regs.mepc 2 2
    have hhi : readBytes s.mem (s.regs.mepc+2) 2<2^16 := readBytes_lt s.mem _ 2
    have h2e : s.regs.mepc+BitVec.ofNat x.bits 2=s.regs.mepc+2 := rfl
    rw [h2e] at hw
    have hs : BitVec.ofNat x.bits (readBytes s.mem (s.regs.mepc+2) 2) <<< 16=
        BitVec.ofNat x.bits (readBytes s.mem (s.regs.mepc+2) 2*2^16) := by
      apply BitVec.eq_of_toNat_eq
      rw [BitVec.toNat_shiftLeft,BitVec.toNat_ofNat,BitVec.toNat_ofNat,Nat.shiftLeft_eq]
      simp
    refine Prod.ext ?_ rfl
    apply BitVec.eq_of_toNat_eq
    dsimp only
    rw [hs,← BitVec.ofNat_add,toNat_ofNat_lt (by omega),h2.2,hw]
    omega
  · rw [if_neg hq] at h2
    rw [if_neg (fun hc => hq (by rw [← hl]; exact (andMask_three _).mp hc))]
    refine Prod.ext ?_ rfl
    apply BitVec.eq_of_toNat_eq
    dsimp only
    rw [hl,h2]

end Fetch
end OpenSBI
