import OpenSBI.Fp.Precise

namespace OpenSBI

variable {x : Xlen}

def Fmt.bytes : Fmt → Nat
  | .S => 4
  | .D => 8

/-- An access of an FP load or store, as the ISA names it; `len` is the length of the instruction. -/
structure FpAccess (x : Xlen) where
  store : Bool
  fmt : Fmt
  reg : Fin 32
  addr : Word x
  len : Nat

/-- A 12-bit immediate of the 32-bit forms. -/
def imm12 (n : Nat) : Word x := (BitVec.ofNat 12 n).signExtend x.bits

/-- The FP loads and stores of F and D, and the compressed ones of double precision. -/
inductive FpAccessEncoding (insn : Word x) (g : Fin 32 → Word x) : FpAccess x → Prop
  | flw (h : Major insn 0x07 2) : FpAccessEncoding insn g
      ⟨false,.S,regNum insn 7,archGpr g (regNum insn 15)+imm12 (rvX insn 20 12),4⟩
  | fld (h : Major insn 0x07 3) : FpAccessEncoding insn g
      ⟨false,.D,regNum insn 7,archGpr g (regNum insn 15)+imm12 (rvX insn 20 12),4⟩
  | fsw (h : Major insn 0x27 2) : FpAccessEncoding insn g
      ⟨true,.S,regNum insn 20,
        archGpr g (regNum insn 15)+imm12 (2^5*rvX insn 25 7+rvX insn 7 5),4⟩
  | fsd (h : Major insn 0x27 3) : FpAccessEncoding insn g
      ⟨true,.D,regNum insn 20,
        archGpr g (regNum insn 15)+imm12 (2^5*rvX insn 25 7+rvX insn 7 5),4⟩
  | cFld (h : Quadrant insn 0 1) : FpAccessEncoding insn g
      ⟨false,.D,regOf (8+rvX insn 2 3),
        archGpr g (regOf (8+rvX insn 7 3))+BitVec.ofNat x.bits (2^6*rvX insn 5 2+2^3*rvX insn 10 3),2⟩
  | cFsd (h : Quadrant insn 0 5) : FpAccessEncoding insn g
      ⟨true,.D,regOf (8+rvX insn 2 3),
        archGpr g (regOf (8+rvX insn 7 3))+BitVec.ofNat x.bits (2^6*rvX insn 5 2+2^3*rvX insn 10 3),2⟩
  | cFldsp (h : Quadrant insn 2 1) : FpAccessEncoding insn g
      ⟨false,.D,regNum insn 7,archGpr g 2+
        BitVec.ofNat x.bits (2^6*rvX insn 2 3+2^5*rvX insn 12 1+2^3*rvX insn 5 2),2⟩
  | cFsdsp (h : Quadrant insn 2 5) : FpAccessEncoding insn g
      ⟨true,.D,regNum insn 2,archGpr g 2+
        BitVec.ofNat x.bits (2^6*rvX insn 7 3+2^3*rvX insn 10 3),2⟩

section Immediates

variable (insn : Word x)

theorem getLsbD_rvX (s n i : Nat) (w : Nat) (hw : n ≤ w) (hi : i<n) :
    (BitVec.ofNat w (rvX insn s n)).getLsbD i=insn.getLsbD (s+i) := by
  rw [BitVec.getLsbD_ofNat,rvX,Nat.testBit_mod_two_pow,Nat.testBit_div_two_pow]
  simp [hi,show i<w by omega,BitVec.getLsbD,Nat.add_comm]

theorem getLsbD_toU32 (a : Word x) (i : Nat) :
    (toU32 a).getLsbD i=(decide (i<32) && a.getLsbD i) := BitVec.getLsbD_setWidth ..

/-- A bit of the sign-extended upper part of the 32-bit instruction, from bit `s` on. -/
theorem upper_bits (s i : Nat) : ((toU32 insn).sshiftRight s).getLsbD i=
    (decide (i<32) && if i+s<32 then insn.getLsbD (s+i) else insn.getLsbD 31) := by
  rw [BitVec.getLsbD_sshiftRight,BitVec.msb_eq_getLsbD_last,getLsbD_toU32,getLsbD_toU32,Nat.add_comm i s]
  by_cases hi : i<32
  · by_cases hf : s+i<32 <;> simp [hi,hf]
  · simp [hi,show 32 ≤ i by omega]

/-- `IMM_I()` is the immediate of the load forms. -/
theorem immI_eq : immI insn=imm12 (rvX insn 20 12) := by
  have hb := x.bits_ge
  apply BitVec.eq_of_getLsbD_eq
  intro i hi
  rw [immI,imm12,BitVec.getLsbD_signExtend,BitVec.getLsbD_signExtend,BitVec.msb_eq_getLsbD_last,
    BitVec.msb_eq_getLsbD_last,upper_bits,upper_bits]
  rw [getLsbD_rvX insn 20 12 (12-1) 12 (by decide) (by decide)]
  by_cases h : i<12
  · rw [getLsbD_rvX insn 20 12 i 12 (by decide) h]
    simp [hi,h,show i<32 by omega,show i+20<32 by omega]
  · by_cases h32 : i<32
    · simp [hi,h,h32,show ¬i+20<32 by omega]
    · simp [hi,h,h32]

theorem storeField_bits (i : Nat) (hi : i<12) :
    (BitVec.ofNat 12 (2^5*rvX insn 25 7+rvX insn 7 5)).getLsbD i=
      if i<5 then insn.getLsbD (7+i) else insn.getLsbD (20+i) := by
  rw [BitVec.getLsbD_ofNat,Nat.testBit_two_pow_mul_add _ (rvX_lt insn 7 5)]
  by_cases h : i<5
  · rw [if_pos h,if_pos h,rvX,Nat.testBit_mod_two_pow,Nat.testBit_div_two_pow]
    simp [hi,h,BitVec.getLsbD,Nat.add_comm]
  · rw [if_neg h,if_neg h,rvX,Nat.testBit_mod_two_pow,Nat.testBit_div_two_pow]
    simp [hi,show i-5<7 by omega,show i-5+25=20+i by omega,BitVec.getLsbD]

/-- `IMM_S()` is the immediate of the store forms. -/
theorem immS_eq : immS insn=imm12 (2^5*rvX insn 25 7+rvX insn 7 5) := by
  have hb := x.bits_ge
  have hlow (i : Nat) (h : 5 ≤ i) : (BitVec.ofNat 32 (rvX insn 7 5)).getLsbD i=false := by
    rw [BitVec.getLsbD_ofNat,rvX,Nat.testBit_mod_two_pow]
    simp [show ¬i<5 by omega]
  apply BitVec.eq_of_getLsbD_eq
  intro i hi
  rw [immS,imm12,BitVec.getLsbD_signExtend,BitVec.getLsbD_signExtend,BitVec.msb_eq_getLsbD_last,
    BitVec.msb_eq_getLsbD_last,storeField_bits insn (12-1) (by decide),BitVec.getLsbD_or,
    BitVec.getLsbD_or,BitVec.getLsbD_shiftLeft,BitVec.getLsbD_shiftLeft,upper_bits,upper_bits,
    hlow (32-1) (by decide)]
  by_cases h5 : i<5
  · rw [storeField_bits insn i (by omega),getLsbD_rvX insn 7 5 i 32 (by decide) h5]
    simp [hi,h5,show i<32 by omega,show i<12 by omega]
  · rw [hlow i (by omega)]
    by_cases h : i<12
    · rw [storeField_bits insn i h]
      simp [hi,h,h5,show i<32 by omega,show i-5<32 by omega,show i-5+25<32 by omega,
        show 25+(i-5)=20+i by omega]
    · by_cases h32 : i<32
      · simp [hi,h,h5,h32,show i-5<32 by omega,show ¬i-5+25<32 by omega]
      · simp [hi,h,h32]

end Immediates

/-! ## Faults and effects -/

/-- The fault of the first of `n` accesses of `u` bytes each, from `addr` on. -/
def firstFault (fault : Word x → Nat → Option (Fault x)) (u : Nat) : Nat → Word x → Option (Fault x)
  | 0,_ => none
  | n+1,addr => fault addr u <|> firstFault fault u n (addr+BitVec.ofNat x.bits u)

section Bytes

variable {fault : Word x → Nat → Option (Fault x)} {addr : Word x} {n : Nat} {f : Fault x}

theorem firstFault_none_iff : firstFault fault 1 n addr=none ↔ NoFault fault addr n := by
  induction n generalizing addr with
  | zero => exact ⟨fun _ i hi => absurd hi (by omega),fun _ => rfl⟩
  | succ n ih =>
    rw [noFault_succ,firstFault]
    cases fault addr 1 with
    | none => simpa using @ih (addr+1)
    | some g => simp

theorem firstFault_some_iff : firstFault fault 1 n addr=some f ↔ FirstFault fault addr n f := by
  induction n generalizing addr with
  | zero =>
    constructor
    · intro h
      cases h
    · intro h
      obtain ⟨i,hi,-⟩ := h
      omega
  | succ n ih =>
    rw [firstFault_succ,firstFault]
    cases fault addr 1 with
    | none => simpa using @ih (addr+1)
    | some g => simp

end Bytes

namespace FpAccess

variable (a : FpAccess x) (env : TrapEnv x)

/-- The widest accesses that an XLEN-bit hart makes for it. -/
def unit : Nat := min a.fmt.bytes (ptrBytes x)

def Aligned : Prop := a.addr.toNat%a.unit=0

instance : Decidable a.Aligned := inferInstanceAs (Decidable (_=_))

/-- The first fault of the access made from `addr` on in parts of `u` bytes. -/
def faultFrom (u : Nat) (addr : Word x) : Option (Fault x) :=
  firstFault (if a.store then env.storeFault else env.loadFault) u (a.fmt.bytes/u) addr

/-- The fault of the access: a misaligned one is made byte by byte. -/
def fault : Option (Fault x) := a.faultFrom env (if a.Aligned then a.unit else 1) a.addr

/-- What a load puts into the register: a single is NaN-boxed. -/
def loaded (mem : Word x → BitVec 8) : BitVec 64 :=
  match a.fmt with
  | .S => BitVec.allOnes 32++BitVec.ofNat 32 (readBytes mem a.addr 4)
  | .D => BitVec.ofNat 64 (readBytes mem a.addr 8)

/-- The memory after a store of the register, from `addr` on. -/
def stored (s : TrapState x) (addr : Word x) : Word x → BitVec 8 :=
  writeBytes s.mem addr (s.fpr a.reg).toNat a.fmt.bytes

/-- The access without a fault: its register or its bytes, the pc, and nothing else. -/
structure Done (s t : TrapState x) : Prop where
  redirects : t.redirects=s.redirects
  regs : t.regs={ s.regs with mepc := s.regs.mepc+BitVec.ofNat x.bits a.len }
  fpr : t.fpr=if a.store then s.fpr else Function.update s.fpr a.reg (a.loaded s.mem)
  mem : t.mem=if a.store then a.stored s a.addr else s.mem

/-- A fault is redirected from the original pc, and moves no other register. -/
structure Reported (f : Fault x) (s t : TrapState x) : Prop where
  redirects : t.redirects=s.redirects++[⟨s.regs.mepc,f.cause,f.tval,f.tval2,f.tinst⟩]
  regs : t.regs=(redirectFault env f s).2.regs
  fpr : t.fpr=s.fpr

/-- The ISA's effect of the access. -/
def Exact (s t : TrapState x) : Prop :=
  match a.fault env with
  | none => a.Done s t
  | some f => Reported env f s t

end FpAccess
end OpenSBI
