import OpenSBI.Trap.Access

namespace OpenSBI

variable {x : Xlen}

namespace Reg

scoped instance thirtyTwo : NeZero 32 := ⟨by decide⟩

end Reg

open Reg

def CSR_MTVEC : Nat := 0x305
def CSR_MSCRATCH : Nat := 0x340
def CSR_MCAUSE : Nat := 0x342
def CSR_MTINST : Nat := 0x34a
def CSR_MTVAL2 : Nat := 0x34b

def MSTATUS_MIE : Nat := 0x8
def MSTATUS_MPIE : Nat := 0x80
def MSTATUS_MPRV : Nat := 0x20000
def MSTATUS_MXR : Nat := 0x80000

/-! ## Words in memory -/

/-- The bytes of a register. -/
def Xlen.bytes (x : Xlen) : Nat := x.bits/8

def readWord (mem : Word x → BitVec 8) (a : Word x) : Word x := BitVec.ofNat x.bits (readBytes mem a x.bytes)

def writeWord (mem : Word x → BitVec 8) (a v : Word x) : Word x → BitVec 8 := writeBytes mem a v.toNat x.bytes

section Memory

variable {mem mem' : Word x → BitVec 8} {a b v : Word x} {m n i : Nat}

/-- The address `b` and `m` bytes from it on lie apart from the `n` bytes at `a`. -/
def Apart (a : Word x) (n : Nat) (b : Word x) (m : Nat) : Prop := n ≤ (b-a).toNat ∧ m ≤ (a-b).toNat

theorem writeBytes_outside {val : Nat} (h : n ≤ (b-a).toNat) : writeBytes mem a val n b=mem b := by
  induction n generalizing mem a val with
  | zero => rfl
  | succ n ih =>
    have hpos : 1 ≤ (b-a).toNat := by omega
    have hne : b≠a := by
      rintro rfl
      simp at h
    have hstep : (b-(a+1)).toNat=(b-a).toNat-1 := by
      have hle : (1 : Word x) ≤ b-a := by
        rw [BitVec.le_def]
        cases x <;> exact hpos
      rw [← BitVec.sub_sub,BitVec.toNat_sub_of_le hle]
      cases x <;> rfl
    rw [writeBytes,ih (by omega),Function.update_of_ne hne]

theorem Apart.symm (h : Apart a n b m) : Apart b m a n := ⟨h.2,h.1⟩

theorem Apart.mono {n' m' : Nat} (h : Apart a n b m) (hn : n' ≤ n) (hm : m' ≤ m) : Apart a n' b m' :=
  ⟨hn.trans h.1,hm.trans h.2⟩

def slotAt (p : Word x) (k : Nat) : Word x := p+BitVec.ofNat x.bits (k*x.bytes)

def slot (mem : Word x → BitVec 8) (p : Word x) (k : Nat) : Word x := readWord mem (slotAt p k)

/-- Memory with words stored into a structure, one after the other. -/
def writeSlots (mem : Word x → BitVec 8) (p : Word x) : List (Nat×Word x) → Word x → BitVec 8
  | [] => mem
  | s :: l => writeSlots (writeWord mem (slotAt p s.1) s.2) p l

variable {p : Word x} {k j : Nat} {l l' : List (Nat×Word x)}

theorem sub_slotAt (h : k*x.bytes ≤ (b-p).toNat) : (b-slotAt p k).toNat=(b-p).toNat-k*x.bytes := by
  have hlt := (b-p).isLt
  have hk : (BitVec.ofNat x.bits (k*x.bytes)).toNat=k*x.bytes := by
    rw [BitVec.toNat_ofNat,Nat.mod_eq_of_lt (by omega)]
  rw [slotAt,← sub_sub,BitVec.toNat_sub_of_le (by rw [BitVec.le_def,hk]; exact h),hk]

/-- Nothing past the structure is written. -/
theorem writeSlots_outside (hl : ∀ s∈l,s.1<n) (h : n*x.bytes ≤ (b-p).toNat) : writeSlots mem p l b=mem b := by
  induction l generalizing mem with
  | nil => rfl
  | cons s l ih =>
    have hs : (s.1+1)*x.bytes ≤ n*x.bytes := Nat.mul_le_mul_right _ (hl s List.mem_cons_self)
    rw [Nat.succ_mul] at hs
    rw [writeSlots,ih fun s hs => hl s (List.mem_cons_of_mem _ hs)]
    apply writeBytes_outside
    rw [sub_slotAt (by omega)]
    omega

end Memory

/-! ## A hart -/

/-- The state of a hart, with the memory that it sees. -/
structure Hart (x : Xlen) where
  gpr : Fin 32 → Word x
  csrs : Csrs x
  mem : Word x → BitVec 8
  pc : Word x
  mode : Nat

namespace Hart

/-- Register `x0` is zero, whatever is written to it. -/
def get (h : Hart x) (r : Fin 32) : Word x := if r=0 then 0 else h.gpr r

def set (h : Hart x) (r : Fin 32) (v : Word x) : Hart x := { h with gpr := Function.update h.gpr r v }

def setCsr (h : Hart x) (n : Nat) (v : Word x) : Hart x := { h with csrs := Function.update h.csrs n v }

def setMem (h : Hart x) (mem : Word x → BitVec 8) : Hart x := { h with mem := mem }

section Simp

variable (h : Hart x) (r s : Fin 32) (v : Word x) (n k : Nat) (mem : Word x → BitVec 8)

@[simp] theorem get_zero : h.get 0=0 := rfl
@[simp] theorem set_csrs : (h.set r v).csrs=h.csrs := rfl
@[simp] theorem set_pc : (h.set r v).pc=h.pc := rfl
@[simp] theorem setCsr_get : (h.setCsr n v).get r=h.get r := rfl
@[simp] theorem setCsr_pc : (h.setCsr n v).pc=h.pc := rfl
@[simp] theorem setMem_mem : (h.setMem mem).mem=mem := rfl
@[simp] theorem setMem_csrs : (h.setMem mem).csrs=h.csrs := rfl
@[simp] theorem setMem_pc : (h.setMem mem).pc=h.pc := rfl
@[simp] theorem setMem_mode : (h.setMem mem).mode=h.mode := rfl

@[simp]
theorem setCsr_csrs : (h.setCsr n v).csrs k=if k=n then v else h.csrs k :=
  Function.update_apply _ _ _ _

variable {h r s v}

theorem set_get_self (hr : r≠0) : (h.set r v).get r=v := by
  rw [get,if_neg hr]
  exact Function.update_self _ _ _

theorem set_get_of_ne (hs : s≠r) : (h.set r v).get s=h.get s := by
  unfold get
  split
  · rfl
  · exact Function.update_of_ne hs _ _

end Simp
end Hart

/-- The platform decides which accesses fault. -/
structure HartEnv (x : Xlen) where
  fault : Hart x → Bool → Word x → Nat → Option (Fault x)

/-- An access is made in the name of M-mode itself. -/
def Hart.OwnAccess (h : Hart x) : Prop :=
  h.mode=PRV_M ∧ (andMask (h.csrs CSR_MSTATUS) MSTATUS_MPRV=0 ∨
    (andMask (h.csrs CSR_MSTATUS) MSTATUS_MPP).toNat/2^MSTATUS_MPP_SHIFT=PRV_M)

/-- Accesses of M-mode in its own name reach memory. -/
def HartEnv.MachineOk (env : HartEnv x) : Prop := ∀ (h : Hart x) store a n,h.OwnAccess → env.fault h store a n=none

def Hart.Privileged (h : Hart x) : Prop := h.mode=PRV_M ∧ andMask (h.csrs CSR_MSTATUS) MSTATUS_MPRV=0

theorem Hart.Privileged.own {h : Hart x} (hp : h.Privileged) : h.OwnAccess := ⟨hp.1,.inl hp.2⟩

section Privileged

variable {h : Hart x} {n : Nat} {v : Word x}

@[simp]
theorem Hart.privileged_set {r : Fin 32} : (h.set r v).Privileged ↔ h.Privileged := Iff.rfl

@[simp]
theorem Hart.privileged_setMem {mem : Word x → BitVec 8} : (h.setMem mem).Privileged ↔ h.Privileged := Iff.rfl

end Privileged

/-- The instructions that the sequences here consist of, with control left out. -/
inductive Op (x : Xlen) where
  | csrrw (rd : Fin 32) (csr : Nat) (rs : Fin 32)
  | csrrs (rd : Fin 32) (csr : Nat) (rs : Fin 32)
  | store (n : Nat) (rs : Fin 32) (off : Word x) (base : Fin 32)
  | load (n : Nat) (signed : Bool) (rd : Fin 32) (off : Word x) (base : Fin 32)
  | addi (rd rs : Fin 32) (imm : Word x)
  | andi (rd rs : Fin 32) (imm : Word x)
  | slti (rd rs : Fin 32) (imm : Word x)
  | srli (rd rs : Fin 32) (n : Nat)
  | slli (rd rs : Fin 32) (n : Nat)
  | add (rd r1 r2 : Fin 32)
  | xor (rd r1 r2 : Fin 32)
  | and (rd r1 r2 : Fin 32)

/-- What a load of `n` bytes puts into its register. -/
def loaded (mem : Word x → BitVec 8) (a : Word x) (n : Nat) (signed : Bool) : Word x :=
  let v := readBytes mem a n
  if signed=true ∧ 2^(8*n-1) ≤ v then BitVec.ofInt x.bits ((v : Int)-2^(8*n)) else BitVec.ofNat x.bits v

namespace Op

variable (env : HartEnv x)

/-- The effect of an instruction on the registers and on memory, or the fault of its access. -/
def exec : Op x → Hart x → Except (Fault x) (Hart x)
  | csrrw rd csr rs,h => .ok ((h.set rd (h.csrs csr)).setCsr csr (h.get rs))
  | csrrs rd csr rs,h => .ok ((h.set rd (h.csrs csr)).setCsr csr (h.csrs csr ||| h.get rs))
  | store n rs off base,h =>
    match env.fault h true (h.get base+off) n with
    | some f => .error f
    | none => .ok (h.setMem (writeBytes h.mem (h.get base+off) (h.get rs).toNat n))
  | load n signed rd off base,h =>
    match env.fault h false (h.get base+off) n with
    | some f => .error f
    | none => .ok (h.set rd (loaded h.mem (h.get base+off) n signed))
  | addi rd rs imm,h => .ok (h.set rd (h.get rs+imm))
  | andi rd rs imm,h => .ok (h.set rd (h.get rs &&& imm))
  | slti rd rs imm,h => .ok (h.set rd (if (h.get rs).slt imm then 1 else 0))
  | srli rd rs n,h => .ok (h.set rd (h.get rs >>> n))
  | slli rd rs n,h => .ok (h.set rd (h.get rs <<< n))
  | add rd r1 r2,h => .ok (h.set rd (h.get r1+h.get r2))
  | xor rd r1 r2,h => .ok (h.set rd (h.get r1 ^^^ h.get r2))
  | and rd r1 r2,h => .ok (h.set rd (h.get r1 &&& h.get r2))

/-- A straight line of instructions. -/
def run : List (Op x) → Hart x → Except (Fault x) (Hart x)
  | [],h => .ok h
  | i :: l,h =>
    match i.exec env h with
    | .error f => .error f
    | .ok h' => run l h'

/-- The registers of the list are stored into their slots, or loaded from them. -/
def stores (base : Fin 32) (l : List (Fin 32×Nat)) : List (Op x) :=
  l.map fun s => store x.bytes s.1 (BitVec.ofNat x.bits (s.2*x.bytes)) base

def loads (base : Fin 32) (l : List (Fin 32×Nat)) : List (Op x) :=
  l.map fun s => load x.bytes false s.1 (BitVec.ofNat x.bits (s.2*x.bytes)) base

variable {env} {h : Hart x} {b : Fin 32} {l : List (Fin 32×Nat)}

section Steps

variable {rd rs r1 r2 : Fin 32} {n csr : Nat} {imm off : Word x} {signed : Bool} {l : List (Op x)}

@[simp] theorem run_csrrw : run env (csrrw rd csr rs :: l) h=
    run env l ((h.set rd (h.csrs csr)).setCsr csr (h.get rs)) := rfl
@[simp] theorem run_addi : run env (addi rd rs imm :: l) h=run env l (h.set rd (h.get rs+imm)) := rfl
@[simp] theorem run_slli : run env (slli rd rs n :: l) h=run env l (h.set rd (h.get rs <<< n)) := rfl
/-- A register is read by `csrrs` from `x0`. -/
@[simp]
theorem run_csrr : run env (csrrs rd csr 0 :: l) h=run env l (h.set rd (h.csrs csr)) := by
  have hw : (h.set rd (h.csrs csr)).setCsr csr (h.csrs csr ||| h.get 0)=h.set rd (h.csrs csr) := by
    rw [Hart.get_zero,show h.csrs csr ||| 0=h.csrs csr from BitVec.or_zero,Hart.setCsr,Hart.set_csrs,
      Function.update_eq_self]
    rfl
  rw [run,exec,hw]

theorem run_storeOwn (hq : env.MachineOk) (ho : h.OwnAccess) : run env (store n rs off b :: l) h=
    run env l (h.setMem (writeBytes h.mem (h.get b+off) (h.get rs).toNat n)) := by
  rw [run,exec,hq _ _ _ _ ho]

/-- A CSR goes into a slot by way of a register. -/
theorem run_saveCsr {t : Fin 32} (hq : env.MachineOk) (ho : h.OwnAccess) (ht : t≠0) (hb : b≠t) (k csr : Nat) :
    ∃ h' : Hart x,
      run env (csrrs t csr 0 :: store x.bytes t (BitVec.ofNat x.bits (k*x.bytes)) b :: l) h=run env l h' ∧
      (∀ r≠t,h'.get r=h.get r) ∧ h'.csrs=h.csrs ∧ h'.mode=h.mode ∧
      h'.mem=writeWord h.mem (slotAt (h.get b) k) (h.csrs csr) := by
  rw [run_csrr,run,exec,hq _ _ _ _ (show (h.set t (h.csrs csr)).OwnAccess from ho)]
  refine ⟨_,rfl,fun r hr => Hart.set_get_of_ne hr,rfl,rfl,?_⟩
  rw [Hart.setMem_mem,Hart.set_get_self ht,Hart.set_get_of_ne hb]
  rfl

end Steps

end Op
end OpenSBI
