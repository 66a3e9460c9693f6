import OpenSBI.Trap.Entry

namespace OpenSBI

variable {x : Xlen}

open Reg

/-! Accesses in the name of the interrupted mode, and the handler behind their faults. -/

def SBI_TRAP_INFO_epc : Nat := 0
def SBI_TRAP_INFO_cause : Nat := 1
def SBI_TRAP_INFO_tval : Nat := 2
def SBI_TRAP_INFO_tval2 : Nat := 3
def SBI_TRAP_INFO_tinst : Nat := 4

/-- `csrr a4, csr` and the store into a member of the structure at `a3`. -/
def saveInfo (csr k : Nat) : List (Op x) :=
  [.csrrs a4 csr zero,.store x.bytes a4 (BitVec.ofNat x.bits (k*x.bytes)) a3]

/-- `__sbi_expected_trap`, or `__sbi_expected_trap_hext` with the H extension, up to `mret`. -/
def sbiExpectedTrap (hext : Bool) : List (Op x) :=
  saveInfo CSR_MEPC SBI_TRAP_INFO_epc++saveInfo CSR_MCAUSE SBI_TRAP_INFO_cause++
    saveInfo CSR_MTVAL SBI_TRAP_INFO_tval++
    (if hext then saveInfo CSR_MTVAL2 SBI_TRAP_INFO_tval2++saveInfo CSR_MTINST SBI_TRAP_INFO_tinst
    else [.store x.bytes zero (BitVec.ofNat x.bits (SBI_TRAP_INFO_tval2*x.bytes)) a3,
      .store x.bytes zero (BitVec.ofNat x.bits (SBI_TRAP_INFO_tinst*x.bytes)) a3])++
    [.csrrs a4 CSR_MEPC zero,.addi a4 a4 4,.csrrw zero CSR_MEPC a4]

/-- What taking a trap in M-mode makes of `mstatus`: MPP is M-mode, whatever becomes of the other fields. -/
structure TrapHart (x : Xlen) extends HartEnv x where
  status : Fault x → Word x → Word x
  status_mpp : ∀ f m,(andMask (status f m) MSTATUS_MPP).toNat/2^MSTATUS_MPP_SHIFT=PRV_M

/-- The trap of an instruction at `pc`. -/
def Hart.takeTrap (hw : TrapHart x) (h : Hart x) (pc : Word x) (f : Fault x) : Hart x :=
  { (((((h.setCsr CSR_MEPC pc).setCsr CSR_MCAUSE f.cause).setCsr CSR_MTVAL f.tval).setCsr CSR_MTVAL2 f.tval2).setCsr
      CSR_MTINST f.tinst).setCsr CSR_MSTATUS (hw.status f (h.csrs CSR_MSTATUS)) with
    pc := h.csrs CSR_MTVEC, mode := PRV_M }

/-- Instructions with their sizes, from `pc` on. A fault goes to the handler at `vec`, and a return to
anything but the next instruction is lost. -/
def runAt (hw : TrapHart x) (vec : Word x) (handler : List (Op x)) :
    Word x → List (Nat×Op x) → Hart x → Option (Hart x)
  | _,[],h => some h
  | pc,(n,i) :: l,h =>
    match i.exec hw.toHartEnv h with
    | .ok h' => runAt hw vec handler (pc+BitVec.ofNat x.bits n) l h'
    | .error f =>
      if h.csrs CSR_MTVEC=vec then
        match Op.run hw.toHartEnv handler (h.takeTrap hw pc f) with
        | .error _ => none
        | .ok g =>
          if g.mret.pc=pc+BitVec.ofNat x.bits n then
            runAt hw vec handler (pc+BitVec.ofNat x.bits n) l g.mret
          else none
      else none

/-- The registers that the compiler picks for the operands. -/
structure UnprivRegs where
  mtvec : Fin 32
  mstatus : Fin 32
  mprv : Fin 32
  taddr : Fin 32
  outputs : [0,a3,a4,mtvec,mstatus].Nodup
  mprv_input : mprv∉[a3,a4,mtvec,mstatus]
  taddr_input : taddr∉[a3,a4,mtvec,mstatus]

/-- What one of the functions does in the name of the interrupted mode. -/
inductive UnprivAccess (regs : UnprivRegs) where
  | load (n : Nat) (signed : Bool) (ret addr : Fin 32) (hr : ret∉[0,a3,a4,regs.mtvec,regs.mstatus])
      (ha : addr∉[a3,a4,regs.mtvec,regs.mstatus])
  | store (n : Nat) (val addr : Fin 32) (hv : val∉[a3,a4,regs.mtvec,regs.mstatus])
      (ha : addr∉[a3,a4,regs.mtvec,regs.mstatus])

def UnprivAccess.op {regs : UnprivRegs} : UnprivAccess regs → Op x
  | load n signed ret addr _ _ => .load n signed ret 0 addr
  | store n val addr _ _ => .store n val 0 addr

/-- The body of `sbi_load_<type>()` and `sbi_store_<type>()` around their access; the `add` may be compressed. -/
def unprivileged (regs : UnprivRegs) (size : Nat) (access : UnprivAccess regs) : List (Nat×Op x) :=
  [(size,.add a3 regs.taddr zero),(4,.csrrw regs.mtvec CSR_MTVEC regs.mtvec),
    (4,.csrrs regs.mstatus CSR_MSTATUS regs.mprv),(4,access.op),(4,.csrrw zero CSR_MSTATUS regs.mstatus),
    (4,.csrrw zero CSR_MTVEC regs.mtvec)]

/-- The hart as it makes the access. -/
def UnprivRegs.borrow (regs : UnprivRegs) (h : Hart x) : Hart x :=
  let h1 := h.set a3 (h.get regs.taddr+0)
  let h2 := (h1.set regs.mtvec (h1.csrs CSR_MTVEC)).setCsr CSR_MTVEC (h1.get regs.mtvec)
  (h2.set regs.mstatus (h2.csrs CSR_MSTATUS)).setCsr CSR_MSTATUS (h2.csrs CSR_MSTATUS ||| h2.get regs.mprv)

section Expected

variable {hw : TrapHart x} {h : Hart x}

/-- The five words that the handler stores. -/
def trapInfoSlots (hext : Bool) (epc : Word x) (f : Fault x) : List (Nat×Word x) :=
  [(0,epc),(1,f.cause),(2,f.tval),(3,if hext then f.tval2 else 0),(4,if hext then f.tinst else 0)]

/-- CSRs that go into the structure one after the other. -/
theorem run_saveInfos (hq : hw.MachineOk) (ho : h.OwnAccess) (l : List (Nat×Nat)) (k : List (Op x)) :
    ∃ h' : Hart x,Op.run hw.toHartEnv (l.flatMap (fun s => saveInfo s.1 s.2)++k) h=Op.run hw.toHartEnv k h' ∧
      (∀ r≠a4,h'.get r=h.get r) ∧ h'.csrs=h.csrs ∧ h'.mode=h.mode ∧
      h'.mem=writeSlots h.mem (h.get a3) (l.map fun s => (s.2,h.csrs s.1)) := by
  induction l generalizing h with
  | nil => exact ⟨h,rfl,fun _ _ => rfl,rfl,rfl,rfl⟩
  | cons s l ih =>
    obtain ⟨h1,hrun1,hr1,hc1,hmode1,hm1⟩ := Op.run_saveCsr (t := a4) (b := a3) hq ho (by decide) (by decide) s.2 s.1
      (l := l.flatMap (fun s => saveInfo s.1 s.2)++k)
    have ho1 : h1.OwnAccess := by
      rw [Hart.OwnAccess,hc1,hmode1]
      exact ho
    obtain ⟨h2,hrun2,hr2,hc2,hmode2,hm2⟩ := ih ho1
    refine ⟨h2,hrun1.trans hrun2,fun r hr => (hr2 r hr).trans (hr1 r hr),hc2.trans hc1,hmode2.trans hmode1,?_⟩
    rw [hm2,hm1,hc1,hr1 _ (by decide)]
    rfl

theorem run_nextInsn (hw : TrapHart x) (g : Hart x) : ∃ h' : Hart x,
    Op.run hw.toHartEnv [.csrrs a4 CSR_MEPC zero,.addi a4 a4 4,.csrrw zero CSR_MEPC a4] g=.ok h' ∧
      (∀ r≠a4,h'.get r=g.get r) ∧ h'.csrs=(g.setCsr CSR_MEPC (g.csrs CSR_MEPC+4)).csrs ∧ h'.mode=g.mode ∧
      h'.mem=g.mem := by
  rw [Op.run_csrr,Op.run_addi,Op.run_csrrw]
  refine ⟨_,rfl,fun r hr => ?_,?_,rfl,rfl⟩
  · by_cases h0 : r=0
    · rw [h0]
      rfl
    · exact (Hart.set_get_of_ne h0).trans ((Hart.set_get_of_ne hr).trans (Hart.set_get_of_ne hr))
  · rw [Hart.set_get_self (by decide),Hart.set_get_self (by decide)]
    rfl

/-- The handler stores what it finds and moves MEPC on. -/
theorem run_sbiExpectedTrap (hq : hw.MachineOk) (ho : h.OwnAccess) (hext : Bool) :
    ∃ h' : Hart x,Op.run hw.toHartEnv (sbiExpectedTrap hext) h=.ok h' ∧ (∀ r≠a4,h'.get r=h.get r) ∧
      h'.csrs=(h.setCsr CSR_MEPC (h.csrs CSR_MEPC+4)).csrs ∧ h'.mode=h.mode ∧
      h'.mem=writeSlots h.mem (h.get a3) [(0,h.csrs CSR_MEPC),(1,h.csrs CSR_MCAUSE),(2,h.csrs CSR_MTVAL),
        (3,if hext then h.csrs CSR_MTVAL2 else 0),(4,if hext then h.csrs CSR_MTINST else 0)] := by
  cases hext
  · let k : List (Op x) := [.store x.bytes zero (BitVec.ofNat x.bits (SBI_TRAP_INFO_tval2*x.bytes)) a3,
      .store x.bytes zero (BitVec.ofNat x.bits (SBI_TRAP_INFO_tinst*x.bytes)) a3]
    obtain ⟨h1,hrun1,hr1,hc1,hmode1,hm1⟩ := run_saveInfos hq ho
      [(CSR_MEPC,0),(CSR_MCAUSE,1),(CSR_MTVAL,2)]
      (k++[.csrrs a4 CSR_MEPC zero,.addi a4 a4 4,.csrrw zero CSR_MEPC a4])
    have ho1 : h1.OwnAccess := by
      rw [Hart.OwnAccess,hc1,hmode1]
      exact ho
    let g := h1.setMem (writeWord (writeWord h1.mem (slotAt (h1.get a3) 3) 0) (slotAt (h1.get a3) 4) 0)
    have hg : Op.run hw.toHartEnv (k++[.csrrs a4 CSR_MEPC zero,.addi a4 a4 4,.csrrw zero CSR_MEPC a4]) h1=
        Op.run hw.toHartEnv [.csrrs a4 CSR_MEPC zero,.addi a4 a4 4,.csrrw zero CSR_MEPC a4] g :=
      (Op.run_storeOwn hq ho1).trans (Op.run_storeOwn hq (h := h1.setMem _) ho1)
    obtain ⟨h2,hrun2,hr2,hc2,hmode2,hm2⟩ := run_nextInsn hw g
    refine ⟨h2,hrun1.trans (hg.trans hrun2),fun r hr => (hr2 r hr).trans (hr1 r hr),?_,hmode2.trans hmode1,?_⟩
    · rw [hc2,Hart.setCsr,Hart.setCsr,← hc1]
      rfl
    · rw [hm2,Hart.setMem_mem,hm1,hr1 _ (by decide)]
      rfl
  · obtain ⟨h1,hrun1,hr1,hc1,hmode1,hm1⟩ := run_saveInfos hq ho
      [(CSR_MEPC,0),(CSR_MCAUSE,1),(CSR_MTVAL,2),(CSR_MTVAL2,3),(CSR_MTINST,4)]
      [.csrrs a4 CSR_MEPC zero,.addi a4 a4 4,.csrrw zero CSR_MEPC a4]
    obtain ⟨h2,hrun2,hr2,hc2,hmode2,hm2⟩ := run_nextInsn hw h1
    refine ⟨h2,hrun1.trans hrun2,fun r hr => (hr2 r hr).trans (hr1 r hr),?_,hmode2.trans hmode1,?_⟩
    · rw [hc2,Hart.setCsr,Hart.setCsr,← hc1]
    · rw [hm2,hm1]
      rfl

section TakeTrap

variable (hw : TrapHart x) (h : Hart x) (pc : Word x) (f : Fault x)

theorem takeTrap_status : (h.takeTrap hw pc f).csrs CSR_MSTATUS=hw.status f (h.csrs CSR_MSTATUS) := by
  simp [Hart.takeTrap]

theorem takeTrap_info : (h.takeTrap hw pc f).csrs CSR_MEPC=pc ∧ (h.takeTrap hw pc f).csrs CSR_MCAUSE=f.cause ∧
    (h.takeTrap hw pc f).csrs CSR_MTVAL=f.tval ∧ (h.takeTrap hw pc f).csrs CSR_MTVAL2=f.tval2 ∧
    (h.takeTrap hw pc f).csrs CSR_MTINST=f.tinst := by
  simp [Hart.takeTrap,CSR_MEPC,CSR_MCAUSE,CSR_MTVAL,CSR_MTVAL2,CSR_MTINST,CSR_MSTATUS]

theorem takeTrap_csrs {n : Nat} (hn : n∉[CSR_MEPC,CSR_MCAUSE,CSR_MTVAL,CSR_MTVAL2,CSR_MTINST]) (hs : n≠CSR_MSTATUS) :
    (h.takeTrap hw pc f).csrs n=h.csrs n := by
  simp only [List.mem_cons,List.not_mem_nil,or_false,not_or] at hn
  simp [Hart.takeTrap,hn,hs]

theorem takeTrap_own : (h.takeTrap hw pc f).OwnAccess := by
  refine ⟨rfl,.inr ?_⟩
  rw [takeTrap_status]
  exact hw.status_mpp _ _

end TakeTrap

section Sequence

variable {regs : UnprivRegs} {vec : Word x} {access : UnprivAccess regs}

theorem UnprivRegs.ne (regs : UnprivRegs) : regs.mtvec≠0 ∧ regs.mstatus≠0 ∧ regs.mtvec≠a3 ∧ regs.mstatus≠a3 ∧
    regs.mtvec≠a4 ∧ regs.mstatus≠a4 ∧ regs.mtvec≠regs.mstatus := by
  have h := regs.outputs
  simp only [List.nodup_cons,List.mem_cons,List.not_mem_nil,or_false,not_or] at h
  exact ⟨Ne.symm h.1.2.2.1,Ne.symm h.1.2.2.2,Ne.symm h.2.1.2.1,Ne.symm h.2.1.2.2,Ne.symm h.2.2.1.1,Ne.symm h.2.2.1.2,
    h.2.2.2.1⟩

/-- The hart makes the access with MPRV set, and holds on to what it changed. -/
theorem borrow_spec (hp : h.get regs.mprv=BitVec.ofNat x.bits MSTATUS_MPRV) :
    (regs.borrow h).get a3=h.get regs.taddr ∧ (regs.borrow h).get regs.mtvec=h.csrs CSR_MTVEC ∧
      (regs.borrow h).get regs.mstatus=h.csrs CSR_MSTATUS ∧ (regs.borrow h).csrs CSR_MTVEC=h.get regs.mtvec ∧
      (regs.borrow h).csrs CSR_MSTATUS=orMask (h.csrs CSR_MSTATUS) MSTATUS_MPRV ∧
      (∀ n,n≠CSR_MTVEC → n≠CSR_MSTATUS → (regs.borrow h).csrs n=h.csrs n) ∧
      (∀ r,r∉[a3,regs.mtvec,regs.mstatus] → (regs.borrow h).get r=h.get r) := by
  obtain ⟨hv0,hs0,hv3,hs3,-,-,hvs⟩ := regs.ne
  have hmprv := regs.mprv_input
  simp only [List.mem_cons,List.not_mem_nil,or_false,not_or] at hmprv
  have hst : CSR_MSTATUS≠CSR_MTVEC := by decide
  have hadd : h.get regs.taddr+0=h.get regs.taddr := add_zero _
  unfold UnprivRegs.borrow
  refine ⟨?_,?_,?_,?_,?_,fun n h1 h2 => ?_,fun r hr => ?_⟩
  · rw [Hart.setCsr_get,Hart.set_get_of_ne hs3.symm,Hart.setCsr_get,Hart.set_get_of_ne hv3.symm,
      Hart.set_get_self (by decide),hadd]
  · rw [Hart.setCsr_get,Hart.set_get_of_ne hvs,Hart.setCsr_get,Hart.set_get_self hv0]
    rfl
  · rw [Hart.setCsr_get,Hart.set_get_self hs0,Hart.setCsr_csrs,if_neg hst]
    rfl
  · rw [Hart.setCsr_csrs,if_neg hst.symm,Hart.set_csrs,Hart.setCsr_csrs,if_pos rfl,Hart.set_get_of_ne hv3]
  · rw [Hart.setCsr_csrs,if_pos rfl,Hart.setCsr_csrs,if_neg hst,Hart.setCsr_get,Hart.set_get_of_ne hmprv.2.2.1,
      Hart.set_get_of_ne hmprv.1,hp]
    rfl
  · rw [Hart.setCsr_csrs,if_neg h2,Hart.set_csrs,Hart.setCsr_csrs,if_neg h1]
    rfl
  · simp only [List.mem_cons,List.not_mem_nil,or_false,not_or] at hr
    rw [Hart.setCsr_get,Hart.set_get_of_ne hr.2.2,Hart.setCsr_get,Hart.set_get_of_ne hr.2.1,Hart.set_get_of_ne hr.1]

/-- The last two instructions put back what the hart holds. -/
theorem runAt_giveBack (hw : TrapHart x) (regs : UnprivRegs) (vec : Word x) (handler : List (Op x)) (g : Hart x)
    (pc : Word x) :
    ∃ h',runAt hw vec handler pc
        [(4,.csrrw zero CSR_MSTATUS regs.mstatus),(4,.csrrw zero CSR_MTVEC regs.mtvec)] g=some h' ∧
      (∀ r,h'.get r=g.get r) ∧ h'.csrs CSR_MSTATUS=g.get regs.mstatus ∧ h'.csrs CSR_MTVEC=g.get regs.mtvec ∧
      (∀ n,n≠CSR_MTVEC → n≠CSR_MSTATUS → h'.csrs n=g.csrs n) ∧ h'.mode=g.mode ∧ h'.mem=g.mem := by
  have hst : CSR_MSTATUS≠CSR_MTVEC := by decide
  have hz : ∀ (k : Hart x) v r,(k.set zero v).get r=k.get r := by
    intro k v r
    by_cases h0 : r=zero
    · rw [h0]
      rfl
    · exact Hart.set_get_of_ne h0
  refine ⟨_,rfl,fun r => ?_,?_,?_,fun n h1 h2 => ?_,rfl,rfl⟩
  · rw [Hart.setCsr_get,hz,Hart.setCsr_get,hz]
  · rw [Hart.setCsr_csrs,if_neg hst,Hart.set_csrs,Hart.setCsr_csrs,if_pos rfl]
  · rw [Hart.setCsr_csrs,if_pos rfl,Hart.setCsr_get,hz]
  · rw [Hart.setCsr_csrs,if_neg h1,Hart.set_csrs,Hart.setCsr_csrs,if_neg h2]
    rfl

/-- An access goes through in the name of the interrupted mode, or its fault is told in the structure; the hart
has its own status and vector again either way. -/
structure UnprivDone (access : UnprivAccess regs) (hw : TrapHart x) (hext : Bool) (pc : Word x)
    (h h' : Hart x) : Prop where
  mode : h'.mode=PRV_M
  mstatus : h'.csrs CSR_MSTATUS=h.csrs CSR_MSTATUS
  mtvec : h'.csrs CSR_MTVEC=h.csrs CSR_MTVEC
  csrs : ∀ n,n∉[CSR_MEPC,CSR_MCAUSE,CSR_MTVAL,CSR_MTVAL2,CSR_MTINST] → h'.csrs n=h.csrs n
  done : ∀ u,access.op.exec hw.toHartEnv (regs.borrow h)=.ok u →
    h'.mem=u.mem ∧ ∀ r,r∉[a3,a4,regs.mtvec,regs.mstatus] → h'.get r=u.get r
  faulted : ∀ f,access.op.exec hw.toHartEnv (regs.borrow h)=.error f →
    h'.mem=writeSlots h.mem (h.get regs.taddr) (trapInfoSlots hext pc f) ∧
      ∀ r,r∉[a3,a4,regs.mtvec,regs.mstatus] → h'.get r=h.get r

theorem exec_access {g u : Hart x} (h : access.op.exec hw.toHartEnv g=.ok u) : u.csrs=g.csrs ∧ u.mode=g.mode ∧
    u.get regs.mtvec=g.get regs.mtvec ∧ u.get regs.mstatus=g.get regs.mstatus := by
  cases access with
  | load n signed ret addr hr ha =>
    simp only [List.mem_cons,List.not_mem_nil,or_false,not_or] at hr
    simp only [UnprivAccess.op,Op.exec] at h
    split at h
    · cases h
    · cases h
      exact ⟨rfl,rfl,Hart.set_get_of_ne (Ne.symm hr.2.2.2.1),Hart.set_get_of_ne (Ne.symm hr.2.2.2.2)⟩
  | store n val addr hv ha =>
    simp only [UnprivAccess.op,Op.exec] at h
    split at h
    · cases h
    · cases h
      exact ⟨rfl,rfl,rfl,rfl⟩

theorem unprivileged_done (hq : hw.MachineOk) (hm : h.mode=PRV_M)
    (hp : h.get regs.mprv=BitVec.ofNat x.bits MSTATUS_MPRV)
    (hv : h.get regs.mtvec=vec) (pc : Word x) (size : Nat) (access : UnprivAccess regs) (hext : Bool) :
    ∃ h',runAt hw vec (sbiExpectedTrap hext) pc (unprivileged regs size access) h=some h' ∧
      UnprivDone access hw hext (pc+BitVec.ofNat x.bits size+8) h h' := by
  obtain ⟨hb3,hbv,hbs,hcv,hcs,hcsr,hbr⟩ := borrow_spec hp
  obtain ⟨-,-,hv3,hs3,hv4,hs4,-⟩ := regs.ne
  obtain ⟨p,hp⟩ : ∃ p,p=pc+BitVec.ofNat x.bits size+BitVec.ofNat x.bits 4+BitVec.ofNat x.bits 4 := ⟨_,rfl⟩
  have hpc : pc+BitVec.ofNat x.bits size+8=p := by
    have h8 : BitVec.ofNat x.bits 4+BitVec.ofNat x.bits 4=(8 : Word x) := by cases x <;> rfl
    rw [hp,add_assoc _ (BitVec.ofNat x.bits 4),h8]
  have hrun : runAt hw vec (sbiExpectedTrap hext) pc (unprivileged regs size access) h=
      runAt hw vec (sbiExpectedTrap hext) p [(4,access.op),(4,.csrrw zero CSR_MSTATUS regs.mstatus),
        (4,.csrrw zero CSR_MTVEC regs.mtvec)] (regs.borrow h) := by
    rw [hp]
    rfl
  have hcsrs : ∀ (g h' : Hart x),(∀ n,n≠CSR_MTVEC → n≠CSR_MSTATUS → h'.csrs n=g.csrs n) →
      (∀ n,n∉[CSR_MEPC,CSR_MCAUSE,CSR_MTVAL,CSR_MTVAL2,CSR_MTINST] → n≠CSR_MSTATUS →
        g.csrs n=(regs.borrow h).csrs n) →
      h'.csrs CSR_MSTATUS=h.csrs CSR_MSTATUS → h'.csrs CSR_MTVEC=h.csrs CSR_MTVEC →
      ∀ n,n∉[CSR_MEPC,CSR_MCAUSE,CSR_MTVAL,CSR_MTVAL2,CSR_MTINST] → h'.csrs n=h.csrs n := by
    intro g h' h1 h2 h3 h4 n hn
    by_cases hnv : n=CSR_MTVEC
    · rw [hnv,h4]
    by_cases hns : n=CSR_MSTATUS
    · rw [hns,h3]
    · rw [h1 n hnv hns,h2 n hn hns,hcsr n hnv hns]
  rw [hpc]
  cases he : access.op.exec hw.toHartEnv (regs.borrow h) with
  | ok u =>
    obtain ⟨huc,hum,huv,hus⟩ := exec_access he
    obtain ⟨h',hg,hgr,hgs,hgv,hgc,hgm,hgmem⟩ := runAt_giveBack hw regs vec
      (sbiExpectedTrap hext) u (p+BitVec.ofNat x.bits 4)
    have hs' : h'.csrs CSR_MSTATUS=h.csrs CSR_MSTATUS := by rw [hgs,hus,hbs]
    have hv' : h'.csrs CSR_MTVEC=h.csrs CSR_MTVEC := by rw [hgv,huv,hbv]
    refine ⟨h',?_,?_,hs',hv',hcsrs u h' hgc (fun n _ _ => by rw [huc]) hs' hv',fun u' hu' => ?_,fun f hf => ?_⟩
    · rw [hrun,runAt,he]
      exact hg
    · rw [hgm,hum]
      exact hm
    · rw [he] at hu'
      cases hu'
      exact ⟨hgmem,fun r _ => hgr r⟩
    · rw [he] at hf
      cases hf
  | error f =>
    obtain ⟨hte,htc,htv,htv2,hti⟩ := takeTrap_info hw (regs.borrow h) p f
    obtain ⟨g,hgrun,hgr,hgc,hgm,hgmem⟩ := run_sbiExpectedTrap hq
      (takeTrap_own hw (regs.borrow h) p f) hext
    obtain ⟨h',hg,hbr',hbs',hbv',hbc',hbm',hbmem'⟩ := runAt_giveBack hw regs vec
      (sbiExpectedTrap hext) g.mret (p+BitVec.ofNat x.bits 4)
    have hgpc : g.mret.pc=p+BitVec.ofNat x.bits 4 := by
      show g.csrs CSR_MEPC=_
      rw [hgc,Hart.setCsr_csrs,if_pos rfl,hte]
      rfl
    have hkeep : ∀ r≠a4,g.mret.get r=(regs.borrow h).get r := hgr
    have hs' : h'.csrs CSR_MSTATUS=h.csrs CSR_MSTATUS := by rw [hbs',hkeep _ hs4,hbs]
    have hv' : h'.csrs CSR_MTVEC=h.csrs CSR_MTVEC := by rw [hbv',hkeep _ hv4,hbv]
    have hgcs : ∀ n,n∉[CSR_MEPC,CSR_MCAUSE,CSR_MTVAL,CSR_MTVAL2,CSR_MTINST] → n≠CSR_MSTATUS →
        g.mret.csrs n=(regs.borrow h).csrs n := by
      intro n hn hs
      have he : n≠CSR_MEPC := fun he => hn (by simp [he])
      rw [mret_csrs hs,hgc,Hart.setCsr_csrs,if_neg he,takeTrap_csrs _ _ _ _ hn hs]
    refine ⟨h',?_,?_,hs',hv',hcsrs g.mret h' hbc' hgcs hs' hv',fun u hu => ?_,fun f' hf => ?_⟩
    · rw [hrun,runAt,he]
      dsimp only
      rw [if_pos (hcv.trans hv),hgrun]
      dsimp only
      rw [if_pos hgpc]
      exact hg
    · rw [hbm']
      show (andMask (g.csrs CSR_MSTATUS) MSTATUS_MPP).toNat/2^MSTATUS_MPP_SHIFT=_
      rw [hgc,Hart.setCsr_csrs,if_neg (by decide),takeTrap_status]
      exact hw.status_mpp _ _
    · rw [he] at hu
      cases hu
    · rw [he] at hf
      cases hf
      refine ⟨?_,fun r hr => ?_⟩
      · rw [hbmem']
        show g.mem=_
        rw [hgmem,hte,htc,htv,htv2,hti]
        exact congrArg (fun a => writeSlots h.mem a (trapInfoSlots hext p f)) hb3
      · simp only [List.mem_cons,List.not_mem_nil,or_false,not_or] at hr
        rw [hbr',hkeep r hr.2.1]
        exact hbr r (by simp [hr])

/-- A load that faults since the page is not there, from a hart that holds 0x1800 in MSTATUS. -/
theorem loadPageFault_done : ∃ (hw : TrapHart .rv64) (regs : UnprivRegs) (access : UnprivAccess regs)
    (f : Fault .rv64)
    (h h' : Hart .rv64),access.op.exec hw.toHartEnv (regs.borrow h)=.error f ∧ f.cause=0xd ∧
      runAt hw 0x80001000 (sbiExpectedTrap false) 0x80002000 (unprivileged regs 4 access) h=some h' ∧
      UnprivDone access hw false 0x8000200c h h' := by
  let f : Fault .rv64 := ⟨0xd,0x1000,0,0,by decide⟩
  let hw : TrapHart .rv64 := ⟨⟨fun h _ _ _ =>
    if andMask (h.csrs CSR_MSTATUS) MSTATUS_MPRV=0 ∨
      (andMask (h.csrs CSR_MSTATUS) MSTATUS_MPP).toNat/2^MSTATUS_MPP_SHIFT=PRV_M then none else some f⟩,
    fun _ _ => 0x1800,fun _ _ => by decide⟩
  let regs : UnprivRegs := ⟨15,16,17,18,by decide,by decide,by decide⟩
  let access : UnprivAccess regs := .load 8 false 11 12 (by decide) (by decide)
  let h : Hart .rv64 := ⟨fun r =>
    if r=15 then 0x80001000 else if r=17 then 0x20000 else if r=18 then 0x80020000 else 0,
    fun _ => 0,fun _ => 0,0,PRV_M⟩
  have hq : hw.MachineOk := fun _ _ _ _ ho => if_pos ho.2
  obtain ⟨h',hrun,hd⟩ := unprivileged_done hq (show h.mode=PRV_M from rfl) (show h.get regs.mprv=_ by decide)
    (show h.get regs.mtvec=0x80001000 from rfl) 0x80002000 4 access false
  have hf : hw.fault (regs.borrow h) false ((regs.borrow h).get 12+0) 8=some f := if_neg (by decide)
  have hexec : access.op.exec hw.toHartEnv (regs.borrow h)=.error f := by
    show Op.exec hw.toHartEnv (.load 8 false 11 0 12) (regs.borrow h)=_
    rw [Op.exec,hf]
  exact ⟨hw,regs,access,f,h,h',hexec,rfl,hrun,hd⟩

end Sequence
end Expected
end OpenSBI
