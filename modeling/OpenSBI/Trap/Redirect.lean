import OpenSBI.Trap.State

namespace OpenSBI

variable {x : Xlen}

/-- `csr_write()`. -/
def TrapState.csrWrite (s : TrapState x) (num : Nat) (val : Word x) : TrapState x :=
  { s with csrs := Function.update s.csrs num val }

/-- The causes that stay in VS-mode. -/
def vsCause (cause : Word x) : Bool :=
  cause==BitVec.ofNat x.bits CAUSE_FETCH_PAGE_FAULT || cause==BitVec.ofNat x.bits CAUSE_LOAD_PAGE_FAULT ||
    cause==BitVec.ofNat x.bits CAUSE_STORE_PAGE_FAULT

/-- The update of SPP, SPIE and SIE; SPIE takes SIE over. -/
def pushSie (status : Word x) (prevMode : Nat) : Word x :=
  let spp := if prevMode=PRV_S then orMask (clearMask status MSTATUS_SPP) MSTATUS_SPP
    else clearMask status MSTATUS_SPP
  let spie := clearMask spp MSTATUS_SPIE
  clearMask (if andMask spie MSTATUS_SIE≠0 then orMask spie MSTATUS_SPIE else spie) MSTATUS_SIE

def setMppS (mstatus : Word x) : Word x :=
  orMask (clearMask mstatus MSTATUS_MPP) (PRV_S*2^MSTATUS_MPP_SHIFT)

/-- The HSTATUS value for a trap from VS/VU-mode into HS-mode. -/
def hstatusOf (hstatus : Word x) (prevMode : Nat) (prevVirt : Bool) : Word x :=
  let spvp := orMask (clearMask hstatus HSTATUS_SPVP) (if prevMode=PRV_S then HSTATUS_SPVP else 0)
  orMask (clearMask spvp HSTATUS_SPV) (if prevVirt then HSTATUS_SPV else 0)

def TrapState.updateHstatus (s : TrapState x) (trap : TrapInfo x) (prevMode : Nat)
    (prevVirt : Bool) : TrapState x :=
  ((s.csrWrite CSR_HSTATUS (hstatusOf (s.csrs CSR_HSTATUS) prevMode prevVirt)).csrWrite
    CSR_HTVAL trap.tval2).csrWrite CSR_HTINST trap.tinst

def TrapState.toVsMode (s : TrapState x) (trap : TrapInfo x) (prevMode : Nat) : TrapState x :=
  let t := ((s.csrWrite CSR_VSTVAL trap.tval).csrWrite CSR_VSEPC trap.epc).csrWrite CSR_VSCAUSE trap.cause
  { t with regs := { t.regs with mepc := t.csrs CSR_VSTVEC,mstatus := setMppS t.regs.mstatus } }.csrWrite
    CSR_VSSTATUS (pushSie (t.csrs CSR_VSSTATUS) prevMode)

def TrapState.toSMode (s : TrapState x) (trap : TrapInfo x) (prevMode : Nat) : TrapState x :=
  let t := ((s.csrWrite CSR_STVAL trap.tval).csrWrite CSR_SEPC trap.epc).csrWrite CSR_SCAUSE trap.cause
  { t with regs := { t.regs with mepc := t.csrs CSR_STVEC,mstatus := pushSie (setMppS t.regs.mstatus) prevMode } }

def nextVirt (env : TrapEnv x) (trap : TrapInfo x) (r : TrapRegs x) : Bool :=
  env.misaH && r.prevVirt && vsCause trap.cause

/-- `sbi_trap_redirect()` past its check of the previous mode. -/
def TrapState.redirect (s : TrapState x) (env : TrapEnv x) (trap : TrapInfo x) : TrapState x :=
  let next := nextVirt env trap s.regs
  let t := { s with regs := s.regs.setMpv next,redirects := s.redirects++[trap] }
  let h := if env.misaH && s.regs.prevVirt && !next then
    t.updateHstatus trap s.regs.prevMode s.regs.prevVirt else t
  if next then h.toVsMode trap s.regs.prevMode else h.toSMode trap s.regs.prevMode

def sbiTrapRedirect (env : TrapEnv x) (trap : TrapInfo x) (s : TrapState x) : Int × TrapState x :=
  if s.regs.prevMode≠PRV_S ∧ s.regs.prevMode≠PRV_U then
    (SBI_ENOTSUPP,{ s with redirects := s.redirects++[trap] })
  else (SBI_OK,s.redirect env trap)

/-- `truly_illegal_insn()`. -/
def trulyIllegalInsn (env : TrapEnv x) (insn : Word x) (s : TrapState x) : Int × TrapState x :=
  sbiTrapRedirect env ⟨s.regs.mepc,BitVec.ofNat x.bits CAUSE_ILLEGAL_INSTRUCTION,insn,0,0⟩ s

/-- The interrupted context ran below M-mode. -/
def TrapRegs.BelowM (r : TrapRegs x) : Prop := r.prevMode=PRV_S ∨ r.prevMode=PRV_U

theorem sbiTrapRedirect_belowM {env : TrapEnv x} {trap : TrapInfo x} {s : TrapState x}
    (h : s.regs.BelowM) : sbiTrapRedirect env trap s=(SBI_OK,s.redirect env trap) := by
  rw [sbiTrapRedirect,if_neg]
  intro hne
  exact h.elim hne.1 hne.2

section Frame

variable (env : TrapEnv x) (trap : TrapInfo x) (s : TrapState x)

/-- What a redirection leaves alone. -/
structure TrapState.SameContext (s t : TrapState x) : Prop where
  gpr : t.regs.gpr=s.regs.gpr
  fpr : t.fpr=s.fpr
  tp : t.tp=s.tp
  mem : t.mem=s.mem
  timeDelta : t.timeDelta=s.timeDelta

theorem TrapRegs.setMpv_gpr (r : TrapRegs x) (b : Bool) : (r.setMpv b).gpr=r.gpr := by
  cases x <;> rfl

theorem redirect_sameContext : s.SameContext (s.redirect env trap) := by
  unfold TrapState.redirect
  constructor <;> dsimp only <;> split <;> split <;>
    simp [TrapState.toVsMode,TrapState.toSMode,TrapState.csrWrite,TrapState.updateHstatus,
      TrapRegs.setMpv_gpr]

theorem redirect_redirects : (s.redirect env trap).redirects=s.redirects++[trap] := by
  unfold TrapState.redirect
  dsimp only
  split <;> split <;>
    simp [TrapState.toVsMode,TrapState.toSMode,TrapState.csrWrite,TrapState.updateHstatus]

/-- Every call is recorded, also from a previous mode that is not redirected. -/
theorem sbiTrapRedirect_redirects :
    (sbiTrapRedirect env trap s).2.redirects=s.redirects++[trap] := by
  unfold sbiTrapRedirect
  split
  · rfl
  · exact redirect_redirects env trap s

theorem sbiTrapRedirect_sameContext : s.SameContext (sbiTrapRedirect env trap s).2 := by
  unfold sbiTrapRedirect
  split
  · exact ⟨rfl,rfl,rfl,rfl,rfl⟩
  · exact redirect_sameContext env trap s

/-- A trap that is not kept in VS-mode arrives at the supervisor vector. -/
theorem redirect_toSMode (h : nextVirt env trap s.regs=false) :
    (s.redirect env trap).regs.mepc=s.csrs CSR_STVEC ∧ (s.redirect env trap).csrs CSR_SEPC=trap.epc ∧
      (s.redirect env trap).csrs CSR_SCAUSE=trap.cause ∧ (s.redirect env trap).csrs CSR_STVAL=trap.tval := by
  simp only [TrapState.redirect,h,Bool.false_eq_true,if_false]
  split <;> simp [TrapState.toSMode,TrapState.csrWrite,TrapState.updateHstatus,CSR_STVAL,
      CSR_SEPC,CSR_SCAUSE,CSR_STVEC,CSR_HSTATUS,CSR_HTVAL,CSR_HTINST]

theorem testBit_of_land_zero {m n : Nat} (h : n &&& m=0) (i : Nat) :
    (n.testBit i && m.testBit i)=false := by
  rw [← Nat.testBit_and,h,Nat.zero_testBit]

theorem andMask_clearMask {a : Word x} {m n : Nat} (h : n &&& m=0) :
    andMask (clearMask a n) m=andMask a m := by
  apply BitVec.eq_of_getLsbD_eq
  intro i hi
  have hb := testBit_of_land_zero h i
  simp only [andMask,clearMask,BitVec.getLsbD_and,BitVec.getLsbD_not,BitVec.getLsbD_ofNat,hi]
  cases hn : n.testBit i <;> cases hm : m.testBit i <;> simp_all

theorem andMask_orMask {a : Word x} {m n : Nat} (h : n &&& m=0) :
    andMask (orMask a n) m=andMask a m := by
  apply BitVec.eq_of_getLsbD_eq
  intro i hi
  have hb := testBit_of_land_zero h i
  simp only [andMask,orMask,BitVec.getLsbD_and,BitVec.getLsbD_or,BitVec.getLsbD_ofNat,hi]
  cases hn : n.testBit i <;> cases hm : m.testBit i <;> simp_all

theorem pushSie_fs (status : Word x) (prevMode : Nat) :
    andMask (pushSie status prevMode) MSTATUS_FS=andMask status MSTATUS_FS := by
  unfold pushSie
  dsimp only
  split <;> split <;>
    simp [andMask_clearMask,andMask_orMask,MSTATUS_SPP,MSTATUS_SPIE,MSTATUS_SIE,MSTATUS_FS]

theorem setMppS_fs (mstatus : Word x) :
    andMask (setMppS mstatus) MSTATUS_FS=andMask mstatus MSTATUS_FS := by
  simp [setMppS,andMask_clearMask,andMask_orMask,MSTATUS_MPP,MSTATUS_FS,PRV_S,MSTATUS_MPP_SHIFT]

theorem TrapRegs.setMpv_fs (r : TrapRegs x) (b : Bool) :
    andMask (r.setMpv b).mstatus MSTATUS_FS=andMask r.mstatus MSTATUS_FS := by
  cases x with
  | rv32 => rfl
  | rv64 =>
    cases b <;>
      simp [TrapRegs.setMpv,andMask_clearMask,andMask_orMask,MSTATUS_MPV,MSTATUS_FS]

/-- No redirection touches the FS field of the saved MSTATUS. -/
theorem redirect_fs :
    andMask (s.redirect env trap).regs.mstatus MSTATUS_FS=andMask s.regs.mstatus MSTATUS_FS := by
  unfold TrapState.redirect
  dsimp only
  split <;> split <;>
    simp [TrapState.toVsMode,TrapState.toSMode,TrapState.csrWrite,TrapState.updateHstatus,
      pushSie_fs,setMppS_fs,TrapRegs.setMpv_fs]

end Frame
end OpenSBI
