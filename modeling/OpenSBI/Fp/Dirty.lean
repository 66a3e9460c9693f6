import OpenSBI.Fp.Precise

namespace OpenSBI

variable {x : Xlen}

/-- The FS field of the saved MSTATUS says Dirty. -/
def TrapState.FsDirty (s : TrapState x) : Prop :=
  andMask s.regs.mstatus MSTATUS_FS=BitVec.ofNat x.bits MSTATUS_FS

/-- `TRAP_RESTORE_MEPC_MSTATUS`: the saved values go back, over what is in the live CSRs. -/
def restoreCsrs (s : TrapState x) : Csrs x :=
  Function.update (Function.update s.csrs CSR_MEPC s.regs.mepc) CSR_MSTATUS s.regs.mstatus

/-- The exit path stores the low half of `tp` in the slot of x0 (`sw`), and the next entry loads it
from there (`lw`). -/
def saveFcsr (tp : Word x) : BitVec 32 := toU32 tp
def loadFcsr (slot : BitVec 32) : Word x := slot.signExtend x.bits

/-- What the interrupted context and the next emulated instruction find after the trap: FS is Dirty in
the restored MSTATUS, and fcsr is the one the handler left. -/
def DirtySurvives (t : TrapState x) : Prop :=
  andMask (restoreCsrs t CSR_MSTATUS) MSTATUS_FS=BitVec.ofNat x.bits MSTATUS_FS ∧
    (t.setTp (loadFcsr (saveFcsr t.tp))).getFcsr=t.getFcsr

/-- The saved FS field is the same. -/
def SameFs (s t : TrapState x) : Prop :=
  andMask t.regs.mstatus MSTATUS_FS=andMask s.regs.mstatus MSTATUS_FS

theorem loadFcsr_saveFcsr (tp : Word x) : (loadFcsr (saveFcsr tp) : Word x).toNat%2^8=tp.toNat%2^8 := by
  apply Nat.eq_of_testBit_eq
  intro i
  rw [Nat.testBit_mod_two_pow,Nat.testBit_mod_two_pow]
  by_cases hi : i<8
  · have hb := x.bits_ge
    have hg : (loadFcsr (saveFcsr tp) : Word x).getLsbD i=tp.getLsbD i := by
      rw [loadFcsr,saveFcsr,toU32,BitVec.getLsbD_signExtend,BitVec.getLsbD_setWidth]
      simp [show i<x.bits by omega,show i<32 by omega]
    simpa [hi,BitVec.getLsbD] using hg
  · simp [hi]

theorem dirtySurvives_iff (t : TrapState x) : DirtySurvives t ↔ t.FsDirty := by
  have hm : restoreCsrs t CSR_MSTATUS=t.regs.mstatus := by simp [restoreCsrs]
  rw [DirtySurvives,hm]
  exact ⟨fun h => h.1,fun h => ⟨h,loadFcsr_saveFcsr t.tp⟩⟩

section SameFs

variable {sf : Softfloat} {env : TrapEnv x} {s : TrapState x}

theorem sbiTrapRedirect_sameFs (trap : TrapInfo x) : SameFs s (sbiTrapRedirect env trap s).2 := by
  unfold sbiTrapRedirect
  split
  · rfl
  · exact redirect_fs env trap s

theorem SameFs.of_regs {t u : TrapState x} (h : SameFs t u) (hr : t.regs=s.regs) : SameFs s u := by
  rw [SameFs,h,hr]

theorem sbiStore_regs (n : Nat) (addr : Word x) (val : Nat) : (sbiStore env n addr val s).1.regs=s.regs := by
  unfold sbiStore
  split <;> rfl

theorem sbiStoreU64_regs (addr : Word x) (val : BitVec 64) :
    (sbiStoreU64 env addr val s).1.regs=s.regs := by
  cases x with
  | rv64 => exact sbiStore_regs 8 addr val.toNat
  | rv32 =>
    rw [sbiStoreU64]
    split
    · exact sbiStore_regs 4 addr _
    · exact (sbiStore_regs 4 (addr+4) _).trans (sbiStore_regs 4 addr _)

theorem storeLoop_regs (addr : Word x) (val n : Nat) : (storeLoop env addr val n s).1.regs=s.regs := by
  induction n generalizing addr val s with
  | zero => rfl
  | succ n ih =>
    rw [storeLoop]
    split
    · exact sbiStore_regs 1 addr _
    · exact (ih _ _).trans (sbiStore_regs 1 addr _)

theorem redirectFault_sameFs (f : Fault x) : SameFs s (redirectFault env f s).2 :=
  sbiTrapRedirect_sameFs _

theorem trulyIllegalInsn_sameFs (insn : Word x) : SameFs s (trulyIllegalInsn env insn s).2 :=
  sbiTrapRedirect_sameFs _

theorem loadCommit_mstatus (p : LoadPlan x) (v : Nat) :
    (loadCommit p v s).regs.mstatus=s.regs.mstatus := by
  unfold loadCommit
  split
  · rfl
  · split <;> rfl

theorem sbiMisalignedLoadHandler_sameFs (addr tval2 tinst : Word x) :
    SameFs s (sbiMisalignedLoadHandler env addr tval2 tinst s).2 := by
  unfold sbiMisalignedLoadHandler
  split
  · exact redirectFault_sameFs _
  · split
    · exact sbiTrapRedirect_sameFs _
    · split
      · exact redirectFault_sameFs _
      · exact congrArg (andMask · MSTATUS_FS) (loadCommit_mstatus _ _)

theorem sbiMisalignedStoreHandler_sameFs (addr tval2 tinst : Word x) :
    SameFs s (sbiMisalignedStoreHandler env addr tval2 tinst s).2 := by
  unfold sbiMisalignedStoreHandler
  split
  · exact redirectFault_sameFs _
  · split
    · exact sbiTrapRedirect_sameFs _
    · dsimp only
      split
      · exact (redirectFault_sameFs _).of_regs (storeLoop_regs _ _ _)
      · show andMask (storeLoop env _ _ _ s).1.regs.mstatus MSTATUS_FS=_
        rw [storeLoop_regs]

theorem TrapState.SameMode.sameFs {t : TrapState x} (h : s.SameMode t) : SameFs s t :=
  congrArg (andMask · MSTATUS_FS) h.mstatus

theorem finishStore_sameFs {r : TrapState x×Option (Fault x)} (len : Nat) (h : r.1.regs=s.regs) :
    SameFs s (finishStore env r len).2 := by
  unfold finishStore
  split
  · exact (redirectFault_sameFs _).of_regs h
  · exact congrArg (fun r => andMask r.mstatus MSTATUS_FS) h

theorem finishRvc_sameFs {t : TrapState x} (fault : Option (Fault x)) (h : t.regs=s.regs) :
    SameFs s (finishRvc env fault t).2 :=
  finishStore_sameFs 2 (r := (t,fault)) h

theorem floatLoadOpcodeInsn_sameFs (insn : Word x) : SameFs s (floatLoadOpcodeInsn env insn s).2 := by
  unfold floatLoadOpcodeInsn
  dsimp only
  repeat' split
  · exact trulyIllegalInsn_sameFs insn
  · exact sbiMisalignedLoadHandler_sameFs (s := s.csrWrite CSR_MTVAL _) _ _ _
  · rfl
  · exact sbiMisalignedLoadHandler_sameFs (s := s.csrWrite CSR_MTVAL _) _ _ _
  · rfl
  · exact trulyIllegalInsn_sameFs insn

theorem floatStoreOpcodeInsn_sameFs (insn : Word x) : SameFs s (floatStoreOpcodeInsn env insn s).2 := by
  unfold floatStoreOpcodeInsn
  dsimp only
  repeat' split
  · exact trulyIllegalInsn_sameFs insn
  · exact sbiMisalignedStoreHandler_sameFs (s := s.csrWrite CSR_MTVAL _) _ _ _
  · exact finishStore_sameFs 4 (sbiStore_regs 4 _ _)
  · exact sbiMisalignedStoreHandler_sameFs (s := s.csrWrite CSR_MTVAL _) _ _ _
  · exact finishStore_sameFs 4 (sbiStoreU64_regs _ _)
  · exact trulyIllegalInsn_sameFs insn

theorem rvcLoad64_sameFs (addr tval2 tinst : Word x) (rd : Fin 32) :
    SameFs s (rvcLoad64 env addr tval2 tinst rd s).2 := by
  unfold rvcLoad64
  split
  · exact sbiMisalignedLoadHandler_sameFs _ _ _
  · exact finishRvc_sameFs _ rfl

theorem rvcLoad32_sameFs (addr tval2 tinst : Word x) (rd : Fin 32) :
    SameFs s (rvcLoad32 env addr tval2 tinst rd s).2 := by
  unfold rvcLoad32
  split
  · exact sbiMisalignedLoadHandler_sameFs _ _ _
  · exact finishRvc_sameFs _ rfl

theorem rvcStore64_sameFs (addr tval2 tinst : Word x) (rs2 : Fin 32) :
    SameFs s (rvcStore64 env addr tval2 tinst rs2 s).2 := by
  unfold rvcStore64
  split
  · exact sbiMisalignedStoreHandler_sameFs _ _ _
  · exact finishRvc_sameFs _ (sbiStoreU64_regs _ _)

theorem rvcStore32_sameFs (addr tval2 tinst : Word x) (rs2 : Fin 32) :
    SameFs s (rvcStore32 env addr tval2 tinst rs2 s).2 := by
  unfold rvcStore32
  split
  · exact sbiMisalignedStoreHandler_sameFs _ _ _
  · exact finishRvc_sameFs _ (sbiStore_regs 4 _ _)

theorem emulateRvc_sameFs (insn tval2 tinst : Word x) :
    SameFs s (emulateRvc env insn tval2 tinst s).2 := by
  apply emulateRvc_rule (P := fun r => SameFs s r.2) rfl
  · exact trulyIllegalInsn_sameFs insn
  · exact trulyIllegalInsn_sameFs (s := s.csrWrite CSR_MEPC _) insn
  · intro _ addr
    exact rvcLoad64_sameFs (s := s.csrWrite CSR_MEPC _) _ _ _ _
  · intro _ addr
    exact rvcLoad64_sameFs (s := s.csrWrite CSR_MEPC _) _ _ _ _
  · intro addr rs2
    exact rvcStore64_sameFs (s := s.csrWrite CSR_MEPC _) _ _ _ _
  · intro addr rd
    exact rvcLoad32_sameFs (s := s.csrWrite CSR_MEPC _) _ _ _ _
  · intro addr rs2
    exact rvcStore32_sameFs (s := s.csrWrite CSR_MEPC _) _ _ _ _

theorem arithOutcome_sameFs (word : Word x) (rm : Nat) :
    SameFs s (arithOutcome sf env word rm s).2 := by
  unfold arithOutcome
  cases servedInsn word with
  | some i => exact (perform_sameMode i sf (BitVec.ofNat 32 rm) s).sameFs
  | none =>
    dsimp only
    split <;> exact trulyIllegalInsn_sameFs word

theorem arithWord_sameFs {word : Word x} (he : env.fpEmulation=true) (ha : ArithWord word) :
    SameFs s (illegalInsnTable sf env (rvX word 2 5) word s).2 := by
  obtain ⟨tp,-,⟨-,ho⟩ | ⟨-,ho⟩⟩ := illegalInsnTable_arith sf he ha s
  · rw [ho]
    exact trulyIllegalInsn_sameFs (s := s.setTp tp) word
  · rw [ho]
    exact arithOutcome_sameFs (s := s.setTp tp) word _

theorem systemOpcodeInsn_sameFs (word : Word x) : SameFs s (systemOpcodeInsn env s word).2 := by
  unfold systemOpcodeInsn
  dsimp only
  split
  · exact trulyIllegalInsn_sameFs word
  · split
    · exact trulyIllegalInsn_sameFs word
    · split
      · exact trulyIllegalInsn_sameFs word
      · rename_i t ht
        have hm : s.SameMode t := by
          split at ht
          · exact sbiEmulateCsrWrite_sameMode ht
          · cases ht
            exact .refl s
        exact hm.sameFs

theorem illegalInsnTable_sameFs {word : Word x} (he : env.softFp=true) (hq : rvX word 0 2=3) :
    SameFs s (illegalInsnTable sf env (rvX word 2 5) word s).2 := by
  have hf : env.fpEmulation=true := by
    rw [TrapEnv.softFp] at he
    exact (Bool.and_eq_true_iff.mp he).2
  by_cases ha : 16 ≤ rvX word 2 5 ∧ rvX word 2 5 ≤ 20
  · exact arithWord_sameFs hf (arithWord_of_index hq ha.1 ha.2)
  · generalize rvX word 2 5=i at ha
    unfold illegalInsnTable
    split
    · rw [if_pos he]
      exact floatLoadOpcodeInsn_sameFs word
    · rw [if_pos he]
      exact floatStoreOpcodeInsn_sameFs word
    all_goals first
      | omega
      | exact systemOpcodeInsn_sameFs word
      | exact trulyIllegalInsn_sameFs word

/-- No path of the illegal-instruction handler touches the saved FS field. -/
theorem sbiIllegalInsnHandler_sameFs (he : env.softFp=true) (mtval tval2 tinst : Word x) :
    SameFs s (sbiIllegalInsnHandler sf env mtval tval2 tinst s).2 := by
  unfold sbiIllegalInsnHandler
  dsimp only
  split
  · split
    · exact redirectFault_sameFs _
    · split
      · exact emulateRvc_sameFs _ _ _
      · rename_i h
        exact illegalInsnTable_sameFs he ((andMask_quadrant _).mp (not_not.mp h))
  · rename_i h
    exact illegalInsnTable_sameFs he ((andMask_quadrant _).mp (not_not.mp h))

end SameFs

/-- The traps whose handler can change FP state. -/
inductive FpTrap (x : Xlen) where
  | illegal (mtval tval2 tinst : Word x)
  | misalignedLoad (addr tval2 tinst : Word x)

def FpTrap.handle (sf : Softfloat) (env : TrapEnv x) (s : TrapState x) : FpTrap x → TrapState x
  | .illegal mtval tval2 tinst => (sbiIllegalInsnHandler sf env mtval tval2 tinst s).2
  | .misalignedLoad addr tval2 tinst => (sbiMisalignedLoadHandler env addr tval2 tinst s).2

/-- Whatever FP register or fcsr bit an emulation changes, the change survives the trap exactly when
the saved FS field was Dirty on entry. -/
theorem fpState_survives (sf : Softfloat) (env : TrapEnv x) (he : env.softFp=true) (s : TrapState x)
    (trap : FpTrap x) : DirtySurvives (trap.handle sf env s) ↔ s.FsDirty := by
  have hs : SameFs s (trap.handle sf env s) := by
    cases trap with
    | illegal mtval tval2 tinst => exact sbiIllegalInsnHandler_sameFs he mtval tval2 tinst
    | misalignedLoad addr tval2 tinst => exact sbiMisalignedLoadHandler_sameFs addr tval2 tinst
  rw [dirtySurvives_iff,TrapState.FsDirty,hs]
  rfl

/-- Five in x1, under a saved `mstatus`. -/
def fiveInX1 (mstatus : Word .rv64) : TrapState .rv64 :=
  (TrapState.idle mstatus fun _ => 0).setReg (regOf 1) 5

/-- `fmv.d.x f1, x1` with FS Dirty. -/
theorem fmv_survives :
    DirtySurvives ((FpTrap.illegal 0xf20080d3 0 0).handle .zeros (.quiet .rv64) (fiveInX1 0x6000)) :=
  (fpState_survives .zeros (.quiet .rv64) rfl (fiveInX1 0x6000) (.illegal 0xf20080d3 0 0)).mpr
    (by unfold TrapState.FsDirty; decide)

/-- The same with FS Initial: f1 is written, and the restored FS is Initial still. -/
theorem fmv_lost :
    let t := (FpTrap.illegal 0xf20080d3 0 0).handle .zeros (.quiet .rv64) (fiveInX1 0x2000)
    t.fpr 1=5 ∧ (fiveInX1 0x2000).fpr 1=0 ∧ ¬DirtySurvives t := by
  refine ⟨by decide,by decide,?_⟩
  rw [dirtySurvives_iff]
  unfold TrapState.FsDirty
  decide

end OpenSBI
