import OpenSBI.Fp.Encoding
import OpenSBI.Trap.EmulateCsr

namespace OpenSBI

variable {x : Xlen}

/-- What carrying an instruction out leaves alone: the pc, the mode and every CSR but the FS field of
MSTATUS, and no trap is handed on. -/
structure TrapState.SameMode (s t : TrapState x) : Prop where
  redirects : t.redirects=s.redirects
  mepc : t.regs.mepc=s.regs.mepc
  mstatus : t.regs.mstatus=s.regs.mstatus
  mstatusH : t.regs.mstatusH=s.regs.mstatusH
  csrs : ∀ n,n≠CSR_MSTATUS → t.csrs n=s.csrs n
  live : clearMask (t.csrs CSR_MSTATUS) MSTATUS_FS=clearMask (s.csrs CSR_MSTATUS) MSTATUS_FS

section Frame

variable {s t u : TrapState x}

theorem TrapState.SameMode.refl (s : TrapState x) : s.SameMode s :=
  ⟨rfl,rfl,rfl,rfl,fun _ _ => rfl,rfl⟩

theorem TrapState.SameMode.trans (h : s.SameMode t) (k : t.SameMode u) : s.SameMode u :=
  ⟨k.redirects.trans h.redirects,k.mepc.trans h.mepc,k.mstatus.trans h.mstatus,
    k.mstatusH.trans h.mstatusH,fun n hn => (k.csrs n hn).trans (h.csrs n hn),k.live.trans h.live⟩

theorem clearMask_orMask (a : Word x) (m : Nat) : clearMask (orMask a m) m=clearMask a m := by
  apply BitVec.eq_of_getLsbD_eq
  intro i hi
  simp only [clearMask,orMask,BitVec.getLsbD_and,BitVec.getLsbD_or,BitVec.getLsbD_not,hi]
  cases (BitVec.ofNat x.bits m).getLsbD i <;> simp

theorem setFsDirty_sameMode (s : TrapState x) : s.SameMode s.setFsDirty := by
  refine ⟨rfl,rfl,rfl,rfl,fun n hn => Function.update_of_ne hn _ _,?_⟩
  have hu : s.setFsDirty.csrs CSR_MSTATUS=orMask (s.csrs CSR_MSTATUS) MSTATUS_FS := by
    simp [TrapState.setFsDirty,TrapState.csrWrite]
  rw [hu,clearMask_orMask]

theorem setTp_sameMode (s : TrapState x) (tp : Word x) : s.SameMode (s.setTp tp) :=
  ⟨rfl,rfl,rfl,rfl,fun _ _ => rfl,rfl⟩

theorem setReg_sameMode (s : TrapState x) (r : Fin 32) (v : Word x) : s.SameMode (s.setReg r v) :=
  ⟨rfl,rfl,rfl,rfl,fun _ _ => rfl,rfl⟩

theorem setF64Reg_sameMode (s : TrapState x) (r : Fin 32) (v : BitVec 64) : s.SameMode (s.setF64Reg r v) :=
  ⟨rfl,rfl,rfl,rfl,fun _ _ => rfl,rfl⟩

theorem setF_sameMode (s : TrapState x) (rd : Fin 32) (f : Fmt) (r : BitVec f.width×Flags) :
    s.SameMode (s.setF rd f r) := by
  cases f <;>
    exact (setTp_sameMode s _).trans ((setF64Reg_sameMode _ _ _).trans (setFsDirty_sameMode _))

theorem setInt_sameMode (s : TrapState x) (rd : Fin 32) (r : Word x×Flags) :
    s.SameMode (s.setInt rd r) :=
  (setTp_sameMode s _).trans ((setFsDirty_sameMode _).trans (setReg_sameMode _ _ _))

theorem perform_sameMode (i : FpInsn) (sf : Softfloat) (rm : BitVec 32) (s : TrapState x) :
    s.SameMode (i.perform sf rm s) := by
  unfold FpInsn.perform
  dsimp only
  cases i.op with
  | float op => exact setF_sameMode _ _ _ _
  | cvtFF => exact setF_sameMode _ _ _ _
  | cvtIF kind => exact setInt_sameMode _ _ _
  | cvtFI kind =>
    dsimp only
    split
    · exact .refl s
    · exact setF_sameMode _ _ _ _
  | cmp k => exact setInt_sameMode _ _ _
  | mvIF => exact setInt_sameMode _ _ _
  | classify => exact setInt_sameMode _ _ _
  | mvFI => exact setF_sameMode _ _ _ _

theorem setFcsr_sameMode (s : TrapState x) (v : Nat) : s.SameMode (s.setFcsr v) :=
  (setTp_sameMode s _).trans (setFsDirty_sameMode _)

theorem sbiEmulateCsrWrite_sameMode {env : TrapEnv x} {num : Nat} {val : Word x}
    (h : sbiEmulateCsrWrite env s num val=some t) : s.SameMode t := by
  unfold sbiEmulateCsrWrite at h
  dsimp only at h
  repeat' split at h
  all_goals cases h
  · exact ⟨rfl,rfl,rfl,rfl,fun _ _ => rfl,rfl⟩
  · exact ⟨rfl,rfl,rfl,rfl,fun _ _ => rfl,rfl⟩
  · exact setFcsr_sameMode _ _
  · exact setFcsr_sameMode _ _
  · exact setFcsr_sameMode _ _

end Frame
end OpenSBI
