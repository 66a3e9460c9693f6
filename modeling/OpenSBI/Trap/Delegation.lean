import OpenSBI.Trap.StatusBits

namespace OpenSBI

variable {x : Xlen}

/-! ## What the hart does when it takes the trap itself -/

/-- The trap was taken with V=1. -/
def prevV (env : TrapEnv x) (r : TrapRegs x) : Bool := env.misaH && r.prevVirt

def PageFault (cause : Word x) : Prop :=
  cause.toNat=CAUSE_FETCH_PAGE_FAULT ∨ cause.toNat=CAUSE_LOAD_PAGE_FAULT ∨
    cause.toNat=CAUSE_STORE_PAGE_FAULT

instance (cause : Word x) : Decidable (PageFault cause) := inferInstanceAs (Decidable (_∨_))

/-- Execution goes on at BASE of the vector register. Its MODE is 0 or 1, and bit 0 of MEPC does not
exist. -/
def VectorsTo (tvec mepc : Word x) : Prop :=
  tvec.getLsbD 1=false → clearMask mepc 1=clearMask tvec 3

/-- SPP, SPIE and SIE on a trap from a mode. -/
structure Pushed (old new : Word x) (mode : Nat) : Prop where
  spp : new.getLsbD SSTATUS_SPP_SHIFT=decide (mode=PRV_S)
  spie : new.getLsbD SSTATUS_SPIE_SHIFT=old.getLsbD SSTATUS_SIE_SHIFT
  sie : new.getLsbD SSTATUS_SIE_SHIFT=false

/-- HSTATUS on a trap into HS-mode: SPV is the previous V, and SPVP changes when that was 1. -/
structure HstatusPushed (old new : Word x) (mode : Nat) (virt : Bool) : Prop where
  spv : new.getLsbD HSTATUS_SPV_SHIFT=virt
  spvp : new.getLsbD HSTATUS_SPVP_SHIFT=
    if virt then decide (mode=PRV_S) else old.getLsbD HSTATUS_SPVP_SHIFT
  others : SameBits old new [HSTATUS_SPV_SHIFT,HSTATUS_SPVP_SHIFT]

/-- The context a trap is taken to: the mode in MPP and MPV, and the status bits left alone. -/
structure Entered (s t : TrapState x) (virt : Bool) (fields : List Nat) : Prop where
  mpp : t.regs.prevMode=PRV_S
  mpv : t.regs.prevVirt=virt
  others : SameBits s.regs.mstatus t.regs.mstatus (fields++[11,12]++mpvBits x)
  othersH : SameBits s.regs.mstatusH t.regs.mstatusH (mpvhBits x)
  context : s.SameContext t

/-- The trap is taken into S-mode, HS-mode where the hypervisor extension is there. -/
structure TakenToS (env : TrapEnv x) (trap : TrapInfo x) (s t : TrapState x) : Prop where
  scause : t.csrs CSR_SCAUSE=trap.cause
  sepc : t.csrs CSR_SEPC=trap.epc
  stval : t.csrs CSR_STVAL=trap.tval
  pc : VectorsTo (s.csrs CSR_STVEC) t.regs.mepc
  status : Pushed s.regs.mstatus t.regs.mstatus s.regs.prevMode
  entered : Entered s t false [SSTATUS_SIE_SHIFT,SSTATUS_SPIE_SHIFT,SSTATUS_SPP_SHIFT]
  hstatus : env.misaH=true →
    HstatusPushed (s.csrs CSR_HSTATUS) (t.csrs CSR_HSTATUS) s.regs.prevMode s.regs.prevVirt
  guest : prevV env s.regs=true → t.csrs CSR_HTVAL=trap.tval2 ∧ t.csrs CSR_HTINST=trap.tinst
  csrs : ∀ n,n∉[CSR_SCAUSE,CSR_SEPC,CSR_STVAL] →
    (env.misaH=true → n∉[CSR_HSTATUS,CSR_HTVAL,CSR_HTINST]) → t.csrs n=s.csrs n

/-- The trap is taken into VS-mode. -/
structure TakenToVs (trap : TrapInfo x) (s t : TrapState x) : Prop where
  vscause : t.csrs CSR_VSCAUSE=trap.cause
  vsepc : t.csrs CSR_VSEPC=trap.epc
  vstval : t.csrs CSR_VSTVAL=trap.tval
  pc : VectorsTo (s.csrs CSR_VSTVEC) t.regs.mepc
  status : Pushed (s.csrs CSR_VSSTATUS) (t.csrs CSR_VSSTATUS) s.regs.prevMode
  vsstatus : SameBits (s.csrs CSR_VSSTATUS) (t.csrs CSR_VSSTATUS)
    [SSTATUS_SIE_SHIFT,SSTATUS_SPIE_SHIFT,SSTATUS_SPP_SHIFT]
  entered : Entered s t true []
  csrs : ∀ n,n∉[CSR_VSCAUSE,CSR_VSEPC,CSR_VSTVAL,CSR_VSSTATUS] → t.csrs n=s.csrs n

instance (r : TrapRegs x) : Decidable r.BelowM := inferInstanceAs (Decidable (_∨_))

/-- What is left of a redirection that is refused. -/
structure Refused (s t : TrapState x) : Prop where
  regs : t.regs=s.regs
  csrs : t.csrs=s.csrs
  context : s.SameContext t

/-- The outcome is the one the hart itself would have produced. -/
def Delegated (env : TrapEnv x) (trap : TrapInfo x) (s : TrapState x) (r : Int×TrapState x) : Prop :=
  if s.regs.BelowM then r.1=SBI_OK ∧
    if prevV env s.regs=true ∧ PageFault trap.cause then TakenToVs trap s r.2
    else TakenToS env trap s r.2
  else r.1=SBI_ENOTSUPP ∧ Refused s r.2

/-- The one bit the code misses: a trap from S- or U-mode finds SPV set by an earlier one. -/
def StaleSpv (env : TrapEnv x) (s : TrapState x) : Prop :=
  s.regs.BelowM ∧ env.misaH=true ∧ s.regs.prevVirt=false ∧
    (s.csrs CSR_HSTATUS).getLsbD HSTATUS_SPV_SHIFT=true

section Redirect

variable {env : TrapEnv x} {trap : TrapInfo x} {s : TrapState x}

theorem vsCause_iff (cause : Word x) : vsCause cause=true ↔ PageFault cause := by
  have hc : ∀ n,n<32 → (cause==BitVec.ofNat x.bits n)=decide (cause.toNat=n) := by
    intro n hn
    rw [Bool.eq_iff_iff,beq_iff_eq,decide_eq_true_iff,← BitVec.toNat_inj,
      toNat_ofNat_lt (hn.trans (by decide))]
  simp only [vsCause,PageFault,Bool.or_eq_true,or_assoc,hc _ (show CAUSE_FETCH_PAGE_FAULT<32 by decide),
    hc _ (show CAUSE_LOAD_PAGE_FAULT<32 by decide),hc _ (show CAUSE_STORE_PAGE_FAULT<32 by decide),
    decide_eq_true_iff]

theorem nextVirt_iff : nextVirt env trap s.regs=true ↔
    prevV env s.regs=true ∧ PageFault trap.cause := by
  rw [nextVirt,prevV,Bool.and_eq_true,vsCause_iff]

theorem vectorsTo_self (tvec : Word x) : VectorsTo tvec tvec := by
  intro h1
  apply BitVec.eq_of_getLsbD_eq
  intro i _
  have h3 : (3 : Nat)=2^2-1 := rfl
  have h0 : (1 : Nat)=2^0 := rfl
  rw [getLsbD_clearMask,getLsbD_clearMask,h3,Nat.testBit_two_pow_sub_one,h0,Nat.testBit_two_pow]
  by_cases i0 : i=0
  · simp [i0]
  · by_cases i1 : i=1
    · simp [i1,h1]
    · simp [Ne.symm i0,show ¬i<2 by omega]

/-- MPV is read from one bit of MSTATUS and from MSTATUSH. -/
theorem TrapRegs.prevVirt_congr {r r' : TrapRegs x} (hh : r'.mstatusH=r.mstatusH)
    (h39 : r'.mstatus.getLsbD 39=r.mstatus.getLsbD 39) : r'.prevVirt=r.prevVirt := by
  cases x with
  | rv32 => rw [prevVirt_rv32,prevVirt_rv32,hh]
  | rv64 => rw [prevVirt_rv64,prevVirt_rv64,h39]

/-- A field that lies below MPV. -/
theorem setMpv_getLsbD (r : TrapRegs x) (next : Bool) {i : Nat} (hi : i<39) :
    (r.setMpv next).mstatus.getLsbD i=r.mstatus.getLsbD i := by
  apply (setMpv_sameBits r next).1
  cases x with
  | rv32 => simp [mpvBits]
  | rv64 => simp [mpvBits]; omega

/-- MPP and MPV of a frame that is entered through the `mstatus` word `m`. -/
theorem entered_of {t : TrapState x} {next : Bool} {fields : List Nat} (hf : ∀ i∈fields,i<11)
    (hh : t.regs.mstatusH=(s.regs.setMpv next).mstatusH)
    (hm : ∀ i,i∉fields → t.regs.mstatus.getLsbD i=
      (setMppS (s.regs.setMpv next).mstatus).getLsbD i)
    (hc : s.SameContext t) : Entered s t next fields := by
  have hout : ∀ i,11 ≤ i → i∉fields := fun i hi hmem => absurd (hf i hmem) (by omega)
  obtain ⟨hb,hbh,hv⟩ := setMpv_sameBits s.regs next
  refine ⟨?_,?_,fun i hi => ?_,fun i hi => ?_,hc⟩
  · rw [TrapRegs.prevMode_eq,hm 11 (hout 11 (by decide)),hm 12 (hout 12 (by decide)),
      getLsbD_setMppS,getLsbD_setMppS]
    rfl
  · rw [← hv]
    refine TrapRegs.prevVirt_congr hh ?_
    rw [hm 39 (hout 39 (by decide)),getLsbD_setMppS]
    rfl
  · simp only [List.mem_append,not_or,List.mem_cons,List.not_mem_nil,not_false_eq_true,and_true] at hi
    rw [hm i hi.1.1,getLsbD_setMppS,if_neg hi.1.2.1,if_neg hi.1.2.2,hb i hi.2]
  · rw [hh,hbh i hi]

/-- A trap kept in VS-mode. -/
theorem redirect_takenToVs (h : nextVirt env trap s.regs=true) :
    TakenToVs trap s (s.redirect env trap) := by
  have hcsrs : (s.redirect env trap).csrs=Function.update (Function.update (Function.update
      (Function.update s.csrs CSR_VSTVAL trap.tval) CSR_VSEPC trap.epc) CSR_VSCAUSE trap.cause)
      CSR_VSSTATUS (pushSie (s.csrs CSR_VSSTATUS) s.regs.prevMode) := by
    simp [TrapState.redirect,h,TrapState.toVsMode,TrapState.csrWrite,CSR_VSTVAL,CSR_VSEPC,CSR_VSCAUSE,
      CSR_VSSTATUS]
  have hregs : (s.redirect env trap).regs={ s.regs.setMpv true with
      mepc := s.csrs CSR_VSTVEC,mstatus := setMppS (s.regs.setMpv true).mstatus } := by
    simp [TrapState.redirect,h,TrapState.toVsMode,TrapState.csrWrite,CSR_VSTVAL,CSR_VSEPC,CSR_VSCAUSE,
      CSR_VSTVEC]
  have hstatus : (s.redirect env trap).csrs CSR_VSSTATUS=
      pushSie (s.csrs CSR_VSSTATUS) s.regs.prevMode := by
    rw [hcsrs,Function.update_self]
  refine ⟨?_,?_,?_,?_,⟨?_,?_,?_⟩,fun i hi => ?_,?_,fun n hn => ?_⟩
  · simp [hcsrs,CSR_VSCAUSE,CSR_VSSTATUS]
  · simp [hcsrs,CSR_VSEPC,CSR_VSCAUSE,CSR_VSSTATUS]
  · simp [hcsrs,CSR_VSTVAL,CSR_VSEPC,CSR_VSCAUSE,CSR_VSSTATUS]
  · rw [hregs]
    exact vectorsTo_self _
  · rw [hstatus,getLsbD_pushSie,if_pos rfl]
  · rw [hstatus,getLsbD_pushSie]
    rfl
  · rw [hstatus,getLsbD_pushSie]
    rfl
  · simp only [List.mem_cons,List.not_mem_nil,or_false,not_or] at hi
    rw [hstatus,getLsbD_pushSie,if_neg hi.2.2,if_neg hi.2.1,if_neg hi.1]
  · refine entered_of (by simp) ?_ (fun i _ => ?_) (redirect_sameContext env trap s)
    · rw [hregs]
    · rw [hregs]
  · simp only [List.mem_cons,List.not_mem_nil,or_false,not_or] at hn
    rw [hcsrs,Function.update_of_ne hn.2.2.2,Function.update_of_ne hn.1,Function.update_of_ne hn.2.1,
      Function.update_of_ne hn.2.2.1]

/-- What a redirection into S-mode leaves in the frame. -/
theorem redirect_regs (h : nextVirt env trap s.regs=false) :
    (s.redirect env trap).regs={ s.regs.setMpv false with
      mepc := s.csrs CSR_STVEC
      mstatus := pushSie (setMppS (s.regs.setMpv false).mstatus) s.regs.prevMode } := by
  simp only [TrapState.redirect,h,Bool.false_eq_true,if_false,Bool.not_false,Bool.and_true]
  split <;> simp [TrapState.toSMode,TrapState.csrWrite,TrapState.updateHstatus,CSR_STVAL,CSR_SEPC,
    CSR_SCAUSE,CSR_STVEC,CSR_HSTATUS,CSR_HTVAL,CSR_HTINST]

/-- And in the registers, with those of the hypervisor behind `prev_virt`. -/
theorem redirect_csrs (h : nextVirt env trap s.regs=false) :
    (s.redirect env trap).csrs=Function.update (Function.update (Function.update
      (if prevV env s.regs=true then
        Function.update (Function.update (Function.update s.csrs CSR_HSTATUS
          (hstatusOf (s.csrs CSR_HSTATUS) s.regs.prevMode s.regs.prevVirt))
          CSR_HTVAL trap.tval2) CSR_HTINST trap.tinst
      else s.csrs) CSR_STVAL trap.tval) CSR_SEPC trap.epc) CSR_SCAUSE trap.cause := by
  have hd : (env.misaH && s.regs.prevVirt)=prevV env s.regs := rfl
  simp only [TrapState.redirect,h,hd,Bool.false_eq_true,if_false,Bool.not_false,Bool.and_true]
  cases prevV env s.regs <;> rfl

theorem redirect_csrs_of_ne (h : nextVirt env trap s.regs=false) {n : Nat}
    (hn : n∉[CSR_SCAUSE,CSR_SEPC,CSR_STVAL])
    (hh : env.misaH=true → n∉[CSR_HSTATUS,CSR_HTVAL,CSR_HTINST]) :
    (s.redirect env trap).csrs n=s.csrs n := by
  simp only [List.mem_cons,List.not_mem_nil,or_false,not_or] at hn hh
  rw [redirect_csrs h,Function.update_of_ne hn.1,Function.update_of_ne hn.2.1,
    Function.update_of_ne hn.2.2]
  split
  next hv =>
    have hne := hh ((Bool.and_eq_true _ _).mp hv).1
    rw [Function.update_of_ne hne.2.2,Function.update_of_ne hne.2.1,Function.update_of_ne hne.1]
  next => rfl

theorem redirect_hstatus (h : nextVirt env trap s.regs=false) :
    (s.redirect env trap).csrs CSR_HSTATUS=
      if prevV env s.regs=true then hstatusOf (s.csrs CSR_HSTATUS) s.regs.prevMode s.regs.prevVirt
      else s.csrs CSR_HSTATUS := by
  rw [redirect_csrs h]
  split <;> simp [CSR_HSTATUS,CSR_HTVAL,CSR_HTINST,CSR_SCAUSE,CSR_SEPC,CSR_STVAL]

/-- From a guest HSTATUS is right; from S- or U-mode SPV keeps what it was. -/
theorem hstatusPushed_iff (h : nextVirt env trap s.regs=false) (hm : env.misaH=true) :
    HstatusPushed (s.csrs CSR_HSTATUS) ((s.redirect env trap).csrs CSR_HSTATUS)
      s.regs.prevMode s.regs.prevVirt ↔
    (s.regs.prevVirt=false → (s.csrs CSR_HSTATUS).getLsbD HSTATUS_SPV_SHIFT=false) := by
  rw [redirect_hstatus h,prevV,hm,Bool.true_and]
  cases hv : s.regs.prevVirt with
  | false =>
    refine ⟨fun hp _ => hp.spv,fun hs => ⟨hs rfl,rfl,fun i _ => rfl⟩⟩
  | true =>
    refine ⟨fun _ hf => absurd hf (by simp),fun _ => ⟨?_,?_,fun i hi => ?_⟩⟩
    · rw [if_pos rfl,getLsbD_hstatusOf,if_pos rfl]
    · rw [if_pos rfl,getLsbD_hstatusOf]
      rfl
    · simp only [List.mem_cons,List.not_mem_nil,or_false,not_or] at hi
      rw [if_pos rfl,getLsbD_hstatusOf,if_neg hi.1,if_neg hi.2]

/-- A trap taken to S-mode is right up to HSTATUS. -/
theorem redirect_takenToS (h : nextVirt env trap s.regs=false)
    (hh : env.misaH=true → HstatusPushed (s.csrs CSR_HSTATUS)
      ((s.redirect env trap).csrs CSR_HSTATUS) s.regs.prevMode s.regs.prevVirt) :
    TakenToS env trap s (s.redirect env trap) := by
  have hcsrs := redirect_csrs h
  have hregs := redirect_regs h
  obtain ⟨-,hepc,hcause,htval⟩ := redirect_toSMode env trap s h
  have hbit : ∀ i,(s.redirect env trap).regs.mstatus.getLsbD i=
      (pushSie (setMppS (s.regs.setMpv false).mstatus) s.regs.prevMode).getLsbD i := by
    intro i
    rw [hregs]
  refine ⟨hcause,hepc,htval,?_,⟨?_,?_,?_⟩,?_,hh,fun hv => ?_,
    fun n hn hne => redirect_csrs_of_ne h hn hne⟩
  · rw [hregs]
    exact vectorsTo_self _
  · rw [hbit,getLsbD_pushSie,if_pos rfl]
  · have hsie : (setMppS (s.regs.setMpv false).mstatus).getLsbD SSTATUS_SIE_SHIFT=
        s.regs.mstatus.getLsbD SSTATUS_SIE_SHIFT := by
      rw [getLsbD_setMppS]
      exact setMpv_getLsbD s.regs false (by decide)
    rw [hbit,getLsbD_pushSie]
    exact hsie
  · rw [hbit,getLsbD_pushSie]
    rfl
  · refine entered_of (by decide) ?_ (fun i hi => ?_) (redirect_sameContext env trap s)
    · rw [hregs]
    · simp only [List.mem_cons,List.not_mem_nil,or_false,not_or] at hi
      rw [hbit,getLsbD_pushSie,if_neg hi.2.2,if_neg hi.2.1,if_neg hi.1]
  · rw [hcsrs,if_pos hv]
    simp [CSR_HTVAL,CSR_HTINST,CSR_SCAUSE,CSR_SEPC,CSR_STVAL]

/-- `sbi_trap_redirect()` does what the hart would have done, but for SPV on a trap from S- or U-mode
that finds it set. -/
theorem sbiTrapRedirect_delegates_iff (env : TrapEnv x) (trap : TrapInfo x) (s : TrapState x) :
    Delegated env trap s (sbiTrapRedirect env trap s) ↔ ¬StaleSpv env s := by
  unfold Delegated
  by_cases hb : s.regs.BelowM
  · rw [if_pos hb,sbiTrapRedirect_belowM hb]
    simp only [true_and]
    cases hn : nextVirt env trap s.regs with
    | true =>
      rw [if_pos (nextVirt_iff.mp hn)]
      have hv : prevV env s.regs=true := (nextVirt_iff.mp hn).1
      refine ⟨fun _ hs => ?_,fun _ => redirect_takenToVs hn⟩
      rw [prevV,hs.2.2.1,Bool.and_false] at hv
      exact absurd hv (by simp)
    | false =>
      rw [if_neg (fun hc => by rw [nextVirt_iff.mpr hc] at hn; cases hn)]
      constructor
      · intro ht hs
        have hspv := (hstatusPushed_iff hn hs.2.1).mp (ht.hstatus hs.2.1) hs.2.2.1
        rw [hs.2.2.2] at hspv
        cases hspv
      · intro hs
        refine redirect_takenToS hn fun hm => (hstatusPushed_iff hn hm).mpr fun hv => ?_
        by_contra hspv
        exact hs ⟨hb,hm,hv,by simpa using hspv⟩
  · have hr : sbiTrapRedirect env trap s=(SBI_ENOTSUPP,{ s with redirects := s.redirects++[trap] }) := by
      rw [sbiTrapRedirect,if_pos]
      rw [TrapRegs.BelowM,not_or] at hb
      exact hb
    rw [if_neg hb,hr]
    exact ⟨fun _ hs => hb hs.1,fun _ => ⟨rfl,rfl,rfl,⟨rfl,rfl,rfl,rfl,rfl⟩⟩⟩

/-- An `ecall` from U-mode on a hart whose last trap into HS-mode came from a guest. -/
theorem staleSpv_kept : ¬Delegated { TrapEnv.quiet .rv64 with misaH := true } ⟨0,8,0,0,0⟩
    { TrapState.idle 0 (fun _ => 0) with csrs := fun n => if n=CSR_HSTATUS then 0x80 else 0 }
    (sbiTrapRedirect { TrapEnv.quiet .rv64 with misaH := true } ⟨0,8,0,0,0⟩
      { TrapState.idle 0 (fun _ => 0) with csrs := fun n => if n=CSR_HSTATUS then 0x80 else 0 }) := by
  intro h
  have hs := (h.2).hstatus rfl
  exact absurd hs.spv (by decide)

end Redirect
end OpenSBI
