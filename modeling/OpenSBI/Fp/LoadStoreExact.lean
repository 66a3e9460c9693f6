import OpenSBI.Fp.LoadStore

namespace OpenSBI

variable {x : Xlen} {env : TrapEnv x} {s t : TrapState x} {a : FpAccess x}

/-- The access is made at the right place, and its result put where it belongs: the forms of four
bytes look at no fault of an aligned load, take their own code for a misaligned address, and leave
the high half of a single's register; the compressed loads leave what a fault returns there. -/
def FpAccess.Served (a : FpAccess x) (env : TrapEnv x) (s : TrapState x) (word : Word x) : Prop :=
  if a.len=2 then
    a.store=false → a.Aligned → ∀ f,a.fault env=some f → (sbiLoadU64 env a.addr s).1=s.fpr a.reg
  else if a.store then
    ¬a.Aligned → a.faultFrom env 1 word=a.fault env ∧
      (a.fault env=none → a.stored s word=a.stored s a.addr)
  else
    (if a.Aligned then a.fault env=none else a.faultFrom env 1 word=a.fault env ∧
      (a.fault env=none → readBytes s.mem word a.fmt.bytes=readBytes s.mem a.addr a.fmt.bytes)) ∧
    (a.fault env=none → a.fmt=.S → Boxed (s.fpr a.reg))

section Opcodes

variable {word : Word x}

theorem trappedInsn_framed (hw : Fetched env s word) (hr : t.regs=s.regs) (hm : t.mem=s.mem)
    (tinst : Word x) (ht : andMask tinst 1=0) :
    trappedInsn env tinst t=.ok (word,if rvX word 0 2=3 then 4 else 2) := by
  have hw' : Fetched env t word := by
    rw [Fetched,hr,hm]
    exact hw
  exact trappedInsn_ok (.fetched word ht hw')

theorem fp_of_softFp (he : env.fpEmulation=true) : env.fp=true := by
  rw [TrapEnv.fp,he,Bool.or_true]

/-- The width of an access from `funct3`. -/
def Fmt.ofWidth (f : Nat) : Fmt → Prop
  | .S => f=2
  | .D => f=3

theorem loadPlan_major (he : env.fpEmulation=true) {fmt : Fmt} (ho : rvX word 0 7=0x07)
    (hf : fmt.ofWidth (rvX word 12 3)) : loadPlan env word=some ⟨true,0,fmt.bytes,word⟩ := by
  have hp : env.fp=true := fp_of_softFp he
  cases fmt with
  | S =>
    have h2 : rvX word 12 3=2 := hf
    simp [loadPlan,ho,h2,hp,Fmt.bytes]
  | D =>
    have h3 : rvX word 12 3=3 := hf
    simp [loadPlan,ho,h3,hp,Fmt.bytes]

theorem storePlan_major (he : env.fpEmulation=true) {fmt : Fmt} (ho : rvX word 0 7=0x27)
    (hf : fmt.ofWidth (rvX word 12 3)) : storePlan env t word=
      some ⟨fmt.bytes,(t.fpr (rs2Of word)).toNat%2^(8*fmt.bytes)⟩ := by
  have hp : env.fp=true := fp_of_softFp he
  have hlt := (t.fpr (rs2Of word)).isLt
  cases fmt with
  | S =>
    have h2 : rvX word 12 3=2 := hf
    simp [storePlan,ho,h2,hp,Fmt.bytes,TrapState.getF32Reg,rs2Of]
  | D =>
    have h3 : rvX word 12 3=3 := hf
    rw [show 8*Fmt.D.bytes=64 from rfl,Nat.mod_eq_of_lt hlt]
    simp [storePlan,ho,h3,hp,Fmt.bytes,TrapState.getF64Reg,rs2Of]

/-- `float_load_opcode_insn()` on a load it knows. -/
theorem floatLoadOpcodeInsn_exact (hw : Fetched env s word) (he : env.fpEmulation=true)
    (hfs : ¬s.fsOff) (ho : rvX word 0 7=0x07) (hf : a.fmt.ofWidth (rvX word 12 3))
    (hs : a.store=false) (hl : a.len=4) (haddr : a.addr=s.getReg (rs1Of word)+immI word)
    (hreg : a.reg=rdOf word) :
    a.Exact env s (floatLoadOpcodeInsn env word s).2 ↔ a.Served env s word := by
  have hq : rvX word 0 2=3 := by rw [rvX_quadrant,ho]
  have hserved : a.Served env s word ↔ (if a.Aligned then a.fault env=none else
      a.faultFrom env 1 word=a.fault env ∧
        (a.fault env=none → readBytes s.mem word a.fmt.bytes=readBytes s.mem a.addr a.fmt.bytes)) ∧
      (a.fault env=none → a.fmt=.S → Boxed (s.fpr a.reg)) := by
    rw [FpAccess.Served,if_neg (by rw [hl]; decide),if_neg (by rw [hs]; decide)]
  have hhandler : floatLoadOpcodeInsn env word s=
      if a.addr.toNat%a.unit≠0 then
        puntToMisalignedHandler (sbiMisalignedLoadHandler env) a.addr word s
      else (SBI_OK,(a.commit (a.loadParts env s) s).advance 4) := by
    rw [floatLoadOpcodeInsn,if_neg hfs,← haddr,← hreg,FpAccess.commit,FpAccess.loadParts,getRm]
    cases hfmt : a.fmt with
    | S =>
      rw [hfmt] at hf
      have h2 : rvX word 12 3=2 := hf
      rw [FpAccess.unit_single hfmt,if_pos h2]
    | D =>
      rw [hfmt] at hf
      have h3 : rvX word 12 3=3 := hf
      rw [FpAccess.unit_double hfmt,if_neg (by omega),if_pos h3]
      simp
  rw [hserved,hhandler]
  by_cases ha : a.Aligned
  · have h0 : ¬a.addr.toNat%a.unit≠0 := not_not.mpr ha
    rw [if_neg h0,if_pos ha,← hl]
    exact alignedLoad_exact (a.loadParts_lt env s) hs (a.loadParts_ok hs ha)
  · have h0 : a.addr.toNat%a.unit≠0 := ha
    rw [if_pos h0,if_neg ha,puntToMisalignedHandler]
    have ht : Framed s (s.csrWrite CSR_MTVAL a.addr) :=
      (Framed.mk rfl rfl rfl rfl).csrWrite (by decide) (by decide) _
    have htr := trappedInsn_framed (t := s.csrWrite CSR_MTVAL a.addr) hw rfl rfl 0 (by simp [andMask])
    rw [if_pos hq,← hl] at htr
    rw [misalignedLoad_exact ht rfl rfl htr (loadPlan_major he ho hf) (by rw [hreg]; rfl) hs]
    tauto

/-- `float_store_opcode_insn()` on a store it knows. -/
theorem floatStoreOpcodeInsn_exact (hw : Fetched env s word) (he : env.fpEmulation=true)
    (hfs : ¬s.fsOff) (ho : rvX word 0 7=0x27) (hf : a.fmt.ofWidth (rvX word 12 3))
    (hs : a.store=true) (hl : a.len=4) (haddr : a.addr=s.getReg (rs1Of word)+immS word)
    (hreg : a.reg=rs2Of word) :
    a.Exact env s (floatStoreOpcodeInsn env word s).2 ↔ a.Served env s word := by
  have hq : rvX word 0 2=3 := by rw [rvX_quadrant,ho]
  have hserved : a.Served env s word ↔ (¬a.Aligned → a.faultFrom env 1 word=a.fault env ∧
      (a.fault env=none → a.stored s word=a.stored s a.addr)) := by
    rw [FpAccess.Served,if_neg (by rw [hl]; decide),if_pos hs]
  have hss : Framed s s := ⟨rfl,rfl,rfl,rfl⟩
  have hfin (r : TrapState x×Option (Fault x)) :
      (finishStore env r 4).2=outcome env r.2 r.1 (r.1.advance a.len) := by
    obtain ⟨t,g⟩ := r
    rw [hl]
    cases g <;> rfl
  have hplan : storePlan env (s.csrWrite CSR_MTVAL a.addr) word=
      some ⟨a.fmt.bytes,(s.fpr a.reg).toNat%2^(8*a.fmt.bytes)⟩ := by
    rw [storePlan_major he ho hf,hreg]
    rfl
  have hpunt : a.Exact env s (puntToMisalignedHandler (sbiMisalignedStoreHandler env) a.addr word s).2 ↔
      a.faultFrom env 1 word=a.fault env ∧ (a.fault env=none → a.stored s word=a.stored s a.addr) := by
    have ht : Framed s (s.csrWrite CSR_MTVAL a.addr) := hss.csrWrite (by decide) (by decide) _
    have htr := trappedInsn_framed (t := s.csrWrite CSR_MTVAL a.addr) hw rfl rfl 0 (by simp [andMask])
    rw [if_pos hq,← hl] at htr
    exact misalignedStore_exact ht rfl rfl htr hplan hs
  rw [hserved,floatStoreOpcodeInsn,if_neg hfs,← haddr,← hreg,getRm]
  cases hfmt : a.fmt with
  | S =>
    rw [hfmt] at hf
    have h2 : rvX word 12 3=2 := hf
    rw [if_pos h2]
    by_cases ha : a.Aligned
    · have h4 : a.addr.toNat%4=0 := by rw [← a.unit_single hfmt]; exact ha
      rw [if_neg (not_not.mpr h4),hfin]
      refine iff_of_true ?_ (fun h => absurd ha h)
      obtain ⟨mem,hm,hn⟩ := sbiStore_mem env s 4 a.addr (s.getF32Reg a.reg).toNat
      have hfault : a.fault env=env.storeFault a.addr 4 := by
        rw [FpAccess.fault_single hfmt ha,hs]
        rfl
      refine alignedStore_exact hss rfl rfl hs (v := (s.getF32Reg a.reg).toNat) ?_ ?_ ⟨mem,hm,?_⟩
      · rw [sbiStore_snd,hfault]
      · rw [hfmt,TrapState.getF32Reg,BitVec.toNat_setWidth]
        exact Nat.mod_mod _ _
      · rw [hfault,hfmt]
        exact hn
    · have h4 : a.addr.toNat%4≠0 := by rw [← a.unit_single hfmt]; exact ha
      rw [if_pos h4,hpunt]
      exact ⟨fun h _ => h,fun h => h ha⟩
  | D =>
    rw [hfmt] at hf
    have h3 : rvX word 12 3=3 := hf
    rw [if_neg (by omega),if_pos h3]
    by_cases ha : a.Aligned
    · have h8 : a.addr.toNat%ptrBytes x=0 := by rw [← a.unit_double hfmt]; exact ha
      rw [if_neg (not_not.mpr h8),hfin]
      exact iff_of_true (storeU64_exact hss rfl rfl hs hfmt ha rfl) (fun h => absurd ha h)
    · have h8 : a.addr.toNat%ptrBytes x≠0 := by rw [← a.unit_double hfmt]; exact ha
      rw [if_pos h8,hpunt]
      exact ⟨fun h _ => h,fun h => h ha⟩

end Opcodes

section Compressed

variable {word tval2 tinst : Word x}

/-- A compressed load goes through the same steps once its address and register are known. -/
theorem rvcLoad64_served (hw : Fetched env s word)
    (ht : andMask tinst 1=0) (hq : rvX word 0 2≠3) (hs : a.store=false) (hd : a.fmt=.D)
    (hl : a.len=2) {insn : Word x} (hp : loadPlan env word=some ⟨true,0,8,insn⟩)
    (hr : regNum insn SH_RD=a.reg) :
    a.Exact env s (rvcLoad64 env a.addr tval2 tinst a.reg (s.csrWrite CSR_MEPC (s.regs.mepc+2))).2 ↔
      a.Served env s word := by
  have hf : Framed s (s.csrWrite CSR_MEPC (s.regs.mepc+2)) :=
    (Framed.mk rfl rfl rfl rfl).csrWrite (by decide) (by decide) _
  have hserved : a.Served env s word ↔
      (a.Aligned → ∀ f,a.fault env=some f → (sbiLoadU64 env a.addr s).1=s.fpr a.reg) := by
    rw [FpAccess.Served,if_pos hl]
    exact ⟨fun h => h hs,fun h _ => h⟩
  rw [hserved,rvcLoad64]
  by_cases ha : a.Aligned
  · have h8 : a.addr.toNat%ptrBytes x=0 := by rw [← a.unit_double hd]; exact ha
    have hu : sbiLoadU64 env a.addr (s.csrWrite CSR_MEPC (s.regs.mepc+2))=sbiLoadU64 env a.addr s := by
      cases x <;> rfl
    rw [if_neg (not_not.mpr h8)]
    dsimp only
    rw [rvcLoad64_exact hf rfl rfl hs hd hl ha,hu]
    exact ⟨fun h _ => h,fun h => h ha⟩
  · have h8 : a.addr.toNat%ptrBytes x≠0 := by rw [← a.unit_double hd]; exact ha
    have htr := trappedInsn_framed (t := s.csrWrite CSR_MEPC (s.regs.mepc+2)) hw rfl rfl tinst ht
    rw [if_neg hq,← hl] at htr
    rw [if_pos h8,misalignedLoad_exact hf rfl rfl htr (by rw [hp,hd]; rfl) hr hs]
    have h1 : a.faultFrom env 1 a.addr=a.fault env := by rw [FpAccess.fault,if_neg ha]
    exact iff_of_true ⟨h1,fun _ => ⟨rfl,by simp [hd]⟩⟩ (fun h => absurd h ha)

/-- The compressed stores are exact. -/
theorem rvcStore64_exact (hw : Fetched env s word)
    (ht : andMask tinst 1=0) (hq : rvX word 0 2≠3) (hs : a.store=true) (hd : a.fmt=.D)
    (hl : a.len=2) (hp : ∀ t : TrapState x,storePlan env t word=some ⟨8,(t.fpr a.reg).toNat⟩) :
    a.Exact env s
      (rvcStore64 env a.addr tval2 tinst a.reg (s.csrWrite CSR_MEPC (s.regs.mepc+2))).2 := by
  have hf : Framed s (s.csrWrite CSR_MEPC (s.regs.mepc+2)) :=
    (Framed.mk rfl rfl rfl rfl).csrWrite (by decide) (by decide) _
  rw [rvcStore64]
  by_cases ha : a.Aligned
  · have h8 : a.addr.toNat%ptrBytes x=0 := by rw [← a.unit_double hd]; exact ha
    have hfin (r : TrapState x×Option (Fault x)) :
        (finishRvc env r.2 r.1).2=outcome env r.2 r.1 (r.1.advance a.len) := by
      obtain ⟨t,g⟩ := r
      rw [hl]
      cases g <;> rfl
    rw [if_neg (not_not.mpr h8)]
    dsimp only
    rw [hfin]
    exact storeU64_exact hf rfl rfl hs hd ha rfl
  · have h8 : a.addr.toNat%ptrBytes x≠0 := by rw [← a.unit_double hd]; exact ha
    have htr := trappedInsn_framed (t := s.csrWrite CSR_MEPC (s.regs.mepc+2)) hw rfl rfl tinst ht
    rw [if_neg hq,← hl] at htr
    have hlt : (s.fpr a.reg).toNat<2^(8*a.fmt.bytes) := by
      rw [hd]
      exact (s.fpr a.reg).isLt
    have h1 : a.faultFrom env 1 a.addr=a.fault env := by rw [FpAccess.fault,if_neg ha]
    rw [if_pos h8,misalignedStore_exact hf rfl rfl htr ?_ hs]
    · exact ⟨h1,fun _ => rfl⟩
    · rw [hp,Nat.mod_eq_of_lt hlt,hd]
      rfl

/-- A 16-bit word with the code of an FP load or store goes to `emulate_rvc()`. -/
theorem sbiIllegalInsnHandler_rvc (sf : Softfloat) {mtval : Word x} (hw : Fetched env s word)
    (hm : rvX mtval 0 2≠3) (hq : rvX word 0 2≠3) :
    sbiIllegalInsnHandler sf env mtval tval2 tinst s=emulateRvc env word tval2 tinst s := by
  rw [sbiIllegalInsnHandler,if_pos (fun hc => hm ((andMask_quadrant mtval).mp hc)),sbiGetInsn_fetched hw]
  exact if_pos (fun hc => hq ((andMask_quadrant word).mp hc))

theorem rvcLdImm_eq : rvcLdImm word=2^6*rvX word 5 2+2^3*rvX word 10 3 := by
  rw [rvcLdImm]
  ring

theorem regOf_rvcRs2 : regOf (rvcRs2 word)=regNum word 2 :=
  Fin.ext (Nat.mod_eq_of_lt (rvX_lt word 2 5))

variable (he : env.softFp=true) (hfs : ¬s.fsOff)
include he hfs

theorem emulateRvc_cFld (h : Quadrant word 0 1) : emulateRvc env word tval2 tinst s=
    rvcLoad64 env (s.getReg (regOf (8+rvX word 7 3))+
      BitVec.ofNat x.bits (2^6*rvX word 5 2+2^3*rvX word 10 3)) tval2 tinst (regOf (8+rvX word 2 3))
      (s.csrWrite CSR_MEPC (s.regs.mepc+2)) := by
  rw [← rvcLdImm_eq]
  simp [emulateRvc,he,hfs,h.1,h.2,rvcRs1s,rvcRs2s,SH_RD,SH_RS2C]

theorem emulateRvc_cFldsp (h : Quadrant word 2 1) : emulateRvc env word tval2 tinst s=
    rvcLoad64 env (s.getReg 2+
      BitVec.ofNat x.bits (2^6*rvX word 2 3+2^5*rvX word 12 1+2^3*rvX word 5 2)) tval2 tinst
      (regNum word 7) (s.csrWrite CSR_MEPC (s.regs.mepc+2)) := by
  have hi : rvcLdspImm word=2^6*rvX word 2 3+2^5*rvX word 12 1+2^3*rvX word 5 2 := by
    rw [rvcLdspImm]
    ring
  rw [← hi]
  simp [emulateRvc,he,hfs,h.1,h.2,rdOf,SH_RD]

theorem emulateRvc_cFsd (h : Quadrant word 0 5) : emulateRvc env word tval2 tinst s=
    rvcStore64 env (s.getReg (regOf (8+rvX word 7 3))+
      BitVec.ofNat x.bits (2^6*rvX word 5 2+2^3*rvX word 10 3)) tval2 tinst (regOf (8+rvX word 2 3))
      (s.csrWrite CSR_MEPC (s.regs.mepc+2)) := by
  rw [← rvcLdImm_eq]
  simp [emulateRvc,he,hfs,h.1,h.2,rvcRs1s,rvcRs2s,SH_RD,SH_RS2C]

theorem emulateRvc_cFsdsp (h : Quadrant word 2 5) : emulateRvc env word tval2 tinst s=
    rvcStore64 env (s.getReg 2+BitVec.ofNat x.bits (2^6*rvX word 7 3+2^3*rvX word 10 3)) tval2 tinst
      (regNum word 2) (s.csrWrite CSR_MEPC (s.regs.mepc+2)) := by
  have hi : rvcSdspImm word=2^6*rvX word 7 3+2^3*rvX word 10 3 := by
    rw [rvcSdspImm]
    ring
  rw [← hi,← regOf_rvcRs2]
  simp [emulateRvc,he,hfs,h.1,h.2]

end Compressed

section Handler

variable {mtval tval2 tinst word : Word x}

theorem loadPlan_cFld (he : env.fp=true) (h : Quadrant word 0 1) :
    loadPlan env word=some ⟨true,0,8,rs2sAsRd word⟩ := by
  have h3 := h.not_major (by decide) (rfl : 3%4=3)
  have h7 := h.not_major (by decide) (rfl : 7%4=3)
  simp [loadPlan,h.1,h.2,h3,h7,he]

theorem loadPlan_cFldsp (he : env.fp=true) (h : Quadrant word 2 1) :
    loadPlan env word=some ⟨true,0,8,word⟩ := by
  have h3 := h.not_major (by decide) (rfl : 3%4=3)
  have h7 := h.not_major (by decide) (rfl : 7%4=3)
  simp [loadPlan,h.1,h.2,h3,h7,he]

theorem storePlan_cFsd (he : env.fp=true) (h : Quadrant word 0 5) :
    storePlan env t word=some ⟨8,(t.fpr (regOf (8+rvX word 2 3))).toNat⟩ := by
  have h3 := h.not_major (by decide) (rfl : 0x23%4=3)
  have h7 := h.not_major (by decide) (rfl : 0x27%4=3)
  simp [storePlan,h.1,h.2,h3,h7,he,TrapState.getF64Reg,rvcRs2s,SH_RS2C]

theorem storePlan_cFsdsp (he : env.fp=true) (h : Quadrant word 2 5) :
    storePlan env t word=some ⟨8,(t.fpr (regNum word 2)).toNat⟩ := by
  have h3 := h.not_major (by decide) (rfl : 0x23%4=3)
  have h7 := h.not_major (by decide) (rfl : 0x27%4=3)
  simp [storePlan,h.1,h.2,h3,h7,he,TrapState.getF64Reg,SH_RS2C]

theorem Quadrant.ne_three {q f : Nat} (h : Quadrant word q f) (hq : q≠3) : rvX word 0 2≠3 := by
  rw [h.1]
  exact hq

/-- FP loads and stores without hardware FP follow the ISA when the access is served, and only then. -/
theorem sbiIllegalInsnHandler_fpAccess (sf : Softfloat) (env : TrapEnv x) (s : TrapState x)
    (mtval tval2 tinst word : Word x) (a : FpAccess x) (h0 : s.regs.gpr 0=0) (hx : env.flen=false)
    (he : env.fpEmulation=true) (hfs : ¬s.fsOff) (ht : andMask tinst 1=0) (hw : Fetched env s word)
    (hm : mtval=word ∨ rvX mtval 0 2≠3) (ha : FpAccessEncoding word s.regs.gpr a) :
    a.Exact env s (sbiIllegalInsnHandler sf env mtval tval2 tinst s).2 ↔ a.Served env s word := by
  have hsoft : env.softFp=true := by simp [TrapEnv.softFp,hx,he]
  have hfp : env.fp=true := fp_of_softFp he
  have hword (op f : Nat) (ho : op%4=3) (h : Major word op f) : Reaches env s mtval word := by
    have hq : rvX word 0 2=3 := by rw [rvX_quadrant,h.1,ho]
    by_cases hm3 : rvX mtval 0 2=3
    · rw [hm.resolve_right (not_not.mpr hm3)]
      exact .given word hq
    · exact .fetched mtval word hm3 hw hq
  have hrvc (q f : Nat) (hq : q≠3) (h : Quadrant word q f) :
      sbiIllegalInsnHandler sf env mtval tval2 tinst s=emulateRvc env word tval2 tinst s := by
    have hq3 : rvX word 0 2≠3 := h.ne_three hq
    exact sbiIllegalInsnHandler_rvc sf hw (hm.elim (fun e => e ▸ hq3) id) hq3
  have hload (h : rvX word 0 7=0x07) :
      illegalInsnTable sf env (rvX word 2 5) word s=floatLoadOpcodeInsn env word s := by
    rw [rvX_opcode,h]
    simp [illegalInsnTable,hsoft]
  have hstore (h : rvX word 0 7=0x27) :
      illegalInsnTable sf env (rvX word 2 5) word s=floatStoreOpcodeInsn env word s := by
    rw [rvX_opcode,h]
    simp [illegalInsnTable,hsoft]
  have hg : archGpr s.regs.gpr=s.regs.gpr := archGpr_of_zero h0
  cases ha with
  | flw h =>
    rw [sbiIllegalInsnHandler_reaches (hword _ _ rfl h),hload h.1]
    exact floatLoadOpcodeInsn_exact hw he hfs h.1 h.2 rfl rfl (by rw [hg,immI_eq]; rfl) rfl
  | fld h =>
    rw [sbiIllegalInsnHandler_reaches (hword _ _ rfl h),hload h.1]
    exact floatLoadOpcodeInsn_exact hw he hfs h.1 h.2 rfl rfl (by rw [hg,immI_eq]; rfl) rfl
  | fsw h =>
    rw [sbiIllegalInsnHandler_reaches (hword _ _ rfl h),hstore h.1]
    exact floatStoreOpcodeInsn_exact hw he hfs h.1 h.2 rfl rfl (by rw [hg,immS_eq]; rfl) rfl
  | fsd h =>
    rw [sbiIllegalInsnHandler_reaches (hword _ _ rfl h),hstore h.1]
    exact floatStoreOpcodeInsn_exact hw he hfs h.1 h.2 rfl rfl (by rw [hg,immS_eq]; rfl) rfl
  | cFld h =>
    rw [hrvc 0 1 (by decide) h,emulateRvc_cFld hsoft hfs h,hg]
    exact rvcLoad64_served hw ht (h.ne_three (by decide)) rfl rfl rfl (loadPlan_cFld hfp h)
      (regNum_rs2sAsRd word)
  | cFsd h =>
    rw [hrvc 0 5 (by decide) h,emulateRvc_cFsd hsoft hfs h,hg]
    exact iff_of_true (rvcStore64_exact hw ht (h.ne_three (by decide)) rfl rfl rfl
      fun t => storePlan_cFsd hfp h) (by simp [FpAccess.Served])
  | cFldsp h =>
    rw [hrvc 2 1 (by decide) h,emulateRvc_cFldsp hsoft hfs h,hg]
    exact rvcLoad64_served hw ht (h.ne_three (by decide)) rfl rfl rfl (loadPlan_cFldsp hfp h) rfl
  | cFsdsp h =>
    rw [hrvc 2 5 (by decide) h,emulateRvc_cFsdsp hsoft hfs h,hg]
    exact iff_of_true (rvcStore64_exact hw ht (h.ne_three (by decide)) rfl rfl rfl
      fun t => storePlan_cFsdsp hfp h) (by simp [FpAccess.Served])

/-- `fld f1, 0(x0)` at address 0. -/
def fldMem (a : Word .rv64) : BitVec 8 := if a=0 then 0x87 else if a=1 then 0x30 else 0

/-- The same hart whose loads take a load page fault. -/
def loadsFault : TrapEnv .rv64 :=
  { TrapEnv.quiet .rv64 with
    loadFault := fun a _ => some
      ⟨BitVec.ofNat _ CAUSE_LOAD_PAGE_FAULT,a,0,0,causeWord_ne_zero (by decide) (by decide)⟩ }

theorem fld_exact : FpAccess.Exact ⟨false,.D,1,0,4⟩ (.quiet .rv64) (.idle 0x6000 fldMem)
    (sbiIllegalInsnHandler .zeros (.quiet .rv64) 0x3087 0 0 (.idle 0x6000 fldMem)).2 :=
  (sbiIllegalInsnHandler_fpAccess .zeros (.quiet .rv64) (.idle 0x6000 fldMem) 0x3087 0 0 0x3087
    ⟨false,.D,1,0,4⟩ rfl rfl rfl (by decide) (by decide) ⟨rfl,by decide⟩ (.inl rfl)
    (.fld (by decide))).mpr ⟨rfl,nofun⟩

/-- A faulting `fld` moves on without a trap. -/
theorem fld_fault_lost : FpAccessEncoding (0x3087 : Word .rv64) (fun _ => 0) ⟨false,.D,1,0,4⟩ ∧
    Fetched loadsFault (.idle 0x6000 fldMem) 0x3087 ∧
    ¬FpAccess.Exact ⟨false,.D,1,0,4⟩ loadsFault (.idle 0x6000 fldMem)
      (sbiIllegalInsnHandler .zeros loadsFault 0x3087 0 0 (.idle 0x6000 fldMem)).2 := by
  refine ⟨.fld (by decide),⟨rfl,by decide⟩,fun h => ?_⟩
  have hr : (sbiIllegalInsnHandler .zeros loadsFault 0x3087 0 0 (.idle 0x6000 fldMem)).2.redirects=[] := by
    rw [sbiIllegalInsnHandler_reaches (.given 0x3087 (by decide))]
    rfl
  have hl := congrArg List.length (hr.symm.trans h.redirects)
  simp at hl

end Handler
end OpenSBI
