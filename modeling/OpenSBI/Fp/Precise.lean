import OpenSBI.Fp.Accept

namespace OpenSBI

variable {x : Xlen}

/-- The instruction is emulated: the pc is past it, the mode and the trap CSRs are as they were. -/
def Emulated (s t : TrapState x) : Prop :=
  t.redirects=s.redirects ∧ t.regs.mepc=s.regs.mepc+BitVec.ofNat x.bits 4 ∧
    t.regs.mstatus=s.regs.mstatus ∧ t.regs.mstatusH=s.regs.mstatusH ∧
    (∀ n,n≠CSR_MSTATUS → t.csrs n=s.csrs n) ∧
    clearMask (t.csrs CSR_MSTATUS) MSTATUS_FS=clearMask (s.csrs CSR_MSTATUS) MSTATUS_FS

/-- The word is redirected as illegal, to the supervisor's vector, and the context is as it was. -/
def RedirectedIllegal (s t : TrapState x) (word : Word x) : Prop :=
  t.redirects=s.redirects++[⟨s.regs.mepc,BitVec.ofNat x.bits CAUSE_ILLEGAL_INSTRUCTION,word,0,0⟩] ∧
    t.csrs CSR_SEPC=s.regs.mepc ∧ t.csrs CSR_STVAL=word ∧
    t.csrs CSR_SCAUSE=BitVec.ofNat x.bits CAUSE_ILLEGAL_INSTRUCTION ∧
    t.regs.mepc=s.csrs CSR_STVEC ∧ t.regs.gpr=s.regs.gpr ∧ t.fpr=s.fpr ∧ t.getFcsr=s.getFcsr

/-- Exactly one of the two outcomes. -/
def Precise (s t : TrapState x) (word : Word x) : Prop :=
  Xor (Emulated s t) (RedirectedIllegal s t word)

/-- An OP-FP word that passes the FS test and the rounding macro, and that no helper of the table
takes. -/
def RefusedLate (s : TrapState x) (word : Word x) : Prop :=
  rvX word 0 7=0x53 ∧ ¬s.fsOff ∧ getRm word≠5 ∧ getRm word≠6 ∧ servedInsn word=none

section Outcomes

variable {sf : Softfloat} {env : TrapEnv x} {s t : TrapState x} {word : Word x}

theorem not_both (h : Emulated s t) : ¬RedirectedIllegal s t word := by
  intro hr
  have hl := congrArg List.length (h.1.symm.trans hr.1)
  simp at hl

theorem precise_of_sameMode (h : s.SameMode t) : Precise s (t.advance 4) word := by
  have he : Emulated s (t.advance 4) :=
    ⟨h.redirects,by rw [← h.mepc]; rfl,h.mstatus,h.mstatusH,h.csrs,h.live⟩
  exact .inl ⟨he,not_both he⟩

theorem nextVirt_illegal (tval : Word x) (r : TrapRegs x) :
    nextVirt env ⟨s.regs.mepc,BitVec.ofNat x.bits CAUSE_ILLEGAL_INSTRUCTION,tval,0,0⟩ r=false := by
  have hv : vsCause (BitVec.ofNat x.bits CAUSE_ILLEGAL_INSTRUCTION)=false := by cases x <;> decide
  simp [nextVirt,hv]

/-- `truly_illegal_insn()` redirects, also after the rounding macro has touched `tp`. -/
theorem trulyIllegalInsn_redirected (hb : s.regs.BelowM) {tp : Word x} (ht : tp.toNat%2^8=s.getFcsr) :
    RedirectedIllegal s (trulyIllegalInsn env word (s.setTp tp)).2 word := by
  have hb' : (s.setTp tp).regs.BelowM := hb
  rw [trulyIllegalInsn,sbiTrapRedirect_belowM hb']
  have hc := redirect_sameContext env
    ⟨s.regs.mepc,BitVec.ofNat x.bits CAUSE_ILLEGAL_INSTRUCTION,word,0,0⟩ (s.setTp tp)
  obtain ⟨hm,he,hca,hv⟩ := redirect_toSMode env
    ⟨s.regs.mepc,BitVec.ofNat x.bits CAUSE_ILLEGAL_INSTRUCTION,word,0,0⟩ (s.setTp tp)
    (nextVirt_illegal (s := s) word _)
  exact ⟨redirect_redirects env _ _,he,hv,hca,hm,hc.gpr,hc.fpr,
    (congrArg (fun w : Word x => w.toNat%2^8) hc.tp).trans ht⟩

theorem precise_of_sentAway (hb : s.regs.BelowM) {tp : Word x} (ht : tp.toNat%2^8=s.getFcsr) :
    Precise s (trulyIllegalInsn env word (s.setTp tp)).2 word :=
  have hr : RedirectedIllegal s (trulyIllegalInsn env word (s.setTp tp)).2 word :=
    trulyIllegalInsn_redirected hb ht
  .inr ⟨hr,fun he => not_both he hr⟩

theorem precise_trulyIllegal (hb : s.regs.BelowM) : Precise s (trulyIllegalInsn env word s).2 word := by
  have h : Precise s (trulyIllegalInsn env word (s.setTp s.tp)).2 word := precise_of_sentAway hb rfl
  exact h

/-- A pc that has moved on past the vector is neither outcome. -/
theorem not_precise_of_advanced (hb : s.regs.BelowM) {tp : Word x} (ht : tp.toNat%2^8=s.getFcsr) :
    ¬Precise s ((trulyIllegalInsn env word (s.setTp tp)).2.advance 4) word := by
  have hr : RedirectedIllegal s (trulyIllegalInsn env word (s.setTp tp)).2 word :=
    trulyIllegalInsn_redirected hb ht
  intro h
  obtain ⟨he,-⟩ | ⟨hm,-⟩ := h
  · have hl := congrArg List.length (he.1.symm.trans hr.1)
    simp at hl
  · have h4 : (trulyIllegalInsn env word (s.setTp tp)).2.regs.mepc+BitVec.ofNat x.bits 4=
        s.csrs CSR_STVEC := hm.2.2.2.2.1
    rw [hr.2.2.2.2.1] at h4
    have hz : BitVec.ofNat x.bits 4=0 := by simpa using h4
    exact causeWord_ne_zero (by decide) (by decide) hz

end Outcomes

section Handler

variable {sf : Softfloat} {env : TrapEnv x} {s : TrapState x} {word : Word x}

theorem systemOpcodeInsn_precise (hb : s.regs.BelowM) :
    Precise s (systemOpcodeInsn env s word).2 word := by
  unfold systemOpcodeInsn
  dsimp only
  cases sbiEmulateCsrRead env s (rvX word 20 12) with
  | none => exact precise_trulyIllegal hb
  | some csrVal =>
    dsimp only
    cases csrOperation word csrVal (s.getReg (regNum word SH_RS1)) with
    | none => exact precise_trulyIllegal hb
    | some w =>
      dsimp only
      cases hw : if w.2 then sbiEmulateCsrWrite env s (rvX word 20 12) w.1 else some s with
      | none => exact precise_trulyIllegal hb
      | some t =>
        have ht : s.SameMode t := by
          split at hw
          · exact sbiEmulateCsrWrite_sameMode hw
          · cases hw
            exact .refl s
        exact precise_of_sameMode (ht.trans (setReg_sameMode t _ _))

/-- A word past the rounding macro ends precisely unless it is an OP-FP word nothing serves. -/
theorem arithOutcome_precise (hb : s.regs.BelowM) {tp : Word x} (ht : tp.toNat%2^8=s.getFcsr) (rm : Nat) :
    Precise s (arithOutcome sf env word rm (s.setTp tp)).2 word ↔
      ¬(rvX word 0 7=0x53 ∧ servedInsn word=none) := by
  unfold arithOutcome
  cases hs : servedInsn word with
  | some i =>
    have hp : Precise s ((i.perform sf (BitVec.ofNat 32 rm) (s.setTp tp)).advance 4) word :=
      precise_of_sameMode ((setTp_sameMode s tp).trans (perform_sameMode i sf _ (s.setTp tp)))
    exact ⟨fun _ h => absurd h.2 (by simp),fun _ => hp⟩
  | none =>
    by_cases ho : rvX word 0 7=0x53
    · simp only [ho,if_true,true_and,not_true_eq_false,iff_false]
      exact not_precise_of_advanced hb ht
    · simp only [ho,if_false,false_and,not_false_eq_true,iff_true]
      exact precise_of_sentAway hb ht

/-- The major opcode of a 32-bit word by its table index. -/
theorem arithWord_of_index (hq : rvX word 0 2=3) (h1 : 16 ≤ rvX word 2 5) (h2 : rvX word 2 5 ≤ 20) :
    ArithWord word := by
  have h7 : rvX word 0 7=4*rvX word 2 5+rvX word 0 2 := by
    simp only [rvX]
    omega
  unfold ArithWord
  omega

theorem arithWord_precise (hb : s.regs.BelowM) (he : env.fpEmulation=true) (ha : ArithWord word) :
    Precise s (illegalInsnTable sf env (rvX word 2 5) word s).2 word ↔ ¬RefusedLate s word := by
  obtain ⟨tp,ht,⟨hc,hs⟩ | ⟨hc,ho⟩⟩ := illegalInsnTable_arith sf he ha s
  · have hp : Precise s (trulyIllegalInsn env word (s.setTp tp)).2 word := precise_of_sentAway hb ht
    rw [hs]
    exact ⟨fun _ h => hc.elim h.2.1 fun h56 => h56.elim h.2.2.1 h.2.2.2.1,fun _ => hp⟩
  · rw [not_or,not_or] at hc
    rw [ho,arithOutcome_precise hb ht]
    exact ⟨fun h hr => h ⟨hr.1,hr.2.2.2.2⟩,fun h hr => h ⟨hr.1,hc.1,hc.2.1,hc.2.2,hr.2⟩⟩

/-- Traps out of the emulator are precise but for the OP-FP words whose helper refuses them. -/
theorem sbiIllegalInsnHandler_precise (sf : Softfloat) (env : TrapEnv x)
    (mtval tval2 tinst word : Word x) (s : TrapState x) (hw : Reaches env s mtval word)
    (hb : s.regs.BelowM) (he : env.fpEmulation=true)
    (h1 : rvX word 0 7≠0x07) (h9 : rvX word 0 7≠0x27) :
    Precise s (sbiIllegalInsnHandler sf env mtval tval2 tinst s).2 word ↔ ¬RefusedLate s word := by
  have hq : rvX word 0 2=3 := by
    cases hw with
    | given h => exact h
    | fetched _ _ _ h => exact h
  have h7 : rvX word 0 7=4*rvX word 2 5+rvX word 0 2 := by
    simp only [rvX]
    omega
  rw [sbiIllegalInsnHandler_reaches hw]
  by_cases ha : 16 ≤ rvX word 2 5 ∧ rvX word 2 5 ≤ 20
  · exact arithWord_precise hb he (arithWord_of_index hq ha.1 ha.2)
  · have hp : Precise s (illegalInsnTable sf env (rvX word 2 5) word s).2 word := by
      generalize rvX word 2 5=i at h7 ha
      unfold illegalInsnTable
      split
      · omega
      · omega
      all_goals first
        | omega
        | exact systemOpcodeInsn_precise hb
        | exact precise_trulyIllegal hb
    refine ⟨fun _ h => ?_,fun _ => hp⟩
    have := h.1
    omega

/-- `fadd.d f3, f1, f2` from user mode. -/
theorem fadd_precise : Precise (.idle (0x6000 : Word .rv64) fun _ => 0)
    (sbiIllegalInsnHandler .zeros (.quiet .rv64) 0x022081d3 0 0 (.idle 0x6000 fun _ => 0)).2 0x022081d3 :=
  (sbiIllegalInsnHandler_precise .zeros (.quiet .rv64) 0x022081d3 0 0 0x022081d3
    (.idle 0x6000 fun _ => 0) (.given _ (by decide)) (.inr (by decide)) rfl (by decide)
    (by decide)).mpr fun h => absurd h.2.2.2.2 (by decide)

/-- An OP-FP word with the unused `funct5` 6. -/
theorem unused_not_precise : ¬Precise (.idle (0x6000 : Word .rv64) fun _ => 0)
    (sbiIllegalInsnHandler .zeros (.quiet .rv64) 0x30000053 0 0 (.idle 0x6000 fun _ => 0)).2 0x30000053 := by
  rw [sbiIllegalInsnHandler_reaches (.given 0x30000053 (by decide)),
    arithWord_precise (.inr (by decide)) rfl (by unfold ArithWord; decide),not_not]
  exact ⟨by decide,by decide,by decide,by decide,by decide⟩

end Handler
end OpenSBI
