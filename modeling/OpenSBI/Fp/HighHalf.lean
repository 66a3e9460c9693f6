import OpenSBI.Fp.Boxing
import OpenSBI.Fp.Dirty

namespace OpenSBI

variable {x : Xlen}

def highHalf (v : BitVec 64) : BitVec 32 := v.extractLsb' 32 32

/-- No high half changes but in the slot that a double goes to. -/
def KeepsHigh (word : Word x) (s t : TrapState x) : Prop :=
  ∀ r,fpDest word≠some (.D,r) → highHalf (t.fpr r)=highHalf (s.fpr r)

section Keeps

variable {sf : Softfloat} {env : TrapEnv x} {s t : TrapState x} {word : Word x}

theorem keepsHigh_of_fpr (h : t.fpr=s.fpr) : KeepsHigh word s t := by
  intro r hr
  rw [h]

theorem KeepsHigh.of_fpr {u : TrapState x} (h : KeepsHigh word t u) (hf : t.fpr=s.fpr) :
    KeepsHigh word s u := by
  intro r hr
  rw [h r hr,hf]

theorem highHalf_append (hi lo : BitVec 32) : highHalf (hi++lo)=hi := by
  apply BitVec.eq_of_toNat_eq
  have hl := lo.isLt
  have hh := hi.isLt
  rw [highHalf,BitVec.extractLsb'_toNat,toNat_halves,Nat.shiftRight_eq_div_pow]
  omega

theorem setF32Rd_keepsHigh (r : Fin 32) (v : BitVec 32) : KeepsHigh word s (s.setF32Rd r v) := by
  intro q hq
  show highHalf (Function.update s.fpr r (highHalf (s.fpr r)++v) q)=_
  by_cases h : q=r
  · rw [h,Function.update_self,highHalf_append]
  · rw [Function.update_of_ne h]

theorem setF64Rd_keepsHigh {r : Fin 32} (v : BitVec 64) (h : fpDest word=some (.D,r)) :
    KeepsHigh word s (s.setF64Rd r v) := by
  intro q hq
  have hne : q≠r := fun he => hq (he ▸ h)
  show highHalf (Function.update s.fpr r v q)=_
  rw [Function.update_of_ne hne]

theorem setF_keepsHigh {rd : Fin 32} {f : Fmt} (r : BitVec f.width×Flags)
    (h : fpDest word=some (f,rd)) : KeepsHigh word s (s.setF rd f r) := by
  cases f with
  | S => exact (setF32Rd_keepsHigh (s := s.raiseFlags r.2) rd r.1).of_fpr rfl
  | D => exact (setF64Rd_keepsHigh (s := s.raiseFlags r.2) r.1 h).of_fpr rfl

theorem perform_keepsHigh {i : FpInsn} (rm : BitVec 32)
    (h : i.op.writesFloat=true → fpDest word=some (i.fmt,i.rd)) :
    KeepsHigh word s (i.perform sf rm s) := by
  unfold FpInsn.perform
  dsimp only
  cases hop : i.op with
  | float op => exact setF_keepsHigh _ (h (by rw [hop]; rfl))
  | cvtFF => exact setF_keepsHigh _ (h (by rw [hop]; rfl))
  | cvtIF kind => exact keepsHigh_of_fpr rfl
  | cvtFI kind =>
    dsimp only
    split
    · exact keepsHigh_of_fpr rfl
    · exact setF_keepsHigh _ (h (by rw [hop]; rfl))
  | cmp k => exact keepsHigh_of_fpr rfl
  | mvIF => exact keepsHigh_of_fpr rfl
  | classify => exact keepsHigh_of_fpr rfl
  | mvFI => exact setF_keepsHigh _ (h (by rw [hop]; rfl))

theorem redirect_keepsHigh (trap : TrapInfo x) : KeepsHigh word s (sbiTrapRedirect env trap s).2 :=
  keepsHigh_of_fpr (sbiTrapRedirect_sameContext env trap s).fpr

end Keeps

section Decode

variable {word : Word x}

/-- What the emulator takes an arithmetic word for is what it encodes, moves to integers apart. -/
theorem servedOp_opFp {f5 r2 rm : Nat} {f : Fmt} {op : FpOp} (h : servedOp x f5 f r2 rm=some op)
    (hw : op≠.mvIF) : opFp x f5 f r2 rm=some op := by
  rw [servedOp] at h
  split at h
  · cases h
    exact absurd rfl hw
  · exact h

/-- The two decoders differ in the operation of OP-FP words only. -/
theorem decoders (ha : ArithWord word) :
    (servedInsn word=decodeFp word) ∨ (∃ f,
      servedInsn word=(servedOp x (rvX word 27 5) f (rs2Num word) (getRm word)).map (namedInsn word · f) ∧
      decodeFp word=(opFp x (rvX word 27 5) f (rs2Num word) (getRm word)).map (namedInsn word · f)) := by
  have hd : rvX word 3 1=rvX word 0 7/8%2 ∧ rvX word 2 1=rvX word 0 7/4%2 := by
    simp only [rvX]
    omega
  rw [servedInsn,decodeFp,hd.1,hd.2]
  cases Fmt.ofCode (rvX word 25 2) with
  | none => exact .inl rfl
  | some f =>
    obtain ho | ho | ho | ho | ho := ha
    · exact .inl (by simp [ho,namedInsn])
    · exact .inl (by simp [ho,namedInsn])
    · exact .inl (by simp [ho,namedInsn])
    · exact .inl (by simp [ho,namedInsn])
    · exact .inr ⟨f,by simp [ho],by simp only [ho]; rfl⟩

theorem decodeFp_of_served (ha : ArithWord word) {i : FpInsn} (hs : servedInsn word=some i)
    (hw : i.op≠.mvIF) : decodeFp word=some i := by
  obtain he | ⟨f,h1,h2⟩ := decoders ha
  · rw [← he,hs]
  · rw [h1,Option.map_eq_some_iff] at hs
    obtain ⟨op,hop,rfl⟩ := hs
    rw [h2,servedOp_opFp hop hw]
    rfl

theorem quadrant_lt (h : rvX word 0 2=3) {q f : Nat} (hq : q≠3) : ¬Quadrant word q f :=
  fun hc => hq (hc.1.symm.trans h)

/-- The destination of an arithmetic word. -/
theorem fpDest_arith (ha : ArithWord word) : fpDest word=
    (decodeFp word).bind fun i => if i.op.writesFloat then some (i.fmt,i.rd) else none := by
  have h7 : rvX word 0 7≠7 ∧ rvX word 0 2=3 := by
    rw [rvX_quadrant]
    unfold ArithWord at ha
    omega
  have hm (f : Nat) : ¬Major word 0x07 f := fun h => h7.1 h.1
  have hq (q f : Nat) (h3 : q≠3) : ¬Quadrant word q f := quadrant_lt h7.2 h3
  rw [fpDest,if_neg (hm 2),if_neg (hm 3),if_neg (hq 0 1 (by decide)),if_neg (hq 2 1 (by decide)),
    if_neg (fun h => hq 0 3 (by decide) h.2),if_neg (fun h => hq 2 3 (by decide) h.2)]

theorem fpDest_served (ha : ArithWord word) {i : FpInsn} (hs : servedInsn word=some i)
    (hw : i.op.writesFloat=true) : fpDest word=some (i.fmt,i.rd) := by
  have hm : i.op≠.mvIF := by
    intro h
    rw [h] at hw
    cases hw
  rw [fpDest_arith ha,decodeFp_of_served ha hs hm]
  simp [hw]

theorem fpDest_flw (h : Major word 0x07 2) : fpDest word=some (.S,regNum word 7) := by
  rw [fpDest,if_pos h]

theorem fpDest_fld (h : Major word 0x07 3) : fpDest word=some (.D,regNum word 7) := by
  have h2 : ¬Major word 0x07 2 := fun hc => absurd (hc.2.symm.trans h.2) (by decide)
  rw [fpDest,if_neg h2,if_pos h]

theorem Quadrant.not_load {q f : Nat} (h : Quadrant word q f) (hq : q≠3) (g : Nat) :
    ¬Major word 0x07 g :=
  fun hc => h.not_major hq (rfl : 7%4=3) hc.1

theorem Quadrant.not_quadrant {q f p g : Nat} (h : Quadrant word q f) (hne : (q,f)≠(p,g)) :
    ¬Quadrant word p g := by
  intro hc
  apply hne
  rw [← h.1,← h.2,hc.1,hc.2]

theorem fpDest_cFld (h : Quadrant word 0 1) : fpDest word=some (.D,regOf (8+rvX word 2 3)) := by
  rw [fpDest,if_neg (h.not_load (by decide) 2),if_neg (h.not_load (by decide) 3),if_pos h]

theorem fpDest_cFldsp (h : Quadrant word 2 1) : fpDest word=some (.D,regNum word 7) := by
  rw [fpDest,if_neg (h.not_load (by decide) 2),if_neg (h.not_load (by decide) 3),
    if_neg (h.not_quadrant (by decide)),if_pos h]

theorem fpDest_cFlw (hx : x=.rv32) (h : Quadrant word 0 3) :
    fpDest word=some (.S,regOf (8+rvX word 2 3)) := by
  rw [fpDest,if_neg (h.not_load (by decide) 2),if_neg (h.not_load (by decide) 3),
    if_neg (h.not_quadrant (by decide)),if_neg (h.not_quadrant (by decide)),if_pos ⟨hx,h⟩]

theorem fpDest_cFlwsp (hx : x=.rv32) (h : Quadrant word 2 3) :
    fpDest word=some (.S,regNum word 7) := by
  rw [fpDest,if_neg (h.not_load (by decide) 2),if_neg (h.not_load (by decide) 3),
    if_neg (h.not_quadrant (by decide)),if_neg (h.not_quadrant (by decide)),
    if_neg (fun hc => h.not_quadrant (by decide) hc.2),if_pos ⟨hx,h⟩]

/-- A chain of tests that finds something finds it at one of them. -/
theorem ite_some {α : Type} {c : Prop} [Decidable c] {a p : α} {t : Option α}
    (h : (if c then some a else t)=some p) : (c ∧ a=p) ∨ t=some p := by
  by_cases hc : c
  · rw [if_pos hc] at h
    exact .inl ⟨hc,Option.some.inj h⟩
  · rw [if_neg hc] at h
    exact .inr h

/-- The loads of the misaligned handler write the destination of the instruction. -/
theorem fpDest_loadPlan {env : TrapEnv x} {p : LoadPlan x} (h : loadPlan env word=some p)
    (hf : p.fp=true) : fpDest word=some (if p.len=8 then .D else .S,regNum p.insn SH_RD) := by
  unfold loadPlan at h
  obtain ⟨-,rfl⟩ | h := ite_some h
  · cases hf
  obtain ⟨-,rfl⟩ | h := ite_some h
  · cases hf
  obtain ⟨-,rfl⟩ | h := ite_some h
  · cases hf
  obtain ⟨hm,rfl⟩ | h := ite_some h
  · exact fpDest_fld (by simpa [Major,and_comm] using hm.2)
  obtain ⟨hm,rfl⟩ | h := ite_some h
  · exact fpDest_flw (by simpa [Major,and_comm] using hm.2)
  obtain ⟨-,rfl⟩ | h := ite_some h
  · cases hf
  obtain ⟨-,rfl⟩ | h := ite_some h
  · cases hf
  obtain ⟨-,rfl⟩ | h := ite_some h
  · cases hf
  obtain ⟨-,rfl⟩ | h := ite_some h
  · cases hf
  obtain ⟨-,rfl⟩ | h := ite_some h
  · cases hf
  obtain ⟨-,rfl⟩ | h := ite_some h
  · cases hf
  obtain ⟨hm,rfl⟩ | h := ite_some h
  · rw [regNum_rs2sAsRd]
    exact fpDest_cFld (by simpa [Quadrant,and_comm] using hm.2)
  obtain ⟨hm,rfl⟩ | h := ite_some h
  · exact fpDest_cFldsp (by simpa [Quadrant,and_comm] using hm.2)
  obtain ⟨hm,rfl⟩ | h := ite_some h
  · rw [regNum_rs2sAsRd]
    exact fpDest_cFlw hm.2.1 (by simpa [Quadrant,and_comm] using hm.2.2)
  obtain ⟨hm,rfl⟩ | h := ite_some h
  · exact fpDest_cFlwsp hm.2.1 (by simpa [Quadrant,and_comm] using hm.2.2)
  · cases h

end Decode

section Loads

variable {sf : Softfloat} {env : TrapEnv x} {s : TrapState x} {word : Word x}

theorem loadCommit_keepsHigh {p : LoadPlan x} (h : loadPlan env word=some p) (v : Nat) :
    KeepsHigh word s (loadCommit p v s) := by
  unfold loadCommit
  cases hf : p.fp with
  | false => exact keepsHigh_of_fpr rfl
  | true =>
    have hd := fpDest_loadPlan h hf
    simp only [Bool.not_true,Bool.false_eq_true,if_false]
    split
    · rename_i h8
      rw [if_pos h8] at hd
      exact setF64Rd_keepsHigh _ hd
    · exact setF32Rd_keepsHigh _ _

theorem sbiMisalignedLoadHandler_keepsHigh {addr tval2 tinst : Word x} {len : Nat}
    (hw : trappedInsn env tinst s=.ok (word,len)) :
    KeepsHigh word s (sbiMisalignedLoadHandler env addr tval2 tinst s).2 := by
  rw [sbiMisalignedLoadHandler,hw]
  dsimp only
  cases hp : loadPlan env word with
  | none => exact redirect_keepsHigh _
  | some p =>
    dsimp only
    cases loadLoop env s addr p.len with
    | error f => exact redirect_keepsHigh _
    | ok v => exact loadCommit_keepsHigh hp v

theorem storeLoop_fpr (addr : Word x) (val n : Nat) : (storeLoop env addr val n s).1.fpr=s.fpr := by
  obtain hn | ⟨f,hf⟩ := noFault_or_firstFault env.storeFault addr n
  · rw [storeLoop_ok val hn]
  · obtain ⟨mem,hm⟩ := storeLoop_error (s := s) val hf
    rw [hm]

theorem sbiMisalignedStoreHandler_fpr (addr tval2 tinst : Word x) :
    (sbiMisalignedStoreHandler env addr tval2 tinst s).2.fpr=s.fpr := by
  unfold sbiMisalignedStoreHandler
  split
  · exact (sbiTrapRedirect_sameContext env _ s).fpr
  · split
    · exact (sbiTrapRedirect_sameContext env _ s).fpr
    · dsimp only
      split
      · exact (sbiTrapRedirect_sameContext env _ _).fpr.trans (storeLoop_fpr _ _ _)
      · exact storeLoop_fpr _ _ _

theorem sbiStore_fpr (n : Nat) (addr : Word x) (v : Nat) : (sbiStore env n addr v s).1.fpr=s.fpr := by
  obtain ⟨mem,hm,-⟩ := sbiStore_mem env s n addr v
  rw [hm]

theorem sbiStoreU64_fpr (addr : Word x) (v : BitVec 64) : (sbiStoreU64 env addr v s).1.fpr=s.fpr := by
  obtain ⟨mem,hm,-⟩ := sbiStoreU64_mem env s addr v
  rw [hm]

/-- The end of a load or store leaves the slots to what came before. -/
theorem finishStore_fpr {r : TrapState x×Option (Fault x)} (len : Nat) :
    (finishStore env r len).2.fpr=r.1.fpr := by
  obtain ⟨t,g⟩ := r
  cases g with
  | none => rfl
  | some f => exact (sbiTrapRedirect_sameContext env _ t).fpr

theorem finishRvc_fpr {t : TrapState x} (g : Option (Fault x)) : (finishRvc env g t).2.fpr=t.fpr :=
  finishStore_fpr (r := (t,g)) 2

/-- The second fetch of a punted load finds the same instruction. -/
theorem punt_keepsHigh (hw : Fetched env s word) (addr : Word x) : KeepsHigh word s
    (puntToMisalignedHandler (sbiMisalignedLoadHandler env) addr word s).2 :=
  (sbiMisalignedLoadHandler_keepsHigh (s := s.csrWrite CSR_MTVAL addr)
    (trappedInsn_framed hw rfl rfl 0 (by simp [andMask]))).of_fpr rfl

theorem floatLoadOpcodeInsn_keepsHigh (hw : Fetched env s word) (ho : rvX word 0 7=0x07) :
    KeepsHigh word s (floatLoadOpcodeInsn env word s).2 := by
  unfold floatLoadOpcodeInsn
  dsimp only
  split
  · exact redirect_keepsHigh _
  split
  · split
    · exact punt_keepsHigh hw _
    · exact setF32Rd_keepsHigh _ _
  split
  · rename_i h3
    split
    · exact punt_keepsHigh hw _
    · exact setF64Rd_keepsHigh _ (fpDest_fld ⟨ho,h3⟩)
  · exact redirect_keepsHigh _

theorem floatStoreOpcodeInsn_fpr : (floatStoreOpcodeInsn env word s).2.fpr=s.fpr := by
  unfold floatStoreOpcodeInsn
  dsimp only
  split
  · exact (sbiTrapRedirect_sameContext env _ s).fpr
  split
  · split
    · exact sbiMisalignedStoreHandler_fpr (s := s.csrWrite CSR_MTVAL _) _ _ _
    · exact (finishStore_fpr 4).trans (sbiStore_fpr 4 _ _)
  split
  · split
    · exact sbiMisalignedStoreHandler_fpr (s := s.csrWrite CSR_MTVAL _) _ _ _
    · exact (finishStore_fpr 4).trans (sbiStoreU64_fpr _ _)
  · exact (sbiTrapRedirect_sameContext env _ s).fpr

theorem rvcLoad64_keepsHigh {addr tval2 tinst : Word x} {rd : Fin 32} {len : Nat}
    (hw : trappedInsn env tinst s=.ok (word,len)) (hd : fpDest word=some (.D,rd)) :
    KeepsHigh word s (rvcLoad64 env addr tval2 tinst rd s).2 := by
  unfold rvcLoad64
  split
  · exact sbiMisalignedLoadHandler_keepsHigh hw
  · intro r hr
    rw [finishRvc_fpr]
    exact setF64Rd_keepsHigh _ hd r hr

theorem rvcLoad32_keepsHigh {addr tval2 tinst : Word x} {rd : Fin 32} {len : Nat}
    (hw : trappedInsn env tinst s=.ok (word,len)) :
    KeepsHigh word s (rvcLoad32 env addr tval2 tinst rd s).2 := by
  unfold rvcLoad32
  split
  · exact sbiMisalignedLoadHandler_keepsHigh hw
  · intro r hr
    rw [finishRvc_fpr]
    exact setF32Rd_keepsHigh _ _ r hr

theorem rvcStore64_fpr {addr tval2 tinst : Word x} (rs2 : Fin 32) :
    (rvcStore64 env addr tval2 tinst rs2 s).2.fpr=s.fpr := by
  unfold rvcStore64
  split
  · exact sbiMisalignedStoreHandler_fpr _ _ _
  · exact (finishRvc_fpr _).trans (sbiStoreU64_fpr _ _)

theorem rvcStore32_fpr {addr tval2 tinst : Word x} (rs2 : Fin 32) :
    (rvcStore32 env addr tval2 tinst rs2 s).2.fpr=s.fpr := by
  unfold rvcStore32
  split
  · exact sbiMisalignedStoreHandler_fpr _ _ _
  · exact (finishRvc_fpr _).trans (sbiStore_fpr 4 _ _)

theorem emulateRvc_keepsHigh {tval2 tinst : Word x} (hw : Fetched env s word)
    (ht : andMask tinst 1=0) : KeepsHigh word s (emulateRvc env word tval2 tinst s).2 := by
  have htr := trappedInsn_framed (t := s.csrWrite CSR_MEPC (s.regs.mepc+2)) hw rfl rfl tinst ht
  apply emulateRvc_rule (P := fun r => KeepsHigh word s r.2) rfl
  · exact redirect_keepsHigh _
  · exact (redirect_keepsHigh (s := s.csrWrite CSR_MEPC _) _).of_fpr rfl
  · intro h addr
    exact (rvcLoad64_keepsHigh htr (fpDest_cFld (by simpa [Quadrant,and_comm] using h))).of_fpr rfl
  · intro h addr
    exact (rvcLoad64_keepsHigh htr (fpDest_cFldsp (by simpa [Quadrant,and_comm] using h))).of_fpr rfl
  · intro addr rs2
    exact keepsHigh_of_fpr (rvcStore64_fpr (s := s.csrWrite CSR_MEPC _) _)
  · intro addr rd
    exact (rvcLoad32_keepsHigh htr).of_fpr rfl
  · intro addr rs2
    exact keepsHigh_of_fpr (rvcStore32_fpr (s := s.csrWrite CSR_MEPC _) _)

end Loads

section Handler

variable {sf : Softfloat} {env : TrapEnv x} {s : TrapState x} {word : Word x}

theorem sbiEmulateCsrWrite_fpr {t : TrapState x} {num : Nat} {val : Word x}
    (h : sbiEmulateCsrWrite env s num val=some t) : t.fpr=s.fpr := by
  unfold sbiEmulateCsrWrite at h
  dsimp only at h
  repeat' split at h
  all_goals cases h
  all_goals rfl

theorem systemOpcodeInsn_fpr : (systemOpcodeInsn env s word).2.fpr=s.fpr := by
  unfold systemOpcodeInsn
  dsimp only
  split
  · exact (sbiTrapRedirect_sameContext env _ s).fpr
  split
  · exact (sbiTrapRedirect_sameContext env _ s).fpr
  split
  · exact (sbiTrapRedirect_sameContext env _ s).fpr
  · rename_i t ht
    show t.fpr=s.fpr
    split at ht
    · exact sbiEmulateCsrWrite_fpr ht
    · cases ht
      rfl

theorem arithOutcome_keepsHigh (ha : ArithWord word) (rm : Nat) :
    KeepsHigh word s (arithOutcome sf env word rm s).2 := by
  unfold arithOutcome
  cases hs : servedInsn word with
  | some i => exact perform_keepsHigh _ (fpDest_served ha hs)
  | none =>
    dsimp only
    split <;> exact redirect_keepsHigh _

theorem arithWord_keepsHigh (he : env.fpEmulation=true) (ha : ArithWord word) :
    KeepsHigh word s (illegalInsnTable sf env (rvX word 2 5) word s).2 := by
  obtain ⟨tp,-,⟨-,ho⟩ | ⟨-,ho⟩⟩ := illegalInsnTable_arith sf he ha s
  · rw [ho]
    exact (redirect_keepsHigh (s := s.setTp tp) _).of_fpr rfl
  · rw [ho]
    exact (arithOutcome_keepsHigh (s := s.setTp tp) ha _).of_fpr rfl

theorem illegalInsnTable_keepsHigh (he : env.softFp=true) (hw : Fetched env s word)
    (hq : rvX word 0 2=3) : KeepsHigh word s (illegalInsnTable sf env (rvX word 2 5) word s).2 := by
  have hf : env.fpEmulation=true := by
    rw [TrapEnv.softFp] at he
    exact (Bool.and_eq_true_iff.mp he).2
  have h7 : rvX word 0 7=4*rvX word 2 5+rvX word 0 2 := by
    simp only [rvX]
    omega
  by_cases ha : 16 ≤ rvX word 2 5 ∧ rvX word 2 5 ≤ 20
  · exact arithWord_keepsHigh hf (arithWord_of_index hq ha.1 ha.2)
  · generalize rvX word 2 5=i at h7 ha
    unfold illegalInsnTable
    split
    · rw [if_pos he]
      exact floatLoadOpcodeInsn_keepsHigh hw (by omega)
    · rw [if_pos he]
      exact keepsHigh_of_fpr floatStoreOpcodeInsn_fpr
    all_goals first
      | omega
      | exact keepsHigh_of_fpr systemOpcodeInsn_fpr
      | exact redirect_keepsHigh _

/-- No step changes a high half outside the slot that a double goes to. -/
theorem sbiIllegalInsnHandler_keepsHigh (he : env.softFp=true) {mtval tval2 tinst : Word x}
    (hw : Fetched env s word) (hm : mtval=word ∨ rvX mtval 0 2≠3) (ht : andMask tinst 1=0) :
    KeepsHigh word s (sbiIllegalInsnHandler sf env mtval tval2 tinst s).2 := by
  by_cases hq : rvX word 0 2=3
  · have hr : Reaches env s mtval word := by
      by_cases hm3 : rvX mtval 0 2=3
      · rw [hm.resolve_right (not_not.mpr hm3)]
        exact .given word hq
      · exact .fetched mtval word hm3 hw hq
    rw [sbiIllegalInsnHandler_reaches hr]
    exact illegalInsnTable_keepsHigh he hw hq
  · rw [sbiIllegalInsnHandler_rvc sf hw (hm.elim (fun e => e ▸ hq) id) hq]
    exact emulateRvc_keepsHigh hw ht

end Handler
end OpenSBI
