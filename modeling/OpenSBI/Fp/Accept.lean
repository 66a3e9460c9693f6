import OpenSBI.Fp.Frame
import OpenSBI.Trap.LoadStore
import OpenSBI.Trap.IllegalInsn
import Mathlib.Tactic.IntervalCases

namespace OpenSBI

variable {x : Xlen}

section Rounding

/-- Softfloat reads its rounding mode from bit 13 of `tp` on. -/
theorem softfloatRoundingMode_eq {tp : Word x} {r : Nat} (h : tp.toNat<2^16) (hq : tp.toNat/2^13=r) :
    softfloatRoundingMode tp=BitVec.ofNat 32 r := by
  have ht : (toU32 tp).toNat=tp.toNat := by
    rw [toU32,BitVec.toNat_setWidth,Nat.mod_eq_of_lt (by omega)]
  have hm : (toU32 tp).msb=false := by
    rw [BitVec.msb_eq_false_iff_two_mul_lt,ht]
    omega
  rw [softfloatRoundingMode,BitVec.sshiftRight_eq_of_msb_false hm]
  apply BitVec.eq_of_toNat_eq
  rw [BitVec.toNat_ushiftRight,ht,Nat.shiftRight_eq_div_pow,hq,BitVec.toNat_ofNat]
  omega

theorem andMask_byte (tp : Word x) : (andMask tp 0xff).toNat=tp.toNat%2^8 := by
  rw [andMask_toNat tp 0xff (by decide)]
  exact Nat.and_two_pow_sub_one_eq_mod tp.toNat 8

/-- What `SETUP_STATIC_ROUNDING()` leaves in `tp`: fcsr, and the rounding mode of the instruction
where softfloat reads it. -/
theorem setupStaticRounding_some (insn tp : Word x) (h5 : getRm insn≠5) (h6 : getRm insn≠6) :
    ∃ t,setupStaticRounding insn tp=some t ∧ t.toNat%2^8=tp.toNat%2^8 ∧
      softfloatRoundingMode t=BitVec.ofNat 32
        (if getRm insn=7 then tp.toNat%2^8/2^5 else getRm insn) := by
  have hp : 2^32 ≤ 2^x.bits := Nat.pow_le_pow_right (by decide) x.bits_ge
  have hrm : getRm insn<8 := Nat.mod_lt _ (by decide)
  obtain ⟨c,hc⟩ : ∃ c,tp.toNat%2^8=c := ⟨_,rfl⟩
  have hlt : c<2^8 := by rw [← hc]; exact Nat.mod_lt _ (by decide)
  have hb : (andMask tp 0xff).toNat=c := by rw [andMask_byte,hc]
  rw [hc]
  by_cases h7 : getRm insn=7
  · rw [setupStaticRounding,if_pos h7,if_pos h7]
    have ht : (andMask tp 0xff ||| andMask tp 0xff <<< 8).toNat=2^8*c+c := by
      rw [BitVec.toNat_or,BitVec.toNat_shiftLeft,hb,Nat.shiftLeft_eq,Nat.mod_eq_of_lt (by omega),
        Nat.or_comm,Nat.mul_comm,Nat.two_pow_add_eq_or_of_lt hlt]
    refine ⟨_,rfl,?_,softfloatRoundingMode_eq ?_ ?_⟩ <;> rw [ht] <;> omega
  · rw [setupStaticRounding,if_neg h7,if_neg (by omega),if_neg h7]
    have ht : (andMask tp 0xff ||| BitVec.ofNat x.bits (getRm insn*2^13)).toNat=
        2^13*getRm insn+c := by
      rw [BitVec.toNat_or,toNat_ofNat_lt (by omega),hb,Nat.or_comm,Nat.mul_comm (getRm insn),
        Nat.two_pow_add_eq_or_of_lt (by omega)]
    refine ⟨_,rfl,?_,softfloatRoundingMode_eq ?_ ?_⟩ <;> rw [ht] <;> omega

theorem setupStaticRounding_none {insn tp : Word x} (h : getRm insn=5 ∨ getRm insn=6) :
    setupStaticRounding insn tp=none := by
  rw [setupStaticRounding,if_neg (by omega),if_pos (by omega)]

end Rounding

section Table

variable (sf : Softfloat) (env : TrapEnv x) (insn : Word x) (s : TrapState x)

/-- The registers of an arithmetic word under an operation and a format. -/
def namedInsn (op : FpOp) (f : Fmt) : FpInsn :=
  ⟨op,f,regNum insn 7,regNum insn 15,regNum insn 20,regNum insn 27⟩

/-- A helper of the table serves the operations `op` names for the format of the word. -/
def serve (op : Fmt → Option FpOp) : Int×TrapState x :=
  match Fmt.ofCode (rvX insn 25 2) with
  | none => trulyIllegalInsn env insn s
  | some f =>
    match op f with
    | none => trulyIllegalInsn env insn s
    | some o => (SBI_OK,(namedInsn insn o f).perform sf s.roundingMode s)

theorem precision_cases : rvX insn 25 2=0 ∨ rvX insn 25 2=1 ∨ rvX insn 25 2=2 ∨ rvX insn 25 2=3 := by
  have h := Nat.mod_lt (insn.toNat/2^25) (show 0<2^2 by decide)
  rw [rvX]
  omega

theorem emulateBinary_serve (op : FloatOp) (op32 : BitVec 32 → BitVec 32 → BitVec 32 → BitVec 32×Flags)
    (op64 : BitVec 32 → BitVec 64 → BitVec 64 → BitVec 64×Flags)
    (h32 : ∀ rm a b c,op32 rm a b=op.value (sf.ops .S) rm a b c)
    (h64 : ∀ rm a b c,op64 rm a b=op.value (sf.ops .D) rm a b c) :
    emulateBinary env op32 op64 insn s=serve sf env insn s fun _ => some (.float op) := by
  obtain h | h | h | h := precision_cases insn
  · simp only [emulateBinary,getPrecision,h,serve,Fmt.ofCode,PRECISION_S,if_pos]
    rw [h32 _ _ _ (s.getF32Reg (rs3Of insn))]
    rfl
  · simp only [emulateBinary,getPrecision,h,serve,Fmt.ofCode,PRECISION_S,PRECISION_D,if_pos,one_ne_zero,
      if_false]
    rw [h64 _ _ _ (s.getF64Reg (rs3Of insn))]
    rfl
  · simp [emulateBinary,getPrecision,h,serve,Fmt.ofCode,PRECISION_S,PRECISION_D]
  · simp [emulateBinary,getPrecision,h,serve,Fmt.ofCode,PRECISION_S,PRECISION_D]

theorem serve_none : serve sf env insn s (fun _ => none)=trulyIllegalInsn env insn s := by
  rw [serve]
  split <;> rfl

theorem emulateFadd_serve :
    emulateFadd sf env insn s=serve sf env insn s fun _ => some (.float .add) := by
  rw [emulateFadd,emulateAnyFadd]
  refine emulateBinary_serve sf env insn s .add _ _ ?_ ?_
  · intro rm a b c
    have hb : b ^^^ (0 : BitVec 32)=b := BitVec.xor_zero
    exact congrArg (sf.f32Add rm a) hb
  · intro rm a b c
    have h0 : (BitVec.signExtend 64 (0 : BitVec 32)) <<< 32=0 := by decide
    have hb : b ^^^ (BitVec.signExtend 64 (0 : BitVec 32)) <<< 32=b := by
      rw [h0]
      exact BitVec.xor_zero
    exact congrArg (sf.f64Add rm a) hb

theorem emulateFsub_serve :
    emulateFsub sf env insn s=serve sf env insn s fun _ => some (.float .sub) := by
  rw [emulateFsub,emulateAnyFadd]
  refine emulateBinary_serve sf env insn s .sub _ _ ?_ ?_
  · intro rm a b c
    rfl
  · intro rm a b c
    have h0 : (BitVec.signExtend 64 (BitVec.intMin 32)) <<< 32=BitVec.intMin 64 := by decide
    exact congrArg (fun m => sf.f64Add rm a (b ^^^ m)) h0

theorem emulateFmul_serve :
    emulateFmul sf env insn s=serve sf env insn s fun _ => some (.float .mul) :=
  emulateBinary_serve sf env insn s .mul _ _ (fun _ _ _ _ => rfl) fun _ _ _ _ => rfl

theorem emulateFdiv_serve :
    emulateFdiv sf env insn s=serve sf env insn s fun _ => some (.float .div) :=
  emulateBinary_serve sf env insn s .div _ _ (fun _ _ _ _ => rfl) fun _ _ _ _ => rfl

theorem emulateFsgnj_serve : emulateFsgnj env insn s=
    serve sf env insn s fun _ => if getRm insn<3 then some (.float (.sgnj (getRm insn))) else none := by
  rw [emulateFsgnj]
  by_cases h : getRm insn<3
  · rw [if_neg (by omega),if_pos h]
    exact emulateBinary_serve sf env insn s (.sgnj (getRm insn)) _ _ (fun _ _ _ _ => rfl) fun _ _ _ _ => rfl
  · rw [if_pos (by omega),if_neg h,serve_none]

theorem emulateFmin_serve : emulateFmin sf env insn s=
    serve sf env insn s fun _ => if getRm insn<2 then some (.float (.min (getRm insn))) else none := by
  rw [emulateFmin]
  by_cases h : getRm insn<2
  · rw [if_neg (by omega),if_pos h]
    exact emulateBinary_serve sf env insn s (.min (getRm insn)) _ _ (fun _ _ _ _ => rfl) fun _ _ _ _ => rfl
  · rw [if_pos (by omega),if_neg h,serve_none]

theorem emulateFsqrt_serve : emulateFsqrt sf env insn s=
    serve sf env insn s fun _ => if rs2Num insn=0 then some (.float .sqrt) else none := by
  rw [emulateFsqrt]
  by_cases h : rs2Num insn=0
  · rw [if_neg (not_not.mpr h),if_pos h]
    obtain hp | hp | hp | hp := precision_cases insn <;>
      simp only [getPrecision,hp,serve,Fmt.ofCode,PRECISION_S,PRECISION_D] <;> rfl
  · rw [if_pos h,if_neg h,serve_none]

theorem emulateFcvtFf_serve : emulateFcvtFf sf env insn s=
    serve sf env insn s fun f => match f with
      | .S => if rs2Num insn=1 then some .cvtFF else none
      | .D => if rs2Num insn=0 then some .cvtFF else none := by
  rw [emulateFcvtFf]
  obtain hp | hp | hp | hp := precision_cases insn <;>
    simp only [getPrecision,hp,serve,Fmt.ofCode,PRECISION_S,PRECISION_D]
  · by_cases h : rs2Num insn=1
    · simp [h]
      rfl
    · simp [h]
  · by_cases h : rs2Num insn=0
    · simp [h]
      rfl
    · simp [h]
  · rfl
  · rfl

theorem emulateFcmp_serve : emulateFcmp sf env insn s=
    serve sf env insn s fun _ => if getRm insn<3 then some (.cmp (getRm insn)) else none := by
  rw [emulateFcmp]
  by_cases h : getRm insn<3
  · rw [if_neg (by omega),if_pos h]
    obtain hp | hp | hp | hp := precision_cases insn <;>
      simp only [getPrecision,hp,serve,Fmt.ofCode,PRECISION_S,PRECISION_D] <;> rfl
  · rw [if_pos (by omega),if_neg h,serve_none]

theorem noFlags_or (f : Flags) : 0 ||| f=f := BitVec.zero_or

theorem emulateFcvtIf_serve : emulateFcvtIf sf env insn s=
    serve sf env insn s fun _ => if rs2Num insn < intKinds x then some (.cvtIF (rs2Num insn)) else none := by
  rw [emulateFcvtIf,fcvtIfKinds_eq]
  by_cases h : rs2Num insn < intKinds x
  · rw [if_neg (by omega),if_pos h]
    obtain hp | hp | hp | hp := precision_cases insn <;>
      simp only [getPrecision,hp,serve,Fmt.ofCode,PRECISION_S,PRECISION_D]
    · rfl
    · simp only [one_ne_zero,if_false,if_true,FpInsn.perform,namedInsn,Softfloat.toDouble,noFlags_or]
      rfl
    · rfl
    · rfl
  · rw [if_pos (by omega),if_neg h,serve_none]

theorem fcvtFiArg_isSome (kind : Nat) (val : BitVec 64) :
    (fcvtFiArg x kind val).isSome=decide (kind < intKinds x) := by
  by_cases h : kind<4
  · cases x <;> interval_cases kind <;> rfl
  · have hn : ¬kind < intKinds x := by cases x <;> simp only [intKinds] <;> omega
    rw [decide_eq_false hn,fcvtFiArg] <;> first | omega | rfl

theorem emulateFcvtFi_serve : emulateFcvtFi sf env insn s=
    serve sf env insn s fun _ => if rs2Num insn < intKinds x then some (.cvtFI (rs2Num insn)) else none := by
  have hs := fcvtFiArg_isSome (x := x) (rs2Num insn) ((s.getReg (rs1Of insn)).setWidth 64)
  rw [emulateFcvtFi]
  cases ha : fcvtFiArg x (rs2Num insn) ((s.getReg (rs1Of insn)).setWidth 64) with
  | none =>
    rw [ha] at hs
    have h : ¬rs2Num insn < intKinds x := by simpa using hs
    rw [if_neg h,serve_none]
    split <;> rfl
  | some arg =>
    rw [ha] at hs
    have h : rs2Num insn < intKinds x := by simpa using hs
    rw [if_pos h]
    have ha' : fcvtFiArg x (rs2Num insn) ((s.getReg (regNum insn 15)).setWidth 64)=some arg := ha
    obtain hp | hp | hp | hp := precision_cases insn
    · simp [getPrecision,hp,serve,Fmt.ofCode,PRECISION_S,PRECISION_D,FpInsn.perform,namedInsn,ha',
        Softfloat.ofDouble]
      rfl
    · simp [getPrecision,hp,serve,Fmt.ofCode,PRECISION_S,PRECISION_D,FpInsn.perform,namedInsn,ha',
        Softfloat.ofDouble]
      rfl
    · simp [getPrecision,hp,serve,Fmt.ofCode,PRECISION_S,PRECISION_D]
    · simp [getPrecision,hp,serve,Fmt.ofCode,PRECISION_S,PRECISION_D]

theorem emulateFmvIf_serve : emulateFmvIf sf env insn s=
    serve sf env insn s fun _ => if rs2Num insn=0 ∧ getRm insn=0 then some .mvIF
      else if rs2Num insn=0 ∧ getRm insn=1 then some .classify else none := by
  rw [emulateFmvIf]
  by_cases h : rs2Num insn=0
  · obtain hp | hp | hp | hp := precision_cases insn <;>
      simp only [getPrecision,hp,serve,Fmt.ofCode,PRECISION_S,PRECISION_D,h,true_and,ne_eq,
        not_true_eq_false,if_false,if_true]
    · by_cases h0 : getRm insn=0
      · rw [if_pos h0,if_pos h0]
        rfl
      · by_cases h1 : getRm insn=1
        · rw [if_neg h0,if_pos h1,if_neg h0,if_pos h1]
          rfl
        · rw [if_neg h0,if_neg h1,if_neg h0,if_neg h1]
    · by_cases h0 : getRm insn=0
      · rw [if_neg (by decide),if_pos h0,if_pos h0]
        rfl
      · by_cases h1 : getRm insn=1
        · rw [if_neg (by decide),if_neg h0,if_pos h1,if_neg h0,if_pos h1]
          rfl
        · rw [if_neg (by decide),if_neg h0,if_neg h1,if_neg h0,if_neg h1]
    · rfl
    · rfl
  · simp only [h,false_and,if_false,serve_none,ne_eq,not_false_eq_true,if_true]

/-- Bits 31 to 20 of an OP-FP word: `funct5`, the format and `rs2`. -/
theorem rvX_funct12 : rvX insn 20 12=2^7*rvX insn 27 5+(2^5*rvX insn 25 2+rs2Num insn) := by
  simp only [rs2Num,rvX]
  omega

theorem matches_fmv {p : InsnPattern} {n : Nat} (h0 : rvX insn 0 7=0x53) (h27 : rvX insn 27 5=30)
    (hp : p=⟨0xfff0707f,0xf0000053+2^25*n⟩) (hn : n<4) :
    p.matches insn=true ↔ rvX insn 25 2=n ∧ rs2Num insn=0 ∧ getRm insn=0 := by
  have h12 := rvX_funct12 insn
  have hr : rs2Num insn<2^5 := Nat.mod_lt _ (by decide)
  have hf := rvX_lt insn 25 2
  have hrm : rvX insn 12 3=getRm insn := rfl
  rw [hp,matches_move insn _ (by omega),h12,h27,h0,hrm]
  omega

theorem emulateFmvFi_serve (h0 : rvX insn 0 7=0x53) (h27 : rvX insn 27 5=30) :
    emulateFmvFi env insn s=serve sf env insn s fun f =>
      if rs2Num insn=0 ∧ getRm insn=0 ∧ (f=.S ∨ x=.rv64) then some .mvFI else none := by
  have hW : INSN_FMV_W_X.matches insn=true ↔ rvX insn 25 2=0 ∧ rs2Num insn=0 ∧ getRm insn=0 :=
    matches_fmv insn h0 h27 rfl (by decide)
  have hD : INSN_FMV_D_X.matches insn=true ↔ rvX insn 25 2=1 ∧ rs2Num insn=0 ∧ getRm insn=0 :=
    matches_fmv insn h0 h27 rfl (by decide)
  rw [emulateFmvFi]
  simp only [hW,hD]
  by_cases hz : rs2Num insn=0 ∧ getRm insn=0
  · obtain hp | hp | hp | hp := precision_cases insn <;>
      simp only [hp,hz,serve,Fmt.ofCode,true_and,and_true,if_true,if_false,zero_ne_one,one_ne_zero]
    · simp
      rfl
    · cases x
      · simp
      · simp
        rfl
    · simp
    · simp
  · have hn : ∀ p : Prop,¬(rs2Num insn=0 ∧ getRm insn=0 ∧ p) := fun p h => hz ⟨h.1,h.2.1⟩
    simp only [hz,hn,and_false,if_false,serve_none]

/-- The operations the table serves: those of the F and D extensions, and a move of a double to an
integer register on RV32 too. -/
def servedOp (x : Xlen) (funct5 : Nat) (f : Fmt) (rs2 rm : Nat) : Option FpOp :=
  if funct5=0b11100 ∧ rs2=0 ∧ rm=0 then some .mvIF else opFp x funct5 f rs2 rm

theorem servedOp_rv64 : servedOp .rv64=opFp .rv64 := by
  funext f5 f r2 rm
  rw [servedOp]
  split
  · rename_i h
    obtain ⟨rfl,rfl,rfl⟩ := h
    simp [opFp]
  · rfl

theorem servedOp_moves (f : Fmt) (rs2 rm : Nat) : servedOp x 28 f rs2 rm=
    if rs2=0 ∧ rm=0 then some .mvIF else if rs2=0 ∧ rm=1 then some .classify else none := by
  simp only [servedOp,opFp,true_and]
  by_cases h : rs2=0 ∧ rm=0
  · rw [if_pos h,if_pos h]
  · have hn : ∀ p : Prop,¬(rs2=0 ∧ rm=0 ∧ p) := fun p hp => h ⟨hp.1,hp.2.1⟩
    rw [if_neg h,if_neg h,if_neg (hn _)]

/-- The jump table: each entry serves the operations of its `funct5`. -/
theorem fpEmulationTable_serve (h0 : rvX insn 0 7=0x53) :
    fpEmulationTable sf env (rvX insn 27 5) insn s=
      serve sf env insn s fun f => servedOp x (rvX insn 27 5) f (rs2Num insn) (getRm insn) := by
  have hlt : rvX insn 27 5<2^5 := rvX_lt insn 27 5
  by_cases h30 : rvX insn 27 5=30
  · rw [h30]
    exact emulateFmvFi_serve sf env insn s h0 h30
  · generalize rvX insn 27 5=i at hlt h30
    interval_cases i
    · exact emulateFadd_serve sf env insn s
    · exact emulateFsub_serve sf env insn s
    · exact emulateFmul_serve sf env insn s
    · exact emulateFdiv_serve sf env insn s
    · exact emulateFsgnj_serve sf env insn s
    · exact emulateFmin_serve sf env insn s
    · exact (serve_none sf env insn s).symm
    · exact (serve_none sf env insn s).symm
    · exact emulateFcvtFf_serve sf env insn s
    · exact (serve_none sf env insn s).symm
    · exact (serve_none sf env insn s).symm
    · exact emulateFsqrt_serve sf env insn s
    iterate 8 · exact (serve_none sf env insn s).symm
    · exact emulateFcmp_serve sf env insn s
    iterate 3 · exact (serve_none sf env insn s).symm
    · exact emulateFcvtIf_serve sf env insn s
    · exact (serve_none sf env insn s).symm
    · exact emulateFcvtFi_serve sf env insn s
    · exact (serve_none sf env insn s).symm
    · simp only [servedOp_moves]
      exact emulateFmvIf_serve sf env insn s
    · exact (serve_none sf env insn s).symm
    · exact absurd rfl h30
    · exact (serve_none sf env insn s).symm

end Table

section Dispatch

variable {sf : Softfloat} {env : TrapEnv x} {insn : Word x} {s : TrapState x}

/-- The major opcodes of floating-point arithmetic: MADD, MSUB, NMSUB, NMADD and OP-FP. -/
def ArithWord (insn : Word x) : Prop :=
  rvX insn 0 7=0x43 ∨ rvX insn 0 7=0x47 ∨ rvX insn 0 7=0x4b ∨ rvX insn 0 7=0x4f ∨ rvX insn 0 7=0x53

/-- The instruction the emulator takes a word for. -/
def servedInsn (insn : Word x) : Option FpInsn :=
  (Fmt.ofCode (rvX insn 25 2)).bind fun f =>
    if rvX insn 0 7=0x53 then
      (servedOp x (rvX insn 27 5) f (rs2Num insn) (getRm insn)).map fun op => namedInsn insn op f
    else some (namedInsn insn
      (.float (.madd (decide (rvX insn 3 1=1)) (decide (rvX insn 2 1=1)))) f)

/-- The outcome of a word past the rounding macro: `fp_opcode_insn()` moves the pc on even when its
helper has sent the trap away. -/
def arithOutcome (sf : Softfloat) (env : TrapEnv x) (insn : Word x) (rm : Nat) (s : TrapState x) :
    Int×TrapState x :=
  match servedInsn insn with
  | some i => (SBI_OK,(i.perform sf (BitVec.ofNat 32 rm) s).advance 4)
  | none =>
    let r := trulyIllegalInsn env insn s
    if rvX insn 0 7=0x53 then (r.1,r.2.advance 4) else r

theorem fpOpcodeInsn_outcome (hop : rvX insn 0 7=0x53) (hf : ¬s.fsOff) (h5 : getRm insn≠5)
    (h6 : getRm insn≠6) : ∃ tp : Word x,tp.toNat%2^8=s.getFcsr ∧
      fpOpcodeInsn sf env insn s=arithOutcome sf env insn (effectiveRm insn s) (s.setTp tp) := by
  obtain ⟨tp,ht,hb,hr⟩ := setupStaticRounding_some insn s.tp h5 h6
  refine ⟨tp,hb,?_⟩
  have hm : (s.setTp tp).roundingMode=BitVec.ofNat 32 (effectiveRm insn s) := hr
  rw [fpOpcodeInsn,if_neg hf,ht]
  dsimp only
  rw [fpEmulationTable_serve sf env insn (s.setTp tp) hop,serve,arithOutcome,servedInsn,hm]
  cases Fmt.ofCode (rvX insn 25 2) with
  | none => simp [hop]
  | some f =>
    simp only [Option.bind_some,hop,if_true]
    cases servedOp x (rvX insn 27 5) f (rs2Num insn) (getRm insn) with
    | none => rfl
    | some op => rfl

theorem fmaddOpcodeInsn_outcome (hop : rvX insn 0 7≠0x53) (hf : ¬s.fsOff) (h5 : getRm insn≠5)
    (h6 : getRm insn≠6) : ∃ tp : Word x,tp.toNat%2^8=s.getFcsr ∧
      fmaddOpcodeInsn sf env insn s=arithOutcome sf env insn (effectiveRm insn s) (s.setTp tp) := by
  obtain ⟨tp,ht,hb,hr⟩ := setupStaticRounding_some insn s.tp h5 h6
  refine ⟨tp,hb,?_⟩
  have hm : (s.setTp tp).roundingMode=BitVec.ofNat 32 (effectiveRm insn s) := hr
  rw [fmaddOpcodeInsn,if_neg hf,ht]
  dsimp only
  rw [arithOutcome,servedInsn,hm]
  obtain hp | hp | hp | hp := precision_cases insn <;>
    simp only [getPrecision,hp,Fmt.ofCode,PRECISION_S,PRECISION_D,if_true,hop,if_false,Option.bind_some,
      Option.bind_none]
  · rfl
  · rfl
  · rfl
  · rfl

/-- A 32-bit word reaches the handler in MTVAL, or from the interrupted pc when MTVAL does not hold
such a word. -/
inductive Reaches (env : TrapEnv x) (s : TrapState x) : Word x → Word x → Prop
  | given (word : Word x) (h : rvX word 0 2=3) : Reaches env s word word
  | fetched (mtval word : Word x) (h : rvX mtval 0 2≠3) (hf : Fetched env s word)
      (hw : rvX word 0 2=3) : Reaches env s mtval word

theorem andMask_quadrant (a : Word x) : andMask a 3=BitVec.ofNat x.bits 3 ↔ rvX a 0 2=3 := by
  rw [andMask_three,rvX,Nat.pow_zero,Nat.div_one]
  rfl

theorem sbiIllegalInsnHandler_reaches {mtval tval2 tinst word : Word x} (h : Reaches env s mtval word) :
    sbiIllegalInsnHandler sf env mtval tval2 tinst s=illegalInsnTable sf env (rvX word 2 5) word s := by
  cases h with
  | given h => rw [sbiIllegalInsnHandler,if_neg (not_not.mpr ((andMask_quadrant mtval).mpr h))]
  | fetched _ h hf hw =>
    rw [sbiIllegalInsnHandler,if_pos (fun hc => h ((andMask_quadrant mtval).mp hc)),sbiGetInsn_fetched hf]
    exact if_neg (not_not.mpr ((andMask_quadrant word).mpr hw))

theorem rvX_opcode (insn : Word x) : rvX insn 2 5=rvX insn 0 7/4 := by
  simp only [rvX]
  omega

theorem illegalInsnTable_opFp (he : env.fpEmulation=true) (h : rvX insn 0 7=0x53) :
    illegalInsnTable sf env (rvX insn 2 5) insn s=fpOpcodeInsn sf env insn s := by
  rw [rvX_opcode,h]
  simp [illegalInsnTable,he]

theorem illegalInsnTable_fmadd (he : env.fpEmulation=true) (ha : ArithWord insn)
    (h : rvX insn 0 7≠0x53) :
    illegalInsnTable sf env (rvX insn 2 5) insn s=fmaddOpcodeInsn sf env insn s := by
  rw [rvX_opcode]
  obtain ho | ho | ho | ho | ho := ha
  all_goals first | exact absurd ho h | (rw [ho]; simp [illegalInsnTable,he])

/-- Past the rounding macro every arithmetic word has its outcome. -/
theorem illegalInsnTable_outcome (sf : Softfloat) (he : env.fpEmulation=true) (ha : ArithWord insn)
    (hf : ¬s.fsOff) (h5 : getRm insn≠5) (h6 : getRm insn≠6) : ∃ tp : Word x,tp.toNat%2^8=s.getFcsr ∧
      illegalInsnTable sf env (rvX insn 2 5) insn s=
        arithOutcome sf env insn (effectiveRm insn s) (s.setTp tp) := by
  by_cases ho : rvX insn 0 7=0x53
  · rw [illegalInsnTable_opFp he ho]
    exact fpOpcodeInsn_outcome ho hf h5 h6
  · rw [illegalInsnTable_fmadd he ha ho]
    exact fmaddOpcodeInsn_outcome ho hf h5 h6

/-- A reserved static rounding mode is reported before the helper runs. -/
theorem illegalInsnTable_reservedRm (he : env.fpEmulation=true) (ha : ArithWord insn) (hf : ¬s.fsOff)
    (h : getRm insn=5 ∨ getRm insn=6) : illegalInsnTable sf env (rvX insn 2 5) insn s=
      trulyIllegalInsn env insn (s.setTp (andMask s.tp 0xff)) := by
  by_cases ho : rvX insn 0 7=0x53
  · rw [illegalInsnTable_opFp he ho,fpOpcodeInsn,if_neg hf,setupStaticRounding_none h]
  · rw [illegalInsnTable_fmadd he ha ho,fmaddOpcodeInsn,if_neg hf,setupStaticRounding_none h]

theorem illegalInsnTable_fsOff (he : env.fpEmulation=true) (ha : ArithWord insn) (hf : s.fsOff) :
    illegalInsnTable sf env (rvX insn 2 5) insn s=trulyIllegalInsn env insn s := by
  by_cases ho : rvX insn 0 7=0x53
  · rw [illegalInsnTable_opFp he ho,fpOpcodeInsn,if_pos hf]
  · rw [illegalInsnTable_fmadd he ha ho,fmaddOpcodeInsn,if_pos hf]

/-- All that becomes of an arithmetic word: it is sent away before its helper runs, or it has its
outcome; fcsr is what it was either way. -/
theorem illegalInsnTable_arith (sf : Softfloat) (he : env.fpEmulation=true) (ha : ArithWord insn)
    (s : TrapState x) : ∃ tp : Word x,tp.toNat%2^8=s.getFcsr ∧
      ((s.fsOff ∨ getRm insn=5 ∨ getRm insn=6) ∧
          illegalInsnTable sf env (rvX insn 2 5) insn s=trulyIllegalInsn env insn (s.setTp tp) ∨
        ¬(s.fsOff ∨ getRm insn=5 ∨ getRm insn=6) ∧ illegalInsnTable sf env (rvX insn 2 5) insn s=
          arithOutcome sf env insn (effectiveRm insn s) (s.setTp tp)) := by
  by_cases hf : s.fsOff
  · exact ⟨s.tp,rfl,.inl ⟨.inl hf,illegalInsnTable_fsOff he ha hf⟩⟩
  · by_cases h56 : getRm insn=5 ∨ getRm insn=6
    · refine ⟨andMask s.tp 0xff,?_,.inl ⟨.inr h56,illegalInsnTable_reservedRm he ha hf h56⟩⟩
      rw [andMask_byte]
      exact Nat.mod_mod _ _
    · obtain ⟨tp,ht,ho⟩ := illegalInsnTable_outcome sf he ha hf (fun h => h56 (.inl h))
        fun h => h56 (.inr h)
      exact ⟨tp,ht,.inr ⟨not_or.mpr ⟨hf,h56⟩,ho⟩⟩

end Dispatch

section Accepts

variable {sf : Softfloat}

theorem servedInsn_rv64 (insn : Word .rv64) (ha : ArithWord insn) : servedInsn insn=decodeFp insn := by
  have hd : rvX insn 3 1=rvX insn 0 7/8%2 ∧ rvX insn 2 1=rvX insn 0 7/4%2 := by
    simp only [rvX]
    omega
  rw [servedInsn,decodeFp,hd.1,hd.2]
  cases Fmt.ofCode (rvX insn 25 2) with
  | none => rfl
  | some f =>
    obtain ho | ho | ho | ho | ho := ha
    · simp [ho,namedInsn]
    · simp [ho,namedInsn]
    · simp [ho,namedInsn]
    · simp [ho,namedInsn]
    · simp only [ho,servedOp_rv64]
      rfl

/-- Without a rounding mode the `rm` field selects the operation, and is below 3. -/
theorem opFp_rm {f5 rs2 rm : Nat} {f : Fmt} {op : FpOp} (h : opFp x f5 f rs2 rm=some op)
    (hr : op.rounds=false) : rm<3 := by
  unfold opFp at h
  split at h
  all_goals repeat' split at h
  all_goals cases h
  all_goals first
    | omega
    | exact absurd hr (by simp [FpOp.rounds])

theorem getRm_of_not_rounds {insn : Word x} {i : FpInsn} (h : decodeFp insn=some i)
    (hr : i.op.rounds=false) : getRm insn<3 := by
  unfold decodeFp at h
  dsimp only at h
  split at h
  · cases h
  · split at h
    · obtain ⟨op,ho,rfl⟩ := Option.map_eq_some_iff.mp h
      exact opFp_rm ho hr
    all_goals cases h
    all_goals exact absurd hr (by simp [FpOp.rounds])

/-- The word is carried out exactly when it encodes an instruction whose rounding mode, where it has
one, is legal; and then it is the instruction that is encoded, in that rounding mode. -/
def AcceptsExactly (sf : Softfloat) (env : TrapEnv x) (mtval tval2 tinst word : Word x)
    (s : TrapState x) : Prop :=
  ((sbiIllegalInsnHandler sf env mtval tval2 tinst s).2.redirects=s.redirects ↔
    ∃ i,decodeFp word=some i ∧ (i.op.rounds=true → effectiveRm word s ≤ 4)) ∧
  ∀ i,decodeFp word=some i → (i.op.rounds=true → effectiveRm word s ≤ 4) →
    ∃ tp : Word x,tp.toNat%2^8=s.getFcsr ∧ sbiIllegalInsnHandler sf env mtval tval2 tinst s=
      (SBI_OK,(i.perform sf (BitVec.ofNat 32 (effectiveRm word s)) (s.setTp tp)).advance 4)

section Word

variable {env : TrapEnv .rv64} {mtval word : Word .rv64} {s : TrapState .rv64}

theorem sentAway_redirects (env : TrapEnv x) (insn : Word x) (s : TrapState x) :
    (trulyIllegalInsn env insn s).2.redirects≠s.redirects := by
  rw [trulyIllegalInsn,sbiTrapRedirect_redirects]
  simp

/-- A word that is sent away is rightly so when it encodes nothing legal. -/
theorem acceptsExactly_of_sentAway {tval2 tinst : Word .rv64} (tp : Word .rv64)
    (h : (sbiIllegalInsnHandler sf env mtval tval2 tinst s).2.redirects=
      (trulyIllegalInsn env word (s.setTp tp)).2.redirects)
    (hno : ∀ i,decodeFp word=some i → ¬(i.op.rounds=true → effectiveRm word s ≤ 4)) :
    AcceptsExactly sf env mtval tval2 tinst word s := by
  refine ⟨⟨fun he => ?_,fun hi => ?_⟩,fun i hi hle => absurd hle (hno i hi)⟩
  · rw [h] at he
    exact absurd he (sentAway_redirects env word (s.setTp tp))
  · obtain ⟨i,hi,hle⟩ := hi
    exact absurd hle (hno i hi)

/-- A reserved static mode is illegal whatever the word encodes. -/
theorem static_reserved {i : FpInsn} (h : getRm word=5 ∨ getRm word=6) (hi : decodeFp word=some i) :
    ¬(i.op.rounds=true → effectiveRm word s ≤ 4) := by
  intro hle
  cases hr : i.op.rounds with
  | false =>
    have := getRm_of_not_rounds hi hr
    omega
  | true =>
    have he := hle hr
    rw [effectiveRm,if_neg (by omega)] at he
    omega

/-- A word that encodes an instruction is carried out unless its static mode is reserved. -/
theorem handler_performs (sf : Softfloat) (tval2 tinst : Word .rv64) {i : FpInsn}
    (hw : Reaches env s mtval word) (ha : ArithWord word) (he : env.fpEmulation=true)
    (hf : ¬s.fsOff) (h5 : getRm word≠5) (h6 : getRm word≠6) (hi : decodeFp word=some i) :
    ∃ tp : Word .rv64,tp.toNat%2^8=s.getFcsr ∧
      sbiIllegalInsnHandler sf env mtval tval2 tinst s=
        (SBI_OK,(i.perform sf (BitVec.ofNat 32 (effectiveRm word s)) (s.setTp tp)).advance 4) := by
  obtain ⟨tp,hb,ho⟩ := illegalInsnTable_outcome sf he ha hf h5 h6
  refine ⟨tp,hb,?_⟩
  rw [sbiIllegalInsnHandler_reaches hw,ho,arithOutcome,servedInsn_rv64 word ha,hi]

theorem handler_performs_redirects (tval2 tinst : Word .rv64) {i : FpInsn}
    (hw : Reaches env s mtval word) (ha : ArithWord word) (he : env.fpEmulation=true)
    (hf : ¬s.fsOff) (h5 : getRm word≠5) (h6 : getRm word≠6) (hi : decodeFp word=some i) :
    (sbiIllegalInsnHandler sf env mtval tval2 tinst s).2.redirects=s.redirects := by
  obtain ⟨tp,-,ho⟩ := handler_performs sf tval2 tinst hw ha he hf h5 h6 hi
  rw [ho]
  exact (perform_sameMode i _ _ _).redirects

theorem handler_unencoded (sf : Softfloat) (tval2 tinst : Word .rv64) (hw : Reaches env s mtval word)
    (ha : ArithWord word) (he : env.fpEmulation=true) (hf : ¬s.fsOff) (h5 : getRm word≠5)
    (h6 : getRm word≠6) (hi : decodeFp word=none) :
    ∃ tp,(sbiIllegalInsnHandler sf env mtval tval2 tinst s).2.redirects=
      (trulyIllegalInsn env word (s.setTp tp)).2.redirects := by
  obtain ⟨tp,-,ho⟩ := illegalInsnTable_outcome sf he ha hf h5 h6
  refine ⟨tp,?_⟩
  rw [sbiIllegalInsnHandler_reaches hw,ho,arithOutcome,servedInsn_rv64 word ha,hi]
  by_cases hop : rvX word 0 7=0x53
  · simp only [hop,if_true]
    rfl
  · simp only [hop,if_false]

/-- A reserved dynamic mode is not noticed. -/
theorem not_acceptsExactly {tval2 tinst : Word .rv64} {i : FpInsn} (hw : Reaches env s mtval word)
    (ha : ArithWord word) (he : env.fpEmulation=true) (hf : ¬s.fsOff) (hi : decodeFp word=some i)
    (hr : i.op.rounds=true) (h7 : getRm word=7) (hfrm : 5 ≤ s.getFrm) :
    ¬AcceptsExactly sf env mtval tval2 tinst word s := by
  intro h
  obtain ⟨j,hj,hle⟩ := h.1.mp (handler_performs_redirects tval2 tinst hw ha he hf (by omega) (by omega) hi)
  cases hi.symm.trans hj
  have hb := hle hr
  rw [effectiveRm,if_pos h7] at hb
  omega

theorem acceptsExactly_of_legal {tval2 tinst : Word .rv64} (hw : Reaches env s mtval word)
    (ha : ArithWord word) (he : env.fpEmulation=true) (hf : ¬s.fsOff)
    (h : ¬∃ i,decodeFp word=some i ∧ i.op.rounds=true ∧ getRm word=7 ∧ 5 ≤ s.getFrm) :
    AcceptsExactly sf env mtval tval2 tinst word s := by
  by_cases h56 : getRm word=5 ∨ getRm word=6
  · refine acceptsExactly_of_sentAway (andMask s.tp 0xff) ?_ fun i hi => static_reserved h56 hi
    rw [sbiIllegalInsnHandler_reaches hw,illegalInsnTable_reservedRm he ha hf h56]
  · have h5 : getRm word≠5 := fun h5 => h56 (.inl h5)
    have h6 : getRm word≠6 := fun h6 => h56 (.inr h6)
    cases hd : decodeFp word with
    | none =>
      obtain ⟨tp,ht⟩ := handler_unencoded sf tval2 tinst hw ha he hf h5 h6 hd
      exact acceptsExactly_of_sentAway tp ht fun i hi => absurd (hd.symm.trans hi) (by simp)
    | some i =>
      have hle : i.op.rounds=true → effectiveRm word s ≤ 4 := by
        intro hr
        have hlt : getRm word<8 := Nat.mod_lt _ (by decide)
        rw [effectiveRm]
        by_cases h7 : getRm word=7
        · rw [if_pos h7]
          exact Nat.le_of_lt_succ (Nat.lt_of_not_le fun hge => h ⟨i,hd,hr,h7,hge⟩)
        · rw [if_neg h7]
          omega
      refine ⟨⟨fun _ => ⟨i,hd,hle⟩,fun _ => handler_performs_redirects tval2 tinst hw ha he hf h5 h6 hd⟩,?_⟩
      intro j hj _
      exact handler_performs sf tval2 tinst hw ha he hf h5 h6 hj

end Word

/-- The emulator accepts exactly the arithmetic encodings of RV64 F and D, but for a dynamic rounding
mode that frm holds a reserved value for: those it carries out too. -/
theorem fpEmulator_accepts (sf : Softfloat) (env : TrapEnv .rv64)
    (mtval tval2 tinst word : Word .rv64) (s : TrapState .rv64) (hw : Reaches env s mtval word)
    (ha : ArithWord word) (he : env.fpEmulation=true) (hf : ¬s.fsOff) :
    AcceptsExactly sf env mtval tval2 tinst word s ↔
      ¬∃ i,decodeFp word=some i ∧ i.op.rounds=true ∧ getRm word=7 ∧ 5 ≤ s.getFrm := by
  constructor
  · intro h hx
    obtain ⟨i,hi,hr,h7,hfrm⟩ := hx
    exact not_acceptsExactly hw ha he hf hi hr h7 hfrm h
  · intro h
    exact acceptsExactly_of_legal hw ha he hf h

/-- `fadd.d f3, f1, f2`, rounding to nearest. -/
theorem fadd_accepts : AcceptsExactly .zeros (.quiet .rv64) 0x022081d3 0 0 0x022081d3
    (.idle 0x6000 fun _ => 0) :=
  (fpEmulator_accepts .zeros (.quiet .rv64) 0x022081d3 0 0 0x022081d3 (.idle 0x6000 fun _ => 0)
    (.given _ (by decide)) (by unfold ArithWord; decide) rfl (by decide)).mpr fun h => by
      obtain ⟨i,-,-,h7,-⟩ := h
      exact absurd h7 (by decide)

/-- The same with the dynamic mode while frm is 5. -/
theorem fadd_reserved_accepted :
    ¬AcceptsExactly .zeros (.quiet .rv64) 0x0220f1d3 0 0 0x0220f1d3
      { TrapState.idle (0x6000 : Word .rv64) fun _ => 0 with tp := 0xa0 } :=
  not_acceptsExactly (.given _ (by decide)) (by unfold ArithWord; decide) rfl (by decide)
    (i := ⟨.float .add,.D,3,1,2,0⟩) (by decide) rfl (by decide) (by decide)

end Accepts
end OpenSBI
