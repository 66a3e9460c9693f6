import OpenSBI.Fp.Registers
import OpenSBI.Fp.Softfloat

namespace OpenSBI

variable {x : Xlen}

def PRECISION_S : Nat := 0
def PRECISION_D : Nat := 1

def getPrecision (insn : Word x) : Nat := rvX insn 25 2

/-- An `illegal_insn_func`. -/
abbrev InsnFunc (x : Xlen) := Word x → TrapState x → Int×TrapState x

/-- `softfloat_raiseFlags()`. -/
def TrapState.raiseFlags (s : TrapState x) (flags : Flags) : TrapState x :=
  s.setTp (s.tp ||| flags.setWidth x.bits)

def TrapState.roundingMode (s : TrapState x) : BitVec 32 := softfloatRoundingMode s.tp

section Registers

variable (insn : Word x)

def rdOf : Fin 32 := regNum insn SH_RD
def rs1Of : Fin 32 := regNum insn SH_RS1
def rs2Of : Fin 32 := regNum insn SH_RS2
def rs3Of : Fin 32 := regNum insn 27
def rs2Num : Nat := rvX insn 20 5

end Registers

/-- `SET_F32_RD()` and `SET_F64_RD()` of a softfloat result. -/
def TrapState.writeF32 (s : TrapState x) (insn : Word x) (r : BitVec 32×Flags) : Int×TrapState x :=
  (SBI_OK,(s.raiseFlags r.2).setF32Rd (rdOf insn) r.1)
def TrapState.writeF64 (s : TrapState x) (insn : Word x) (r : BitVec 64×Flags) : Int×TrapState x :=
  (SBI_OK,(s.raiseFlags r.2).setF64Rd (rdOf insn) r.1)

/-- `SET_FS_DIRTY(); SET_RD()` of an integer result. -/
def TrapState.writeInt (s : TrapState x) (insn : Word x) (r : Word x×Flags) : Int×TrapState x :=
  (SBI_OK,(s.raiseFlags r.2).setFsDirty.setReg (rdOf insn) r.1)

variable (sf : Softfloat) (env : TrapEnv x)

/-- The body shared by the operations on `rs1` and `rs2`, in either precision. -/
def emulateBinary (op32 : BitVec 32 → BitVec 32 → BitVec 32 → BitVec 32×Flags)
    (op64 : BitVec 32 → BitVec 64 → BitVec 64 → BitVec 64×Flags) : InsnFunc x := fun insn s =>
  if getPrecision insn=PRECISION_S then
    s.writeF32 insn (op32 s.roundingMode (s.getF32Reg (rs1Of insn)) (s.getF32Reg (rs2Of insn)))
  else if getPrecision insn=PRECISION_D then
    s.writeF64 insn (op64 s.roundingMode (s.getF64Reg (rs1Of insn)) (s.getF64Reg (rs2Of insn)))
  else trulyIllegalInsn env insn s

/-- `emulate_any_fadd()`: `neg_b` is the sign bit to flip, moved up for double precision. -/
def emulateAnyFadd (negB : BitVec 32) : InsnFunc x :=
  emulateBinary env (fun rm a b => sf.f32Add rm a (b ^^^ negB))
    (fun rm a b => sf.f64Add rm a (b ^^^ (negB.signExtend 64 <<< 32)))

def emulateFadd : InsnFunc x := emulateAnyFadd sf env 0
def emulateFsub : InsnFunc x := emulateAnyFadd sf env (BitVec.intMin 32)
def emulateFmul : InsnFunc x := emulateBinary env sf.f32Mul sf.f64Mul
def emulateFdiv : InsnFunc x := emulateBinary env sf.f32Div sf.f64Div

def emulateFsqrt : InsnFunc x := fun insn s =>
  if rs2Num insn≠0 then trulyIllegalInsn env insn s
  else if getPrecision insn=PRECISION_S then
    s.writeF32 insn (sf.f32Sqrt s.roundingMode (s.getF32Reg (rs1Of insn)))
  else if getPrecision insn=PRECISION_D then
    s.writeF64 insn (sf.f64Sqrt s.roundingMode (s.getF64Reg (rs1Of insn)))
  else trulyIllegalInsn env insn s

/-- `DO_FSGNJ()`. -/
def doFsgnj {w : Nat} (rm : Nat) (rs1 rs2 : BitVec w) : BitVec w :=
  let rs1Sign := (rs1 >>> (w-1)) &&& BitVec.ofNat w (rm/2)
  let sign := rs1Sign ^^^ (BitVec.ofNat w rm ^^^ (rs2 >>> (w-1)))
  (rs1 <<< 1 >>> 1) ||| (sign <<< (w-1))

def emulateFsgnj : InsnFunc x := fun insn s =>
  if 3 ≤ getRm insn then trulyIllegalInsn env insn s
  else emulateBinary env (fun _ a b => (doFsgnj (getRm insn) a b,0))
    (fun _ a b => (doFsgnj (getRm insn) a b,0)) insn s

/-- The choice of `emulate_fmin()`: the comparison, turned round for the maximum, or a NaN. -/
def pickMin {w : Nat} (ltQuiet : BitVec w → BitVec w → Bool×Flags) (isNaN : BitVec w → Bool) (rm : Nat)
    (rs1 rs2 : BitVec w) : BitVec w×Flags :=
  let lt := if rm≠0 then ltQuiet rs2 rs1 else ltQuiet rs1 rs2
  (if lt.1 || isNaN rs2 then rs1 else rs2,lt.2)

def emulateFmin : InsnFunc x := fun insn s =>
  if 2 ≤ getRm insn then trulyIllegalInsn env insn s
  else emulateBinary env (fun _ => pickMin sf.f32LtQuiet isNaNF32UI (getRm insn))
    (fun _ => pickMin sf.f64LtQuiet isNaNF64UI (getRm insn)) insn s

def emulateFcvtFf : InsnFunc x := fun insn s =>
  if getPrecision insn=PRECISION_S then
    if rs2Num insn≠1 then trulyIllegalInsn env insn s
    else s.writeF32 insn (sf.f64ToF32 s.roundingMode (s.getF64Reg (rs1Of insn)))
  else if getPrecision insn=PRECISION_D then
    if rs2Num insn≠0 then trulyIllegalInsn env insn s
    else s.writeF64 insn (sf.f32ToF64 (s.getF32Reg (rs1Of insn)))
  else trulyIllegalInsn env insn s

/-- The sign and the magnitude `emulate_fcvt_fi()` takes from `rs1`, by the kind in `rs2`. -/
def fcvtFiArg (x : Xlen) (kind : Nat) (val : BitVec 64) : Option (Bool×BitVec 64) :=
  match kind with
  | 0 =>
    let negative := (val.setWidth 32).msb
    some (negative,((if negative then -val else val).setWidth 32).setWidth 64)
  | 1 => some (false,(val.setWidth 32).setWidth 64)
  | 2 => if x=.rv64 then some (val.msb,if val.msb then -val else val) else none
  | 3 => if x=.rv64 then some (false,val) else none
  | _ => none

/-- `float64` of `emulate_fcvt_fi()`: the magnitude is converted, then the sign put on. -/
def fcvtFiDouble (rm : BitVec 32) (arg : Bool×BitVec 64) : BitVec 64×Flags :=
  let r := sf.ui64ToF64 rm arg.2
  (if arg.1 then r.1 ^^^ BitVec.intMin 64 else r.1,r.2)

def emulateFcvtFi : InsnFunc x := fun insn s =>
  if getPrecision insn≠PRECISION_S ∧ getPrecision insn≠PRECISION_D then trulyIllegalInsn env insn s
  else
    match fcvtFiArg x (rs2Num insn) ((s.getReg (rs1Of insn)).setWidth 64) with
    | none => trulyIllegalInsn env insn s
    | some arg =>
      let d := fcvtFiDouble sf s.roundingMode arg
      if getPrecision insn=PRECISION_S then
        let r := sf.f64ToF32 s.roundingMode d.1
        s.writeF32 insn (r.1,d.2 ||| r.2)
      else s.writeF64 insn d

/-- `result`, `limit` and `limit_result` of `emulate_fcvt_if()`, by the kind in `rs2`. -/
def fcvtIfLimits (kind : Nat) (negative : Bool) (val : BitVec 64) : BitVec 64×BitVec 64×BitVec 64 :=
  match kind with
  | 0 => if negative then (((-val).setWidth 32).signExtend 64,0x80000000,0x80000000)
    else ((val.setWidth 32).signExtend 64,0x7fffffff,0x7fffffff)
  | 1 => if negative then (0,0,0xffffffff) else ((val.setWidth 32).setWidth 64,0xffffffff,0xffffffff)
  | 2 => if negative then (-val,BitVec.intMin 64,BitVec.intMin 64)
    else (val,BitVec.intMax 64,BitVec.intMax 64)
  | _ => if negative then (0,0,BitVec.allOnes 64) else (val,BitVec.allOnes 64,BitVec.allOnes 64)

/-- The value `emulate_fcvt_if()` writes and the flags it raises, from the double `float64`. -/
def fcvtIfValue (rm : BitVec 32) (kind : Nat) (float64 : BitVec 64) : BitVec 64×Flags :=
  let negative := float64.msb
  let r := sf.f64ToUi64 rm (if negative then float64 ^^^ BitVec.intMin 64 else float64)
  let l := fcvtIfLimits kind negative r.1
  if l.2.1<r.1 then (l.2.2,r.2 ||| softfloat_flag_invalid) else (l.1,r.2)

/-- The first `rs2` field that `emulate_fcvt_if()` refuses. -/
def fcvtIfKinds : Xlen → Nat
  | .rv32 => 2
  | .rv64 => 4

def emulateFcvtIf : InsnFunc x := fun insn s =>
  if fcvtIfKinds x ≤ rs2Num insn then trulyIllegalInsn env insn s
  else if getPrecision insn=PRECISION_S then
    let d := sf.f32ToF64 (s.getF32Reg (rs1Of insn))
    let r := fcvtIfValue sf s.roundingMode (rs2Num insn) d.1
    s.writeInt insn (r.1.setWidth x.bits,d.2 ||| r.2)
  else if getPrecision insn=PRECISION_D then
    let r := fcvtIfValue sf s.roundingMode (rs2Num insn) (s.getF64Reg (rs1Of insn))
    s.writeInt insn (r.1.setWidth x.bits,r.2)
  else trulyIllegalInsn env insn s

/-- The comparisons of `emulate_fcmp()`: equal unless `rm` is 1, then less when that is still open. -/
def fcmpValue {w : Nat} (eq lt : BitVec w → BitVec w → Bool×Flags) (rm : Nat) (rs1 rs2 : BitVec w) :
    Word x×Flags :=
  let e : Bool×Flags := if rm≠1 then eq rs1 rs2 else (false,0)
  let l := if rm=1 ∨ rm=0 ∧ e.1=false then ((lt rs1 rs2).1,e.2 ||| (lt rs1 rs2).2) else e
  (if l.1 then 1 else 0,l.2)

def emulateFcmp : InsnFunc x := fun insn s =>
  if 3 ≤ getRm insn then trulyIllegalInsn env insn s
  else if getPrecision insn=PRECISION_S then
    s.writeInt insn (fcmpValue sf.f32Eq sf.f32Lt (getRm insn) (s.getF32Reg (rs1Of insn))
      (s.getF32Reg (rs2Of insn)))
  else if getPrecision insn=PRECISION_D then
    s.writeInt insn (fcmpValue sf.f64Eq sf.f64Lt (getRm insn) (s.getF64Reg (rs1Of insn))
      (s.getF64Reg (rs2Of insn)))
  else trulyIllegalInsn env insn s

def emulateFmvIf : InsnFunc x := fun insn s =>
  if rs2Num insn≠0 then trulyIllegalInsn env insn s
  else if getPrecision insn=PRECISION_S then
    let a := s.getF32Reg (rs1Of insn)
    if getRm insn=0 then s.writeInt insn (a.signExtend x.bits,0)
    else if getRm insn=1 then s.writeInt insn ((sf.f32Classify a).setWidth x.bits,0)
    else trulyIllegalInsn env insn s
  else if getPrecision insn=PRECISION_D then
    let a := s.getF64Reg (rs1Of insn)
    if getRm insn=0 then s.writeInt insn (a.setWidth x.bits,0)
    else if getRm insn=1 then s.writeInt insn ((sf.f64Classify a).setWidth x.bits,0)
    else trulyIllegalInsn env insn s
  else trulyIllegalInsn env insn s

def emulateFmvFi : InsnFunc x := fun insn s =>
  let rs1 := s.getReg (rs1Of insn)
  if INSN_FMV_W_X.matches insn then s.writeF32 insn (rs1.setWidth 32,0)
  else if x=.rv64 ∧ INSN_FMV_D_X.matches insn then s.writeF64 insn (rs1.setWidth 64,0)
  else trulyIllegalInsn env insn s

/-- `fp_emulation_table`. -/
def fpEmulationTable (i : Nat) : InsnFunc x :=
  match i with
  | 0 => emulateFadd sf env
  | 1 => emulateFsub sf env
  | 2 => emulateFmul sf env
  | 3 => emulateFdiv sf env
  | 4 => emulateFsgnj env
  | 5 => emulateFmin sf env
  | 8 => emulateFcvtFf sf env
  | 11 => emulateFsqrt sf env
  | 20 => emulateFcmp sf env
  | 24 => emulateFcvtIf sf env
  | 26 => emulateFcvtFi sf env
  | 28 => emulateFmvIf sf env
  | 30 => emulateFmvFi env
  | _ => trulyIllegalInsn env

/-- `fp_opcode_insn()`: the pc moves on whatever the table's function did. -/
def fpOpcodeInsn : InsnFunc x := fun insn s =>
  if s.fsOff then trulyIllegalInsn env insn s
  else match setupStaticRounding insn s.tp with
    | none => trulyIllegalInsn env insn (s.setTp (andMask s.tp 0xff))
    | some tp =>
      let r := fpEmulationTable sf env (rvX insn 27 5) insn (s.setTp tp)
      (r.1,r.2.advance 4)

/-- The operands of `fmadd_opcode_insn()`: the product and the addend with their signs. -/
def fmaddOp {w : Nat} (mulAdd : BitVec 32 → BitVec w → BitVec w → BitVec w → BitVec w×Flags)
    (negA negC : Bool) (rm : BitVec 32) (a b c : BitVec w) : BitVec w×Flags :=
  mulAdd rm (a ^^^ if negA then BitVec.intMin w else 0) b (c ^^^ if negC then BitVec.intMin w else 0)

def fmaddOpcodeInsn : InsnFunc x := fun insn s =>
  if s.fsOff then trulyIllegalInsn env insn s
  else
    let negA := decide (rvX insn 3 1=1)
    let negC := decide (rvX insn 2 1=1)
    match setupStaticRounding insn s.tp with
    | none => trulyIllegalInsn env insn (s.setTp (andMask s.tp 0xff))
    | some tp =>
      let s := s.setTp tp
      if getPrecision insn=PRECISION_S then
        let r := s.writeF32 insn (fmaddOp sf.mulAddF32 negA negC s.roundingMode
          (s.getF32Reg (rs1Of insn)) (s.getF32Reg (rs2Of insn)) (s.getF32Reg (rs3Of insn)))
        (r.1,r.2.advance 4)
      else if getPrecision insn=PRECISION_D then
        let r := s.writeF64 insn (fmaddOp sf.mulAddF64 negA negC s.roundingMode
          (s.getF64Reg (rs1Of insn)) (s.getF64Reg (rs2Of insn)) (s.getF64Reg (rs3Of insn)))
        (r.1,r.2.advance 4)
      else trulyIllegalInsn env insn s

end OpenSBI
