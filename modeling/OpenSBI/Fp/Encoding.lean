import OpenSBI.Fp.Emulation

namespace OpenSBI

/-- The two formats of the F and D extensions. -/
inductive Fmt where
  | S
  | D
  deriving DecidableEq,Repr

def Fmt.width : Fmt → Nat
  | .S => 32
  | .D => 64

/-- The `fmt` field of an encoding. -/
def Fmt.ofCode : Nat → Option Fmt
  | 0 => some .S
  | 1 => some .D
  | _ => none

/-- The operations whose result is a number of the format. `sgnj` carries the variant (as it is,
negated, exclusive or), `min` whether it is the maximum, `madd` the signs of product and addend. -/
inductive FloatOp where
  | add
  | sub
  | mul
  | div
  | sqrt
  | sgnj (k : Nat)
  | min (k : Nat)
  | madd (negA negC : Bool)
  deriving DecidableEq,Repr

/-- The operations of the F and D extensions; an integer kind is W, WU, L, LU from 0 on, a
comparison LE, LT, EQ from 0 on. -/
inductive FpOp where
  | float (op : FloatOp)
  | cvtFF
  | cvtIF (kind : Nat)
  | cvtFI (kind : Nat)
  | cmp (k : Nat)
  | mvIF
  | classify
  | mvFI
  deriving DecidableEq,Repr

/-- The instruction has a rounding mode. -/
def FpOp.rounds : FpOp → Bool
  | .float (.sgnj _) => false
  | .float (.min _) => false
  | .float _ => true
  | .cvtFF => true
  | .cvtIF _ => true
  | .cvtFI _ => true
  | _ => false

/-- An instruction of the F and D extensions. -/
structure FpInsn where
  op : FpOp
  fmt : Fmt
  rd : Fin 32
  rs1 : Fin 32
  rs2 : Fin 32
  rs3 : Fin 32
  deriving DecidableEq,Repr

/-- The integer kinds of a width: RV32 has no L and LU. -/
def intKinds : Xlen → Nat
  | .rv32 => 2
  | .rv64 => 4

theorem fcvtIfKinds_eq (x : Xlen) : fcvtIfKinds x=intKinds x := by cases x <;> rfl

/-- The OP-FP encodings: the operation by `funct5`, the format, `rs2` and the `rm` field. -/
def opFp (x : Xlen) (funct5 : Nat) (f : Fmt) (rs2 rm : Nat) : Option FpOp :=
  match funct5 with
  | 0b00000 => some (.float .add)
  | 0b00001 => some (.float .sub)
  | 0b00010 => some (.float .mul)
  | 0b00011 => some (.float .div)
  | 0b01011 => if rs2=0 then some (.float .sqrt) else none
  | 0b00100 => if rm<3 then some (.float (.sgnj rm)) else none
  | 0b00101 => if rm<2 then some (.float (.min rm)) else none
  | 0b01000 =>
    match f with
    | .S => if rs2=1 then some .cvtFF else none
    | .D => if rs2=0 then some .cvtFF else none
  | 0b11000 => if rs2 < intKinds x then some (.cvtIF rs2) else none
  | 0b11010 => if rs2 < intKinds x then some (.cvtFI rs2) else none
  | 0b10100 => if rm<3 then some (.cmp rm) else none
  | 0b11100 =>
    if rs2=0 ∧ rm=0 ∧ (f=.S ∨ x=.rv64) then some .mvIF
    else if rs2=0 ∧ rm=1 then some .classify
    else none
  | 0b11110 => if rs2=0 ∧ rm=0 ∧ (f=.S ∨ x=.rv64) then some .mvFI else none
  | _ => none

variable {x : Xlen}

/-- The instruction an arithmetic word of the F and D extensions encodes, by its major opcode. -/
def decodeFp (insn : Word x) : Option FpInsn :=
  let named (op : FpOp) (f : Fmt) : FpInsn :=
    ⟨op,f,regNum insn 7,regNum insn 15,regNum insn 20,regNum insn 27⟩
  match Fmt.ofCode (rvX insn 25 2) with
  | none => none
  | some f =>
    match rvX insn 0 7 with
    | 0b1010011 => (opFp x (rvX insn 27 5) f (rvX insn 20 5) (rvX insn 12 3)).map fun op => named op f
    | 0b1000011 => some (named (.float (.madd false false)) f)
    | 0b1000111 => some (named (.float (.madd false true)) f)
    | 0b1001011 => some (named (.float (.madd true false)) f)
    | 0b1001111 => some (named (.float (.madd true true)) f)
    | _ => none

/-- The rounding mode of an instruction: its `rm` field, or frm. -/
def effectiveRm (insn : Word x) (s : TrapState x) : Nat :=
  if getRm insn=7 then s.getFrm else getRm insn

/-- The softfloat routines of one format. -/
structure FpOps (w : Nat) where
  add : BitVec 32 → BitVec w → BitVec w → BitVec w×Flags
  mul : BitVec 32 → BitVec w → BitVec w → BitVec w×Flags
  div : BitVec 32 → BitVec w → BitVec w → BitVec w×Flags
  sqrt : BitVec 32 → BitVec w → BitVec w×Flags
  mulAdd : BitVec 32 → BitVec w → BitVec w → BitVec w → BitVec w×Flags
  eq : BitVec w → BitVec w → Bool×Flags
  lt : BitVec w → BitVec w → Bool×Flags
  ltQuiet : BitVec w → BitVec w → Bool×Flags
  classify : BitVec w → BitVec 16
  isNaN : BitVec w → Bool

def Softfloat.ops (sf : Softfloat) : (f : Fmt) → FpOps f.width
  | .S => ⟨sf.f32Add,sf.f32Mul,sf.f32Div,sf.f32Sqrt,sf.mulAddF32,sf.f32Eq,sf.f32Lt,sf.f32LtQuiet,
      sf.f32Classify,isNaNF32UI⟩
  | .D => ⟨sf.f64Add,sf.f64Mul,sf.f64Div,sf.f64Sqrt,sf.mulAddF64,sf.f64Eq,sf.f64Lt,sf.f64LtQuiet,
      sf.f64Classify,isNaNF64UI⟩

/-- A subtraction adds the second operand with its sign turned. -/
def FloatOp.value {w : Nat} (o : FpOps w) (rm : BitVec 32) (a b c : BitVec w) :
    FloatOp → BitVec w×Flags
  | .add => o.add rm a b
  | .sub => o.add rm a (b ^^^ BitVec.intMin w)
  | .mul => o.mul rm a b
  | .div => o.div rm a b
  | .sqrt => o.sqrt rm a
  | .sgnj k => (doFsgnj k a b,0)
  | .min k => pickMin o.ltQuiet o.isNaN k a b
  | .madd negA negC => fmaddOp o.mulAdd negA negC rm a b c

namespace TrapState

def getF (s : TrapState x) (r : Fin 32) : (f : Fmt) → BitVec f.width
  | .S => s.getF32Reg r
  | .D => s.getF64Reg r

def setF (s : TrapState x) (rd : Fin 32) : (f : Fmt) → BitVec f.width×Flags → TrapState x
  | .S,r => (s.raiseFlags r.2).setF32Rd rd r.1
  | .D,r => (s.raiseFlags r.2).setF64Rd rd r.1

def setInt (s : TrapState x) (rd : Fin 32) (r : Word x×Flags) : TrapState x :=
  (s.raiseFlags r.2).setFsDirty.setReg rd r.1

end TrapState

/-- A number of the format as a double, for the conversions to integers. -/
def Softfloat.toDouble (sf : Softfloat) : (f : Fmt) → BitVec f.width → BitVec 64×Flags
  | .S,a => sf.f32ToF64 a
  | .D,a => (a,0)

/-- A double as a number of the format, for the conversions from integers. -/
def Softfloat.ofDouble (sf : Softfloat) (rm : BitVec 32) : (f : Fmt) → BitVec 64 → BitVec f.width×Flags
  | .S,a => sf.f64ToF32 rm a
  | .D,a => (a,0)

/-- The conversion between the formats, into the one of the instruction. -/
def Softfloat.convert (sf : Softfloat) (rm : BitVec 32) (s : TrapState x) (r : Fin 32) :
    (f : Fmt) → BitVec f.width×Flags
  | .S => sf.f64ToF32 rm (s.getF64Reg r)
  | .D => sf.f32ToF64 (s.getF32Reg r)

/-- What a move or a conversion takes from the bits of a number. -/
def Fmt.toWord (x : Xlen) : (f : Fmt) → BitVec f.width → Word x
  | .S,a => BitVec.signExtend x.bits a
  | .D,a => BitVec.setWidth x.bits a

/-- The instruction carried out: its operation on the registers it names, in its format and in the
rounding mode `rm`. -/
def FpInsn.perform (i : FpInsn) (sf : Softfloat) (rm : BitVec 32) (s : TrapState x) : TrapState x :=
  let a := s.getF i.rs1 i.fmt
  let b := s.getF i.rs2 i.fmt
  match i.op with
  | .float op => s.setF i.rd i.fmt (op.value (sf.ops i.fmt) rm a b (s.getF i.rs3 i.fmt))
  | .cvtFF => s.setF i.rd i.fmt (sf.convert rm s i.rs1 i.fmt)
  | .cvtIF kind =>
    let d := sf.toDouble i.fmt a
    let r := fcvtIfValue sf rm kind d.1
    s.setInt i.rd (r.1.setWidth x.bits,d.2 ||| r.2)
  | .cvtFI kind =>
    match fcvtFiArg x kind ((s.getReg i.rs1).setWidth 64) with
    | none => s
    | some arg =>
      let d := fcvtFiDouble sf rm arg
      let r := sf.ofDouble rm i.fmt d.1
      s.setF i.rd i.fmt (r.1,d.2 ||| r.2)
  | .cmp k => s.setInt i.rd (fcmpValue (sf.ops i.fmt).eq (sf.ops i.fmt).lt k a b)
  | .mvIF => s.setInt i.rd (i.fmt.toWord x a,0)
  | .classify => s.setInt i.rd (((sf.ops i.fmt).classify a).setWidth x.bits,0)
  | .mvFI => s.setF i.rd i.fmt ((s.getReg i.rs1).setWidth i.fmt.width,0)

end OpenSBI
