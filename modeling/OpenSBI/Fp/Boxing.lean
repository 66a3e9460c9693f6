import OpenSBI.Fp.LoadStoreExact

namespace OpenSBI

variable {x : Xlen}

/-- `0x7fc00000`, the canonical NaN in single precision. -/
def canonicalNaN : BitVec 32 := 0x7fc00000

namespace TrapState

end TrapState

/-- The operation writes a floating-point register. -/
def FpOp.writesFloat : FpOp → Bool
  | .float _ => true
  | .cvtFF => true
  | .cvtFI _ => true
  | .mvFI => true
  | _ => false

/-- The registers an operation reads in the format of the instruction. -/
def FloatOp.operands (i : FpInsn) : FloatOp → List (Fin 32)
  | .sqrt => [i.rs1]
  | .madd _ _ => [i.rs1,i.rs2,i.rs3]
  | _ => [i.rs1,i.rs2]

/-- The registers read as singles, but for `FMV.X.W`. -/
def FpInsn.singleOperands (i : FpInsn) : List (Fin 32) :=
  match i.op,i.fmt with
  | .float op,.S => op.operands i
  | .cvtFF,.D => [i.rs1]
  | .cvtIF _,.S => [i.rs1]
  | .cmp _,.S => [i.rs1,i.rs2]
  | .classify,.S => [i.rs1]
  | _,_ => []

/-- The format and number of the FP register an instruction writes. -/
def fpDest (word : Word x) : Option (Fmt×Fin 32) :=
  if Major word 0x07 2 then some (.S,regNum word 7)
  else if Major word 0x07 3 then some (.D,regNum word 7)
  else if Quadrant word 0 1 then some (.D,regOf (8+rvX word 2 3))
  else if Quadrant word 2 1 then some (.D,regNum word 7)
  else if x=.rv32 ∧ Quadrant word 0 3 then some (.S,regOf (8+rvX word 2 3))
  else if x=.rv32 ∧ Quadrant word 2 3 then some (.S,regNum word 7)
  else (decodeFp word).bind fun i => if i.op.writesFloat then some (i.fmt,i.rd) else none

/-- A slot that reads the same with and without its box. -/
def ReadsBoxed (v : BitVec 64) : Prop := Boxed v ∨ v.setWidth 32=canonicalNaN

instance (v : BitVec 64) : Decidable (ReadsBoxed v) := inferInstanceAs (Decidable (_∨_))

section Perform

variable {sf : Softfloat} {rm : BitVec 32} {s : TrapState x} {i : FpInsn} {v : BitVec 64}

end Perform
end OpenSBI
