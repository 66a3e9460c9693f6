import Mathlib.Data.BitVec

namespace OpenSBI

/-- The accrued exceptions NX, UF, OF, DZ, NV, from bit 0 on. -/
abbrev Flags := BitVec 5

def softfloat_flag_inexact : Flags := 1
def softfloat_flag_invalid : Flags := 16

/-- The vendored softfloat routines the emulator calls. Each takes the rounding mode it reads from
`tp`, where it reads one, and returns its result with the flags it raises. -/
structure Softfloat where
  f32Add : BitVec 32 → BitVec 32 → BitVec 32 → BitVec 32×Flags
  f32Mul : BitVec 32 → BitVec 32 → BitVec 32 → BitVec 32×Flags
  f32Div : BitVec 32 → BitVec 32 → BitVec 32 → BitVec 32×Flags
  f32Sqrt : BitVec 32 → BitVec 32 → BitVec 32×Flags
  mulAddF32 : BitVec 32 → BitVec 32 → BitVec 32 → BitVec 32 → BitVec 32×Flags
  f32Eq : BitVec 32 → BitVec 32 → Bool×Flags
  f32Lt : BitVec 32 → BitVec 32 → Bool×Flags
  f32LtQuiet : BitVec 32 → BitVec 32 → Bool×Flags
  f32Classify : BitVec 32 → BitVec 16
  f64Add : BitVec 32 → BitVec 64 → BitVec 64 → BitVec 64×Flags
  f64Mul : BitVec 32 → BitVec 64 → BitVec 64 → BitVec 64×Flags
  f64Div : BitVec 32 → BitVec 64 → BitVec 64 → BitVec 64×Flags
  f64Sqrt : BitVec 32 → BitVec 64 → BitVec 64×Flags
  mulAddF64 : BitVec 32 → BitVec 64 → BitVec 64 → BitVec 64 → BitVec 64×Flags
  f64Eq : BitVec 64 → BitVec 64 → Bool×Flags
  f64Lt : BitVec 64 → BitVec 64 → Bool×Flags
  f64LtQuiet : BitVec 64 → BitVec 64 → Bool×Flags
  f64Classify : BitVec 64 → BitVec 16
  f32ToF64 : BitVec 32 → BitVec 64×Flags
  f64ToF32 : BitVec 32 → BitVec 64 → BitVec 32×Flags
  ui64ToF64 : BitVec 32 → BitVec 64 → BitVec 64×Flags
  f64ToUi64 : BitVec 32 → BitVec 64 → BitVec 64×Flags

/-- Routines that give zero and raise nothing, as sums and products of zeros do. -/
def Softfloat.zeros : Softfloat where
  f32Add _ _ _ := (0,0)
  f32Mul _ _ _ := (0,0)
  f32Div _ _ _ := (0,0)
  f32Sqrt _ _ := (0,0)
  mulAddF32 _ _ _ _ := (0,0)
  f32Eq _ _ := (false,0)
  f32Lt _ _ := (false,0)
  f32LtQuiet _ _ := (false,0)
  f32Classify _ := 0
  f64Add _ _ _ := (0,0)
  f64Mul _ _ _ := (0,0)
  f64Div _ _ _ := (0,0)
  f64Sqrt _ _ := (0,0)
  mulAddF64 _ _ _ _ := (0,0)
  f64Eq _ _ := (false,0)
  f64Lt _ _ := (false,0)
  f64LtQuiet _ _ := (false,0)
  f64Classify _ := 0
  f32ToF64 _ := (0,0)
  f64ToF32 _ _ := (0,0)
  ui64ToF64 _ _ := (0,0)
  f64ToUi64 _ _ := (0,0)

/-- `isNaNF32UI()` and `isNaNF64UI()`. -/
def isNaNF32UI (a : BitVec 32) : Bool := ~~~a &&& 0x7F800000==0 && a &&& 0x007FFFFF!=0
def isNaNF64UI (a : BitVec 64) : Bool :=
  ~~~a &&& 0x7FF0000000000000==0 && a &&& 0x000FFFFFFFFFFFFF!=0

end OpenSBI
