import OpenSBI.Math.AlignedBlock
import OpenSBI.Math.FirstMatch
import OpenSBI.Riscv.Csr

namespace OpenSBI

/-- Kinds of memory access physical memory protection tells apart. -/
inductive Access where
  | read
  | write
  | execute
  deriving DecidableEq,Repr

/-- PMP entries of the architecture. -/
def PMP_COUNT : Nat := 64

/-- Address matching modes, the values of the A field. -/
inductive PmpMode where
  | off
  | tor
  | na4
  | napot
  deriving DecidableEq,Repr

variable {x : Xlen}

/-- Register holding the configuration of entry `i`: four to a register on RV32, eight to an
even-numbered one on RV64. -/
def pmpcfgReg (x : Xlen) (i : Nat) : Nat :=
  match x with
  | .rv32 => CSR_PMPCFG0+i/4
  | .rv64 => CSR_PMPCFG0+2*(i/8)

/-- Position of the configuration byte of entry `i` in its register. -/
def pmpcfgByte (x : Xlen) (i : Nat) : Nat :=
  match x with
  | .rv32 => i%4
  | .rv64 => i%8

def pmpcfg (csrs : Csrs x) (i : Nat) : BitVec 8 :=
  (csrs (pmpcfgReg x i)).extractLsb' (8*pmpcfgByte x i) 8

def pmpaddr (csrs : Csrs x) (i : Nat) : Word x := csrs (CSR_PMPADDR0+i)

def pmpMode (cfg : BitVec 8) : PmpMode :=
  match cfg.getLsbD 4,cfg.getLsbD 3 with
  | false,false => .off
  | false,true => .tor
  | true,false => .na4
  | true,true => .napot

/-- Position of the R, W and X bits of a configuration byte. -/
def Access.bit : Access → Nat
  | .read => 0
  | .write => 1
  | .execute => 2

def pmpPermits (cfg : BitVec 8) (acc : Access) : Bool := cfg.getLsbD acc.bit

/-- The bits of a NAPOT address register that encode the size: its trailing ones and the zero
above them. -/
def napotTail (p : Word x) : Word x := p ^^^ (p+1)

/-- Does entry `i` match the byte at physical address `a`? -/
def pmpMatch (csrs : Csrs x) (a : Word x) (i : Nat) : Bool :=
  match pmpMode (pmpcfg csrs i) with
  | .off => false
  | .tor =>
      decide ((if i=0 then 0 else pmpaddr csrs (i-1))≤a >>> 2) &&
        decide (a >>> 2<pmpaddr csrs i)
  | .na4 => decide (a >>> 2=pmpaddr csrs i)
  | .napot =>
      let p := pmpaddr csrs i
      decide ((a >>> 2) &&& ~~~napotTail p=p &&& ~~~napotTail p)

/-- The PMP decision for an S- or U-mode access to one byte: the lowest-numbered matching entry
decides, and without one the access is denied. -/
def pmpAllows (csrs : Csrs x) (acc : Access) (a : Word x) : Bool :=
  Math.firstMatch (List.range PMP_COUNT) (pmpMatch csrs a)
    (fun i => pmpPermits (pmpcfg csrs i) acc)

end OpenSBI
