import OpenSBI.Riscv.Xlen
import Mathlib.Logic.Function.Basic

namespace OpenSBI

def PRV_U : Nat := 0
def PRV_S : Nat := 1
def PRV_M : Nat := 3

/-- The control and status registers of one hart, by CSR number. -/
abbrev Csrs (x : Xlen) := Nat → Word x

def CSR_PMPCFG0 : Nat := 0x3a0
def CSR_PMPADDR0 : Nat := 0x3b0
def CSR_MCYCLE : Nat := 0xb00
def CSR_MINSTRET : Nat := 0xb02
def CSR_MHPMCOUNTER3 : Nat := 0xb03
def CSR_MCOUNTEREN : Nat := 0x306
def CSR_MCOUNTINHIBIT : Nat := 0x320
def CSR_MIP : Nat := 0x344
def CSR_CYCLE : Nat := 0xc00
def CSR_MHPMEVENT3 : Nat := 0x323
def CSR_MCYCLEH : Nat := 0xb80
def CSR_MINSTRETH : Nat := 0xb82
def CSR_MHPMCOUNTER3H : Nat := 0xb83
def CSR_MHPMEVENT3H : Nat := 0x723

/-- The `n` register numbers from `first` on. -/
def csrBlock (first n num : Nat) : Bool := decide (first≤num) && decide (num<first+n)

/-- The register numbers with a case in `csr_read_num()` and `csr_write_num()`. -/
def csrKnown (x : Xlen) (num : Nat) : Bool :=
  csrBlock CSR_PMPCFG0 16 num || csrBlock CSR_PMPADDR0 64 num || csrBlock CSR_MCYCLE 1 num ||
  csrBlock CSR_MINSTRET 1 num || csrBlock CSR_MHPMCOUNTER3 29 num ||
  csrBlock CSR_MCOUNTINHIBIT 1 num || csrBlock CSR_MHPMEVENT3 29 num ||
  decide (x=.rv32) && (csrBlock CSR_MCYCLEH 1 num || csrBlock CSR_MINSTRETH 1 num ||
    csrBlock CSR_MHPMCOUNTER3H 29 num || csrBlock CSR_MHPMEVENT3H 29 num)

variable {x : Xlen}

/-- `csr_read_num()`; `none` is the `sbi_panic()` of an unknown number. -/
def csrReadNum (csrs : Csrs x) (num : Nat) : Option (Word x) :=
  if csrKnown x num then some (csrs num) else none

/-- `csr_write_num()` on registers that store the written value. -/
def csrWriteNum (csrs : Csrs x) (num : Nat) (val : Word x) : Option (Csrs x) :=
  if csrKnown x num then some (Function.update csrs num val) else none

theorem csrKnown_pmpcfg {num : Nat} (h1 : CSR_PMPCFG0≤num) (h2 : num<CSR_PMPCFG0+16) :
    csrKnown x num=true := by
  simp [csrKnown,csrBlock,h1,h2]

theorem csrKnown_pmpaddr {num : Nat} (h1 : CSR_PMPADDR0≤num) (h2 : num<CSR_PMPADDR0+64) :
    csrKnown x num=true := by
  simp [csrKnown,csrBlock,h1,h2]

end OpenSBI
