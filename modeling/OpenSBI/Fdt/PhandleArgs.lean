import OpenSBI.Fdt.Tree
import OpenSBI.Framework.Loop

namespace OpenSBI

/-- A phandle with its arguments, and the node it names. -/
structure PhandleGroup where
  phandle : BitVec 32
  node : Nat
  args : List (BitVec 32)

namespace PhandleGroup

def bytes (g : PhandleGroup) : List (BitVec 8) := (g.phandle::g.args).flatMap cellBytes

end PhandleGroup

section Loop

variable {t : Fdt} {cellsProp : PropName} {prop : List (BitVec 8)}

end Loop

end OpenSBI
