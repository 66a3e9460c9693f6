import OpenSBI.Riscv.SbiString
import OpenSBI.Console.Print
import Mathlib.Data.Nat.Digits.Defs

namespace OpenSBI

variable {x : Xlen}

/-- How an integer is written. -/
inductive Numeral where
  | d
  | u
  | x
  | X
  deriving DecidableEq

namespace Numeral

def spelling : Numeral → List (BitVec 8)
  | .d => cstr "d"
  | .u => cstr "u"
  | .x => cstr "x"
  | .X => cstr "X"

def hex (n : Numeral) : Bool := n=.x || n=.X

def base (n : Numeral) : Nat := if n.hex then 16 else 10

/-- The integer of a bit pattern. -/
def value (n : Numeral) {w : Nat} (v : BitVec w) : Int := if n=.d then v.toInt else v.toNat

/-- The prefix of the alternate form. -/
def radixMark (n : Numeral) : List (BitVec 8) := if n=.X then cstr "0X" else cstr "0x"

def digit (n : Numeral) (t : Nat) : BitVec 8 :=
  (cstr (if n=.X then "0123456789ABCDEF" else "0123456789abcdef")).getD t 0

/-- The digits of a number; zero has one. -/
def digits (n : Numeral) (v : Nat) : List (BitVec 8) :=
  if v=0 then [chr '0'] else ((n.base.digits v).map n.digit).reverse

end Numeral

/-- The conversions. -/
inductive Conv where
  | s
  | c
  | i
  | p
  | P
  | int (n : Numeral)
  | long (n : Numeral)
  | longLong (n : Numeral)
  deriving DecidableEq

namespace Conv

def spelling : Conv → List (BitVec 8)
  | .s => cstr "s"
  | .c => cstr "c"
  | .i => cstr "i"
  | .p => cstr "p"
  | .P => cstr "P"
  | .int n => n.spelling
  | .long n => cstr "l"++n.spelling
  | .longLong n => cstr "ll"++n.spelling

/-- The argument of a conversion: an `unsigned long long`, or a word. -/
abbrev Arg (x : Xlen) : Conv → Type
  | .longLong _ => BitVec 64
  | _ => Word x

/-- The argument in the sequence of words, the lower half first. -/
def words : (conv : Conv) → conv.Arg x → List (Word x)
  | .longLong _,v => if x.bits=64 then [v.setWidth x.bits] else [v.setWidth x.bits,(v >>> 32).setWidth x.bits]
  | .s,w => [w]
  | .c,w => [w]
  | .i,w => [w]
  | .p,w => [w]
  | .P,w => [w]
  | .int _,w => [w]
  | .long _,w => [w]

/-- The integer that a conversion writes; there is none for strings and characters. -/
def number : (conv : Conv) → conv.Arg x → Option (Numeral×Int)
  | .s,_ => none
  | .c,_ => none
  | .i,w => some (.d,Numeral.d.value (toU32 w))
  | .p,w => some (.x,Numeral.x.value w)
  | .P,w => some (.X,Numeral.X.value w)
  | .int n,w => some (n,n.value (toU32 w))
  | .long n,w => some (n,n.value w)
  | .longLong n,v => some (n,n.value v)

/-- The text of a string or a character. -/
def string (strings : Word x → CStr) : (conv : Conv) → conv.Arg x → List (BitVec 8)
  | .s,w => if w=0 then cstr "(null)" else (strings w).val
  | .c,w => [w.setWidth 8]
  | _,_ => []

end Conv

/-- A directive `%[-][#][0..][width]` with its conversion and its argument. -/
structure Directive (x : Xlen) where
  minus : Bool
  hash : Bool
  zeros : Nat
  width : Nat
  conv : Conv
  arg : conv.Arg x

/-- The text of a width; a width of zero has none. -/
def widthText (width : Nat) : List (BitVec 8) := if width=0 then [] else Numeral.u.digits width

/-- Blanks on the side that the text is not on. -/
def justify (left : Bool) (width : Nat) (text : List (BitVec 8)) : List (BitVec 8) :=
  let pad := List.replicate (width-text.length) (chr ' ')
  if left then text++pad else pad++text

namespace Directive

def spelling (d : Directive x) : List (BitVec 8) :=
  chr '%'::((if d.minus then cstr "-" else [])++((if d.hash then cstr "#" else [])++
    (List.replicate d.zeros (chr '0')++(widthText d.width++d.conv.spelling))))

/-- The sign and the prefix of an integer. -/
def lead (d : Directive x) (n : Numeral) (v : Int) : List (BitVec 8) :=
  (if v<0 then cstr "-" else [])++if d.hash=true ∧ n.hex=true ∧ v≠0 then n.radixMark else []

/-- What a directive stands for. A flag without a meaning for the conversion has no effect, and `-` overrides
`0`. -/
def render (strings : Word x → CStr) (d : Directive x) : List (BitVec 8) :=
  match d.conv.number d.arg with
  | none => justify d.minus d.width (d.conv.string strings d.arg)
  | some (n,v) =>
    let lead := d.lead n v
    let digits := n.digits v.natAbs
    if d.minus=false ∧ 0<d.zeros then
      lead++List.replicate (d.width-(lead++digits).length) (chr '0')++digits
    else justify d.minus d.width (lead++digits)

end Directive

/-- A format, item by item. -/
inductive Item (x : Xlen) where
  | literal (c : BitVec 8) (h : c≠0 ∧ c≠chr '%')
  | percent
  | directive (d : Directive x)

namespace Item

def spelling : Item x → List (BitVec 8)
  | .literal c _ => [c]
  | .percent => cstr "%%"
  | .directive d => d.spelling

def words : Item x → List (Word x)
  | .literal _ _ => []
  | .percent => []
  | .directive d => d.conv.words d.arg

def render (strings : Word x → CStr) : Item x → List (BitVec 8)
  | .literal c _ => [c]
  | .percent => cstr "%"
  | .directive d => d.render strings

end Item

/-- `print()` writes a format as the reference does, to every sink, and takes its arguments and no more. -/
def FormatRight (strings : Word x → CStr) (items : List (Item x)) : Prop :=
  ∀ out more,print strings out (items.flatMap Item.spelling) (items.flatMap Item.words++more)=
    some (((items.flatMap (Item.render strings)).foldl printc out).terminate,
      (items.flatMap (Item.render strings)).length,more)

end OpenSBI
