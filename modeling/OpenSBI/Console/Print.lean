import OpenSBI.Riscv.SbiString

namespace OpenSBI

variable {x : Xlen}

/-- A string in memory: the characters in front of its end. -/
abbrev CStr := {s : List (BitVec 8) // 0∉s}

/-- `PAD_RIGHT`, `PAD_ALTERNATE` and `PAD_ZERO`. -/
structure PadFlags where
  right : Bool
  alternate : Bool
  zero : Bool
  deriving DecidableEq

/-- The sink of the characters: `sbi_putc()`, or a buffer with the offset of `*out`, `*out_len` and the
stores so far, each with its offset. -/
inductive Out where
  | console (sent : List (BitVec 8))
  | buffer (pos : Nat) (outLen : Option Nat) (stores : List (BitVec 8×Nat))
  deriving DecidableEq

def printc (out : Out) (ch : BitVec 8) : Out :=
  match out with
  | .console sent => .console (sent++[ch])
  | .buffer pos (some outLen) stores =>
    if 0<outLen then .buffer (pos+1) (some (outLen-1)) (stores++[(ch,pos)])
    else .buffer (pos+1) (some outLen) (stores++[(ch,pos)])
  | .buffer pos none stores => .buffer (pos+1) none (stores++[(ch,pos)])

/-- `for (; width > 0; --width)` of `prints()`, with `pc`. -/
def printPad (padchar : BitVec 8) : Nat → Out×Nat → Out×Nat
  | 0,r => r
  | width+1,r => printPad padchar width (printc r.1 padchar,r.2+1)

/-- `for (; *string; ++string)`. -/
def printString : List (BitVec 8) → Out×Nat → Out×Nat
  | [],r => r
  | c::string,r => printString string (printc r.1 c,r.2+1)

/-- `prints()`; the lengths of strings and texts are not bounded. -/
def prints (out : Out) (string : List (BitVec 8)) (width : Nat) (flags : PadFlags) : Out×Nat :=
  let padchar := if 0<width ∧ flags.zero=true then chr '0' else chr ' '
  let width := if 0<width then if width ≤ string.length then 0 else width-string.length else width
  if flags.right then printPad padchar width (printString string (out,0))
  else printString string (printPad padchar width (out,0))

/-- The loop over the digits of `printi()`, from the last one to the first. -/
def digitLoop (b letbase : Nat) : Nat → Nat → List (BitVec 8) → List (BitVec 8)
  | 0,_,s => s
  | fuel+1,u,s =>
    if u=0 then s else
      let t := u%b
      let t := if 10≤t then t+letbase- '0'.toNat-10 else t
      digitLoop b letbase fuel (u/b) (BitVec.ofNat 8 (t+ '0'.toNat)::s)

/-- The text in front of the sign: the digits behind their prefix. -/
def printiDigits (u b letbase : Nat) (flags : PadFlags) : List (BitVec 8) :=
  let s := if u=0 then [chr '0'] else digitLoop b letbase 64 u []
  if flags.alternate then
    chr '0'::(if b=16 ∧ letbase= 'A'.toNat then chr 'X'::s
      else if b=16 ∧ letbase= 'a'.toNat then chr 'x'::s else s)
  else s

/-- `printi()`; the negation wraps. -/
def printi (out : Out) (i : BitVec 64) (b : Nat) (sg : Bool) (width : Nat) (flags : PadFlags) (letbase : Nat) :
    Out×Nat :=
  let neg := sg && decide (b=10) && i.msb
  let s := printiDigits (if neg then -i else i).toNat b letbase flags
  if neg then
    if 0<width ∧ flags.zero=true then
      let r := prints (printc out (chr '-')) s (width-1) flags
      (r.1,1+r.2)
    else prints out (chr '-'::s) width flags
  else prints out s width flags

/-- `*format`. -/
def deref (format : List (BitVec 8)) : BitVec 8 := format.headD 0

/-- The flags behind a percent sign, and the format behind them. -/
def scanFlags (format : List (BitVec 8)) : PadFlags×List (BitVec 8) :=
  let right := decide (deref format=chr '-')
  let format := if right then format.tail else format
  let alternate := decide (deref format=chr '#')
  let format := if alternate then format.tail else format
  (⟨right,alternate,decide (deref format=chr '0')⟩,format.dropWhile (·=chr '0'))

def isDigit (c : BitVec 8) : Bool := decide ('0'.toNat ≤ c.toNat ∧ c.toNat≤ '9'.toNat)

/-- The width, and the format behind it; `none` is an overflow of the `int`. -/
def scanWidth (format : List (BitVec 8)) : Option (Nat×List (BitVec 8)) :=
  let width := (format.takeWhile isDigit).foldl (fun width c => width*10+(c.toNat- '0'.toNat)) 0
  if width<2^31 then some (width,format.dropWhile isDigit) else none

/-- The words behind `args`, and `acnt`. -/
structure PrintArgs (x : Xlen) where
  words : List (Word x)
  acnt : Nat
  deriving DecidableEq

/-- `va_arg()` of a type of one word, with what `acnt` is counted up by. -/
def PrintArgs.vaArg (a : PrintArgs x) (size : Nat) : Option (Word x×PrintArgs x) :=
  match a.words with
  | [] => none
  | w::words => some (w,⟨words,a.acnt+size⟩)

/-- `while (acnt & (sizeof(unsigned long long) - 1))`. -/
def alignArgs : List (Word x) → Nat → Option (PrintArgs x)
  | [],acnt => if acnt%8=0 then some ⟨[],acnt⟩ else none
  | w::words,acnt => if acnt%8=0 then some ⟨w::words,acnt⟩ else alignArgs words (acnt+4)

/-- The `unsigned long long` in `tmp`. -/
def PrintArgs.vaArgLongLong (a : PrintArgs x) : Option (BitVec 64×PrintArgs x) := do
  let a ← alignArgs a.words a.acnt
  if x.bits=64 then
    let (tmp,a) ← a.vaArg 8
    some (tmp.setWidth 64,a)
  else
    let (lo,a) ← a.vaArg (sizeofPointer x)
    let (hi,a) ← a.vaArg (sizeofPointer x)
    some (hi.setWidth 64 <<< 32 ||| lo.setWidth 64,a)

/-- The call a directive ends in. -/
inductive PrintCall where
  | prints (string : List (BitVec 8))
  | printi (i : BitVec 64) (b : Nat) (sg : Bool) (letbase : Char)

/-- What a conversion leaves: its call, the place in the format that the scan goes on behind, and the
arguments that are left. -/
abbrev Converted (x : Xlen) := Option (Option PrintCall×List (BitVec 8)×PrintArgs x)

/-- A conversion with an argument of one word. -/
def PrintArgs.convertWord (a : PrintArgs x) (size : Nat) (format : List (BitVec 8)) (call : Word x → PrintCall) :
    Converted x := do
  let (w,a) ← a.vaArg size
  some (some (call w),format,a)

/-- `%ll`. -/
def convertLongLong (format : List (BitVec 8)) (a : PrintArgs x) : Converted x := do
  let (tmp,a) ← a.vaArgLongLong
  let c2 := deref (format.drop 2)
  if c2=chr 'u' then some (some (.printi tmp 10 false 'a'),format.drop 2,a)
  else if c2=chr 'x' then some (some (.printi tmp 16 false 'a'),format.drop 2,a)
  else if c2=chr 'X' then some (some (.printi tmp 16 false 'A'),format.drop 2,a)
  else some (some (.printi tmp 10 true '0'),format.drop 1,a)

/-- `%l`. The test for a `c` behind it never holds. -/
def convertLong (format : List (BitVec 8)) (a : PrintArgs x) : Converted x :=
  let c1 := deref (format.drop 1)
  if c1=chr 'u' then a.convertWord 0 (format.drop 1) fun w => .printi (w.setWidth 64) 10 false 'a'
  else if c1=chr 'x' then
    a.convertWord (sizeofPointer x) (format.drop 1) fun w => .printi (w.setWidth 64) 16 false 'a'
  else if c1=chr 'X' then
    a.convertWord (sizeofPointer x) (format.drop 1) fun w => .printi (w.setWidth 64) 16 false 'A'
  else a.convertWord (sizeofPointer x) format fun w => .printi (w.signExtend 64) 10 true '0'

/-- The conversion at `format`. The strings are what the pointers among the arguments point to. -/
def convert (strings : Word x → CStr) (format : List (BitVec 8)) (a : PrintArgs x) : Converted x :=
  let c := deref format
  if c=chr 's' then
    a.convertWord (sizeofPointer x) format fun s => .prints (if s≠0 then (strings s).val else cstr "(null)")
  else if c=chr 'd' ∨ c=chr 'i' then
    a.convertWord 4 format fun w => .printi ((toU32 w).signExtend 64) 10 true '0'
  else if c=chr 'x' then a.convertWord 4 format fun w => .printi ((toU32 w).setWidth 64) 16 false 'a'
  else if c=chr 'X' then a.convertWord 4 format fun w => .printi ((toU32 w).setWidth 64) 16 false 'A'
  else if c=chr 'u' then a.convertWord 4 format fun w => .printi ((toU32 w).setWidth 64) 10 false 'a'
  else if c=chr 'p' then
    a.convertWord (sizeofPointer x) format fun w => .printi (w.setWidth 64) 16 false 'a'
  else if c=chr 'P' then
    a.convertWord (sizeofPointer x) format fun w => .printi (w.setWidth 64) 16 false 'A'
  else if c=chr 'l' ∧ deref (format.drop 1)=chr 'l' then convertLongLong format a
  else if c=chr 'l' then convertLong format a
  else if c=chr 'c' then a.convertWord 4 format fun w => .prints ([w.setWidth 8].takeWhile (·≠0))
  else some (none,format,a)

structure PrintState (x : Xlen) where
  out : Out
  format : List (BitVec 8)
  args : PrintArgs x
  pc : Nat

/-- The call of `prints()` or `printi()`. -/
def PrintCall.run (out : Out) (width : Nat) (flags : PadFlags) : PrintCall → Out×Nat
  | .prints string => OpenSBI.prints out string width flags
  | .printi i b sg letbase => OpenSBI.printi out i b sg width flags letbase.toNat

/-- The body of the loop of `print()`, in front of `++format`. -/
def printBody (strings : Word x → CStr) (s : PrintState x) : Option (PrintState x) :=
  if deref s.format=chr '%' ∧ deref s.format.tail≠chr '%' then do
    let (flags,format) := scanFlags s.format.tail
    let (width,format) ← scanWidth format
    let (call,format,args) ← convert strings format s.args
    let r := match call with
      | some call => call.run s.out width flags
      | none => (s.out,0)
    some ⟨r.1,format,args,s.pc+r.2⟩
  else
    let format := if deref s.format=chr '%' then s.format.tail else s.format
    some ⟨printc s.out (deref format),format,s.args,s.pc+1⟩

/-- The loop of `print()`; `none` is a read behind the format or the arguments. -/
def printLoop (strings : Word x → CStr) : Nat → PrintState x → Option (PrintState x)
  | 0,_ => none
  | fuel+1,s =>
    if deref s.format=0 ∨ deref s.format=chr '%' ∧ deref s.format.tail=0 then some s
    else do
      let s ← printBody strings s
      match s.format with
      | [] => none
      | _::format => printLoop strings fuel { s with format := format }

/-- `**out = '\0'`, if there is an `out`. -/
def Out.terminate : Out → Out
  | .console sent => .console sent
  | .buffer pos outLen stores => .buffer pos outLen (stores++[(0,pos)])

/-- `print()`: the sink, the result, and the arguments that are left. -/
def print (strings : Word x → CStr) (out : Out) (format : List (BitVec 8)) (args : List (Word x)) :
    Option (Out×Nat×List (Word x)) := do
  let s ← printLoop strings (format.length+1) ⟨out,format,⟨args,0⟩,0⟩
  some (s.out.terminate,s.pc,s.args.words)

/-- The stores into a buffer. -/
def Out.stores : Out → List (BitVec 8×Nat)
  | .console _ => []
  | .buffer _ _ stores => stores

/-- `sbi_sprintf()`: the stores from `out` on, and the result. -/
def sbiSprintf (strings : Word x → CStr) (format : List (BitVec 8)) (args : List (Word x)) :
    Option (List (BitVec 8×Nat)×Nat) :=
  (print strings (.buffer 0 none []) format args).map fun r => (r.1.stores,r.2.1)

/-- `sbi_snprintf()`. -/
def sbiSnprintf (strings : Word x → CStr) (outSz : BitVec 32) (format : List (BitVec 8)) (args : List (Word x)) :
    Option (List (BitVec 8×Nat)×Nat) :=
  (print strings (.buffer 0 (some outSz.toNat) []) format args).map fun r => (r.1.stores,r.2.1)

end OpenSBI
