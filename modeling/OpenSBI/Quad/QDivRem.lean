import OpenSBI.Math.LongDivision
import Mathlib.Data.BitVec

namespace OpenSBI

open Math

/-! 64-bit division where `long` has 32 bits: Knuth's algorithm D on digits of 16 bits. -/

abbrev ULong := BitVec 32

/-- `unsigned short`, since `long` has 32 bits. -/
abbrev Digit := BitVec 16

/-- A pointer into an array of digits is the array and the index it points to. -/
abbrev Digits := ℕ → Digit

def HALF_BITS : ℕ := 16

def quadB : ULong := 1 <<< HALF_BITS

def HHALF (x : ULong) : ULong := x >>> HALF_BITS

def LHALF (x : ULong) : ULong := x &&& (quadB-1)

def COMBINE (a b : ULong) : ULong := a <<< HALF_BITS ||| b

/-- The value of a digit as it takes part in arithmetic. -/
abbrev Digit.up (d : Digit) : ULong := d.setWidth 32

/-- What an array keeps of a value that is assigned to one of its digits. -/
abbrev digit (t : ULong) : Digit := t.setWidth 16

/-- The loop of `shl()` from digit `i` on, with `k` digits still to come below it. -/
def shlLoop (p : ℕ) (sh : ℕ) : ℕ → ℕ → Digits → Digits
  | 0,i,a => Function.update a (p+i) (digit (LHALF ((a (p+i)).up <<< sh)))
  | k+1,i,a => shlLoop p sh k (i+1)
    (Function.update a (p+i) (digit (LHALF ((a (p+i)).up <<< sh) ||| (a (p+(i+1))).up >>> (HALF_BITS-sh))))

def shl (a : Digits) (p len sh : ℕ) : Digits := shlLoop p sh len 0 a

/-- The union's two longs and the halves of each, from index 1 on. -/
def quadDigits (q : BitVec 64) : Digits := fun i =>
  if i=1 then digit (HHALF (q.extractLsb' 32 32))
  else if i=2 then digit (LHALF (q.extractLsb' 32 32))
  else if i=3 then digit (HHALF (q.extractLsb' 0 32))
  else if i=4 then digit (LHALF (q.extractLsb' 0 32))
  else 0

/-- The union read as a quad: `tmp.ul[H]` and `tmp.ul[L]`. -/
def quadOf (h l : ULong) : BitVec 64 := h ++ l

/-- The divisor's leading zeros, passed from `v` on; `none` where a single digit is left, which is at `v[2]` then. -/
def divisorLoop (vs : Digits) : ℕ → ℕ → Option (ℕ×ℕ)
  | 0,_ => none
  | n+1,v => if (vs (v+1))=0 then (if n=1 then none else divisorLoop vs n (v+1)) else some (n+1,v)

/-- Change of plan: short division by one digit. -/
def shortDivide (u : Digits) (t : ULong) : BitVec 64×BitVec 64 :=
  let q1 := digit ((u 1).up/t)
  let rbj := COMBINE ((u 1).up%t) (u 2).up
  let q2 := digit (rbj/t)
  let rbj := COMBINE (rbj%t) (u 3).up
  let q3 := digit (rbj/t)
  let rbj := COMBINE (rbj%t) (u 4).up
  let q4 := digit (rbj/t)
  (quadOf (COMBINE q1.up q2.up) (COMBINE q3.up q4.up),(rbj%t).setWidth 64)

/-- The dividend's leading zeros. That `m` falls below zero is not modelled. -/
def dividendLoop (us : Digits) : ℕ → ℕ → Option (ℕ×ℕ)
  | m,u => if us (u+1)=0 then
      match m with
      | 0 => none
      | m+1 => dividendLoop us m (u+1)
    else some (m,u)

/-- D1: the shift that brings the top digit to at least half the base. -/
def normLoop : ℕ → ULong → ℕ → Option ℕ
  | 0,_,_ => none
  | k+1,t,d => if t<quadB/2 then normLoop k (t <<< 1) (d+1) else some d

/-- D3 from the label `qhat_too_big` on. -/
def qhatTooBig (v1 v2 uj2 : ULong) : ℕ → ULong → ULong → Option ULong
  | 0,_,_ => none
  | k+1,qhat,rhat =>
    let qhat := qhat-1
    let rhat := rhat+v1
    if quadB ≤ rhat then some qhat
    else if COMBINE rhat uj2<v2*qhat then qhatTooBig v1 v2 uj2 k qhat rhat
    else some qhat

/-- D3. No test fails more than twice. -/
def chooseQhat (v1 v2 uj0 uj1 uj2 : ULong) : Option ULong :=
  if uj0=v1 then qhatTooBig v1 v2 uj2 2 quadB uj1
  else
    let n := COMBINE uj0 uj1
    let qhat := n/v1
    let rhat := n%v1
    if COMBINE rhat uj2<v2*qhat then qhatTooBig v1 v2 uj2 2 qhat rhat else some qhat

/-- D4 on one digit. -/
def mulSubDigit (vs : Digits) (v : ℕ) (qhat : ULong) (i : ℕ) (d : Digit) (t : ULong) : Digit×ULong :=
  let t := d.up-(vs (v+1+i)).up*qhat-t
  (digit (LHALF t),(quadB-HHALF t) &&& (quadB-1))

/-- D6 on one digit. -/
def addBackDigit (vs : Digits) (v : ℕ) (i : ℕ) (d : Digit) (t : ULong) : Digit×ULong :=
  let t := t+(d.up+(vs (v+1+i)).up)
  (digit (LHALF t),HHALF t)

/-- D4 for the digit `j` of the quotient. -/
def mulSub (vs : Digits) (v n u : ℕ) (us : Digits) (j : ℕ) (qhat : ULong) : Digits×ULong :=
  let (us,t) := ripple (mulSubDigit vs v qhat) (u+j+1) n us 0
  let t := (us (u+j)).up-t
  (Function.update us (u+j) (digit (LHALF t)),t)

/-- D6 for the digit `j` of the quotient. -/
def addBack (vs : Digits) (v n u : ℕ) (us : Digits) (j : ℕ) : Digits :=
  let (us,t) := ripple (addBackDigit vs v) (u+j+1) n us 0
  Function.update us (u+j) (digit (LHALF ((us (u+j)).up+t)))

/-- D3 to D6 for the digit `j` of the quotient. -/
def divideDigit (vs : Digits) (v n u : ℕ) (us : Digits) (j : ℕ) : Option (Digits×Digit) := do
  let qhat ← chooseQhat (vs (v+1)).up (vs (v+2)).up (us (u+j)).up (us (u+j+1)).up (us (u+j+2)).up
  let (us,t) := mulSub vs v n u us j qhat
  if HHALF t≠0 then some (addBack vs v n u us j,digit (qhat-1)) else some (us,digit qhat)

/-- D7: the loop on `j`, with `k` rounds to go. -/
def divideLoop (vs : Digits) (v n u q : ℕ) : ℕ → ℕ → Digits → Digits → Option (Digits×Digits)
  | 0,_,us,qs => some (us,qs)
  | k+1,j,us,qs => do
    let (us,qj) ← divideDigit vs v n u us j
    divideLoop vs v n u q k (j+1) us (Function.update qs (q+j) qj)

/-- The remainder shifted back, from `u[m+k]` down to `u[m+1]`. -/
def shrLoop (u m d : ℕ) : ℕ → Digits → Digits
  | 0,us => us
  | k+1,us => shrLoop u m d k (Function.update us (u+(m+(k+1)))
    (digit ((us (u+(m+(k+1)))).up >>> d ||| LHALF ((us (u+(m+k))).up <<< (HALF_BITS-d)))))

/-- Program D from the shift of D1 on, up to the results. -/
def programD (us vs : Digits) (n v m u d : ℕ) : Option (BitVec 64×BitVec 64) := do
  let q := 4-m
  let us := if 0<d then shl us u (m+n) d else us
  let vs := if 0<d then shl vs (v+1) (n-1) d else vs
  let (us,qs) ← divideLoop vs v n u q (m+1) 0 us fun _ => 0
  let us := if 0<d then Function.update (shrLoop u m d n us) (u+m) 0 else us
  some (quadOf (COMBINE (qs 1).up (qs 2).up) (COMBINE (qs 3).up (qs 4).up),
    quadOf (COMBINE (us 1).up (us 2).up) (COMBINE (us 3).up (us 4).up))

/-- `__qdivrem()`: the quotient and the remainder. A division of 1 by zero gives all ones. -/
def qdivrem (uq vq : BitVec 64) : Option (BitVec 64×BitVec 64) :=
  if vq=0 then some (quadOf (BitVec.allOnes 32) (BitVec.allOnes 32),uq)
  else if uq<vq then some (0,uq)
  else
    let us := quadDigits uq
    let vs := quadDigits vq
    match divisorLoop vs 4 0 with
    | none => some (shortDivide us (vs 4).up)
    | some (n,v) => do
      let (m,u) ← dividendLoop us (4-n) 0
      let d ← normLoop 16 (vs (v+1)).up 0
      programD us vs n v m u d

/-- `__udivdi3()` -/
def udivdi3 (a b : BitVec 64) : Option (BitVec 64) := (qdivrem a b).map Prod.fst

/-- `__umoddi3()` -/
def umoddi3 (a b : BitVec 64) : Option (BitVec 64) := (qdivrem a b).map Prod.snd

/-- `__divdi3()` -/
def divdi3 (a b : BitVec 64) : Option (BitVec 64) := do
  let (ua,neg) := if a.msb then (-a,1) else (a,0)
  let (ub,neg) := if b.msb then (-b,neg ^^^ 1) else (b,neg)
  let (uq,_) ← qdivrem ua ub
  some (if neg≠0 then -uq else uq)

/-- `__moddi3()` -/
def moddi3 (a b : BitVec 64) : Option (BitVec 64) := do
  let (ua,neg) := if a.msb then (-a,1) else (a,0)
  let ub := if b.msb then -b else b
  let (_,ur) ← qdivrem ua ub
  some (if neg≠0 then -ur else ur)

end OpenSBI
