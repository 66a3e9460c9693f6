import OpenSBI.Console.Scan

namespace OpenSBI

variable {x : Xlen} {strings : Word x → CStr}

/-- The argument of `printi()` for an integer of the type at hand. -/
def Numeral.extend (n : Numeral) {w : Nat} (v : BitVec w) : BitVec 64 :=
  if n=.d then v.signExtend 64 else v.setWidth 64

def Numeral.letbase : Numeral → Char
  | .d => '0'
  | .u => 'a'
  | .x => 'a'
  | .X => 'A'

def Numeral.call (n : Numeral) (i : BitVec 64) : PrintCall := .printi i n.base (n=.d) n.letbase

namespace Conv

/-- The call that `print()` makes for a conversion. -/
def call (strings : Word x → CStr) : (conv : Conv) → conv.Arg x → PrintCall
  | .s,w => .prints (if w≠0 then (strings w).val else cstr "(null)")
  | .c,w => .prints ([w.setWidth 8].takeWhile (·≠0))
  | .i,w => Numeral.d.call (Numeral.d.extend (toU32 w))
  | .p,w => Numeral.x.call (Numeral.x.extend w)
  | .P,w => Numeral.X.call (Numeral.X.extend w)
  | .int n,w => n.call (n.extend (toU32 w))
  | .long n,w => n.call (n.extend w)
  | .longLong n,v => n.call v

/-- What `acnt` goes up by. -/
def bytes (x : Xlen) : Conv → Nat
  | .s => sizeofPointer x
  | .c => 4
  | .i => 4
  | .p => sizeofPointer x
  | .P => sizeofPointer x
  | .int _ => 4
  | .long .u => 0
  | .long _ => sizeofPointer x
  | .longLong _ => 8

def isLongLong : Conv → Bool
  | .longLong _ => true
  | _ => false

/-- What the scan leaves of a conversion: `d` of `ld` and `lld`. -/
def leftover : Conv → List (BitVec 8)
  | .long .d => cstr "d"
  | .longLong .d => cstr "d"
  | _ => []

theorem deref_spelling (conv : Conv) (rest : List (BitVec 8)) :
    deref (conv.spelling++rest)=deref conv.spelling := by
  cases conv with
  | int n => cases n <;> rfl
  | _ => rfl

/-- A conversion starts with a letter. -/
theorem deref_spelling_mem (conv : Conv) : deref conv.spelling∈cstr "sciduxXpPl" := by
  cases conv with
  | int n => cases n <;> decide
  | long n => exact (show chr 'l'∈cstr "sciduxXpPl" by decide)
  | longLong n => exact (show chr 'l'∈cstr "sciduxXpPl" by decide)
  | _ => decide

theorem spelling_pastWidth (conv : Conv) (rest : List (BitVec 8)) : PastWidth (conv.spelling++rest) := by
  have hletter : ∀ c∈cstr "sciduxXpPl",c∉cstr "-#0" ∧ isDigit c=false := by decide
  rw [PastWidth,PastFlags,deref_spelling]
  exact hletter _ conv.deref_spelling_mem

theorem deref_spelling_ne (conv : Conv) (rest : List (BitVec 8)) :
    deref (conv.spelling++rest)≠chr '%' ∧ deref (conv.spelling++rest)≠0 := by
  have hletter : ∀ c∈cstr "sciduxXpPl",c≠chr '%' ∧ c≠0 := by decide
  rw [deref_spelling]
  exact hletter _ conv.deref_spelling_mem

end Conv

theorem alignArgs_aligned (words : List (Word x)) {acnt : Nat} (h : acnt%8=0) :
    alignArgs words acnt=some ⟨words,acnt⟩ := by
  cases words <;> rw [alignArgs,if_pos h]

/-- The words of an `unsigned long long` give it back. -/
theorem vaArgLongLong_words (n : Numeral) (v : (Conv.longLong n).Arg x) (more : List (Word x)) {acnt : Nat}
    (h : acnt%8=0) :
    (PrintArgs.mk ((Conv.longLong n).words v++more) acnt).vaArgLongLong=some (v,⟨more,acnt+8⟩) := by
  rw [PrintArgs.vaArgLongLong,alignArgs_aligned _ h]
  cases x with
  | rv64 =>
    show some ((v.setWidth 64).setWidth 64,_)=_
    rw [BitVec.setWidth_eq,BitVec.setWidth_eq]
    rfl
  | rv32 =>
    show some (((v >>> 32).setWidth 32).setWidth 64 <<< 32 ||| (v.setWidth 32).setWidth 64,_)=some (v,_)
    refine congrArg (fun tmp => some (tmp,_)) (BitVec.eq_of_getLsbD_eq fun i hi => ?_)
    simp only [BitVec.getLsbD_or,BitVec.getLsbD_shiftLeft,BitVec.getLsbD_setWidth,BitVec.getLsbD_ushiftRight]
    by_cases hlow : i<32
    · simp [hlow,hi]
    · simp [hlow,hi,show 32+(i-32)=i by omega,show i-32<64 by omega,show i-32<32 by omega]

/-- A conversion makes its call, and takes its argument. -/
theorem convert_spelling (strings : Word x → CStr) (conv : Conv) (arg : conv.Arg x) (rest : List (BitVec 8)) (more : List (Word x))
    {acnt : Nat} (h : conv.isLongLong=true → acnt%8=0) :
    ∃ last,convert strings (conv.spelling++rest) ⟨conv.words arg++more,acnt⟩=
      some (some (conv.call strings arg),last::(conv.leftover++rest),⟨more,acnt+conv.bytes x⟩) := by
  cases conv with
  | s => exact ⟨_,rfl⟩
  | c => exact ⟨_,rfl⟩
  | i => exact ⟨_,rfl⟩
  | p => exact ⟨_,rfl⟩
  | P => exact ⟨_,rfl⟩
  | int n => cases n <;> exact ⟨_,rfl⟩
  | long n => cases n <;> exact ⟨_,rfl⟩
  | longLong n =>
    have hconv : ∀ a : PrintArgs x,convert strings ((Conv.longLong n).spelling++rest) a=
        convertLongLong ((Conv.longLong n).spelling++rest) a := by
      intro a
      cases n <;> rfl
    rw [hconv,convertLongLong,vaArgLongLong_words n arg more (h rfl)]
    cases n <;> exact ⟨_,rfl⟩

/-- Where the byte count is not aligned a word is passed over. -/
theorem length_alignArgs_lt {words : List (Word x)} {acnt : Nat} {a : PrintArgs x} (h : acnt%8≠0)
    (ha : alignArgs words acnt=some a) : a.words.length<words.length := by
  induction words generalizing acnt with
  | nil =>
    rw [alignArgs,if_neg h] at ha
    cases ha
  | cons w words ih =>
    rw [alignArgs,if_neg h] at ha
    by_cases h4 : (acnt+4)%8=0
    · rw [alignArgs_aligned _ h4] at ha
      cases ha
      exact Nat.lt_succ_self _
    · exact (ih h4 ha).trans (Nat.lt_succ_self _)

theorem length_words_longLong (n : Numeral) (v : (Conv.longLong n).Arg x) :
    ((Conv.longLong n).words v).length=if x.bits=64 then 1 else 2 := by
  rw [Conv.words]
  split_ifs <;> rfl

/-- Without another argument behind it such a conversion then reads too far. -/
theorem convert_misaligned (n : Numeral) (v : (Conv.longLong n).Arg x) (rest : List (BitVec 8)) {acnt : Nat}
    (h : acnt%8≠0) :
    convert strings ((Conv.longLong n).spelling++rest) ⟨(Conv.longLong n).words v,acnt⟩=none := by
  have hconv : ∀ a : PrintArgs x,convert strings ((Conv.longLong n).spelling++rest) a=
      convertLongLong ((Conv.longLong n).spelling++rest) a := by
    intro a
    cases n <;> rfl
  have hargs : (PrintArgs.mk ((Conv.longLong n).words v) acnt).vaArgLongLong=none := by
    rw [PrintArgs.vaArgLongLong]
    cases ha : alignArgs ((Conv.longLong n).words v) acnt with
    | none => rfl
    | some a =>
      have hlt := length_alignArgs_lt h ha
      obtain ⟨words,acnt'⟩ := a
      rw [length_words_longLong] at hlt
      simp only [Option.bind_eq_bind,Option.bind_some]
      split_ifs at hlt ⊢
      · match words,hlt with
        | [],_ => rfl
      · match words,hlt with
        | [],_ => rfl
        | [_],_ => rfl
  rw [hconv,convertLongLong,hargs]
  rfl

namespace Directive

def flags (d : Directive x) : PadFlags := ⟨d.minus,d.hash,decide (0<d.zeros)⟩

/-- What `print()` writes for a directive, up to what the scan leaves of it. -/
def codeText (strings : Word x → CStr) (d : Directive x) : List (BitVec 8) :=
  (d.conv.call strings d.arg).text d.width d.flags

theorem scan (d : Directive x) (rest : List (BitVec 8)) :
    scanFlags (d.spelling++rest).tail=(d.flags,widthText d.width++(d.conv.spelling++rest)) := by
  have hpast := (d.conv.spelling_pastWidth rest).pastFlags_widthText d.width
  have hflags := scanFlags_spelling d.minus d.hash d.zeros hpast
  rw [← List.append_assoc (widthText d.width)] at hflags ⊢
  simp only [spelling,List.cons_append,List.tail_cons,List.append_assoc] at hflags ⊢
  exact hflags

theorem deref_tail (d : Directive x) (rest : List (BitVec 8)) :
    deref (d.spelling++rest)=chr '%' ∧ deref (d.spelling++rest).tail≠chr '%' ∧
      deref (d.spelling++rest).tail≠0 := by
  have hfirst : deref (widthText d.width++(d.conv.spelling++rest))≠chr '%' ∧
      deref (widthText d.width++(d.conv.spelling++rest))≠0 := by
    rw [widthText]
    split_ifs with h0
    · exact d.conv.deref_spelling_ne rest
    · obtain ⟨t,hpos,hlt,heq⟩ := deref_digits h0 (d.conv.spelling++rest)
      rw [heq]
      interval_cases t <;> exact ⟨by decide,by decide⟩
  have htail := deref_flags d.minus d.hash d.zeros hfirst
  refine ⟨rfl,?_⟩
  simp only [spelling,List.cons_append,List.tail_cons,List.append_assoc] at htail ⊢
  exact htail

/-- A round over a directive. -/
theorem round (strings : Word x → CStr) (d : Directive x) (rest : List (BitVec 8)) (more : List (Word x)) {acnt : Nat}
    (h : d.conv.isLongLong=true → acnt%8=0) :
    ∃ last,roundText strings (d.spelling++rest) ⟨d.conv.words d.arg++more,acnt⟩=
      if d.width<2^31 then
        some (d.codeText strings,last::(d.conv.leftover++rest),⟨more,acnt+d.conv.bytes x⟩)
      else none := by
  obtain ⟨last,hconv⟩ := convert_spelling strings d.conv d.arg rest more h
  obtain ⟨hpct,htail,-⟩ := d.deref_tail rest
  refine ⟨last,?_⟩
  rw [roundText,if_pos ⟨hpct,htail⟩,d.scan,scanWidth_spelling (d.conv.spelling_pastWidth rest).2]
  split_ifs
  · simp only [Option.bind_eq_bind,Option.bind_some,hconv]
    rfl
  · rfl

/-- The scan of a directive. -/
theorem textLoop_directive (strings : Word x → CStr) (d : Directive x) (fuel : Nat) (rest : List (BitVec 8)) (more : List (Word x))
    {acnt : Nat} (h : d.conv.isLongLong=true → acnt%8=0) :
    textLoop strings (fuel+1) (d.spelling++rest) ⟨d.conv.words d.arg++more,acnt⟩=
      if d.width<2^31 then
        (textLoop strings fuel (d.conv.leftover++rest) ⟨more,acnt+d.conv.bytes x⟩).map fun r =>
          (d.codeText strings++r.1,r.2)
      else none := by
  obtain ⟨last,hround⟩ := d.round strings rest more h
  obtain ⟨hpct,-,hend⟩ := d.deref_tail rest
  have hgo : ¬(deref (d.spelling++rest)=0 ∨
      deref (d.spelling++rest)=chr '%' ∧ deref (d.spelling++rest).tail=0) := by
    rw [hpct]
    rintro (h0 | ⟨-,h0⟩)
    · exact absurd h0 (by decide)
    · exact hend h0
  rw [textLoop,if_neg hgo,hround]
  split_ifs
  · simp only [Option.bind_eq_bind,Option.bind_some]
    cases textLoop strings fuel (d.conv.leftover++rest) ⟨more,acnt+d.conv.bytes x⟩ <;> rfl
  · rfl

end Directive

section Numbers

/-- `printi()` writes digits as the numeral does. -/
theorem printiDigit_letbase (n : Numeral) {t : Nat} (h : t<n.base) : printiDigit n.letbase.toNat t=n.digit t := by
  have ht : t<16 := h.trans_le (by cases n <;> decide)
  cases n
  case d | u =>
    have ht10 : t<10 := h
    interval_cases t <;> decide
  all_goals interval_cases t <;> decide

theorem Numeral.one_lt_base (n : Numeral) : 1 < n.base := by cases n <;> decide

/-- The prefix that `printi()` writes. -/
def Numeral.codeMark (n : Numeral) (flags : PadFlags) : List (BitVec 8) :=
  if flags.alternate then if n.hex then n.radixMark else cstr "0" else []

theorem printiDigits_eq (n : Numeral) (flags : PadFlags) {u : Nat} (h : u<2^64) :
    printiDigits u n.base n.letbase.toNat flags=n.codeMark flags++n.digits u := by
  have hs : (if u=0 then [chr '0'] else digitLoop n.base n.letbase.toNat 64 u [])=n.digits u := by
    have hlt : u<n.base^64 := h.trans_le (Nat.pow_le_pow_left n.one_lt_base 64)
    rw [Numeral.digits,digitLoop_eq _ n.one_lt_base hlt,List.append_nil]
    congr 2
    apply List.map_congr_left
    intro t ht
    exact printiDigit_letbase n (Nat.digits_lt_base n.one_lt_base ht)
  rw [printiDigits,hs,Numeral.codeMark]
  cases flags.alternate <;> cases n <;> rfl

/-- The text of `printi()` for a numeral. -/
theorem printiText_eq (n : Numeral) (i : BitVec 64) (width : Nat) (flags : PadFlags) :
    (n.call i).text width flags=
      let digits := n.codeMark flags++n.digits (n.value i).natAbs
      if n.value i<0 then
        if 0<width ∧ flags.zero=true then chr '-'::printsText digits (width-1) flags
        else printsText (chr '-'::digits) width flags
      else printsText digits width flags := by
  have hneg : (decide (n=.d) && decide (n.base=10) && i.msb)=decide (n.value i<0) := by
    cases n
    case d => exact BitVec.msb_eq_toInt
    all_goals exact (decide_eq_false (by simp [Numeral.value])).symm
  have habs : (if n.value i<0 then -i else i).toNat=(n.value i).natAbs := by
    cases n
    case d =>
      show (if i.toInt<0 then -i else i).toNat=i.toInt.natAbs
      have hlt := i.isLt
      rw [BitVec.toInt_eq_toNat_cond]
      split_ifs
      · omega
      · omega
      · rw [BitVec.toNat_neg]
        omega
      · omega
    all_goals rw [if_neg (by simp [Numeral.value]),Numeral.value,if_neg (by decide),Int.natAbs_natCast]
  have hlt : (n.value i).natAbs<2^64 := habs ▸ BitVec.isLt _
  rw [Numeral.call,PrintCall.text,printiText,hneg]
  simp only [decide_eq_true_eq,habs]
  rw [printiDigits_eq n flags hlt]

theorem Numeral.value_extend (n : Numeral) {w : Nat} (hw : w≤64) (v : BitVec w) : n.value (n.extend v)=n.value v := by
  rw [Numeral.value,Numeral.value,Numeral.extend]
  split_ifs
  · exact BitVec.toInt_signExtend_of_le hw
  · rw [BitVec.toNat_setWidth_of_le hw]

/-- The number of a conversion is the one of its call. -/
theorem call_number (strings : Word x → CStr) {conv : Conv} {arg : conv.Arg x} {n : Numeral} {v : Int} (h : conv.number arg=some (n,v)) :
    ∃ i,conv.call strings arg=n.call i ∧ n.value i=v := by
  cases conv with
  | s => cases h
  | c => cases h
  | longLong m =>
    cases h
    exact ⟨_,rfl,rfl⟩
  | i =>
    cases h
    exact ⟨_,rfl,Numeral.value_extend _ (by decide) _⟩
  | int m =>
    cases h
    exact ⟨_,rfl,Numeral.value_extend _ (by decide) _⟩
  | _ =>
    cases h
    exact ⟨_,rfl,Numeral.value_extend _ x.bits_le _⟩

/-- The sign, the prefix and the digits, with the padding where the code puts it. -/
theorem codeText_number (strings : Word x → CStr) {d : Directive x} {n : Numeral} {v : Int} (h : d.conv.number d.arg=some (n,v)) :
    let sign := if v<0 then cstr "-" else []
    let digits := n.codeMark d.flags++n.digits v.natAbs
    let pad := List.replicate (d.width-(sign++digits).length) d.flags.padchar
    d.codeText strings=
      if d.minus=true then sign++digits++pad
      else if 0<d.zeros then sign++pad++digits else pad++(sign++digits) := by
  obtain ⟨i,hcall,rfl⟩ := call_number strings h
  rw [Directive.codeText,hcall,printiText_eq]
  generalize n.codeMark d.flags++n.digits (n.value i).natAbs=digits
  have hright : d.flags.right=d.minus := rfl
  have hzero : d.flags.zero=true ↔ 0<d.zeros := decide_eq_true_iff
  simp only [hzero]
  by_cases hneg : n.value i<0
  · have hsign : cstr "-"=[chr '-'] := rfl
    simp only [if_pos hneg,hsign,List.singleton_append]
    by_cases hz : 0<d.width ∧ 0<d.zeros
    · -- the sign goes out first, and counts as one of the characters
      have hlen : d.width-1-digits.length=d.width-(chr '-'::digits).length := by
        rw [List.length_cons]
        omega
      rw [if_pos hz,printsText,hright,hlen,if_pos hz.2]
      cases d.minus <;> rfl
    · rw [if_neg hz,printsText,hright]
      split_ifs with hm hpos
      · rfl
      · have hw : d.width=0 := by omega
        rw [hw,Nat.zero_sub]
        rfl
      · rfl
  · simp only [if_neg hneg,List.nil_append]
    rw [printsText,hright]
    split_ifs <;> rfl

end Numbers

end OpenSBI
