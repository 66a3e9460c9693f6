import OpenSBI.Console.Reference
import OpenSBI.Console.Text
import Mathlib.Data.Nat.Digits.Lemmas
import Mathlib.Tactic.IntervalCases

namespace OpenSBI

variable {x : Xlen} {strings : Word x → CStr}

section Digits

/-- A digit as a decimal number is read. -/
theorem digit_toNat {t : Nat} (h : t<10) : (Numeral.u.digit t).toNat= '0'.toNat+t := by
  interval_cases t <;> decide

theorem isDigit_digit {t : Nat} (h : t<10) : isDigit (Numeral.u.digit t)=true := by
  rw [isDigit,digit_toNat h]
  exact decide_eq_true ⟨by omega,by simp; omega⟩

/-- Reading the digits of a number gives the number back. -/
theorem foldl_digits (v : Nat) :
    (Numeral.u.digits v).foldl (fun width c => width*10+(c.toNat- '0'.toNat)) 0=v := by
  rw [Numeral.digits]
  split_ifs with h0
  · rw [h0]
    rfl
  rw [List.foldl_reverse]
  have hbase : Numeral.u.base=10 := rfl
  rw [hbase]
  have hlt : ∀ t∈Nat.digits 10 v,t<10 := fun t ht => Nat.digits_lt_base (by decide) ht
  conv_rhs => rw [← Nat.ofDigits_digits 10 v]
  generalize Nat.digits 10 v=l at hlt
  induction l with
  | nil => rfl
  | cons t l ih =>
    rw [List.map_cons,List.foldr_cons,ih fun u hu => hlt u (List.mem_cons_of_mem t hu),
      digit_toNat (hlt t List.mem_cons_self),Nat.ofDigits_cons]
    simp
    omega

theorem isDigit_of_mem_digits {v : Nat} {c : BitVec 8} (h : c∈Numeral.u.digits v) : isDigit c=true := by
  rw [Numeral.digits] at h
  split_ifs at h
  · rw [List.mem_singleton.mp h]
    decide
  · rw [List.mem_reverse,List.mem_map] at h
    obtain ⟨t,ht,rfl⟩ := h
    exact isDigit_digit (Nat.digits_lt_base (by decide) ht)

/-- A positive number does not start with a zero. -/
theorem deref_digits {v : Nat} (h : v≠0) (rest : List (BitVec 8)) :
    ∃ t,0<t ∧ t<10 ∧ deref (Numeral.u.digits v++rest)=Numeral.u.digit t := by
  have hne : Nat.digits 10 v≠[] := Nat.digits_ne_nil_iff_ne_zero.mpr h
  have hlast := Nat.getLast_digit_ne_zero 10 h
  refine ⟨(Nat.digits 10 v).getLast hne,Nat.pos_of_ne_zero hlast,
    Nat.digits_lt_base (by decide) (List.getLast_mem hne),?_⟩
  rw [Numeral.digits,if_neg h]
  have hrev : ((Numeral.u.base.digits v).map Numeral.u.digit).reverse=
      Numeral.u.digit ((Nat.digits 10 v).getLast hne)::
        (((Nat.digits 10 v).dropLast.map Numeral.u.digit).reverse) := by
    conv_lhs => rw [show Numeral.u.base=10 from rfl,← List.dropLast_append_getLast hne]
    simp
  rw [hrev]
  rfl

end Digits

/-- What may stand behind the flags. -/
def PastFlags (format : List (BitVec 8)) : Prop := deref format∉cstr "-#0"

/-- What may stand behind the width. -/
def PastWidth (format : List (BitVec 8)) : Prop := PastFlags format ∧ isDigit (deref format)=false

theorem PastFlags.ne {format : List (BitVec 8)} (h : PastFlags format) :
    deref format≠chr '-' ∧ deref format≠chr '#' ∧ deref format≠chr '0' :=
  ⟨fun heq => h (heq ▸ by decide),fun heq => h (heq ▸ by decide),fun heq => h (heq ▸ by decide)⟩

theorem dropWhile_zeros {format : List (BitVec 8)} (h : PastFlags format) (zeros : Nat) :
    (List.replicate zeros (chr '0')++format).dropWhile (·=chr '0')=format := by
  induction zeros with
  | zero =>
    cases format with
    | nil => rfl
    | cons c format =>
      have hc : c≠chr '0' := h.ne.2.2
      exact List.dropWhile_cons_of_neg (by simpa using hc)
  | succ zeros ih =>
    rw [List.replicate_succ,List.cons_append,List.dropWhile_cons_of_pos (by simp)]
    exact ih

theorem deref_zeros (zeros : Nat) (format : List (BitVec 8)) :
    deref (List.replicate zeros (chr '0')++format)=if 0<zeros then chr '0' else deref format := by
  cases zeros <;> rfl

theorem scanFlags_spelling (minus hash : Bool) (zeros : Nat) {format : List (BitVec 8)} (h : PastFlags format) :
    scanFlags ((if minus then cstr "-" else [])++((if hash then cstr "#" else [])++
      (List.replicate zeros (chr '0')++format)))=(⟨minus,hash,decide (0<zeros)⟩,format) := by
  obtain ⟨hminus,hhash,hzero⟩ := h.ne
  have hz : decide (deref (List.replicate zeros (chr '0')++format)=chr '0')=decide (0<zeros) := by
    rw [deref_zeros]
    split_ifs with hpos <;> simp [hpos,hzero]
  have hm : deref (List.replicate zeros (chr '0')++format)≠chr '-' := by
    rw [deref_zeros]
    split_ifs
    · decide
    · exact hminus
  have hh : deref (List.replicate zeros (chr '0')++format)≠chr '#' := by
    rw [deref_zeros]
    split_ifs
    · decide
    · exact hhash
  have hdrop := dropWhile_zeros h zeros
  generalize List.replicate zeros (chr '0')++format=tail at hz hm hh hdrop
  have hminus' : ∀ l,deref (cstr "-"++l)=chr '-' ∧ (cstr "-"++l).tail=l := fun _ => ⟨rfl,rfl⟩
  have hhash' : ∀ l,deref (cstr "#"++l)=chr '#' ∧ (cstr "#"++l).tail=l := fun _ => ⟨rfl,rfl⟩
  have hne : chr '#'≠chr '-' := by decide
  rw [scanFlags]
  cases minus <;> cases hash
  · simp [hm,hh,hz,hdrop]
  · simp [hhash',hne,hz,hdrop]
  · simp [hminus',hh,hz,hdrop]
  · simp [hminus',hhash',hz,hdrop]

theorem takeWhile_digits {digits format : List (BitVec 8)} (hd : ∀ c∈digits,isDigit c=true)
    (h : isDigit (deref format)=false) :
    (digits++format).takeWhile isDigit=digits ∧ (digits++format).dropWhile isDigit=format := by
  induction digits with
  | nil =>
    cases format with
    | nil => exact ⟨rfl,rfl⟩
    | cons c format =>
      have hc : ¬isDigit c=true := by rw [show isDigit c=false from h]; decide
      exact ⟨List.takeWhile_cons_of_neg hc,List.dropWhile_cons_of_neg hc⟩
  | cons c digits ih =>
    obtain ⟨ht,hw⟩ := ih fun b hb => hd b (List.mem_cons_of_mem c hb)
    have hc := hd c List.mem_cons_self
    rw [List.cons_append,List.takeWhile_cons_of_pos hc,List.dropWhile_cons_of_pos hc,ht,hw]
    exact ⟨rfl,rfl⟩

theorem scanWidth_spelling {width : Nat} {format : List (BitVec 8)} (h : isDigit (deref format)=false) :
    scanWidth (widthText width++format)=if width<2^31 then some (width,format) else none := by
  have hd : ∀ c∈widthText width,isDigit c=true := by
    intro c hc
    rw [widthText] at hc
    split_ifs at hc
    · cases hc
    · exact isDigit_of_mem_digits hc
  have hval : (widthText width).foldl (fun width c => width*10+(c.toNat- '0'.toNat)) 0=width := by
    rw [widthText]
    split_ifs with h0
    · exact h0.symm
    · exact foldl_digits width
  obtain ⟨ht,hw⟩ := takeWhile_digits hd h
  rw [scanWidth,ht,hw,hval]

theorem PastWidth.pastFlags_widthText {format : List (BitVec 8)} (h : PastWidth format) (width : Nat) :
    PastFlags (widthText width++format) := by
  rw [widthText]
  split_ifs with h0
  · exact h.1
  · obtain ⟨t,hpos,hlt,heq⟩ := deref_digits h0 format
    rw [PastFlags,heq]
    interval_cases t <;> decide

/-- Behind a percent sign there is no other one, and no end. -/
theorem deref_flags (minus hash : Bool) (zeros : Nat) {format : List (BitVec 8)}
    (h : deref format≠chr '%' ∧ deref format≠0) :
    let scanned := (if minus then cstr "-" else [])++((if hash then cstr "#" else [])++
      (List.replicate zeros (chr '0')++format))
    deref scanned≠chr '%' ∧ deref scanned≠0 := by
  cases minus with
  | true =>
    show chr '-'≠chr '%' ∧ chr '-'≠0
    exact ⟨by decide,by decide⟩
  | false =>
    cases hash with
    | true =>
      show chr '#'≠chr '%' ∧ chr '#'≠0
      exact ⟨by decide,by decide⟩
    | false =>
      show deref (List.replicate zeros (chr '0')++format)≠chr '%' ∧
        deref (List.replicate zeros (chr '0')++format)≠0
      rw [deref_zeros]
      split_ifs
      · exact ⟨by decide,by decide⟩
      · exact h

end OpenSBI
