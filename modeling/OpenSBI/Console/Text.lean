import OpenSBI.Console.Print
import Mathlib.Data.List.TakeWhile
import Mathlib.Data.Nat.Digits.Defs
import Mathlib.Tactic.Common

namespace OpenSBI

variable {x : Xlen} {strings : Word x → CStr}

def PadFlags.padchar (flags : PadFlags) : BitVec 8 := if flags.zero then chr '0' else chr ' '

/-- The characters of `prints()`. -/
def printsText (string : List (BitVec 8)) (width : Nat) (flags : PadFlags) : List (BitVec 8) :=
  let pad := List.replicate (width-string.length) flags.padchar
  if flags.right then string++pad else pad++string

/-- The characters of `printi()`. -/
def printiText (i : BitVec 64) (b : Nat) (sg : Bool) (width : Nat) (flags : PadFlags) (letbase : Nat) :
    List (BitVec 8) :=
  let neg := sg && decide (b=10) && i.msb
  let s := printiDigits (if neg then -i else i).toNat b letbase flags
  if neg then
    if 0<width ∧ flags.zero=true then chr '-'::printsText s (width-1) flags
    else printsText (chr '-'::s) width flags
  else printsText s width flags

def PrintCall.text (width : Nat) (flags : PadFlags) : PrintCall → List (BitVec 8)
  | .prints string => printsText string width flags
  | .printi i b sg letbase => printiText i b sg width flags letbase.toNat

/-- The characters of a round, with the format and the arguments behind it. -/
def roundText (strings : Word x → CStr) (format : List (BitVec 8)) (a : PrintArgs x) :
    Option (List (BitVec 8)×List (BitVec 8)×PrintArgs x) :=
  if deref format=chr '%' ∧ deref format.tail≠chr '%' then do
    let (width,rest) ← scanWidth (scanFlags format.tail).2
    let (call,rest,a) ← convert strings rest a
    some ((call.map (PrintCall.text width (scanFlags format.tail).1)).getD [],rest,a)
  else
    let rest := if deref format=chr '%' then format.tail else format
    some ([deref rest],rest,a)

/-- The characters of a format, and the arguments behind it. -/
def textLoop (strings : Word x → CStr) : Nat → List (BitVec 8) → PrintArgs x →
    Option (List (BitVec 8)×PrintArgs x)
  | 0,_,_ => none
  | fuel+1,format,a =>
    if deref format=0 ∨ deref format=chr '%' ∧ deref format.tail=0 then some ([],a)
    else do
      let (text,format,a) ← roundText strings format a
      match format with
      | [] => none
      | _::format => do
        let (rest,a) ← textLoop strings fuel format a
        some (text++rest,a)

section Sink

variable (out : Out) (width : Nat) (flags : PadFlags)

theorem printPad_eq (padchar : BitVec 8) (n : Nat) (r : Out×Nat) :
    printPad padchar n r=((List.replicate n padchar).foldl printc r.1,r.2+n) := by
  induction n generalizing r with
  | zero => rfl
  | succ n ih =>
    rw [printPad,ih,List.replicate_succ,List.foldl_cons]
    simp only [Nat.add_assoc,Nat.add_comm 1 n]

theorem printString_eq (string : List (BitVec 8)) (r : Out×Nat) :
    printString string r=(string.foldl printc r.1,r.2+string.length) := by
  induction string generalizing r with
  | nil => rfl
  | cons c string ih =>
    rw [printString,ih,List.foldl_cons,List.length_cons]
    simp only [Nat.add_assoc,Nat.add_comm 1]

theorem prints_eq (string : List (BitVec 8)) :
    prints out string width flags=
      ((printsText string width flags).foldl printc out,(printsText string width flags).length) := by
  have hwidth : (if 0<width then if width ≤ string.length then 0 else width-string.length else width)=
      width-string.length := by
    split_ifs <;> omega
  have hpad : List.replicate (width-string.length) (if 0<width ∧ flags.zero=true then chr '0' else chr ' ')=
      List.replicate (width-string.length) flags.padchar := by
    rcases Nat.eq_zero_or_pos width with rfl | hpos
    · rw [Nat.zero_sub]
      rfl
    · simp only [hpos,true_and]
      rfl
  rw [prints,printsText]
  simp only [hwidth,printPad_eq,printString_eq,hpad]
  cases flags.right <;> simp [Nat.add_comm]

theorem printi_eq (i : BitVec 64) (b : Nat) (sg : Bool) (letbase : Nat) :
    printi out i b sg width flags letbase=
      ((printiText i b sg width flags letbase).foldl printc out,
        (printiText i b sg width flags letbase).length) := by
  rw [printi,printiText]
  simp only [prints_eq]
  split_ifs
  · rw [List.foldl_cons,List.length_cons,Nat.add_comm]
  all_goals rfl

theorem PrintCall.run_eq (call : PrintCall) :
    call.run out width flags=((call.text width flags).foldl printc out,(call.text width flags).length) := by
  cases call with
  | prints string => exact prints_eq out width flags string
  | printi i b sg letbase => exact printi_eq out width flags i b sg letbase.toNat

end Sink

/-- A round hands its text to the sink. -/
theorem printBody_eq (s : PrintState x) :
    printBody strings s=(roundText strings s.format s.args).map fun r =>
      ⟨r.1.foldl printc s.out,r.2.1,r.2.2,s.pc+r.1.length⟩ := by
  rw [printBody,roundText]
  by_cases hdir : deref s.format=chr '%' ∧ deref s.format.tail≠chr '%'
  · rw [if_pos hdir,if_pos hdir]
    dsimp only
    cases scanWidth (scanFlags s.format.tail).2 with
    | none => rfl
    | some w =>
      simp only [Option.bind_eq_bind,Option.bind_some]
      cases convert strings w.2 s.args with
      | none => rfl
      | some r =>
        obtain ⟨call,rest,a⟩ := r
        cases call with
        | none => rfl
        | some call =>
          simp only [Option.bind_some,PrintCall.run_eq]
          rfl
  · rw [if_neg hdir,if_neg hdir]
    rfl

theorem printLoop_eq (fuel : Nat) (s : PrintState x) :
    (printLoop strings fuel s).map (fun s => (s.out,s.pc,s.args))=
      (textLoop strings fuel s.format s.args).map fun r =>
        (r.1.foldl printc s.out,s.pc+r.1.length,r.2) := by
  induction fuel generalizing s with
  | zero => rfl
  | succ fuel ih =>
    rw [printLoop,textLoop]
    split_ifs with hend
    · rfl
    rw [printBody_eq]
    cases roundText strings s.format s.args with
    | none => rfl
    | some r =>
      obtain ⟨text,format,a⟩ := r
      cases format with
      | nil => rfl
      | cons c format =>
        simp only [Option.map_some,Option.bind_eq_bind,Option.bind_some]
        rw [ih]
        cases textLoop strings fuel format a with
        | none => rfl
        | some r => simp [Nat.add_assoc]

/-- The characters that `print()` hands to its sink, and the arguments that are left. -/
def formatText (strings : Word x → CStr) (format : List (BitVec 8)) (args : List (Word x)) :
    Option (List (BitVec 8)×List (Word x)) :=
  (textLoop strings (format.length+1) format ⟨args,0⟩).map fun r => (r.1,r.2.words)

/-- The sink has no part in what `print()` hands to it. -/
theorem print_eq (out : Out) (format : List (BitVec 8)) (args : List (Word x)) :
    print strings out format args=(formatText strings format args).map fun r =>
      ((r.1.foldl printc out).terminate,r.1.length,r.2) := by
  have hmap : print strings out format args=
      ((printLoop strings (format.length+1) ⟨out,format,⟨args,0⟩,0⟩).map fun s => (s.out,s.pc,s.args)).map
        fun r => (r.1.terminate,r.2.1,r.2.2.words) := by
    rw [print,Option.map_map]
    cases printLoop strings (format.length+1) ⟨out,format,⟨args,0⟩,0⟩ <;> rfl
  rw [hmap,printLoop_eq,formatText,Option.map_map,Option.map_map]
  simp only [Nat.zero_add]
  rfl

/-- What a directive hands to `prints()` and `printi()`. -/
def PrintCall.Plain : PrintCall → Prop
  | .prints string => 0∉string
  | .printi _ b _ letbase => (b=10 ∨ b=16) ∧ letbase∈['0','a','A']

/-- What a conversion hands on is plain. -/
def Converted.Plain (o : Converted x) : Prop := ∀ call rest a,o=some (some call,rest,a) → call.Plain

theorem Converted.Plain.ite {p : Prop} [Decidable p] {o o' : Converted x} (h : o.Plain) (h' : o'.Plain) :
    Converted.Plain (if p then o else o') := by
  split
  · exact h
  · exact h'

theorem PrintCall.Plain.converted {call : PrintCall} (h : call.Plain) (rest : List (BitVec 8)) (a : PrintArgs x) :
    Converted.Plain (some (some call,rest,a)) := by
  intro call' rest' a' heq
  cases heq
  exact h

theorem PrintArgs.convertWord_plain (a : PrintArgs x) (size : Nat) (format : List (BitVec 8))
    {f : Word x → PrintCall} (hf : ∀ w,(f w).Plain) : (a.convertWord size format f).Plain := by
  intro call rest a' h
  obtain ⟨r,-,hr⟩ := Option.bind_eq_some_iff.mp h
  cases hr
  exact hf _

theorem printi_plain (i : BitVec 64) {b : Nat} (sg : Bool) {letbase : Char} (hb : b=10 ∨ b=16)
    (hlet : letbase∈['0','a','A']) : (PrintCall.printi i b sg letbase).Plain := ⟨hb,hlet⟩

theorem convertLong_plain (format : List (BitVec 8)) (a : PrintArgs x) : (convertLong format a).Plain := by
  unfold convertLong
  refine .ite ?_ (.ite ?_ (.ite ?_ ?_))
  all_goals exact a.convertWord_plain _ _ fun w => printi_plain _ _ (by decide) (by decide)

theorem convertLongLong_plain (format : List (BitVec 8)) (a : PrintArgs x) : (convertLongLong format a).Plain := by
  intro call rest a' h
  obtain ⟨r,-,hr⟩ := Option.bind_eq_some_iff.mp h
  revert hr
  refine Converted.Plain.ite ?_ (.ite ?_ (.ite ?_ ?_)) call rest a'
  all_goals exact (printi_plain _ _ (by decide) (by decide)).converted _ _

theorem convert_plain (format : List (BitVec 8)) (a : PrintArgs x) : (convert strings format a).Plain := by
  have hint : ∀ (size : Nat) (i : Word x → BitVec 64) (b : Nat) (sg : Bool) (letbase : Char),(b=10 ∨ b=16) →
      letbase∈['0','a','A'] → (a.convertWord size format fun w => .printi (i w) b sg letbase).Plain :=
    fun size i b sg letbase hb hlet => a.convertWord_plain size format fun w => printi_plain (i w) sg hb hlet
  unfold convert
  refine .ite ?_ (.ite (hint _ _ _ _ _ (by decide) (by decide)) (.ite (hint _ _ _ _ _ (by decide) (by decide))
    (.ite (hint _ _ _ _ _ (by decide) (by decide)) (.ite (hint _ _ _ _ _ (by decide) (by decide))
      (.ite (hint _ _ _ _ _ (by decide) (by decide)) (.ite (hint _ _ _ _ _ (by decide) (by decide))
        (.ite (convertLongLong_plain format a) (.ite (convertLong_plain format a) (.ite ?_ ?_)))))))))
  · -- a string
    refine a.convertWord_plain _ _ fun w => ?_
    by_cases hw : w=0
    · simp only [hw,ne_eq,not_true_eq_false,if_false]
      exact (show (0 : BitVec 8)∉cstr "(null)" by decide)
    · simp only [hw,ne_eq,not_false_eq_true,if_true]
      exact (show (0 : BitVec 8)∉(strings w).val from (strings w).property)
  · -- a character
    refine a.convertWord_plain _ _ fun w => ?_
    intro hw
    simpa using List.mem_takeWhile_imp hw
  · -- none is handed on
    intro call rest a' h
    cases h

/-- The digit `t` as `printi()` writes it. -/
def printiDigit (letbase t : Nat) : BitVec 8 :=
  BitVec.ofNat 8 ((if 10≤t then t+letbase- '0'.toNat-10 else t)+ '0'.toNat)

theorem digitLoop_eq {b : Nat} (letbase : Nat) (hb : 1 < b) {fuel u : Nat} (hu : u<b^fuel) (s : List (BitVec 8)) :
    digitLoop b letbase fuel u s=((b.digits u).map (printiDigit letbase)).reverse++s := by
  induction fuel generalizing u s with
  | zero =>
    rw [Nat.lt_one_iff.mp hu,Nat.digits_zero]
    rfl
  | succ fuel ih =>
    rw [digitLoop]
    split_ifs with h0
    · rw [h0,Nat.digits_zero]
      rfl
    · have hdiv : u/b<b^fuel := by
        rw [Nat.div_lt_iff_lt_mul (by omega)]
        exact hu
      rw [ih hdiv,Nat.digits_def' hb (Nat.pos_of_ne_zero h0),List.map_cons,List.reverse_cons,List.append_assoc]
      rfl

section NoNul

theorem zero_notMem_printsText {string : List (BitVec 8)} (h : 0∉string) (width : Nat) (flags : PadFlags) :
    0∉printsText string width flags := by
  have hpad : ∀ n,0∉List.replicate n flags.padchar := by
    intro n hn
    have hchar := List.eq_of_mem_replicate hn
    revert hchar
    rw [PadFlags.padchar]
    cases flags.zero <;> decide
  rw [printsText]
  split_ifs with hright
  · exact fun hmem => (List.mem_append.mp hmem).elim h (hpad _)
  · exact fun hmem => (List.mem_append.mp hmem).elim (hpad _) h

theorem printiDigit_ne_zero {letbase : Nat} (hlet : letbase∈['0'.toNat,'a'.toNat,'A'.toNat]) {t : Nat} (ht : t<16) :
    printiDigit letbase t≠0 := by
  intro h
  have hnat := congrArg BitVec.toNat h
  simp only [List.mem_cons,List.not_mem_nil,or_false] at hlet
  rw [printiDigit,BitVec.toNat_ofNat] at hnat
  rcases hlet with rfl | rfl | rfl
  all_goals
    simp at hnat
    split_ifs at hnat <;> omega

theorem zero_notMem_printiDigits (u : BitVec 64) {b letbase : Nat} (hb : b=10 ∨ b=16)
    (hlet : letbase∈['0'.toNat,'a'.toNat,'A'.toNat]) (flags : PadFlags) :
    0∉printiDigits u.toNat b letbase flags := by
  have hs : 0∉if u.toNat=0 then [chr '0'] else digitLoop b letbase 64 u.toNat [] := by
    split_ifs with h0
    · decide
    · have hlt : u.toNat<b^64 := u.isLt.trans_le (Nat.pow_le_pow_left (by omega) 64)
      rw [digitLoop_eq letbase (by omega) hlt,List.append_nil,List.mem_reverse,List.mem_map]
      rintro ⟨t,ht,heq⟩
      have htb := Nat.digits_lt_base (by omega : 1 < b) ht
      exact printiDigit_ne_zero hlet (by omega) heq
  rw [printiDigits]
  generalize (if u.toNat=0 then [chr '0'] else digitLoop b letbase 64 u.toNat [])=s at *
  split_ifs
  · simp only [List.mem_cons,not_or]
    exact ⟨by decide,by decide,hs⟩
  · simp only [List.mem_cons,not_or]
    exact ⟨by decide,by decide,hs⟩
  · simp only [List.mem_cons,not_or]
    exact ⟨by decide,hs⟩
  · exact hs

theorem PrintCall.Plain.zero_notMem_text {call : PrintCall} (h : call.Plain) (width : Nat) (flags : PadFlags) :
    0∉call.text width flags := by
  cases call with
  | prints string => exact zero_notMem_printsText h width flags
  | printi i b sg letbase =>
    obtain ⟨hb,hlet⟩ := h
    have hlet' : letbase.toNat∈['0'.toNat,'a'.toNat,'A'.toNat] := List.mem_map_of_mem hlet
    have hs := fun u : BitVec 64 => zero_notMem_printiDigits u hb hlet' flags
    rw [PrintCall.text,printiText]
    split_ifs
    · simp only [List.mem_cons,not_or]
      exact ⟨by decide,zero_notMem_printsText (hs _) _ _⟩
    · apply zero_notMem_printsText
      simp only [List.mem_cons,not_or]
      exact ⟨by decide,hs _⟩
    · exact zero_notMem_printsText (hs _) _ _

theorem zero_notMem_roundText {format rest text : List (BitVec 8)} {a a' : PrintArgs x}
    (hin : deref format≠0) (h : roundText strings format a=some (text,rest,a')) : 0∉text := by
  unfold roundText at h
  split_ifs at h with hdir
  · obtain ⟨w,-,h⟩ := Option.bind_eq_some_iff.mp h
    obtain ⟨r,hconv,h⟩ := Option.bind_eq_some_iff.mp h
    obtain ⟨call,rest1,a1⟩ := r
    cases h
    cases call with
    | none => exact List.not_mem_nil
    | some call => exact (convert_plain _ _ _ _ _ hconv).zero_notMem_text _ _
  · rename_i hpct
    cases h
    have hpct2 : deref format.tail=chr '%' := not_not.mp fun hne => hdir ⟨hpct,hne⟩
    rw [List.mem_singleton,hpct2]
    decide
  · rename_i hpct
    cases h
    rw [List.mem_singleton]
    exact hin.symm

theorem zero_notMem_textLoop {fuel : Nat} {format text : List (BitVec 8)} {a a' : PrintArgs x}
    (h : textLoop strings fuel format a=some (text,a')) : 0∉text := by
  induction fuel generalizing format text a with
  | zero => cases h
  | succ fuel ih =>
    rw [textLoop] at h
    split_ifs at h with hend
    · cases h
      exact List.not_mem_nil
    obtain ⟨r,hround,h⟩ := Option.bind_eq_some_iff.mp h
    obtain ⟨head,rest,a1⟩ := r
    cases rest with
    | nil => cases h
    | cons c rest =>
      obtain ⟨r,hrest,h⟩ := Option.bind_eq_some_iff.mp h
      cases h
      intro hmem
      rcases List.mem_append.mp hmem with hl | hl
      · exact zero_notMem_roundText (fun h0 => hend (.inl h0)) hround hl
      · exact ih hrest hl

theorem zero_notMem_formatText {format text : List (BitVec 8)} {args rest : List (Word x)}
    (h : formatText strings format args=some (text,rest)) : 0∉text := by
  obtain ⟨r,hloop,heq⟩ := Option.map_eq_some_iff.mp h
  cases heq
  exact zero_notMem_textLoop hloop

end NoNul
end OpenSBI
