import OpenSBI.Console.Text

namespace OpenSBI

variable {x : Xlen} {strings : Word x → CStr}

/-- Memory from `out` on, after stores to it. -/
def storedMemory (init : Nat → BitVec 8) (stores : List (BitVec 8×Nat)) : Nat → BitVec 8 :=
  stores.foldl (fun mem store => Function.update mem store.2 store.1) init

/-- A string stands at the start of the memory. -/
structure HoldsString (mem : Nat → BitVec 8) (text : List (BitVec 8)) : Prop where
  noNul : 0∉text
  chars : ∀ i c,text[i]?=some c → mem i=c
  nul : mem text.length=0

/-- `sbi_snprintf()` stores inside the buffer, and leaves a string there that begins the one of
`sbi_sprintf()`. -/
def SnprintfRight (strings : Word x → CStr) (outSz : BitVec 32) (format : List (BitVec 8)) (args : List (Word x))
    (init : Nat → BitVec 8) : Prop :=
  ∃ stores ret whole wholeRet text wholeText,
    sbiSnprintf strings outSz format args=some (stores,ret) ∧
    sbiSprintf strings format args=some (whole,wholeRet) ∧
    (∀ store∈stores,store.2<outSz.toNat) ∧
    HoldsString (storedMemory init stores) text ∧ text.length<outSz.toNat ∧
    HoldsString (storedMemory init whole) wholeText ∧ text <+: wholeText

theorem foldl_printc_buffer (text : List (BitVec 8)) (pos : Nat) (outLen : Option Nat)
    (stores : List (BitVec 8×Nat)) :
    text.foldl printc (.buffer pos outLen stores)=
      .buffer (pos+text.length) (outLen.map fun n => n-text.length) (stores++text.zipIdx pos) := by
  induction text generalizing pos outLen stores with
  | nil => cases outLen <;> simp
  | cons c text ih =>
    cases outLen with
    | none =>
      rw [List.foldl_cons,printc,ih]
      simp [List.zipIdx_cons,Nat.add_assoc,Nat.add_comm 1]
    | some n =>
      rw [List.foldl_cons,printc]
      split_ifs with hn
      · rw [ih]
        simp [List.zipIdx_cons,Nat.add_assoc,Nat.add_comm 1,Nat.sub_sub]
      · rw [ih]
        have hn0 : n=0 := by omega
        simp [List.zipIdx_cons,Nat.add_assoc,Nat.add_comm 1,hn0]

/-- Both calls store the text and a NUL behind it. -/
theorem sbiSprintf_eq (format : List (BitVec 8)) (args : List (Word x)) :
    sbiSprintf strings format args=(formatText strings format args).map fun r =>
      ((r.1++[0]).zipIdx,r.1.length) := by
  rw [sbiSprintf,print_eq,Option.map_map]
  congr 1
  funext r
  simp [foldl_printc_buffer,Out.terminate,Out.stores,List.zipIdx_append]

/-- The size has no effect. -/
theorem sbiSnprintf_eq_sbiSprintf (outSz : BitVec 32) (format : List (BitVec 8)) (args : List (Word x)) :
    sbiSnprintf strings outSz format args=sbiSprintf strings format args := by
  rw [sbiSprintf_eq,sbiSnprintf,print_eq,Option.map_map]
  congr 1
  funext r
  simp [foldl_printc_buffer,Out.terminate,Out.stores,List.zipIdx_append]

theorem storedMemory_zipIdx (text : List (BitVec 8)) (init : Nat → BitVec 8) (pos i : Nat) :
    storedMemory init (text.zipIdx pos) i=if pos ≤ i then text.getD (i-pos) (init i) else init i := by
  induction text generalizing init pos with
  | nil => simp [storedMemory]
  | cons c text ih =>
    have hcons : storedMemory init ((c::text).zipIdx pos)=
        storedMemory (Function.update init pos c) (text.zipIdx (pos+1)) := rfl
    rw [hcons,ih]
    rcases Nat.lt_trichotomy i pos with hi | rfl | hi
    · rw [if_neg (by omega),if_neg (by omega),Function.update_of_ne hi.ne]
    · rw [if_neg (by omega),if_pos le_rfl,Function.update_self,Nat.sub_self]
      rfl
    · rw [if_pos (by omega),if_pos hi.le,Function.update_of_ne hi.ne',
        show i-pos=(i-(pos+1))+1 by omega,List.getD_cons_succ]

theorem holdsString_stores {text : List (BitVec 8)} (h : 0∉text) (init : Nat → BitVec 8) :
    HoldsString (storedMemory init (text++[0]).zipIdx) text where
  noNul := h
  chars i c hc := by
    have hi := (List.getElem?_eq_some_iff.mp hc).1
    rw [storedMemory_zipIdx,if_pos (Nat.zero_le _),Nat.sub_zero,List.getD_eq_getElem?_getD,
      List.getElem?_append_left hi,hc]
    rfl
  nul := by
    rw [storedMemory_zipIdx,if_pos (Nat.zero_le _),Nat.sub_zero,List.getD_eq_getElem?_getD,
      List.getElem?_append_right le_rfl,Nat.sub_self]
    rfl

/-- The bounded call is right exactly when the result of the call without a bound is below the size. -/
theorem sbiSnprintf_right_iff (strings : Word x → CStr) (outSz : BitVec 32) (format : List (BitVec 8))
    (args : List (Word x)) (init : Nat → BitVec 8) :
    SnprintfRight strings outSz format args init ↔
      ∃ whole ret,sbiSprintf strings format args=some (whole,ret) ∧ ret<outSz.toNat := by
  constructor
  · rintro ⟨stores,ret,whole,wholeRet,text,wholeText,hn,hs,hinside,-⟩
    refine ⟨whole,wholeRet,hs,?_⟩
    rw [sbiSnprintf_eq_sbiSprintf,hs] at hn
    cases hn
    rw [sbiSprintf_eq] at hs
    obtain ⟨r,-,heq⟩ := Option.map_eq_some_iff.mp hs
    cases heq
    -- the NUL behind the text is stored as well
    apply hinside (0,r.1.length)
    rw [List.mem_zipIdx_iff_getElem?]
    simp
  · rintro ⟨whole,ret,hs,hlt⟩
    have hn := (sbiSnprintf_eq_sbiSprintf outSz format args).trans hs
    have htext := hs
    rw [sbiSprintf_eq] at htext
    obtain ⟨⟨text,rest⟩,hr,heq⟩ := Option.map_eq_some_iff.mp htext
    cases heq
    have hold := holdsString_stores (zero_notMem_formatText hr) init
    refine ⟨_,_,_,_,text,text,hn,hs,?_,hold,hlt,hold,List.prefix_refl text⟩
    intro store hstore
    have hlast := List.snd_lt_of_mem_zipIdx hstore
    rw [List.length_append,List.length_singleton] at hlast
    exact lt_of_lt_of_le hlast hlt

/-- Two characters in a buffer of two bytes: the NUL is stored behind its end. -/
theorem exactlyFull_overrun :
    ¬∀ (x : Xlen) (strings : Word x → CStr) (outSz : BitVec 32) (format : List (BitVec 8)) (args : List (Word x))
      (init : Nat → BitVec 8),1≤outSz.toNat → (sbiSprintf strings format args).isSome=true →
        SnprintfRight strings outSz format args init := by
  intro h
  have hcall : ∀ strings : Word .rv64 → CStr,sbiSnprintf strings 2 (cstr "ab") []=
      some ([(chr 'a',0),(chr 'b',1),(0,2)],2) := by
    intro strings
    rfl
  obtain ⟨stores,ret,whole,wholeRet,text,wholeText,hn,-,hinside,-⟩ :=
    h .rv64 (fun _ => ⟨[],List.not_mem_nil⟩) 2 (cstr "ab") [] (fun _ => 0) (by decide) (by decide)
  rw [hcall] at hn
  cases hn
  exact absurd (hinside (0,2) (by decide)) (by decide)

end OpenSBI
