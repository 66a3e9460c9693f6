import OpenSBI.Console.Exact

namespace OpenSBI

variable {x : Xlen} {strings : Word x → CStr}

section Lists

theorem append_replicate_eq_iff {a b : BitVec 8} (h : a≠b) (t : List (BitVec 8)) (k : Nat) :
    t++List.replicate k a=t++List.replicate k b ↔ k=0 := by
  constructor
  · intro heq
    cases k with
    | zero => rfl
    | succ k =>
      rw [List.append_cancel_left_eq,List.replicate_succ,List.replicate_succ] at heq
      exact absurd (List.cons.inj heq).1 h
  · intro hk
    rw [hk]
    rfl

theorem replicate_append_eq_iff {a b : BitVec 8} (h : a≠b) (t : List (BitVec 8)) (k : Nat) :
    List.replicate k a++t=List.replicate k b++t ↔ k=0 := by
  constructor
  · intro heq
    cases k with
    | zero => rfl
    | succ k =>
      rw [List.append_cancel_right_eq,List.replicate_succ,List.replicate_succ] at heq
      exact absurd (List.cons.inj heq).1 h
  · intro hk
    rw [hk]
    rfl

/-- Zeros in front of a prefix are not zeros behind it. -/
theorem zeros_radixMark_iff (n : Numeral) (t : List (BitVec 8)) (k : Nat) :
    List.replicate k (chr '0')++(n.radixMark++t)=n.radixMark++(List.replicate k (chr '0')++t) ↔ k=0 := by
  obtain ⟨c,hmark,hc⟩ : ∃ c,n.radixMark=[chr '0',c] ∧ c≠chr '0' := by
    cases n <;> exact ⟨_,rfl,by decide⟩
  rw [hmark]
  constructor
  · intro heq
    match k with
    | 0 => rfl
    | 1 => exact absurd (List.cons.inj (List.cons.inj heq).2).1.symm hc
    | _+2 => exact absurd (List.cons.inj (List.cons.inj heq).2).1.symm hc
  · intro hk
    rw [hk]
    rfl

/-- The characters that are not blanks. -/
def nonBlanks (t : List (BitVec 8)) : Nat := t.countP (·≠chr ' ')

theorem nonBlanks_append (s t : List (BitVec 8)) : nonBlanks (s++t)=nonBlanks s+nonBlanks t := List.countP_append

theorem nonBlanks_blanks (k : Nat) : nonBlanks (List.replicate k (chr ' '))=0 := by
  simp [nonBlanks,List.countP_replicate]

theorem nonBlanks_justify (left : Bool) (width : Nat) (t : List (BitVec 8)) : nonBlanks (justify left width t)=nonBlanks t := by
  rw [justify]
  cases left <;> simp [nonBlanks_append,nonBlanks_blanks]

end Lists

/-- Where a directive is written as the reference does. -/
def Directive.TextRight (strings : Word x → CStr) (d : Directive x) : Prop :=
  match d.conv.number d.arg with
  | none => 0∉d.conv.string strings d.arg ∧ (0<d.zeros → d.width≤(d.conv.string strings d.arg).length)
  | some (n,v) =>
    let text := d.lead n v++n.digits v.natAbs
    (d.hash=true → n.hex=true ∧ v≠0 ∨ n.hex=false ∧ d.minus=false ∧ 0<d.zeros ∧ text.length<d.width) ∧
      (0<d.zeros → d.minus=true ∨ d.hash=true ∧ n.hex=true → d.width≤text.length)

theorem padchar_flags (d : Directive x) : d.flags.padchar=if 0<d.zeros then chr '0' else chr ' ' := by
  rw [PadFlags.padchar,Directive.flags]
  simp only [decide_eq_true_eq]

/-- A string, or a character that is not zero, goes to `prints()` as it is. -/
theorem codeText_string {d : Directive x} (h : d.conv.number d.arg=none)
    (h0 : 0∉d.conv.string strings d.arg) :
    d.codeText strings=printsText (d.conv.string strings d.arg) d.width d.flags := by
  rw [Directive.codeText]
  obtain ⟨minus,hash,zeros,width,conv,arg⟩ := d
  cases conv with
  | s =>
    show printsText (if arg≠0 then (strings arg).val else cstr "(null)") _ _=
      printsText (if arg=0 then cstr "(null)" else (strings arg).val) _ _
    by_cases harg : arg=0
    · rw [if_neg (not_not.mpr harg),if_pos harg]
    · rw [if_pos harg,if_neg harg]
  | c =>
    have hne : (arg.setWidth 8)≠0 := fun heq => h0 (heq ▸ List.mem_singleton.mpr rfl)
    have htake : [arg.setWidth 8].takeWhile (·≠0)=[arg.setWidth 8] := by
      rw [List.takeWhile_cons_of_pos (by simpa using hne)]
      rfl
    show printsText ([arg.setWidth 8].takeWhile (·≠0)) _ _=printsText [arg.setWidth 8] _ _
    rw [htake]
  | _ => cases h

theorem codeText_string_iff {d : Directive x} (h : d.conv.number d.arg=none) :
    d.codeText strings=justify d.minus d.width (d.conv.string strings d.arg) ↔
      0∉d.conv.string strings d.arg ∧ (0<d.zeros → d.width≤(d.conv.string strings d.arg).length) := by
  by_cases h0 : 0∈d.conv.string strings d.arg
  · -- the character zero is never written
    refine iff_of_false (fun heq => ?_) fun hr => hr.1 h0
    have hplain : (d.conv.call strings d.arg).Plain := by
      obtain ⟨minus,hash,zeros,width,conv,arg⟩ := d
      cases conv with
      | s =>
        exfalso
        revert h0
        show ¬0∈if arg=0 then cstr "(null)" else (strings arg).val
        split_ifs
        · decide
        · exact (strings arg).property
      | c =>
        intro hw
        simpa using List.mem_takeWhile_imp hw
      | _ => cases h
    have hnot := hplain.zero_notMem_text d.width d.flags
    rw [← Directive.codeText,heq,justify] at hnot
    apply hnot
    cases d.minus
    · exact List.mem_append_right _ h0
    · exact List.mem_append_left _ h0
  · rw [codeText_string h h0,printsText,justify,padchar_flags]
    have hright : d.flags.right=d.minus := rfl
    rw [hright]
    generalize d.conv.string strings d.arg=text at h0 ⊢
    have hzero : chr '0'≠chr ' ' := by decide
    by_cases hz : 0<d.zeros
    · rw [if_pos hz]
      cases d.minus
      · refine (replicate_append_eq_iff hzero text _).trans ?_
        rw [Nat.sub_eq_zero_iff_le]
        exact ⟨fun hle => ⟨h0,fun _ => hle⟩,fun hr => hr.2 hz⟩
      · refine (append_replicate_eq_iff hzero text _).trans ?_
        rw [Nat.sub_eq_zero_iff_le]
        exact ⟨fun hle => ⟨h0,fun _ => hle⟩,fun hr => hr.2 hz⟩
    · rw [if_neg hz]
      exact iff_of_true rfl ⟨h0,fun hpos => absurd hpos hz⟩

section Number

variable {d : Directive x} {n : Numeral} {v : Int}

/-- The text that the reference pads. -/
theorem render_number (h : d.conv.number d.arg=some (n,v)) :
    d.render strings=
      if d.minus=false ∧ 0<d.zeros then
        d.lead n v++List.replicate (d.width-(d.lead n v++n.digits v.natAbs).length) (chr '0')++n.digits v.natAbs
      else justify d.minus d.width (d.lead n v++n.digits v.natAbs) := by
  rw [Directive.render,h]

/-- Without the alternate form only the combination of `-` and `0` differs. -/
theorem codeText_plain_iff (strings : Word x → CStr) (h : d.conv.number d.arg=some (n,v)) (hhash : d.hash=false) :
    d.codeText strings=d.render strings ↔
      (0<d.zeros → d.minus=true → d.width≤(d.lead n v++n.digits v.natAbs).length) := by
  have hmark : n.codeMark d.flags=[] := by
    rw [Numeral.codeMark]
    exact if_neg (by simpa [Directive.flags] using hhash)
  have hlead : d.lead n v=if v<0 then cstr "-" else [] := by
    simp [Directive.lead,hhash]
  have hcode := codeText_number strings h
  dsimp only at hcode
  rw [hcode,render_number h,hmark,List.nil_append,← hlead,padchar_flags,justify]
  generalize d.lead n v=lead
  generalize n.digits v.natAbs=digits
  by_cases hz : 0<d.zeros
  · cases hm : d.minus with
    | false => simp [hz]
    | true =>
      have hiff := append_replicate_eq_iff (a := chr '0') (b := chr ' ') (by decide) (lead++digits)
        (d.width-(lead++digits).length)
      rw [Nat.sub_eq_zero_iff_le] at hiff
      simpa [hz] using hiff
  · cases hm : d.minus <;> simp [hz]

/-- With a prefix, zeros on either side of the number differ. -/
theorem codeText_marked_iff (h : d.conv.number d.arg=some (n,v)) (hhash : d.hash=true) (hhex : n.hex=true)
    (hv : v≠0) :
    d.codeText strings=d.render strings ↔
      (0<d.zeros → d.width≤(d.lead n v++n.digits v.natAbs).length) := by
  have hmark : n.codeMark d.flags=n.radixMark := by
    simp [Numeral.codeMark,Directive.flags,hhash,hhex]
  have hlead : d.lead n v=(if v<0 then cstr "-" else [])++n.radixMark := by
    simp [Directive.lead,hhash,hhex,hv]
  have hcode := codeText_number strings h
  dsimp only at hcode
  rw [hcode,render_number h,hmark,hlead,padchar_flags,justify]
  generalize (if v<0 then cstr "-" else [])=sign
  generalize n.digits v.natAbs=digits
  simp only [← List.append_assoc]
  by_cases hz : 0<d.zeros
  · cases hm : d.minus with
    | false =>
      have hiff := zeros_radixMark_iff n digits (d.width-(sign++n.radixMark++digits).length)
      rw [Nat.sub_eq_zero_iff_le] at hiff
      simpa [hz] using hiff
    | true =>
      have hiff := append_replicate_eq_iff (a := chr '0') (b := chr ' ') (by decide) (sign++n.radixMark++digits)
        (d.width-(sign++n.radixMark++digits).length)
      rw [Nat.sub_eq_zero_iff_le] at hiff
      simpa [hz] using hiff
  · cases hm : d.minus <;> simp [hz]

/-- A zero is written with a prefix, and must not be. -/
theorem codeText_markedZero (h : d.conv.number d.arg=some (n,(0 : Int))) (hhash : d.hash=true) (hhex : n.hex=true) :
    d.codeText strings≠d.render strings := by
  have hmark : n.codeMark d.flags=n.radixMark := by
    simp [Numeral.codeMark,Directive.flags,hhash,hhex]
  obtain ⟨c,hc,hc0,hcb⟩ : ∃ c∈n.radixMark,c≠chr '0' ∧ c≠chr ' ' := by
    cases n
    case X => exact ⟨chr 'X',by decide,by decide,by decide⟩
    all_goals exact ⟨chr 'x',by decide,by decide,by decide⟩
  have hcode := codeText_number strings h
  have hin : c∈d.codeText strings := by
    rw [hcode,hmark]
    split_ifs <;> simp [hc]
  have hout : c∉d.render strings := by
    have hlead : d.lead n 0=[] := by simp [Directive.lead]
    rw [render_number h,hlead,justify]
    intro hmem
    have hdigits : n.digits (0 : Int).natAbs=[chr '0'] := rfl
    rw [hdigits] at hmem
    split_ifs at hmem <;> simp [hc0,hcb] at hmem
  intro heq
  exact hout (heq ▸ hin)

/-- A decimal number with a prefix is right only where the prefix passes for a zero of the padding. -/
theorem codeText_markedDecimal_iff (h : d.conv.number d.arg=some (n,v)) (hhash : d.hash=true)
    (hhex : n.hex=false) :
    d.codeText strings=d.render strings ↔
      d.minus=false ∧ 0<d.zeros ∧ (d.lead n v++n.digits v.natAbs).length<d.width := by
  have hmark : n.codeMark d.flags=[chr '0'] := by
    simp [Numeral.codeMark,Directive.flags,hhash,hhex]
    rfl
  have hlead : d.lead n v=if v<0 then cstr "-" else [] := by
    simp [Directive.lead,hhex]
  have hcode := codeText_number strings h
  dsimp only at hcode
  rw [hcode,render_number h,hmark,← hlead,padchar_flags]
  generalize d.lead n v=sign
  generalize n.digits v.natAbs=digits
  have hone : nonBlanks [chr '0']=1 := by decide
  by_cases hz : d.minus=false ∧ 0<d.zeros
  · rw [if_pos hz,if_neg (by simp [hz.1]),if_pos hz.2,if_pos hz.2]
    constructor
    · intro heq
      refine ⟨hz.1,hz.2,?_⟩
      have hlen := congrArg List.length heq
      simp only [List.length_append,List.length_replicate,List.length_singleton] at hlen ⊢
      omega
    · rintro ⟨-,-,hlt⟩
      have hk : d.width-(sign++digits).length=d.width-(sign++([chr '0']++digits)).length+1 := by
        simp only [List.length_append,List.length_singleton] at hlt ⊢
        omega
      rw [hk,List.replicate_succ']
      simp
  · -- the two texts differ in the number of characters that are not blanks
    rw [if_neg hz]
    refine iff_of_false (fun heq => ?_) fun hr => hz ⟨hr.1,hr.2.1⟩
    have hink := congrArg nonBlanks heq
    rw [nonBlanks_justify,nonBlanks_append] at hink
    split_ifs at hink
    all_goals
      simp only [nonBlanks_append,hone] at hink
      omega

end Number

theorem codeText_eq_render_iff (d : Directive x) : d.codeText strings=d.render strings ↔ d.TextRight strings := by
  rw [Directive.TextRight]
  cases hn : d.conv.number d.arg with
  | none =>
    have hrender : d.render strings=justify d.minus d.width (d.conv.string strings d.arg) := by
      rw [Directive.render,hn]
    rw [hrender]
    exact codeText_string_iff hn
  | some r =>
    obtain ⟨n,v⟩ := r
    dsimp only
    cases hhash : d.hash with
    | false => simpa [hhash] using codeText_plain_iff strings hn hhash
    | true =>
      cases hhex : n.hex with
      | false =>
        rw [codeText_markedDecimal_iff hn hhash hhex]
        constructor
        · rintro ⟨hm,hz,hlt⟩
          exact ⟨fun _ => .inr ⟨rfl,hm,hz,hlt⟩,fun _ hor => by simp [hm] at hor⟩
        · rintro ⟨hfirst,-⟩
          rcases hfirst rfl with ⟨hfalse,-⟩ | ⟨-,hr⟩
          · cases hfalse
          · exact hr
      | true =>
        by_cases hv : v=0
        · subst hv
          refine iff_of_false (codeText_markedZero hn hhash hhex) ?_
          rintro ⟨hfirst,-⟩
          rcases hfirst rfl with ⟨-,hne⟩ | ⟨hfalse,-⟩
          · exact hne rfl
          · cases hfalse
        · rw [codeText_marked_iff hn hhash hhex hv]
          exact ⟨fun hr => ⟨fun _ => .inl ⟨rfl,hv⟩,fun hz _ => hr hz⟩,fun hr hz => hr.2 hz (.inr ⟨rfl,rfl⟩)⟩

end OpenSBI
