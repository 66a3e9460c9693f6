import OpenSBI.Console.Padding

namespace OpenSBI

variable {x : Xlen} {strings : Word x → CStr}

/-- Where `print()` handles a directive as the reference does: the scan knows all of it, its width fits an
`int`, the bytes of the arguments in front of an `unsigned long long` are aligned, and so is the text. -/
structure Directive.Right (strings : Word x → CStr) (earlier : Nat) (d : Directive x) : Prop where
  known : d.conv.leftover=[]
  width : d.width<2^31
  aligned : d.conv.isLongLong=true → earlier%8=0
  text : d.TextRight strings

namespace Item

/-- What `acnt` goes up by. -/
def bytes : Item x → Nat
  | .directive d => d.conv.bytes x
  | _ => 0

def Right (strings : Word x → CStr) (earlier : Nat) : Item x → Prop
  | .directive d => d.Right strings earlier
  | _ => True

end Item

section Steps

variable {fuel acnt : Nat} {rest : List (BitVec 8)} {more : List (Word x)}

theorem textLoop_literal {c : BitVec 8} (h : c≠0 ∧ c≠chr '%') (a : PrintArgs x) :
    textLoop strings (fuel+1) (c::rest) a=(textLoop strings fuel rest a).map fun r => (c::r.1,r.2) := by
  have hgo : ¬(deref (c::rest)=0 ∨ deref (c::rest)=chr '%' ∧ deref (c::rest).tail=0) := by
    rintro (h0 | ⟨hpct,-⟩)
    · exact h.1 h0
    · exact h.2 hpct
  have hround : roundText strings (c::rest) a=some ([c],c::rest,a) := by
    rw [roundText,if_neg fun hpct => h.2 hpct.1]
    simp only [show ¬deref (c::rest)=chr '%' from h.2,if_false]
    rfl
  rw [textLoop,if_neg hgo,hround]
  simp only [Option.bind_eq_bind,Option.bind_some]
  cases textLoop strings fuel rest a <;> rfl

theorem textLoop_percent (a : PrintArgs x) :
    textLoop strings (fuel+1) (cstr "%%"++rest) a=
      (textLoop strings fuel rest a).map fun r => (chr '%'::r.1,r.2) := by
  have hround : roundText strings (cstr "%%"++rest) a=some ([chr '%'],chr '%'::rest,a) := rfl
  have hgo : ¬(deref (cstr "%%"++rest)=0 ∨ deref (cstr "%%"++rest)=chr '%' ∧ deref (cstr "%%"++rest).tail=0) := by
    rintro (h0 | ⟨-,h0⟩)
    · exact absurd (show chr '%'=0 from h0) (by decide)
    · exact absurd (show chr '%'=0 from h0) (by decide)
  rw [textLoop,if_neg hgo,hround]
  simp only [Option.bind_eq_bind,Option.bind_some]
  cases textLoop strings fuel rest a <;> rfl

/-- A round over an item that is handled as the reference does. -/
theorem textLoop_item (strings : Word x → CStr) (fuel : Nat) (rest : List (BitVec 8)) (more : List (Word x))
    (item : Item x) (h : item.Right strings acnt) :
    textLoop strings (fuel+1) (item.spelling++rest) ⟨item.words++more,acnt⟩=
      (textLoop strings fuel rest ⟨more,acnt+item.bytes⟩).map fun r => (item.render strings++r.1,r.2) := by
  cases item with
  | literal c hc => exact textLoop_literal hc _
  | percent => exact textLoop_percent _
  | directive d =>
    have hd : d.Right strings acnt := h
    have hstep := d.textLoop_directive strings fuel rest more hd.aligned
    rw [if_pos hd.width,hd.known,(codeText_eq_render_iff d).mpr hd.text] at hstep
    exact hstep

/-- The rounds over such items. -/
theorem textLoop_items (strings : Word x → CStr) (fuel acnt : Nat) (rest : List (BitVec 8))
    (more : List (Word x)) (items : List (Item x))
    (h : ∀ pre item,pre++[item] <+: items → item.Right strings (acnt+(pre.map Item.bytes).sum)) :
    textLoop strings (items.length+fuel) (items.flatMap Item.spelling++rest)
        ⟨items.flatMap Item.words++more,acnt⟩=
      (textLoop strings fuel rest ⟨more,acnt+(items.map Item.bytes).sum⟩).map fun r =>
        (items.flatMap (Item.render strings)++r.1,r.2) := by
  induction items generalizing acnt with
  | nil => simp
  | cons item items ih =>
    have hfirst := textLoop_item strings (items.length+fuel) (items.flatMap Item.spelling++rest)
      (items.flatMap Item.words++more) item (h [] item ⟨items,rfl⟩)
    have hrest := ih (acnt+item.bytes) fun pre it hpre => by
      have hit := h (item::pre) it (List.cons_prefix_cons.mpr ⟨rfl,hpre⟩)
      rwa [List.map_cons,List.sum_cons,← Nat.add_assoc] at hit
    simp only [List.flatMap_cons,List.append_assoc,List.length_cons,List.map_cons,List.sum_cons]
    rw [show items.length+1+fuel=items.length+fuel+1 by omega]
    simp only [List.map_nil,List.sum_nil,Nat.add_zero] at hfirst
    rw [hfirst,hrest,Option.map_map,Nat.add_assoc]
    rfl

end Steps

/-- Every item has a character. -/
theorem Item.length_spelling_pos (item : Item x) : 0 < item.spelling.length := by
  cases item with
  | literal c h => exact Nat.one_pos
  | percent => exact Nat.two_pos
  | directive d => exact Nat.succ_pos _

theorem length_le_flatMap_spelling (items : List (Item x)) : items.length≤(items.flatMap Item.spelling).length := by
  induction items with
  | nil => exact le_rfl
  | cons item items ih =>
    have hpos := item.length_spelling_pos
    rw [List.flatMap_cons,List.length_append,List.length_cons]
    omega

/-- The reference in terms of the characters alone. -/
theorem formatRight_iff (items : List (Item x)) :
    FormatRight strings items ↔ ∀ more,
      formatText strings (items.flatMap Item.spelling) (items.flatMap Item.words++more)=
        some (items.flatMap (Item.render strings),more) := by
  have hconsole : ∀ text sent : List (BitVec 8),text.foldl printc (.console sent)=.console (sent++text) := by
    intro text
    induction text with
    | nil => simp
    | cons c text ih =>
      intro sent
      rw [List.foldl_cons,printc,ih,List.append_assoc]
      rfl
  constructor
  · intro h more
    have hprint := h (.console []) more
    rw [print_eq] at hprint
    obtain ⟨⟨text,left⟩,htext,heq⟩ := Option.map_eq_some_iff.mp hprint
    simp only [hconsole,List.nil_append,Out.terminate,Prod.mk.injEq,Out.console.injEq] at heq
    obtain ⟨rfl,-,rfl⟩ := heq
    exact htext
  · intro h out more
    rw [print_eq,h more]
    rfl

/-- The conversions with a leftover come out longer than they should. -/
theorem length_render_le (strings : Word x → CStr) {d : Directive x} (h : d.conv.leftover≠[]) :
    (d.render strings).length≤(d.codeText strings).length := by
  obtain ⟨n,v,hn⟩ : ∃ n v,d.conv.number d.arg=some (n,v) := by
    obtain ⟨minus,hash,zeros,width,conv,arg⟩ := d
    cases conv with
    | s => exact absurd rfl h
    | c => exact absurd rfl h
    | _ => exact ⟨_,_,rfl⟩
  have hcode := codeText_number strings hn
  have hmark : (if d.hash=true ∧ n.hex=true ∧ v≠0 then n.radixMark else []).length≤(n.codeMark d.flags).length := by
    rw [Numeral.codeMark]
    split_ifs with h1 h2 h3 h4 h5
    · exact le_rfl
    · exact absurd h1.2.1 h3
    · exact absurd h1.1 h2
    all_goals exact Nat.zero_le _
  dsimp only at hcode
  rw [hcode,render_number hn,Directive.lead,justify]
  generalize (if d.hash=true ∧ n.hex=true ∧ v≠0 then n.radixMark else [])=mark at hmark ⊢
  generalize (if v<0 then cstr "-" else [])=sign
  split_ifs <;> simp only [List.length_append,List.length_replicate] <;> omega

theorem textLoop_end (fuel : Nat) (a : PrintArgs x) : textLoop strings (fuel+1) [] a=some ([],a) := rfl

/-- A round over an `unsigned long long` behind bytes that are not aligned. -/
theorem Directive.textLoop_misaligned {d : Directive x} (hll : d.conv.isLongLong=true) {acnt : Nat}
    (h : acnt%8≠0) (fuel : Nat) :
    textLoop strings (fuel+1) d.spelling ⟨d.conv.words d.arg,acnt⟩=none := by
  have hconv : convert strings (d.conv.spelling++[]) ⟨d.conv.words d.arg,acnt⟩=none := by
    obtain ⟨minus,hash,zeros,width,conv,arg⟩ := d
    cases conv with
    | longLong n => exact convert_misaligned n arg [] h
    | _ => cases hll
  have hscan := d.scan []
  obtain ⟨hpct,htail,hend⟩ := d.deref_tail []
  have hgo : ¬(deref (d.spelling++[])=0 ∨ deref (d.spelling++[])=chr '%' ∧ deref (d.spelling++[]).tail=0) := by
    rw [hpct]
    rintro (h0 | ⟨-,h0⟩)
    · exact absurd h0 (by decide)
    · exact hend h0
  have hround : roundText strings (d.spelling++[]) ⟨d.conv.words d.arg,acnt⟩=none := by
    rw [roundText,if_pos ⟨hpct,htail⟩,hscan,scanWidth_spelling (d.conv.spelling_pastWidth []).2]
    split_ifs
    · simp only [Option.bind_eq_bind,Option.bind_some,hconv]
      rfl
    · rfl
  rw [← List.append_nil d.spelling,textLoop,if_neg hgo,hround]
  rfl

theorem Conv.leftover_eq (conv : Conv) : conv.leftover=[] ∨ conv.leftover=cstr "d" := by
  cases conv with
  | long n => cases n <;> simp [Conv.leftover]
  | longLong n => cases n <;> simp [Conv.leftover]
  | _ => exact .inl rfl

/-- A directive that comes out as it should is handled as the reference does. -/
theorem Directive.right_of_textLoop {d : Directive x} {earlier fuel : Nat} (hfuel : 3≤fuel)
    (h : ∃ a,textLoop strings fuel d.spelling ⟨d.conv.words d.arg,earlier⟩=some (d.render strings,a)) :
    d.Right strings earlier := by
  obtain ⟨k,rfl⟩ : ∃ k,fuel=k+3 := ⟨fuel-3,by omega⟩
  obtain ⟨a,ha⟩ := h
  have haligned : d.conv.isLongLong=true → earlier%8=0 := by
    intro hll
    by_contra hne
    rw [d.textLoop_misaligned hll hne] at ha
    cases ha
  have hstep := d.textLoop_directive strings (k+2) [] [] haligned
  rw [List.append_nil,List.append_nil,List.append_nil,ha] at hstep
  by_cases hwidth : d.width<2^31
  · rw [if_pos hwidth] at hstep
    rcases d.conv.leftover_eq with hleft | hleft
    · rw [hleft,textLoop_end] at hstep
      have htext := congrArg (fun r => r.map Prod.fst) hstep
      simp only [Option.map_some,List.append_nil,Option.some.injEq] at htext
      exact ⟨hleft,hwidth,haligned,(codeText_eq_render_iff d).mp htext.symm⟩
    · -- the `d` behind the conversion comes out as well
      have hlong := length_render_le strings (show d.conv.leftover≠[] by rw [hleft]; decide)
      have hd : textLoop strings (k+2) (cstr "d") ⟨[],earlier+d.conv.bytes x⟩=
          some (cstr "d",⟨[],earlier+d.conv.bytes x⟩) := rfl
      rw [hleft,hd] at hstep
      have hlen := congrArg (fun r => (r.map fun r => r.1.length).getD 0) hstep
      simp only [Option.map_some,Option.getD_some,List.length_append,show (cstr "d").length=1 from rfl] at hlen
      omega
  · rw [if_neg hwidth] at hstep
    cases hstep

/-- Items that are handled as the reference does come out right. -/
theorem formatRight_of_right (items : List (Item x))
    (h : ∀ pre item,pre++[item] <+: items → item.Right strings ((pre.map Item.bytes).sum)) :
    FormatRight strings items := by
  rw [formatRight_iff]
  intro more
  obtain ⟨k,hk⟩ := Nat.exists_eq_add_of_le (length_le_flatMap_spelling items)
  have hrun := textLoop_items strings (k+1) 0 [] more items
    fun pre item hpre => by
      rw [Nat.zero_add]
      exact h pre item hpre
  rw [List.append_nil,textLoop_end] at hrun
  rw [formatText,hk,Nat.add_assoc,hrun]
  simp

theorem Directive.two_le_length_spelling (d : Directive x) : 2≤d.spelling.length := by
  have hconv : 0<d.conv.spelling.length := by
    cases d.conv with
    | int n => cases n <;> exact Nat.one_pos
    | long n => exact Nat.succ_pos _
    | longLong n => exact Nat.succ_pos _
    | _ => exact Nat.one_pos
  simp only [Directive.spelling,List.length_cons,List.length_append]
  omega

/-- A directive behind such items that comes out right is one of them. -/
theorem right_of_formatRight (strings : Word x → CStr) (pre : List (Item x)) {d : Directive x}
    (hpre : ∀ front item,front++[item] <+: pre → item.Right strings ((front.map Item.bytes).sum))
    (h : FormatRight strings (pre++[.directive d])) : d.Right strings ((pre.map Item.bytes).sum) := by
  have htext := (formatRight_iff _).mp h []
  have hlen := length_le_flatMap_spelling pre
  have hd := d.two_le_length_spelling
  obtain ⟨fuel,hfuel⟩ := Nat.exists_eq_add_of_le (hlen.trans (Nat.le_add_right _ (d.spelling.length+1)))
  have hrun := textLoop_items strings fuel 0 d.spelling (d.conv.words d.arg) pre fun front item hfront => by
      rw [Nat.zero_add]
      exact hpre front item hfront
  have hspell : (pre++[Item.directive d]).flatMap Item.spelling=pre.flatMap Item.spelling++d.spelling := by
    rw [List.flatMap_append,List.flatMap_singleton]
    rfl
  have hwords : (pre++[Item.directive d]).flatMap Item.words=pre.flatMap Item.words++d.conv.words d.arg := by
    rw [List.flatMap_append,List.flatMap_singleton]
    rfl
  rw [formatText,hspell,hwords,List.append_nil,List.length_append,Nat.add_assoc,hfuel,hrun,Nat.zero_add] at htext
  obtain ⟨r,hr,heq⟩ := Option.map_eq_some_iff.mp htext
  obtain ⟨⟨text,a⟩,hloop,rfl⟩ := Option.map_eq_some_iff.mp hr
  have hrender : (pre++[Item.directive d]).flatMap (Item.render strings)=
      pre.flatMap (Item.render strings)++d.render strings := by
    rw [List.flatMap_append,List.flatMap_singleton]
    rfl
  rw [hrender] at heq
  have htext : text=d.render strings := List.append_cancel_left (congrArg Prod.fst heq)
  exact Directive.right_of_textLoop (by omega) ⟨a,htext ▸ hloop⟩

/-- `print()` writes every part of a format as the reference does exactly when it handles each of its
directives so. -/
theorem print_reference_iff (strings : Word x → CStr) (items : List (Item x)) :
    (∀ pre,pre <+: items → FormatRight strings pre) ↔
      ∀ pre d,pre++[.directive d] <+: items → d.Right strings ((pre.map Item.bytes).sum) := by
  constructor
  · intro h pre
    induction hk : pre.length using Nat.strong_induction_on generalizing pre with
    | _ k ih =>
      intro d hpre
      apply right_of_formatRight strings pre _ (h _ hpre)
      intro front item hfront
      cases item with
      | directive e =>
        have hlt := hfront.length_le
        rw [List.length_append,List.length_singleton] at hlt
        exact ih front.length (by omega) front rfl e (hfront.trans ((List.prefix_append _ _).trans hpre))
      | _ => trivial
  · intro h pre hpre
    apply formatRight_of_right
    intro front item hfront
    cases item with
    | directive d => exact h front d (hfront.trans hpre)
    | _ => trivial

/-- `%ld` writes its `d` behind the number. -/
theorem longDecimal_leftover :
    print (fun _ : Word .rv64 => ⟨[],List.not_mem_nil⟩) (.console []) (cstr "%ld") [5]=
      some (.console (cstr "5d"),2,[]) ∧
    ¬∀ (x : Xlen) (strings : Word x → CStr) (items pre : List (Item x)),pre <+: items →
      FormatRight strings pre := by
  refine ⟨rfl,fun h => ?_⟩
  have hright := right_of_formatRight (fun _ : Word .rv64 => ⟨[],List.not_mem_nil⟩) []
    (fun front item hfront => by simp at hfront) (h _ _ [.directive ⟨false,false,0,0,.long .d,5⟩] _ List.prefix_rfl)
  exact absurd hright.known (by decide)

end OpenSBI
