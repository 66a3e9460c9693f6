import OpenSBI.Console.Bounded
import OpenSBI.Console.Formats

namespace OpenSBI

variable {x : Xlen}

/-- The characters of a format that stand for themselves. -/
def literals (text : List (BitVec 8)) (h : ∀ c∈text,c≠0 ∧ c≠chr '%') : List (Item x) :=
  text.attach.map fun c => .literal c.1 (h c.1 c.2)

def plain (n : Numeral) (arg : Word x) : Item x := .directive ⟨false,false,0,0,.int n,arg⟩

section Items

variable {strings : Word x → CStr} {text : List (BitVec 8)} {h : ∀ c∈text,c≠0 ∧ c≠chr '%'}

theorem flatMap_literals {α : Type} {f : Item x → List α} {g : BitVec 8 → List α}
    (hf : ∀ c hc,f (.literal c hc)=g c) : (literals text h).flatMap f=text.flatMap g := by
  rw [literals,List.flatMap_map]
  simp only [hf]
  conv_rhs => rw [← List.attach_map_subtype_val text]
  rw [List.flatMap_map]

theorem spelling_literals : (literals (x := x) text h).flatMap Item.spelling=text := by
  rw [flatMap_literals (g := fun c => [c]) fun _ _ => rfl]
  exact List.flatMap_singleton' text

theorem render_literals : (literals text h).flatMap (Item.render strings)=text := by
  rw [flatMap_literals (g := fun c => [c]) fun _ _ => rfl]
  exact List.flatMap_singleton' text

theorem words_literals : (literals (x := x) text h).flatMap Item.words=[] := by
  rw [flatMap_literals (g := fun _ => []) fun _ _ => rfl]
  simp

theorem right_literals {item : Item x} (hi : item∈literals text h) (earlier : Nat) : item.Right strings earlier := by
  obtain ⟨c,-,rfl⟩ := List.mem_map.mp hi
  trivial

theorem right_plain (n : Numeral) (arg : Word x) (earlier : Nat) : (plain n arg).Right strings earlier where
  known := rfl
  width := Nat.two_pow_pos 31
  aligned := nofun
  text := ⟨nofun,nofun⟩

theorem render_plain (n : Numeral) (arg : Word x) (hn : 0≤n.value (toU32 arg)) :
    (plain n arg).render strings=n.digits (n.value (toU32 arg)).natAbs := by
  have hd : (plain n arg).render strings=justify false 0
      ((if n.value (toU32 arg)<0 then cstr "-" else [])++[]++n.digits (n.value (toU32 arg)).natAbs) := rfl
  rw [hd,if_neg (not_lt.mpr hn)]
  simp [justify]

/-- Items that come out right wherever they stand. -/
theorem formatRight_of_forall {items : List (Item x)} (hr : ∀ item∈items,∀ earlier,item.Right strings earlier) :
    FormatRight strings items := by
  apply formatRight_of_right
  intro pre item hpre
  exact hr item (hpre.subset (by simp)) _

/-- The string that stands in the buffer. -/
theorem takeWhile_holdsString {mem : Nat → BitVec 8} (hm : HoldsString mem text) {n : Nat} (hn : text.length<n) :
    ((List.range n).map mem).takeWhile (·≠0)=text := by
  obtain ⟨k,rfl⟩ := Nat.exists_eq_add_of_lt hn
  have htext : (List.range text.length).map mem=text := by
    apply List.ext_getElem?
    intro i
    rcases Nat.lt_or_ge i text.length with hi | hi
    · rw [List.getElem?_map,List.getElem?_range hi,Option.map_some,List.getElem?_eq_getElem hi]
      exact congrArg some (hm.chars i _ (List.getElem?_eq_getElem hi))
    · rw [List.getElem?_eq_none (by simpa using hi),List.getElem?_eq_none hi]
  rw [Nat.add_assoc,List.range_add,List.map_append,htext,List.takeWhile_append_of_pos]
  · rw [List.range_succ_eq_map,List.map_cons,List.map_cons,Nat.add_zero,hm.nul]
    simp
  · intro c hc
    rw [decide_eq_true_eq]
    rintro rfl
    exact hm.noNul hc

theorem length_digits_le (n : Numeral) {v k : Nat} (hv : v<n.base^k) (hk : 0<k) : (n.digits v).length ≤ k := by
  rw [Numeral.digits]
  split_ifs with h0
  · exact hk
  · rw [List.length_reverse,List.length_map]
    exact (Nat.digits_length_le_iff n.one_lt_base v).mpr hv

theorem spelling_plain (n : Numeral) (arg : Word x) : (plain n arg).spelling=chr '%'::n.spelling := rfl

theorem words_plain (n : Numeral) (arg : Word x) : (plain n arg).words=[arg] := rfl

theorem toU32_signExtend (c : BitVec 32) : toU32 (c.signExtend x.bits : Word x)=c := by
  apply BitVec.eq_of_getLsbD_eq
  intro i hi
  have hx := x.bits_ge
  rw [toU32,BitVec.getLsbD_setWidth,BitVec.getLsbD_signExtend,if_pos hi]
  simp [hi,show i<x.bits by omega]

/-- An `unsigned int` among the arguments. -/
theorem render_cell (c : BitVec 32) : (plain .x (c.signExtend x.bits : Word x)).render strings=
    Numeral.x.digits c.toNat := by
  have hv : Numeral.x.value (toU32 (c.signExtend x.bits : Word x))=c.toNat := by
    rw [toU32_signExtend]
    rfl
  rw [render_plain _ _ (hv ▸ Int.natCast_nonneg _),hv]
  rfl

theorem render_index {index : Nat} (hi : index<2^31) :
    (plain .d (BitVec.ofNat x.bits index)).render strings=Numeral.d.digits index := by
  have hx := x.bits_ge
  have hv : Numeral.d.value (toU32 (BitVec.ofNat x.bits index))=index := by
    have hnat : (toU32 (BitVec.ofNat x.bits index)).toNat=index := by
      have hpow : 2^32≤2^x.bits := Nat.pow_le_pow_right (by decide) hx
      rw [toU32,BitVec.toNat_setWidth,BitVec.toNat_ofNat,Nat.mod_eq_of_lt (show index<2^x.bits by omega),
        Nat.mod_eq_of_lt (by omega)]
    rw [Numeral.value,if_pos rfl,BitVec.toInt_eq_toNat_of_lt (by omega),hnat]
  rw [render_plain _ _ (hv ▸ Int.natCast_nonneg _),hv]
  rfl

end Items
end OpenSBI
