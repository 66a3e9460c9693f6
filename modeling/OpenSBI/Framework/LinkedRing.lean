import Mathlib.Data.List.Chain
import Mathlib.Data.List.Nodup
import Mathlib.Logic.Function.Basic
import Mathlib.Tactic.Common

/-! # Rings of doubly linked nodes

The pointers of all nodes are two functions. A node that heads a ring is linked both ways to a list of
distinct nodes, and back to itself. -/

namespace OpenSBI.Framework

/-- The pointers `next` and `prev` of every node. -/
@[ext] structure Links (ν : Type*) where
  next : ν → ν
  prev : ν → ν

namespace Links

variable {ν : Type*}

/-- Neighbours in the list point to each other. -/
def Linked (L : Links ν) (l : List ν) : Prop := l.IsChain fun a b => L.next a=b ∧ L.prev b=a

/-- `h` heads the ring of the nodes `l`. -/
structure Ring (L : Links ν) (h : ν) (l : List ν) : Prop where
  linked : L.Linked (h::l++[h])
  nodup : (h::l).Nodup

/-- The sources of the links are all nodes but the last, their targets all but the first. -/
theorem Linked.congr {L K : Links ν} {l : List ν} (h : L.Linked l)
    (hn : ∀ a∈l.dropLast,K.next a=L.next a) (hp : ∀ b∈l.tail,K.prev b=L.prev b) : K.Linked l := by
  induction l with
  | nil => exact List.IsChain.nil
  | cons a l ih =>
    cases l with
    | nil => exact List.IsChain.singleton a
    | cons b l =>
      obtain ⟨⟨hnext,hprev⟩,hl⟩ := List.isChain_cons_cons.mp h
      rw [List.dropLast_cons_of_ne_nil (List.cons_ne_nil b l)] at hn
      refine List.isChain_cons_cons.mpr ⟨⟨?_,?_⟩,ih hl (fun c hc => ?_) fun c hc => ?_⟩
      · exact (hn a List.mem_cons_self).trans hnext
      · exact (hp b List.mem_cons_self).trans hprev
      · exact hn c (List.mem_cons_of_mem a hc)
      · exact hp c (List.mem_cons_of_mem b hc)

/-- Two linked lists, the last node of one linked to the first of the other. -/
theorem linked_append {L : Links ν} {p q : List ν} {a b : ν} :
    L.Linked (p++[a]++b::q) ↔ L.Linked (p++[a]) ∧ L.Linked (b::q) ∧ L.next a=b ∧ L.prev b=a := by
  rw [Linked,List.isChain_append]
  simp [Linked]

/-- The last node of a ring, or its head. -/
theorem Ring.last {L : Links ν} {h : ν} {l : List ν} (hr : L.Ring h l) :
    ∃ p,h::l=p++[L.prev h] ∧ L.Linked (p++[L.prev h]) := by
  have hne : h::l≠[] := List.cons_ne_nil h l
  have hl := hr.linked
  rw [← List.dropLast_append_getLast hne] at hl
  obtain ⟨hp,-,-,hprev⟩ := linked_append.mp hl
  rw [← hprev] at hp
  refine ⟨(h::l).dropLast,?_,hp⟩
  rw [hprev]
  exact (List.dropLast_append_getLast hne).symm

section Writes

variable [DecidableEq ν]

def setNext (L : Links ν) (a b : ν) : Links ν := { L with next := Function.update L.next a b }
def setPrev (L : Links ν) (a b : ν) : Links ν := { L with prev := Function.update L.prev a b }

/-- A node that points to itself. -/
def alone (L : Links ν) (n : ν) : Links ν := (L.setNext n n).setPrev n n

/-- `n` comes between `a` and `b`. -/
def between (L : Links ν) (n a b : ν) : Links ν :=
  (((L.setPrev n a).setNext n b).setNext a n).setPrev b n

/-- `a` and `b` become neighbours. -/
def join (L : Links ν) (a b : ν) : Links ν := (L.setNext a b).setPrev b a

theorem between_next (L : Links ν) (n a b c : ν) :
    (L.between n a b).next c=if c=a then n else if c=n then b else L.next c := by
  simp only [between,setNext,setPrev,Function.update_apply]

theorem between_prev (L : Links ν) (n a b c : ν) :
    (L.between n a b).prev c=if c=b then n else if c=n then a else L.prev c := by
  simp only [between,setNext,setPrev,Function.update_apply]

theorem join_next (L : Links ν) (a b c : ν) : (L.join a b).next c=if c=a then b else L.next c := by
  simp only [join,setNext,setPrev,Function.update_apply]

theorem join_prev (L : Links ν) (a b c : ν) : (L.join a b).prev c=if c=b then a else L.prev c := by
  simp only [join,setNext,setPrev,Function.update_apply]

variable {L : Links ν} {h n : ν} {l l1 l2 : List ν}

/-- A node alone heads the empty ring. -/
theorem ring_alone (L : Links ν) (h : ν) : (L.alone h).Ring h [] := by
  have hn : (L.alone h).next h=h := Function.update_self ..
  have hp : (L.alone h).prev h=h := Function.update_self ..
  exact ⟨List.isChain_cons_cons.mpr ⟨⟨hn,hp⟩,List.IsChain.singleton h⟩,List.nodup_singleton h⟩

/-- A ring does not notice that a node outside it is left alone. -/
theorem Ring.alone (hr : L.Ring h l) (hn : n∉h::l) : (L.alone n).Ring h l := by
  have hne : ∀ a∈h::l++[h],a≠n := by
    rintro a ha rfl
    rcases List.mem_append.mp ha with hm | hm
    · exact hn hm
    · exact hn (List.mem_singleton.mp hm ▸ List.mem_cons_self)
  refine ⟨hr.linked.congr (fun a ha => ?_) fun a ha => ?_,hr.nodup⟩
  · exact Function.update_of_ne (hne a ((List.dropLast_subset _) ha)) ..
  · exact Function.update_of_ne (hne a (List.mem_of_mem_tail ha)) ..

/-- A new last node. -/
theorem Ring.insert (hr : L.Ring h l) (hn : n∉h::l) : (L.between n (L.prev h) h).Ring h (l++[n]) := by
  obtain ⟨p,hp,hlinked⟩ := hr.last
  have hnd := hr.nodup
  have hhead : ∀ b∈(h::l).tail,b≠h := fun b hb heq => (List.nodup_cons.mp hr.nodup).1 (heq ▸ hb)
  have hne : ∀ a∈h::l,a≠n := fun a ha heq => hn (heq ▸ ha)
  rw [hp] at hnd hhead hne
  have hlast : ∀ a∈p,a≠L.prev h := fun a ha =>
    (List.nodup_append.mp hnd).2.2 a ha _ (List.mem_singleton_self _)
  constructor
  · rw [← List.cons_append,hp,List.append_assoc]
    refine linked_append.mpr ⟨hlinked.congr (fun a ha => ?_) fun b hb => ?_,?_,?_,?_⟩
    · rw [List.dropLast_concat] at ha
      rw [between_next,if_neg (hlast a ha),if_neg (hne a (List.mem_append_left _ ha))]
    · rw [between_prev,if_neg (hhead b hb),if_neg (hne b (List.mem_of_mem_tail hb))]
    · refine List.isChain_cons_cons.mpr ⟨⟨?_,?_⟩,List.IsChain.singleton h⟩
      · rw [between_next,if_neg (hne _ (List.mem_append_right _ List.mem_cons_self)).symm,if_pos rfl]
      · rw [between_prev,if_pos rfl]
    · rw [between_next,if_pos rfl]
    · have hnh : n≠h := fun heq => hn (heq ▸ List.mem_cons_self)
      rw [between_prev,if_neg hnh,if_pos rfl]
  · rw [← List.cons_append]
    exact List.nodup_append.mpr ⟨hr.nodup,List.nodup_singleton n,fun a ha b hb heq =>
      hn (List.mem_singleton.mp hb ▸ heq ▸ ha)⟩

/-- A node is taken out. -/
theorem Ring.remove (hr : L.Ring h (l1++n::l2)) : (L.join (L.prev n) (L.next n)).Ring h (l1++l2) := by
  obtain ⟨c,q,hq⟩ : ∃ c q,l2++[h]=c::q := List.exists_cons_of_ne_nil (by simp)
  obtain ⟨p,a,hp⟩ : ∃ p a,h::l1=p++[a] :=
    ⟨_,_,(List.dropLast_append_getLast (List.cons_ne_nil h l1)).symm⟩
  -- the ring is cut behind `a` and before `c`, the neighbours of `n`
  have hcut : h::(l1++n::l2)++[h]=p++[a]++n::c::q := by rw [← hp,← hq]; simp
  have hl := hr.linked
  rw [hcut] at hl
  obtain ⟨hpa,hrest,-,rfl⟩ := linked_append.mp hl
  obtain ⟨⟨rfl,-⟩,hcq⟩ := List.isChain_cons_cons.mp hrest
  have hcq : L.Linked (L.next n::q) := hcq
  have hnd : (h::l1++l2).Nodup := hr.nodup.sublist (by simp)
  obtain ⟨hnd1,hnd2,hapart⟩ := List.nodup_append.mp hnd
  have hsource : ∀ b∈p,b≠L.prev n := by
    rw [hp] at hnd1
    exact fun b hb => (List.nodup_append.mp hnd1).2.2 b hb _ (List.mem_singleton_self _)
  have htarget : ∀ b∈q,b≠L.next n := by
    have hndq : (l2++[h]).Nodup := List.nodup_append.mpr ⟨hnd2,List.nodup_singleton h,fun b hb d hd heq =>
      hapart h List.mem_cons_self b hb ((List.mem_singleton.mp hd).symm.trans heq.symm)⟩
    rw [hq] at hndq
    rintro b hb rfl
    exact (List.nodup_cons.mp hndq).1 hb
  constructor
  · have hjoin : h::(l1++l2)++[h]=p++[L.prev n]++L.next n::q := by rw [← hp,← hq]; simp
    rw [hjoin]
    refine linked_append.mpr ⟨hpa.congr (fun b hb => ?_) fun b hb => ?_,
      hcq.congr (fun b hb => ?_) fun b hb => ?_,?_,?_⟩
    · rw [List.dropLast_concat] at hb
      rw [join_next,if_neg (hsource b hb)]
    · rw [← hp] at hb
      rw [join_prev,if_neg]
      rintro rfl
      have hc : L.next n∈l2++[h] := hq ▸ List.mem_cons_self
      rcases List.mem_append.mp hc with hm | hm
      · exact hapart _ (List.mem_cons_of_mem h hb) _ hm rfl
      · exact (List.nodup_cons.mp hnd1).1 (List.mem_singleton.mp hm ▸ hb)
    · rw [← hq,List.dropLast_concat] at hb
      rw [join_next,if_neg]
      rintro rfl
      exact hapart _ (hp ▸ List.mem_append_right p List.mem_cons_self) _ hb rfl
    · rw [join_prev,if_neg (htarget b hb)]
    · rw [join_next,if_pos rfl]
    · rw [join_prev,if_pos rfl]
  · exact hnd

end Writes

/-- A walk over the ring from `pos` to the first node that satisfies `p`, of at most `fuel` steps. -/
def search [DecidableEq ν] (L : Links ν) (h : ν) (p : ν → Bool) : Nat → ν → Option (Option ν)
  | 0,_ => none
  | fuel+1,pos => if pos=h then some none else if p pos then some (some pos) else L.search h p fuel (L.next pos)

/-- More fuel does not change what a walk found. -/
theorem search_mono [DecidableEq ν] {L : Links ν} {h : ν} {p : ν → Bool} {fuel more : Nat} (hle : fuel ≤ more)
    {pos : ν} {r : Option ν} (hr : L.search h p fuel pos=some r) : L.search h p more pos=some r := by
  induction fuel generalizing pos more with
  | zero => cases hr
  | succ fuel ih =>
    obtain ⟨more,rfl⟩ := Nat.exists_eq_add_of_le' (Nat.zero_lt_of_lt hle)
    rw [search] at hr ⊢
    split_ifs at hr ⊢ with hend hp
    · exact hr
    · exact hr
    · exact ih (Nat.le_of_succ_le_succ hle) hr

/-- With enough fuel the walk is the search of the list. -/
theorem Ring.search [DecidableEq ν] {L : Links ν} {h : ν} {l : List ν} (hr : L.Ring h l) (p : ν → Bool)
    {fuel : Nat} (hfuel : l.length<fuel) : L.search h p fuel (L.next h)=some (l.find? p) := by
  -- the walk stands behind `a`, in front of the rest of the list
  suffices hwalk : ∀ (l : List ν) (a : ν) (fuel : Nat),L.Linked (a::l++[h]) → h∉l → l.length<fuel →
      L.search h p fuel (L.next a)=some (l.find? p) from
    hwalk l h fuel hr.linked (List.nodup_cons.mp hr.nodup).1 hfuel
  intro l
  induction l with
  | nil =>
    intro a fuel hl _ hlt
    obtain ⟨fuel,rfl⟩ := Nat.exists_eq_add_of_lt hlt
    rw [(List.isChain_cons_cons.mp hl).1.1]
    simp [Links.search]
  | cons b l ih =>
    intro a fuel hl hout hlt
    obtain ⟨⟨hnext,-⟩,hl'⟩ := List.isChain_cons_cons.mp hl
    rw [List.mem_cons,not_or] at hout
    cases fuel with
    | zero => exact absurd hlt (Nat.not_lt_zero _)
    | succ fuel =>
      rw [hnext,Links.search,if_neg (Ne.symm hout.1),List.find?_cons]
      cases hp : p b with
      | true => rfl
      | false => exact ih b fuel hl' hout.2 (Nat.lt_of_succ_lt_succ hlt)

/-- A node heads one list. -/
theorem Ring.unique {L : Links ν} {h : ν} {l k : List ν} (hl : L.Ring h l) (hk : L.Ring h k) : l=k := by
  suffices hlists : ∀ (l k : List ν) (a : ν),L.Linked (a::l++[h]) → L.Linked (a::k++[h]) → h∉l → h∉k → l=k from
    hlists l k h hl.linked hk.linked (List.nodup_cons.mp hl.nodup).1 (List.nodup_cons.mp hk.nodup).1
  intro l
  induction l with
  | nil =>
    intro k a hl hk _ hout
    have hnext := (List.isChain_cons_cons.mp hl).1.1
    cases k with
    | nil => rfl
    | cons c k =>
      have hc := (List.isChain_cons_cons.mp hk).1.1
      exact absurd (hnext.symm.trans hc ▸ List.mem_cons_self) hout
  | cons b l ih =>
    intro k a hl hk hout hout'
    obtain ⟨⟨hnext,-⟩,hl'⟩ := List.isChain_cons_cons.mp hl
    cases k with
    | nil =>
      have hc := (List.isChain_cons_cons.mp hk).1.1
      exact absurd (hc.symm.trans hnext ▸ List.mem_cons_self) hout
    | cons c k =>
      obtain ⟨⟨hc,-⟩,hk'⟩ := List.isChain_cons_cons.mp hk
      obtain rfl := hnext.symm.trans hc
      rw [List.mem_cons,not_or] at hout hout'
      rw [ih k b hl' hk' hout.2 hout'.2]

end Links
end OpenSBI.Framework
