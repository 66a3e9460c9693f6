import Mathlib.Data.List.Nodup
import Mathlib.Data.Fintype.Card
import Mathlib.Data.Nat.ModEq
import Mathlib.Tactic.Common

/-! # Turnstiles

Parties take tickets with consecutive numbers and are let in one at a time, in the order of the
numbers. The numbers are shown by counters of `w` bits, which wrap. -/

namespace OpenSBI.Framework

/-- The parties that took a ticket, in order, the first `served` of which have left again. Nobody has
two tickets at a time. -/
structure Turnstile (ι : Type*) where
  taken : List ι
  served : Nat
  served_le : served ≤ taken.length
  nodup : (taken.drop served).Nodup

namespace Turnstile

variable {ι : Type*}

def empty : Turnstile ι := ⟨[],0,le_refl 0,List.nodup_nil⟩

/-- The parties that have a ticket, in order. -/
def waiting (T : Turnstile ι) : List ι := T.taken.drop T.served

/-- `i` has the ticket numbered `k`. -/
def Ticket (T : Turnstile ι) (i : ι) (k : Nat) : Prop := T.served ≤ k ∧ T.taken[k]?=some i

def take (T : Turnstile ι) (i : ι) (h : i∉T.waiting) : Turnstile ι where
  taken := T.taken++[i]
  served := T.served
  served_le := by
    rw [List.length_append]
    exact Nat.le_add_right_of_le T.served_le
  nodup := by
    rw [List.drop_append_of_le_length T.served_le]
    exact List.nodup_append.mpr ⟨T.nodup,List.nodup_singleton i,fun a ha b hb hab =>
      h (List.mem_singleton.mp hb ▸ hab ▸ ha)⟩

def leave (T : Turnstile ι) (h : T.waiting≠[]) : Turnstile ι where
  taken := T.taken
  served := T.served+1
  served_le := by
    by_contra hle
    exact h (List.drop_of_length_le (by omega))
  nodup := by
    rw [← List.drop_drop]
    exact T.nodup.sublist (List.drop_sublist 1 _)

theorem waiting_length (T : Turnstile ι) : T.waiting.length=T.taken.length-T.served :=
  List.length_drop

theorem waiting_take (T : Turnstile ι) (i : ι) (h : i∉T.waiting) :
    (T.take i h).waiting=T.waiting++[i] := List.drop_append_of_le_length T.served_le

theorem waiting_leave (T : Turnstile ι) (h : T.waiting≠[]) : (T.leave h).waiting=T.waiting.tail := by
  rw [waiting,waiting,List.tail_drop]
  rfl

theorem mem_waiting_iff {T : Turnstile ι} {i : ι} : i∈T.waiting ↔ ∃ k,T.Ticket i k := by
  rw [waiting,List.mem_iff_getElem?]
  constructor
  · rintro ⟨k,hk⟩
    rw [List.getElem?_drop] at hk
    exact ⟨T.served+k,Nat.le_add_right _ _,hk⟩
  · rintro ⟨k,hle,hk⟩
    refine ⟨k-T.served,?_⟩
    rwa [List.getElem?_drop,Nat.add_sub_cancel' hle]

theorem Ticket.lt {T : Turnstile ι} {i : ι} {k : Nat} (h : T.Ticket i k) : k<T.taken.length :=
  (List.getElem?_eq_some_iff.mp h.2).1

/-- A party has one number. -/
theorem Ticket.unique {T : Turnstile ι} {i : ι} {k l : Nat} (hk : T.Ticket i k) (hl : T.Ticket i l) :
    k=l := by
  have hget : ∀ m,T.Ticket i m → T.waiting[m-T.served]?=some i := by
    intro m hm
    rw [waiting,List.getElem?_drop,Nat.add_sub_cancel' hm.1]
    exact hm.2
  have hlt : k-T.served<T.waiting.length := by
    rw [waiting_length]
    have := hk.lt
    have := hk.1
    omega
  have hsub := (List.getElem?_inj hlt T.nodup).mp ((hget k hk).trans (hget l hl).symm)
  have := hk.1
  have := hl.1
  omega

theorem Ticket.take {T : Turnstile ι} {i j : ι} {k : Nat} (hk : T.Ticket j k) (h : i∉T.waiting) :
    (T.take i h).Ticket j k :=
  ⟨hk.1,(List.getElem?_append_left hk.lt).trans hk.2⟩

theorem ticket_take (T : Turnstile ι) (i : ι) (h : i∉T.waiting) :
    (T.take i h).Ticket i T.taken.length := by
  refine ⟨T.served_le,?_⟩
  change (T.taken++[i])[T.taken.length]?=some i
  simp

/-- The others keep their numbers when the first one leaves. -/
theorem Ticket.leave {T : Turnstile ι} {i j : ι} {k : Nat} (hk : T.Ticket j k) (hi : T.Ticket i T.served)
    (hne : j≠i) (h : T.waiting≠[]) : (T.leave h).Ticket j k := by
  refine ⟨?_,hk.2⟩
  refine Nat.lt_of_le_of_ne hk.1 fun heq => hne ?_
  rw [← heq] at hk
  exact Option.some.inj (hk.2.symm.trans hi.2)

theorem Ticket.waiting_ne_nil {T : Turnstile ι} {i : ι} {k : Nat} (h : T.Ticket i k) : T.waiting≠[] :=
  List.ne_nil_of_mem (mem_waiting_iff.mpr ⟨k,h⟩)

/-- Someone waits exactly if the next ticket to be served has an owner. -/
theorem waiting_ne_nil_iff {T : Turnstile ι} : T.waiting≠[] ↔ ∃ i,T.Ticket i T.served := by
  constructor
  · intro h
    have hlen := List.length_pos_iff.mpr h
    rw [waiting_length] at hlen
    exact ⟨T.taken[T.served],le_refl _,List.getElem?_eq_getElem (by omega)⟩
  · rintro ⟨i,hi⟩
    exact hi.waiting_ne_nil

/-- Of finitely many parties at most that many wait. -/
theorem taken_le [Fintype ι] (T : Turnstile ι) : T.taken.length ≤ T.served+Fintype.card ι := by
  have h := T.nodup.length_le_card
  rw [List.length_drop] at h
  omega

/-! ## Numbers of `w` bits -/

theorem ofNat_inj_of_near {w a b : Nat} (hle : a ≤ b) (hlt : b<a+2^w)
    (h : BitVec.ofNat w a=BitVec.ofNat w b) : a=b := by
  have hmod : a ≡ b [MOD 2^w] := by
    have ht := congrArg BitVec.toNat h
    rwa [BitVec.toNat_ofNat,BitVec.toNat_ofNat] at ht
  have hdvd := (Nat.modEq_iff_dvd' hle).mp hmod
  have hzero := Nat.eq_zero_of_dvd_of_lt hdvd (by omega)
  omega

/-- The counters of the tickets served and taken agree exactly when nobody waits. -/
theorem counters_eq_iff [Fintype ι] {w : Nat} (hcard : Fintype.card ι<2^w) (T : Turnstile ι) :
    BitVec.ofNat w T.served=BitVec.ofNat w T.taken.length ↔ T.waiting=[] := by
  have hle := T.taken_le
  constructor
  · intro h
    have heq := ofNat_inj_of_near T.served_le (by omega) h
    exact List.drop_of_length_le (heq ▸ le_refl _)
  · intro h
    have hlen := T.waiting_length
    rw [h,List.length_nil] at hlen
    have hserved := T.served_le
    rw [show T.served=T.taken.length by omega]

/-- The tickets taken, with their numbers. -/
def numbered (T : Turnstile ι) (w : Nat) : List (ι×BitVec w) :=
  T.taken.mapIdx fun k i => (i,BitVec.ofNat w k)

@[simp] theorem length_numbered (T : Turnstile ι) (w : Nat) : (T.numbered w).length=T.taken.length :=
  List.length_mapIdx

theorem map_fst_numbered (T : Turnstile ι) (w : Nat) : (T.numbered w).map Prod.fst=T.taken := by
  apply List.ext_getElem?
  intro k
  rw [numbered,List.getElem?_map,List.getElem?_mapIdx,Option.map_map]
  exact Option.map_id'

theorem numbered_take (T : Turnstile ι) (w : Nat) (i : ι) (h : i∉T.waiting) :
    (T.take i h).numbered w=T.numbered w++[(i,BitVec.ofNat w T.taken.length)] := List.mapIdx_concat

theorem take_numbered_take (T : Turnstile ι) (w : Nat) (i : ι) (h : i∉T.waiting) {m : Nat}
    (hm : m ≤ T.taken.length) : ((T.take i h).numbered w).take m=(T.numbered w).take m := by
  rw [T.numbered_take w i h,List.take_append_of_le_length (by rwa [length_numbered])]

theorem Ticket.numbered {T : Turnstile ι} {i : ι} {k : Nat} (h : T.Ticket i k) (w : Nat) :
    (T.numbered w)[k]?=some (i,BitVec.ofNat w k) := by
  rw [Turnstile.numbered,List.getElem?_mapIdx,h.2]
  rfl

theorem Ticket.take_numbered {T : Turnstile ι} {i : ι} {k : Nat} (h : T.Ticket i k) (w : Nat) :
    (T.numbered w).take (k+1)=(T.numbered w).take k++[(i,BitVec.ofNat w k)] := by
  rw [List.take_add_one,h.numbered w]
  rfl

end Turnstile
end OpenSBI.Framework
