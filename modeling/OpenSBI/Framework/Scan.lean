import Mathlib.Data.List.Basic
import Mathlib.Tactic.Common

/-! # Scans that change the elements they pass and may stop -/

namespace OpenSBI.Framework

variable {α σ ρ : Type*}

/-- `f` is tried on the elements in turn. It may change the element and the object it works on, and a
result with `stop` ends the scan. -/
def scan (f : σ → α → ρ×σ×α) (stop : ρ → Prop) [DecidablePred stop] : List α → σ → ρ → List α×σ×ρ
  | [],inp,ret => ([],inp,ret)
  | a::l,inp,_ =>
    let r := f inp a
    if stop r.1 then (r.2.2::l,r.2.1,r.1)
    else
      let rest := scan f stop l r.2.1 r.1
      (r.2.2::rest.1,rest.2)

/-- The number of elements `f` is tried on. -/
def scanned (f : σ → α → ρ×σ×α) (stop : ρ → Prop) [DecidablePred stop] : List α → σ → Nat
  | [],_ => 0
  | a::l,inp => if stop (f inp a).1 then 1 else scanned f stop l (f inp a).2.1+1

variable {f : σ → α → ρ×σ×α} {stop : ρ → Prop} [DecidablePred stop]

@[simp] theorem length_scan (l : List α) (inp : σ) (ret : ρ) : (scan f stop l inp ret).1.length=l.length := by
  induction l generalizing inp ret with
  | nil => rfl
  | cons a l ih =>
    rw [scan]
    split
    · rfl
    · simp only [List.length_cons,ih]

theorem scanned_le (l : List α) (inp : σ) : scanned f stop l inp ≤ l.length := by
  induction l generalizing inp with
  | nil => exact Nat.le_refl 0
  | cons a l ih =>
    rw [scanned,List.length_cons]
    split
    · omega
    · exact Nat.succ_le_succ (ih _)

/-- What `f` keeps of an element a scan keeps of all. -/
theorem scan_forall {P : α → Prop} (hf : ∀ inp a,P a → P (f inp a).2.2) {l : List α}
    (h : ∀ a∈l,P a) (inp : σ) (ret : ρ) : ∀ a∈(scan f stop l inp ret).1,P a := by
  induction l generalizing inp ret with
  | nil => exact h
  | cons b l ih =>
    have hb := hf inp b (h b List.mem_cons_self)
    have hl : ∀ a∈l,P a := fun a ha => h a (List.mem_cons_of_mem b ha)
    rw [scan]
    split
    · exact List.forall_mem_cons.mpr ⟨hb,hl⟩
    · exact List.forall_mem_cons.mpr ⟨hb,ih hl _ _⟩

/-- The elements behind the scanned ones do not matter. -/
theorem scan_congr {l l' : List α} (hlen : l'.length=l.length) {inp : σ} {ret : ρ}
    (h : ∀ i<scanned f stop l inp,l'[i]?=l[i]?) :
    scanned f stop l' inp=scanned f stop l inp ∧
      (scan f stop l' inp ret).2=(scan f stop l inp ret).2 ∧
      ∀ i<scanned f stop l inp,(scan f stop l' inp ret).1[i]?=(scan f stop l inp ret).1[i]? := by
  induction l generalizing l' inp ret with
  | nil =>
    obtain rfl := List.length_eq_zero_iff.mp hlen
    exact ⟨rfl,rfl,fun _ _ => rfl⟩
  | cons a l ih =>
    obtain ⟨b,k,rfl⟩ := List.exists_cons_of_length_eq_add_one hlen
    have hpos : 0<scanned f stop (a::l) inp := by
      rw [scanned]
      split <;> omega
    have hhead := h 0 hpos
    rw [List.getElem?_cons_zero,List.getElem?_cons_zero,Option.some.injEq] at hhead
    subst hhead
    rw [scanned] at h
    rw [scanned,scanned,scan,scan]
    by_cases hstop : stop (f inp b).1
    · simp only [if_pos hstop]
      refine ⟨trivial,trivial,fun i hi => ?_⟩
      obtain rfl : i=0 := by omega
      rfl
    · simp only [if_neg hstop] at h ⊢
      obtain ⟨hn,hr,hl⟩ := @ih k (Nat.succ.inj hlen) (f inp b).2.1 (f inp b).1 fun i hi => by
        simpa using h (i+1) (by omega)
      refine ⟨by rw [hn],hr,fun i hi => ?_⟩
      cases i with
      | zero => rfl
      | succ i =>
        rw [List.getElem?_cons_succ,List.getElem?_cons_succ]
        exact hl i (by omega)

end OpenSBI.Framework
