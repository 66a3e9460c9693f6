import OpenSBI.Riscv.SbiString

namespace OpenSBI

variable {x : Xlen}

/-- `sbi_strcmp()`; characters are unsigned, and `none` is a loop that goes on. -/
def sbiStrcmp (mem : Mem x) : Nat → Word x → Word x → Option Int
  | 0,_,_ => none
  | fuel+1,a,b =>
    if mem a=mem b ∧ mem a≠0 then sbiStrcmp mem fuel (a+1) (b+1)
    else some ((mem a).toNat-(mem b).toNat)

/-- `sbi_strncmp()`. -/
def sbiStrncmp (mem : Mem x) : Word x → Word x → Nat → Int
  | _,_,0 => 0
  | a,b,count+1 =>
    if mem a=mem b ∧ mem a≠0 then sbiStrncmp mem (a+1) (b+1) count
    else (mem a).toNat-(mem b).toNat

def strlenLoop (mem : Mem x) : Nat → Word x → Nat → Option Nat
  | 0,_,_ => none
  | fuel+1,str,ret => if mem str≠0 then strlenLoop mem fuel (str+1) (ret+1) else some ret

/-- `sbi_strlen()`. -/
def sbiStrlen (mem : Mem x) (fuel : Nat) (str : Word x) : Option Nat := strlenLoop mem fuel str 0

/-- The loop of `sbi_strnlen()` with the addresses it reads; each round takes one off `count`. -/
def strnlenLoop (mem : Mem x) : Word x → Nat → Nat → Nat×List (Word x)
  | str,ret,0 => (ret,[str])
  | str,ret,count+1 =>
    if mem str≠0 ∧ ret<count+1 then
      let r := strnlenLoop mem (str+1) (ret+1) count
      (r.1,str::r.2)
    else (ret,[str])

/-- `sbi_strnlen()`. -/
def sbiStrnlen (mem : Mem x) (str : Word x) (count : Nat) : Nat×List (Word x) := strnlenLoop mem str 0 count

def strcpyLoop (mem : Mem x) : Nat → Word x → Word x → Option (Mem x)
  | 0,_,_ => none
  | fuel+1,dest,src =>
    if mem src≠0 then strcpyLoop (Function.update mem dest (mem src)) fuel (dest+1) (src+1) else some mem

/-- `sbi_strcpy()`. -/
def sbiStrcpy (mem : Mem x) (fuel : Nat) (dest src : Word x) : Option (Word x×Mem x) :=
  (strcpyLoop mem fuel dest src).map fun mem' => (dest,mem')

def strncpyLoop (mem : Mem x) : Word x → Word x → Nat → Mem x
  | _,_,0 => mem
  | dest,src,count+1 =>
    if mem src≠0 then strncpyLoop (Function.update mem dest (mem src)) (dest+1) (src+1) count else mem

/-- `sbi_strncpy()`. -/
def sbiStrncpy (mem : Mem x) (dest src : Word x) (count : Nat) : Word x×Mem x :=
  (dest,strncpyLoop mem dest src count)

def strchrLoop (mem : Mem x) (c : BitVec 8) : Nat → Word x → Option (Word x)
  | 0,_ => none
  | fuel+1,s => if mem s≠0 ∧ mem s≠c then strchrLoop mem c fuel (s+1) else some s

/-- `sbi_strchr()`; the inner `none` is `NULL`. -/
def sbiStrchr (mem : Mem x) (fuel : Nat) (s : Word x) (c : BitVec 32) : Option (Option (Word x)) :=
  (strchrLoop mem (c.setWidth 8) fuel s).map fun s => if mem s=0 then none else some s

def strrchrLoop (mem : Mem x) (s : Word x) (c : BitVec 8) : Nat → Word x → Option (Word x)
  | 0,_ => none
  | fuel+1,last => if s<last ∧ mem last≠c then strrchrLoop mem s c fuel (last-1) else some last

/-- `sbi_strrchr()`. -/
def sbiStrrchr (mem : Mem x) (fuel : Nat) (s : Word x) (c : BitVec 32) : Option (Option (Word x)) := do
  let len ← sbiStrlen mem fuel s
  let last ← strrchrLoop mem s (c.setWidth 8) fuel (offsetPtr s len)
  pure (if mem last≠c.setWidth 8 then none else some last)

/-- The second loop of `sbi_memmove()`. -/
def memmoveDown (mem : Mem x) : Word x → Word x → Nat → Mem x
  | _,_,0 => mem
  | temp1,temp2,count+1 => memmoveDown (Function.update mem temp1 (mem temp2)) (temp1-1) (temp2-1) count

/-- `sbi_memmove()`; its first loop is the one of `sbi_memcpy()`. -/
def sbiMemmove (mem : Mem x) (dest src : Word x) (count : Nat) : Word x×Mem x :=
  if src=dest then (dest,mem)
  else if dest<src then (dest,sbiMemcpy mem dest src count)
  else (dest,memmoveDown mem (offsetPtr dest count-1) (offsetPtr src count-1) count)

/-! ## Strings in memory -/

/-- The string `t` at `s`; like every object it ends within the address space. -/
inductive StringAt (mem : Mem x) : Word x → List (BitVec 8) → Prop
  | nil {s : Word x} (h : mem s=0) : StringAt mem s []
  | cons {s : Word x} {c : BitVec 8} {t : List (BitVec 8)} (hs : mem s=c) (hc : c≠0)
      (hlt : s.toNat+1<2^x.bits) (h : StringAt mem (s+1) t) : StringAt mem s (c::t)

/-- The characters at `s` in front of a terminator among the first `n` bytes, or all of these. -/
def textWithin (mem : Mem x) (s : Word x) (n : Nat) : List (BitVec 8) :=
  (loadBytes mem s n).takeWhile fun c => decide (c≠0)

/-- The bytes the text takes up with its terminator, as far as these are among the `n`. -/
def textRead (mem : Mem x) (s : Word x) (n : Nat) : Nat := min ((textWithin mem s n).length+1) n

/-- The first byte with the value `c` among `n`. -/
def firstAt (mem : Mem x) (s : Word x) (n : Nat) (c : BitVec 8) : Option (Word x) :=
  ((List.range n).find? fun i => decide (mem (offsetPtr s i)=c)).map (offsetPtr s)

/-- The last byte with the value `c` among `n`. -/
def lastAt (mem : Mem x) (s : Word x) (n : Nat) (c : BitVec 8) : Option (Word x) :=
  ((List.range n).reverse.find? fun i => decide (mem (offsetPtr s i)=c)).map (offsetPtr s)

variable {mem : Mem x} {s dest src : Word x} {t u : List (BitVec 8)}

theorem toNat_add_one (h : s.toNat+1<2^x.bits) : (s+1).toNat=s.toNat+1 := by
  have h1 : (1 : Word x).toNat=1 := by cases x <;> rfl
  rw [BitVec.toNat_add,h1,Nat.mod_eq_of_lt h]

theorem toNat_offsetPtr {n : Nat} (h : s.toNat+n<2^x.bits) : (offsetPtr s n).toNat=s.toNat+n := by
  rw [offsetPtr,BitVec.toNat_add,BitVec.toNat_ofNat,Nat.mod_eq_of_lt (by omega : n<2^x.bits),Nat.mod_eq_of_lt h]

theorem offsetPtr_succ_sub_one (n : Nat) : offsetPtr s (n+1)-1=offsetPtr s n := by
  rw [offsetPtr,BitVec.ofNat_add,← BitVec.add_assoc]
  exact add_sub_cancel_right _ _

theorem StringAt.toNat_lt (h : StringAt mem s t) : s.toNat+t.length<2^x.bits := by
  induction h with
  | nil => exact BitVec.isLt _
  | cons _ _ hlt _ ih =>
    rw [toNat_add_one hlt] at ih
    rw [List.length_cons]
    omega

theorem loadBytes_succ (n : Nat) : loadBytes mem s (n+1)=mem s::loadBytes mem (s+1) n := by
  rw [loadBytes,List.range_succ_eq_map,List.map_cons,List.map_map,offsetPtr_zero]
  congr 1
  exact List.map_congr_left fun j _ => congrArg mem (offsetPtr_succ s j)

@[simp] theorem textWithin_zero : textWithin mem s 0=[] := rfl

theorem textWithin_succ (n : Nat) :
    textWithin mem s (n+1)=if mem s≠0 then mem s::textWithin mem (s+1) n else [] := by
  rw [textWithin,loadBytes_succ,List.takeWhile_cons]
  simp only [decide_eq_true_eq]
  rfl

theorem length_textWithin_le (mem : Mem x) (s : Word x) (n : Nat) : (textWithin mem s n).length ≤ n := by
  have h := (List.takeWhile_sublist (l := loadBytes mem s n) fun c => decide (c≠0)).length_le
  rwa [length_loadBytes] at h

theorem StringAt.textWithin_eq (h : StringAt mem s t) (n : Nat) : textWithin mem s n=t.take n := by
  induction h generalizing n with
  | nil h =>
    cases n with
    | zero => rfl
    | succ n => rw [textWithin_succ,if_neg (not_not.mpr h),List.take_nil]
  | cons hs hc _ _ ih =>
    cases n with
    | zero => rfl
    | succ n => rw [textWithin_succ,if_pos (hs ▸ hc),hs,ih,List.take_succ_cons]

theorem StringAt.length_textWithin (h : StringAt mem s t) (n : Nat) :
    (textWithin mem s n).length=min n t.length := by
  rw [h.textWithin_eq,List.length_take]

/-! ## Comparisons -/

/-- The sign of a comparison and the order of the strings byte by byte. -/
structure ComparesAs (r : Int) (t u : List (BitVec 8)) : Prop where
  less : r<0 ↔ t < u
  equal : r=0 ↔ t=u
  greater : 0 < r ↔ u < t

theorem ComparesAs.nil : ComparesAs 0 [] [] where
  less := ⟨fun h => absurd h (by decide),fun h => absurd h (List.not_lt_nil _)⟩
  equal := ⟨fun _ => rfl,fun _ => rfl⟩
  greater := ⟨fun h => absurd h (by decide),fun h => absurd h (List.not_lt_nil _)⟩

theorem ComparesAs.cons {r : Int} (h : ComparesAs r t u) (c : BitVec 8) : ComparesAs r (c::t) (c::u) where
  less := h.less.trans (by rw [List.cons_lt_cons_iff]; simp)
  equal := h.equal.trans (by simp)
  greater := h.greater.trans (by rw [List.cons_lt_cons_iff]; simp)

theorem ComparesAs.head {c d : BitVec 8} (h : c≠d) :
    ComparesAs ((c.toNat : Int)-d.toNat) (c::t) (d::u) := by
  have hne : c.toNat≠d.toNat := fun he => h (BitVec.eq_of_toNat_eq he)
  refine ⟨?_,?_,?_⟩
  · rw [List.cons_lt_cons_iff,or_iff_left fun he => h he.1,BitVec.lt_def]
    omega
  · have hcons : c::t≠d::u := fun he => h (List.cons.inj he).1
    rw [iff_false_right hcons]
    omega
  · rw [List.cons_lt_cons_iff,or_iff_left fun he => h he.1.symm,BitVec.lt_def]
    omega

/-- The bytes at which the loops end: two that differ, or two terminators. -/
theorem ComparesAs.last {c d : BitVec 8} (h : ¬(c=d ∧ c≠0)) :
    ComparesAs ((c.toNat : Int)-d.toNat) (if c≠0 then c::t else []) (if d≠0 then d::u else []) := by
  have hpos : ∀ e : BitVec 8,e≠0 → 0<e.toNat := fun e he =>
    Nat.pos_of_ne_zero fun hz => he (BitVec.eq_of_toNat_eq hz)
  by_cases hc : c=0
  · subst hc
    by_cases hd : d=0
    · subst hd
      exact .nil
    · rw [if_neg (not_not.mpr rfl),if_pos hd]
      have h0 : (0 : BitVec 8).toNat=0 := rfl
      have hdp := hpos d hd
      refine ⟨⟨fun _ => List.nil_lt_cons _ _,fun _ => by omega⟩,⟨fun he => by omega,fun he => by cases he⟩,
        ⟨fun he => by omega,fun he => absurd he (List.not_lt_nil _)⟩⟩
  · rw [if_pos hc]
    by_cases hd : d=0
    · subst hd
      have h0 : (0 : BitVec 8).toNat=0 := rfl
      have hcp := hpos c hc
      rw [if_neg (not_not.mpr rfl)]
      refine ⟨⟨fun he => by omega,fun he => absurd he (List.not_lt_nil _)⟩,
        ⟨fun he => by omega,fun he => by cases he⟩,⟨fun _ => List.nil_lt_cons _ _,fun _ => by omega⟩⟩
    · rw [if_pos hd]
      exact .head fun he => h ⟨he,hc⟩

/-- `sbi_strncmp()` orders like the first `count` bytes of the strings. -/
theorem sbiStrncmp_comparesAs (mem : Mem x) (a b : Word x) (count : Nat) :
    ComparesAs (sbiStrncmp mem a b count) (textWithin mem a count) (textWithin mem b count) := by
  induction count generalizing a b with
  | zero => exact .nil
  | succ n ih =>
    rw [sbiStrncmp,textWithin_succ,textWithin_succ]
    by_cases h : mem a=mem b ∧ mem a≠0
    · rw [if_pos h,if_pos h.2,if_pos (h.1 ▸ h.2),← h.1]
      exact (ih _ _).cons _
    · rw [if_neg h]
      exact .last h

theorem sbiStrcmp_eq {a b : Word x} {fuel : Nat} (h : (textWithin mem a fuel).length<fuel) :
    sbiStrcmp mem fuel a b=some (sbiStrncmp mem a b fuel) := by
  induction fuel generalizing a b with
  | zero => exact absurd h (Nat.not_lt_zero _)
  | succ n ih =>
    rw [sbiStrcmp,sbiStrncmp]
    split_ifs with heq
    · apply ih
      rw [textWithin_succ,if_pos heq.2,List.length_cons] at h
      omega
    · rfl

theorem sbiStrcmp_comparesAs {a b : Word x} {fuel : Nat} (ht : StringAt mem a t) (hu : StringAt mem b u)
    (htf : t.length<fuel) (huf : u.length<fuel) :
    ∃ r,sbiStrcmp mem fuel a b=some r ∧ ComparesAs r t u := by
  have hta := ht.textWithin_eq fuel
  have hub := hu.textWithin_eq fuel
  rw [List.take_of_length_le htf.le] at hta
  rw [List.take_of_length_le huf.le] at hub
  refine ⟨_,sbiStrcmp_eq (by rwa [hta]),?_⟩
  have h := sbiStrncmp_comparesAs mem a b fuel
  rwa [hta,hub] at h

/-! ## Lengths -/

theorem strlenLoop_eq (h : StringAt mem s t) {fuel : Nat} (hf : t.length<fuel) (ret : Nat) :
    strlenLoop mem fuel s ret=some (ret+t.length) := by
  induction h generalizing fuel ret with
  | nil h =>
    obtain ⟨fuel,rfl⟩ := Nat.exists_eq_succ_of_ne_zero (Nat.ne_zero_of_lt hf)
    rw [strlenLoop,if_neg (not_not.mpr h)]
    rfl
  | @cons s c t hs hc _ _ ih =>
    obtain ⟨fuel,rfl⟩ := Nat.exists_eq_succ_of_ne_zero (Nat.ne_zero_of_lt hf)
    rw [List.length_cons] at hf ⊢
    rw [strlenLoop,if_pos (hs ▸ hc),ih (by omega)]
    congr 1
    omega

theorem sbiStrlen_eq (h : StringAt mem s t) {fuel : Nat} (hf : t.length<fuel) :
    sbiStrlen mem fuel s=some t.length := by
  rw [sbiStrlen,strlenLoop_eq h hf,Nat.zero_add]

/-- `ret` and `count` meet in the middle; a byte more than the result is read. -/
theorem strnlenLoop_eq (mem : Mem x) (s : Word x) (ret count : Nat) :
    (strnlenLoop mem s ret count).1=ret+min (textWithin mem s count).length ((count-ret+1)/2) ∧
      (strnlenLoop mem s ret count).2=
        (List.range (min (textWithin mem s count).length ((count-ret+1)/2)+1)).map (offsetPtr s) := by
  induction count generalizing s ret with
  | zero =>
    rw [strnlenLoop]
    simp
  | succ n ih =>
    rw [strnlenLoop,textWithin_succ]
    by_cases hz : mem s=0
    · rw [if_neg (fun h => h.1 hz),if_neg (not_not.mpr hz)]
      simp
    · rw [if_pos (show mem s≠0 from hz)]
      by_cases hlt : ret<n+1
      · rw [if_pos ⟨hz,hlt⟩]
        obtain ⟨h1,h2⟩ := ih (s+1) (ret+1)
        have hmin : min (mem s::textWithin mem (s+1) n).length ((n+1-ret+1)/2)=
            min (textWithin mem (s+1) n).length ((n-(ret+1)+1)/2)+1 := by
          rw [List.length_cons]
          omega
        rw [hmin]
        constructor
        · show (strnlenLoop mem (s+1) (ret+1) n).1=_
          omega
        · show s::(strnlenLoop mem (s+1) (ret+1) n).2=_
          rw [h2,List.range_succ_eq_map (n := _+1),List.map_cons,List.map_map,offsetPtr_zero]
          congr 1
          exact List.map_congr_left fun j _ => (offsetPtr_succ s j).symm
      · have hsub : (n+1-ret+1)/2=0 := by omega
        rw [if_neg (fun h => hlt h.2),hsub]
        simp

/-- The smaller of the bound and the length, with reads of the first `n` bytes only. -/
def StrnlenMeets (mem : Mem x) (s : Word x) (n : Nat) : Prop :=
  (sbiStrnlen mem s n).1=(textWithin mem s n).length ∧ (sbiStrnlen mem s n).2.length ≤ n ∧
    ∀ a∈(sbiStrnlen mem s n).2,InRange s n a

theorem strnlenMeets_iff (n : Nat) : StrnlenMeets mem s n ↔
    (textWithin mem s n).length<n ∧ 2*(textWithin mem s n).length ≤ n+1 := by
  obtain ⟨h1,h2⟩ := strnlenLoop_eq mem s 0 n
  have hle := length_textWithin_le mem s n
  have hlen := congrArg List.length h2
  rw [List.length_map,List.length_range] at hlen
  rw [StrnlenMeets,sbiStrnlen,h1,hlen]
  constructor
  · rintro ⟨hret,hreads,-⟩
    omega
  · rintro ⟨hlt,hhalf⟩
    refine ⟨by omega,by omega,fun a ha => ?_⟩
    rw [h2] at ha
    obtain ⟨j,hj,rfl⟩ := List.mem_map.mp ha
    have hjlt := List.mem_range.mp hj
    exact ⟨j,by omega,rfl⟩

end OpenSBI
