import OpenSBI.Riscv.StringRoutines

namespace OpenSBI

variable {x : Xlen} {mem : Mem x} {s dest src : Word x} {t u : List (BitVec 8)}

/-! ## Copies -/

/-- Memory that agrees with the bytes stored, inside and outside their range. -/
theorem eq_storeBytes_iff {mem' : Mem x} {p : Word x} {bytes : List (BitVec 8)} :
    mem'=storeBytes mem p bytes ↔ ∀ j<2^x.bits,mem' (offsetPtr p j)=(bytes[j]?).getD (mem (offsetPtr p j)) := by
  constructor
  · rintro rfl j hj
    exact storeBytes_at mem hj
  · intro h
    funext a
    have ha := h (a-p).toNat (BitVec.isLt _)
    rwa [offsetPtr_sub] at ha

theorem storeBytes_cons {p : Word x} {c : BitVec 8} (h : t.length<2^x.bits) :
    storeBytes mem p (c::t)=storeBytes (Function.update mem p c) (p+1) t := by
  symm
  rw [eq_storeBytes_iff]
  intro j hj
  cases j with
  | zero =>
    rw [storeBytes_of_not]
    · simp
    · rintro ⟨k,hk,heq⟩
      rw [← offsetPtr_succ] at heq
      exact absurd (offsetPtr_inj p (by omega) (by omega) heq) (by omega)
  | succ j =>
    have hne : offsetPtr p (j+1)≠p := by
      intro heq
      exact absurd (offsetPtr_inj p hj (by omega) (heq.trans (offsetPtr_zero p).symm)) (by omega)
    rw [offsetPtr_succ,storeBytes_at _ (by omega),List.getElem?_cons_succ,← offsetPtr_succ,
      Function.update_of_ne hne]

/-- Bytes that are behind the stored ones already need not be stored. -/
theorem storeBytes_append_iff {p : Word x} (h : (t++u).length ≤ 2^x.bits) :
    storeBytes mem p t=storeBytes mem p (t++u) ↔
      ∀ j,∀ c,u[j]?=some c → mem (offsetPtr p (t.length+j))=c := by
  rw [List.length_append] at h
  rw [eq_storeBytes_iff]
  constructor
  · intro hall j c hc
    have hj := (List.getElem?_eq_some_iff.mp hc).1
    have h1 := hall (t.length+j) (by omega)
    rw [storeBytes_at _ (by omega),List.getElem?_eq_none (Nat.le_add_right _ _),List.getElem?_append_right (by omega),
      Nat.add_sub_cancel_left,hc] at h1
    exact h1
  · intro hall j hj
    rw [storeBytes_at mem hj]
    rcases Nat.lt_or_ge j t.length with hjt | hjt
    · rw [List.getElem?_append_left hjt]
    · rw [List.getElem?_eq_none hjt,List.getElem?_append_right hjt]
      cases hc : u[j-t.length]? with
      | none => rfl
      | some c =>
        have h1 := hall _ c hc
        rwa [Nat.add_sub_cancel' hjt] at h1

theorem textWithin_congr {mem' : Mem x} {n : Nat}
    (h : ∀ j<textRead mem s n,mem' (offsetPtr s j)=mem (offsetPtr s j)) :
    textWithin mem' s n=textWithin mem s n := by
  induction n generalizing s with
  | zero => rfl
  | succ n ih =>
    have h0 := h 0 (by rw [textRead]; omega)
    rw [offsetPtr_zero] at h0
    rw [textWithin_succ,textWithin_succ,h0]
    by_cases hz : mem s≠0
    · rw [if_pos hz,if_pos hz,ih]
      intro j hj
      rw [← offsetPtr_succ]
      rw [textRead] at hj
      exact h (j+1) (by rw [textRead,textWithin_succ,if_pos hz,List.length_cons]; omega)
    · rw [if_neg hz,if_neg hz]

/-- The place the characters go to is apart from what is read of the source. -/
def TextApart (mem : Mem x) (dest src : Word x) (n : Nat) : Prop :=
  RangesApart dest (textWithin mem src n).length src (textRead mem src n)

/-- A character that is copied changes nothing of the source behind it. -/
theorem TextApart.text {n : Nat} (h : TextApart mem dest src (n+1)) (hz : mem src≠0) :
    textWithin (Function.update mem dest (mem src)) (src+1) n=textWithin mem (src+1) n := by
  rw [TextApart,textRead,textWithin_succ,if_pos hz,List.length_cons] at h
  apply textWithin_congr
  intro j hj
  rw [textRead] at hj
  have hne := h 0 (Nat.succ_pos _) (j+1) (by omega)
  rw [offsetPtr_zero,offsetPtr_succ] at hne
  rw [Function.update_of_ne hne.symm]

theorem TextApart.next {n : Nat} (h : TextApart mem dest src (n+1)) (hz : mem src≠0) :
    TextApart (Function.update mem dest (mem src)) (dest+1) (src+1) n := by
  have htext := h.text hz
  rw [TextApart,textRead,textWithin_succ,if_pos hz,List.length_cons] at h
  rw [TextApart,textRead,htext]
  intro i hi j hj
  rw [← offsetPtr_succ,← offsetPtr_succ]
  exact h (i+1) (by omega) (j+1) (by omega)

theorem strncpyLoop_eq {n : Nat} (hlen : (textWithin mem src n).length ≤ 2^x.bits)
    (h : TextApart mem dest src n) : strncpyLoop mem dest src n=storeBytes mem dest (textWithin mem src n) := by
  induction n generalizing mem dest src with
  | zero => rfl
  | succ n ih =>
    rw [strncpyLoop,textWithin_succ]
    by_cases hz : mem src≠0
    · have htext := h.text hz
      rw [textWithin_succ,if_pos hz,List.length_cons] at hlen
      have hloop := ih (by rw [htext]; omega) (h.next hz)
      rw [if_pos hz,if_pos hz,hloop,htext,storeBytes_cons (by omega)]
    · rw [if_neg hz,if_neg hz,storeBytes_nil]

/-- An unbounded copy whose source ends is a bounded one. -/
theorem strcpyLoop_eq {fuel : Nat} (hf : (textWithin mem src fuel).length<fuel)
    (h : TextApart mem dest src fuel) :
    strcpyLoop mem fuel dest src=some (strncpyLoop mem dest src fuel) := by
  induction fuel generalizing mem dest src with
  | zero => exact absurd hf (Nat.not_lt_zero _)
  | succ n ih =>
    rw [strcpyLoop,strncpyLoop]
    by_cases hz : mem src≠0
    · rw [textWithin_succ,if_pos hz,List.length_cons] at hf
      have hloop := ih (by rw [h.text hz]; omega) (h.next hz)
      rw [if_pos hz,if_pos hz,hloop]
    · rw [if_neg hz,if_neg hz]

/-- `sbi_strcpy()` leaves the byte of the terminator as it was. -/
theorem sbiStrcpy_eq (h : StringAt mem src t) {fuel : Nat} (hf : t.length<fuel)
    (hapart : RangesApart dest (t.length+1) src (t.length+1)) :
    sbiStrcpy mem fuel dest src=some (dest,storeBytes mem dest t) := by
  have htext := h.textWithin_eq fuel
  rw [List.take_of_length_le hf.le] at htext
  have hap : TextApart mem dest src fuel := by
    rw [TextApart,textRead,htext]
    intro i hi j hj
    exact hapart i (by omega) j (by omega)
  have hlt := h.toNat_lt
  rw [sbiStrcpy,strcpyLoop_eq (by rwa [htext]) hap,strncpyLoop_eq (by rw [htext]; omega) hap,htext]
  rfl

theorem sbiStrcpy_iff (h : StringAt mem src t) {fuel : Nat} (hf : t.length<fuel)
    (hapart : RangesApart dest (t.length+1) src (t.length+1)) :
    sbiStrcpy mem fuel dest src=some (dest,storeBytes mem dest (t++[0])) ↔ mem (offsetPtr dest t.length)=0 := by
  have hlt := h.toNat_lt
  rw [sbiStrcpy_eq h hf hapart,Option.some.injEq,Prod.mk.injEq,and_iff_right rfl,
    storeBytes_append_iff (by rw [List.length_append,List.length_singleton]; omega)]
  constructor
  · intro hall
    exact hall 0 0 rfl
  · intro hz j c hc
    obtain ⟨hj,rfl⟩ := List.getElem?_eq_some_iff.mp hc
    have hj0 : j=0 := by simpa using hj
    subst hj0
    exact hz

/-- `sbi_strncpy()` leaves the bytes behind the characters as they were. -/
theorem sbiStrncpy_iff {n : Nat} (hn : n ≤ 2^x.bits) (hapart : RangesApart dest n src (textRead mem src n)) :
    sbiStrncpy mem dest src n=(dest,storeBytes mem dest
        (textWithin mem src n++List.replicate (n-(textWithin mem src n).length) 0)) ↔
      ∀ j<n,(textWithin mem src n).length ≤ j → mem (offsetPtr dest j)=0 := by
  have hle := length_textWithin_le mem src n
  rw [sbiStrncpy,strncpyLoop_eq (by omega) fun i hi j hj => hapart i (by omega) j hj,Prod.mk.injEq,
    and_iff_right rfl,storeBytes_append_iff (by rw [List.length_append,List.length_replicate]; omega)]
  constructor
  · intro hall j hj hlj
    have hz := hall (j-(textWithin mem src n).length) 0 (by rw [List.getElem?_replicate,if_pos (by omega)])
    rwa [Nat.add_sub_cancel' hlj] at hz
  · intro hall j c hc
    obtain ⟨hj,hc⟩ := List.getElem?_eq_some_iff.mp hc
    rw [List.length_replicate] at hj
    rw [← hc,List.getElem_replicate]
    exact hall _ (by omega) (by omega)

/-! ## Searches -/

theorem StringAt.terminator (h : StringAt mem s t) : mem (offsetPtr s t.length)=0 := by
  induction h with
  | nil h => exact (congrArg mem (offsetPtr_zero _)).trans h
  | cons _ _ _ _ ih => rwa [List.length_cons,offsetPtr_succ]

theorem firstAt_succ (n : Nat) (c : BitVec 8) :
    firstAt mem s (n+1) c=if mem s=c then some s else firstAt mem (s+1) n c := by
  rw [firstAt,List.range_succ_eq_map,List.find?_cons,offsetPtr_zero]
  by_cases h : mem s=c
  · simp [h]
  · rw [if_neg h,decide_eq_false h,List.find?_map,Option.map_map,firstAt]
    congr 1
    · funext j
      exact offsetPtr_succ s j
    · congr 1
      funext j
      exact congrArg (fun a => decide (mem a=c)) (offsetPtr_succ s j)

theorem lastAt_succ (n : Nat) (c : BitVec 8) :
    lastAt mem s (n+1) c=if mem (offsetPtr s n)=c then some (offsetPtr s n) else lastAt mem s n c := by
  rw [lastAt,List.range_succ,List.reverse_append,List.reverse_singleton,List.singleton_append,List.find?_cons]
  by_cases h : mem (offsetPtr s n)=c
  · simp [h]
  · simp [h,lastAt]

theorem sbiStrchr_eq (h : StringAt mem s t) {fuel : Nat} (hf : t.length<fuel) (c : BitVec 32) :
    sbiStrchr mem fuel s c=
      some (if c.setWidth 8=0 then none else firstAt mem s (t.length+1) (c.setWidth 8)) := by
  rw [sbiStrchr]
  generalize c.setWidth 8=c
  induction h generalizing fuel with
  | @nil s h =>
    obtain ⟨fuel,rfl⟩ := Nat.exists_eq_succ_of_ne_zero (Nat.ne_zero_of_lt hf)
    rw [strchrLoop,if_neg (fun hs => hs.1 h),Option.map_some,if_pos h,List.length_nil,firstAt_succ,h]
    by_cases hc : c=0
    · rw [if_pos hc]
    · rw [if_neg hc,if_neg (Ne.symm hc)]
      rfl
  | @cons s d t hs hd _ _ ih =>
    obtain ⟨fuel,rfl⟩ := Nat.exists_eq_succ_of_ne_zero (Nat.ne_zero_of_lt hf)
    rw [List.length_cons] at hf ⊢
    rw [strchrLoop,firstAt_succ,hs]
    by_cases hdc : d=c
    · subst hdc
      rw [if_neg (fun h => h.2 rfl),Option.map_some,hs,if_neg hd,if_neg hd,if_pos rfl]
    · rw [if_pos ⟨hd,hdc⟩,ih (by omega),if_neg hdc]

theorem sbiStrchr_iff (h : StringAt mem s t) {fuel : Nat} (hf : t.length<fuel) (c : BitVec 32) :
    sbiStrchr mem fuel s c=some (firstAt mem s (t.length+1) (c.setWidth 8)) ↔ c.setWidth 8≠(0 : BitVec 8) := by
  rw [sbiStrchr_eq h hf,Option.some.injEq]
  by_cases hc : c.setWidth 8=(0 : BitVec 8)
  · rw [if_pos hc,hc,iff_false_right (not_not.mpr rfl)]
    intro hnone
    have hfind := Option.map_eq_none_iff.mp hnone.symm
    have hnot := List.find?_eq_none.mp hfind t.length (List.mem_range.mpr (Nat.lt_succ_self _))
    exact hnot (decide_eq_true h.terminator)
  · rw [if_neg hc,iff_true_right hc]

theorem strrchrLoop_eq (mem : Mem x) {k fuel : Nat} (hk : s.toNat+k<2^x.bits) (hf : k<fuel) (c : BitVec 8) :
    (strrchrLoop mem s c fuel (offsetPtr s k)).map (fun last => if mem last≠c then none else some last)=
      some (lastAt mem s (k+1) c) := by
  induction k generalizing fuel with
  | zero =>
    obtain ⟨fuel,rfl⟩ := Nat.exists_eq_succ_of_ne_zero (Nat.ne_zero_of_lt hf)
    rw [lastAt_succ,offsetPtr_zero,strrchrLoop,if_neg (fun h => BitVec.lt_irrefl _ h.1),Option.map_some]
    by_cases hc : mem s=c
    · rw [if_neg (not_not.mpr hc),if_pos hc]
    · rw [if_pos hc,if_neg hc]
      rfl
  | succ k ih =>
    obtain ⟨fuel,rfl⟩ := Nat.exists_eq_succ_of_ne_zero (Nat.ne_zero_of_lt hf)
    have hlt : s<offsetPtr s (k+1) := by
      rw [BitVec.lt_def,toNat_offsetPtr hk]
      omega
    rw [lastAt_succ,strrchrLoop]
    by_cases hc : mem (offsetPtr s (k+1))=c
    · rw [if_neg (fun h => h.2 hc),Option.map_some,if_neg (not_not.mpr hc),if_pos hc]
    · rw [if_pos ⟨hlt,hc⟩,offsetPtr_succ_sub_one,ih (by omega) (by omega),if_neg hc]

theorem sbiStrrchr_eq (h : StringAt mem s t) {fuel : Nat} (hf : t.length<fuel) (c : BitVec 32) :
    sbiStrrchr mem fuel s c=some (lastAt mem s (t.length+1) (c.setWidth 8)) := by
  have hloop := strrchrLoop_eq mem h.toNat_lt hf (c.setWidth 8)
  rw [← hloop,sbiStrrchr,sbiStrlen_eq h hf]
  cases hlast : strrchrLoop mem s (c.setWidth 8) fuel (offsetPtr s t.length) <;> simp [hlast]

/-! ## Moves -/

/-- A byte that is written is not read later, whichever the direction. -/
theorem memmoveDown_of_not {n : Nat} {a : Word x} (h : ¬InRange dest n a) :
    memmoveDown mem (offsetPtr dest n-1) (offsetPtr src n-1) n a=mem a := by
  induction n generalizing mem with
  | zero => rfl
  | succ n ih =>
    have hne : a≠offsetPtr dest n := fun he => h ⟨n,Nat.lt_succ_self n,he⟩
    rw [offsetPtr_succ_sub_one,offsetPtr_succ_sub_one,memmoveDown,ih,Function.update_of_ne hne]
    rintro ⟨j,hj,rfl⟩
    exact h ⟨j,by omega,rfl⟩

theorem memmoveDown_at {n j : Nat} (hn : n ≤ 2^x.bits)
    (h : ∀ k<n,∀ i<k,offsetPtr dest k≠offsetPtr src i) (hj : j<n) :
    memmoveDown mem (offsetPtr dest n-1) (offsetPtr src n-1) n (offsetPtr dest j)=mem (offsetPtr src j) := by
  induction n generalizing mem with
  | zero => exact absurd hj (Nat.not_lt_zero j)
  | succ n ih =>
    rw [offsetPtr_succ_sub_one,offsetPtr_succ_sub_one,memmoveDown]
    rcases Nat.lt_or_ge j n with hlt | hge
    · rw [ih (by omega) (fun k hk => h k (by omega)) hlt,Function.update_of_ne]
      exact (h n (Nat.lt_succ_self n) j hlt).symm
    · obtain rfl : j=n := by omega
      rw [memmoveDown_of_not,Function.update_self]
      rintro ⟨k,hk,heq⟩
      exact absurd (offsetPtr_inj dest (by omega) (by omega) heq) (by omega)

theorem sbiMemmove_eq {n : Nat} (hd : dest.toNat+n ≤ 2^x.bits) (hs : src.toNat+n ≤ 2^x.bits) :
    sbiMemmove mem dest src n=(dest,storeBytes mem dest (loadBytes mem src n)) := by
  have hn : n ≤ 2^x.bits := by omega
  have hne : ∀ {i j : Nat},i<n → j<n → dest.toNat+i≠src.toNat+j → offsetPtr dest i≠offsetPtr src j := by
    intro i j hi hj hij heq
    have hnat := congrArg BitVec.toNat heq
    rw [toNat_offsetPtr (by omega),toNat_offsetPtr (by omega)] at hnat
    exact hij hnat
  rw [sbiMemmove]
  split_ifs with heq hlt
  · subst heq
    rw [← eq_storeBytes_loadBytes hn (fun _ _ => rfl) fun _ _ => rfl]
  · have hlt' := BitVec.lt_def.mp hlt
    rw [← eq_storeBytes_loadBytes hn (fun j hj => sbiMemcpy_forward mem hn
      (fun k hk i hi => hne (by omega) hk (by omega)) hj) fun a ha => sbiMemcpy_of_ne mem dest src n
        fun j hj he => ha ⟨j,hj,he⟩]
  · have hle : src.toNat<dest.toNat := by
      have hnat : src.toNat≠dest.toNat := fun he => heq (BitVec.eq_of_toNat_eq he)
      have hnlt : ¬dest.toNat<src.toNat := fun h => hlt (BitVec.lt_def.mpr h)
      omega
    rw [← eq_storeBytes_loadBytes hn (fun j hj => memmoveDown_at hn
      (fun k hk i hi => hne hk (by omega) (by omega)) hj) fun a ha => memmoveDown_of_not ha]

/-! ## The contract of the C library -/

/-- On every memory the comparisons, `sbi_strrchr()` and `sbi_memmove()` do what the C library promises.
`sbi_strnlen()` does when the string ends within the bound and half of it holds the characters;
`sbi_strcpy()` and `sbi_strncpy()` do when the bytes they are to clear are clear, and `sbi_strchr()` does
when it is not asked for the terminator. -/
theorem sbiString_contract (mem : Mem x) :
    (∀ s n t,StringAt mem s t → (textWithin mem s n).length=min n t.length) ∧
    (∀ s n,StrnlenMeets mem s n ↔ (textWithin mem s n).length<n ∧ 2*(textWithin mem s n).length ≤ n+1) ∧
    (∀ dest src t fuel,StringAt mem src t → t.length<fuel → RangesApart dest (t.length+1) src (t.length+1) →
      (sbiStrcpy mem fuel dest src=some (dest,storeBytes mem dest (t++[0])) ↔
        mem (offsetPtr dest t.length)=0)) ∧
    (∀ dest src n,n ≤ 2^x.bits → RangesApart dest n src (textRead mem src n) →
      (sbiStrncpy mem dest src n=(dest,storeBytes mem dest
          (textWithin mem src n++List.replicate (n-(textWithin mem src n).length) 0)) ↔
        ∀ j<n,(textWithin mem src n).length ≤ j → mem (offsetPtr dest j)=0)) ∧
    (∀ s t fuel,∀ c : BitVec 32,StringAt mem s t → t.length<fuel →
      (sbiStrchr mem fuel s c=some (firstAt mem s (t.length+1) (c.setWidth 8)) ↔ c.setWidth 8≠(0 : BitVec 8)) ∧
      sbiStrrchr mem fuel s c=some (lastAt mem s (t.length+1) (c.setWidth 8))) ∧
    (∀ a b t u fuel,StringAt mem a t → StringAt mem b u → t.length<fuel → u.length<fuel →
      ∃ r,sbiStrcmp mem fuel a b=some r ∧ ComparesAs r t u) ∧
    (∀ a b n,ComparesAs (sbiStrncmp mem a b n) (textWithin mem a n) (textWithin mem b n)) ∧
    ∀ dest src n,dest.toNat+n ≤ 2^x.bits → src.toNat+n ≤ 2^x.bits →
      sbiMemmove mem dest src n=(dest,storeBytes mem dest (loadBytes mem src n)) := by
  refine ⟨?_,?_,?_,?_,?_,?_,?_,?_⟩
  · intro s n t h
    exact h.length_textWithin n
  · intro s n
    exact strnlenMeets_iff n
  · intro dest src t fuel h hf hapart
    exact sbiStrcpy_iff h hf hapart
  · intro dest src n hn hapart
    exact sbiStrncpy_iff hn hapart
  · intro s t fuel c h hf
    exact ⟨sbiStrchr_iff h hf c,sbiStrrchr_eq h hf c⟩
  · intro a b t u fuel ht hu htf huf
    exact sbiStrcmp_comparesAs ht hu htf huf
  · intro a b n
    exact sbiStrncmp_comparesAs mem a b n
  · intro dest src n hd hs
    exact sbiMemmove_eq hd hs

/-- The string "aaaa" at 16 in a memory that holds `rest` elsewhere. -/
def textMemory (rest : BitVec 8) : Mem .rv64 := fun a =>
  if 16 ≤ a ∧ a<20 then 0x61 else if a=20 then 0 else rest

theorem textMemory_stringAt (rest : BitVec 8) : StringAt (textMemory rest) 16 (List.replicate 4 0x61) :=
  .cons rfl (by decide) (by decide) (.cons rfl (by decide) (by decide)
    (.cons rfl (by decide) (by decide) (.cons rfl (by decide) (by decide) (.nil rfl))))

/-- In a cleared memory the copies and searches for characters are right. -/
theorem textMemory_contract :
    sbiStrcpy (textMemory 0) 5 64 16=some (64,storeBytes (textMemory 0) 64 (List.replicate 4 0x61++[0])) ∧
      sbiStrrchr (textMemory 0) 5 16 0x61=some (some 19) ∧
      sbiMemmove (textMemory 0) 18 16 4=(18,storeBytes (textMemory 0) 18 (List.replicate 4 0x61)) := by
  obtain ⟨-,-,hcpy,-,hchr,-,-,hmove⟩ := sbiString_contract (textMemory 0)
  refine ⟨(hcpy 64 16 _ 5 (textMemory_stringAt 0) (by decide) (by decide)).mpr (by decide),?_,?_⟩
  · exact (hchr 16 _ 5 0x61 (textMemory_stringAt 0) (by decide)).2
  · exact hmove 18 16 4 (by decide) (by decide)

/-- In a memory of ones the length comes out halved, the copies stay without their terminator and the
terminator is not found. -/
theorem textMemory_breaks :
    StringAt (textMemory 0xff) 16 (List.replicate 4 0x61) ∧ ¬StrnlenMeets (textMemory 0xff) 16 4 ∧
      sbiStrcpy (textMemory 0xff) 5 64 16≠
        some (64,storeBytes (textMemory 0xff) 64 (List.replicate 4 0x61++[0])) ∧
      sbiStrncpy (textMemory 0xff) 64 16 6≠
        (64,storeBytes (textMemory 0xff) 64 (List.replicate 4 0x61++List.replicate 2 0)) ∧
      sbiStrchr (textMemory 0xff) 5 16 0≠some (firstAt (textMemory 0xff) 16 5 0) := by
  have h := textMemory_stringAt 0xff
  refine ⟨h,?_,?_,?_,?_⟩
  · rw [strnlenMeets_iff]
    decide
  · intro hcpy
    exact absurd ((sbiStrcpy_iff h (by decide) (by decide)).mp hcpy) (by decide)
  · intro hcpy
    exact absurd ((sbiStrncpy_iff (by decide) (by decide)).mp hcpy) (by decide)
  · intro hchr
    exact absurd rfl ((sbiStrchr_iff h (by decide) 0).mp hchr)

end OpenSBI
