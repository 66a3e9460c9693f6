import OpenSBI.Domain.Boot

namespace OpenSBI

open Math

variable {x : Xlen} {addr size : Word x}

/-- Last address of a range. -/
def lastOf (addr size : Word x) : Nat := addr.toNat+size.toNat-1

/-- The region is a smallest naturally aligned block around the range. -/
structure Memregion.Tightest (r : Memregion x) (addr size : Word x) : Prop where
  base : 2^r.order.toNat∣r.base.toNat
  contains : ∀ a,addr.toNat≤a → a<addr.toNat+size.toNat → InBlock r.base.toNat r.order.toNat a
  least : ∀ k<r.order.toNat,
    ¬∃ b,2^k∣b ∧ InBlock b k addr.toNat ∧ InBlock b k (lastOf addr size)

/-- The range starts in the last `2^k` addresses and, unless `k` is 0, below their upper half but
ends in it, for some order `k` below the full width. -/
def TopHeavy (addr size : Word x) : Prop :=
  ∃ k<x.bits,2^x.bits≤addr.toNat+2^k ∧
    (0<k → addr.toNat+2^(k-1)<2^x.bits ∧ 2^x.bits<addr.toNat+size.toNat+2^(k-1))

/-- The test the loop makes of an order. -/
def coversAt (addr size : Word x) (order : Nat) : Prop :=
  let base := addr &&& ~~~(Word.bit order-1)
  base≤addr ∧ addr<base+Word.bit order ∧ base≤addr+size-1 ∧ addr+size-1<base+Word.bit order

theorem toNat_lastOf (h1 : 1 ≤ size.toNat) (hfit : addr.toNat+size.toNat≤2^x.bits) :
    (addr+size-1).toNat=lastOf addr size := by
  have hone : (1 : Word x).toNat=1 := by cases x <;> rfl
  have hlt := addr.isLt
  have hs := size.isLt
  unfold lastOf
  rw [BitVec.toNat_sub,BitVec.toNat_add,hone]
  rcases Nat.lt_or_ge (addr.toNat+size.toNat) (2^x.bits) with hl | hl
  · rw [Nat.mod_eq_of_lt hl]
    have he : 2^x.bits-1+(addr.toNat+size.toNat)=addr.toNat+size.toNat-1+2^x.bits := by omega
    rw [he,Nat.add_mod_right,Nat.mod_eq_of_lt (by omega)]
  · have he : addr.toNat+size.toNat=2^x.bits := le_antisymm hfit hl
    rw [he,Nat.mod_self,Nat.add_zero,Nat.mod_eq_of_lt (by omega)]

/-- An order passes the test when it has a block around the range that ends below the top. -/
theorem coversAt_iff (h1 : 1 ≤ size.toNat) (hfit : addr.toNat+size.toNat≤2^x.bits) {k : Nat}
    (hk : k<x.bits) : coversAt addr size k ↔
      addr.toNat/2^k=lastOf addr size/2^k ∧ addr.toNat+2^k<2^x.bits := by
  have hp : 0<2^k := Nat.two_pow_pos k
  have hlast : addr.toNat≤lastOf addr size := by unfold lastOf; omega
  have hbase := Word.toNat_clearLow addr hk
  have hend := block_end_le addr.isLt hk.le
  have htop := block_end_eq_iff addr.isLt hk.le
  have hle := Nat.div_mul_le_self addr.toNat (2^k)
  have hlt := Nat.lt_div_mul_add (a := addr.toNat) hp
  simp only [coversAt,BitVec.le_def,BitVec.lt_def,BitVec.toNat_add _ (Word.bit k),hbase,
    Word.toNat_bit hk,toNat_lastOf h1 hfit]
  by_cases he : addr.toNat/2^k*2^k+2^k=2^x.bits
  · rw [he,Nat.mod_self]
    have := htop.mp he
    omega
  · rw [Nat.mod_eq_of_lt (by omega)]
    have hbelow : ¬2^x.bits≤addr.toNat+2^k := fun h => he (htop.mpr h)
    rw [eq_comm,Nat.div_eq_iff hp]
    omega

/-- The loop stops at the first order that passes, with the full width behind the others. -/
theorem memregionInitLoop_eq {order fuel g : Nat} (hg : g≤x.bits) (hstart : order≤g)
    (hfuel : x.bits<order+fuel) (hskip : ∀ k,order≤k → k<g → ¬coversAt addr size k)
    (hstop : g<x.bits → coversAt addr size g) :
    memregionInitLoop addr size order fuel=
      (if g<x.bits then addr &&& ~~~(Word.bit g-1) else 0,g) := by
  induction fuel generalizing order with
  | zero => omega
  | succ fuel ih =>
    rw [memregionInitLoop]
    by_cases he : order=g
    · subst he
      by_cases hb : order<x.bits
      · rw [if_pos hb,if_pos hb]
        exact if_pos (hstop hb)
      · rw [if_neg hb,if_neg hb]
    · rw [if_pos (by omega)]
      refine (if_neg (hskip order (le_refl _) (by omega))).trans ?_
      exact ih (by omega) (by omega) fun k hk hlt => hskip k (by omega) hlt

/-- `m` is the least order whose blocks do not tell the two ends of the range apart. -/
structure LeastOrder (addr size : Word x) (m : Nat) : Prop where
  le : m≤x.bits
  shared : addr.toNat/2^m=lastOf addr size/2^m
  apart : ∀ k < m,addr.toNat/2^k≠lastOf addr size/2^k

theorem exists_leastOrder (h1 : 1 ≤ size.toNat) (hfit : addr.toNat+size.toNat≤2^x.bits) :
    ∃ m,LeastOrder addr size m := by
  have hfull : addr.toNat/2^x.bits=lastOf addr size/2^x.bits := by
    have hlt := addr.isLt
    rw [Nat.div_eq_of_lt hlt,Nat.div_eq_of_lt (by unfold lastOf; omega)]
  have hex : ∃ k,addr.toNat/2^k=lastOf addr size/2^k := ⟨_,hfull⟩
  exact ⟨Nat.find hex,Nat.find_min' hex hfull,Nat.find_spec hex,fun k hk => Nat.find_min hex hk⟩

/-- A block around the range has room for it, so the search does not start too far up. -/
theorem LeastOrder.start {m : Nat} (hm : LeastOrder addr size m) : log2roundup size ≤ m := by
  rcases Nat.lt_or_ge m x.bits with hlt | hge
  · have hp : 0<2^m := Nat.two_pow_pos m
    rw [log2roundup_le_iff hlt]
    have hbase := Nat.div_mul_le_self addr.toNat (2^m)
    have hlast := Nat.lt_div_mul_add (a := lastOf addr size) hp
    rw [← hm.shared] at hlast
    unfold lastOf at hlast
    omega
  · exact (log2roundup_le size).trans hge

/-- The search ends at the least order, or at the full width when the block of that order ends at
the top, where the sum of its base and its size wraps. -/
theorem sbiDomainMemregionInit_eq {m : Nat} (hm : LeastOrder addr size m) (h1 : 1 ≤ size.toNat)
    (hfit : addr.toNat+size.toNat≤2^x.bits) (flags : Word x) :
    sbiDomainMemregionInit addr size flags=
      if addr.toNat+2^m<2^x.bits then
        ⟨BitVec.ofNat x.bits m,addr &&& ~~~(Word.bit m-1),flags⟩
      else ⟨BitVec.ofNat x.bits x.bits,0,flags⟩ := by
  have hfuel : x.bits<log2roundup size+(x.bits+1) := by omega
  have hbelow : ∀ k < m,k<x.bits → ¬coversAt addr size k :=
    fun k hk hkx hc => hm.apart k hk ((coversAt_iff h1 hfit hkx).mp hc).1
  have hle := hm.le
  unfold sbiDomainMemregionInit
  split_ifs with ht
  · have hlt : m<x.bits := by
      by_contra hge
      have : 2^x.bits≤2^m := Nat.pow_le_pow_right (by decide) (Nat.le_of_not_lt hge)
      omega
    rw [memregionInitLoop_eq hle (hm.start) hfuel
      (fun k _ hk => hbelow k hk (by omega))
      (fun hb => (coversAt_iff h1 hfit hb).mpr ⟨hm.shared,ht⟩),if_pos hlt]
  · have hskip : ∀ k,log2roundup size≤k → k<x.bits → ¬coversAt addr size k := by
      intro k _ hkx hc
      rcases Nat.lt_or_ge k m with hkm | hkm
      · exact hbelow k hkm hkx hc
      · have hroom := ((coversAt_iff h1 hfit hkx).mp hc).2
        have : 2^m≤2^k := Nat.pow_le_pow_right (by decide) hkm
        omega
    rw [memregionInitLoop_eq (le_refl _) (log2roundup_le size) hfuel hskip
      (fun h => absurd h (lt_irrefl _)),if_neg (lt_irrefl _)]

/-- A range is top-heavy when the block of its least order ends at the top. -/
theorem topHeavy_iff {m : Nat} (hm : LeastOrder addr size m) (h1 : 1 ≤ size.toNat)
    (hfit : addr.toNat+size.toNat≤2^x.bits) :
    TopHeavy addr size ↔ m<x.bits ∧ 2^x.bits≤addr.toNat+2^m := by
  have hlt := addr.isLt
  have hlast : lastOf addr size<2^x.bits := by unfold lastOf; omega
  have hends : ∀ {a k},a<2^x.bits → k≤x.bits → (a/2^k*2^k+2^k=2^x.bits ↔ 2^x.bits≤a+2^k) :=
    fun ha hk => block_end_eq_iff ha hk
  constructor
  · rintro ⟨k,hk,htop,hhalf⟩
    -- both ends lie in the topmost block of order `k`, and the halves of it tell them apart
    have hshare : addr.toNat/2^k=lastOf addr size/2^k := by
      have ha := (hends hlt hk.le).mpr htop
      have hl := (hends hlast hk.le).mpr (by unfold lastOf; omega)
      exact Nat.eq_of_mul_eq_mul_right (Nat.two_pow_pos k) (by omega)
    have hmk : m=k := by
      rcases Nat.lt_trichotomy m k with hlow | rfl | hhigh
      · have hsh := div_eq_of_le hm.shared (show m≤k-1 by omega)
        obtain ⟨h2,h3⟩ := hhalf (by omega)
        have ha : ¬2^x.bits≤addr.toNat+2^(k-1) := by omega
        rw [← hends hlt (by omega),hsh,hends hlast (by omega)] at ha
        unfold lastOf at ha
        omega
      · rfl
      · exact absurd hshare (hm.apart k hhigh)
    exact hmk ▸ ⟨hk,htop⟩
  · rintro ⟨hmx,htop⟩
    refine ⟨m,hmx,htop,fun h0 => ?_⟩
    have hap := hm.apart (m-1) (by omega)
    have hsplit : 2^m=2*2^(m-1) := by rw [← Nat.pow_succ']; congr 1; omega
    have hp : 0<2^(m-1) := Nat.two_pow_pos _
    have hup : ∀ {a},a<2^x.bits → 2^x.bits≤a+2^(m-1) → a/2^(m-1)*2^(m-1)+2^(m-1)=2^x.bits :=
      fun ha h => (hends ha (by omega)).mpr h
    -- in one half of the block the two ends would share it
    have hlow : addr.toNat+2^(m-1)<2^x.bits := by
      by_contra hc
      have ha := hup hlt (by omega)
      have hl := hup hlast (by unfold lastOf; omega)
      exact hap (Nat.eq_of_mul_eq_mul_right hp (by omega))
    refine ⟨hlow,?_⟩
    by_contra hc
    have hd : 2^(m-1)∣2^x.bits-2^m :=
      Nat.dvd_sub (Nat.pow_dvd_pow 2 (by omega)) (Nat.pow_dvd_pow 2 (by omega))
    have hl : InBlock (2^x.bits-2^m) (m-1) (lastOf addr size) := by
      unfold lastOf
      exact ⟨by omega,by omega⟩
    exact hap (((inBlock_iff_div hd _).mp ⟨by omega,by omega⟩).trans
      ((inBlock_iff_div hd _).mp hl).symm)

theorem toNat_order {k : Nat} (hk : k≤x.bits) : (BitVec.ofNat x.bits k).toNat=k := by
  have hb : x.bits<2^x.bits := Nat.lt_two_pow_self
  rw [BitVec.toNat_ofNat,Nat.mod_eq_of_lt (by omega)]

/-- The region is an aligned block around the range, if not always a smallest one. -/
theorem sbiDomainMemregionInit_around (addr size flags : Word x) (h1 : 1 ≤ size.toNat)
    (hfit : addr.toNat+size.toNat≤2^x.bits) {r : Memregion x} (hr : sbiDomainMemregionInit addr size flags=r) :
    2^r.order.toNat∣r.base.toNat ∧
      ∀ a,addr.toNat≤a → a<addr.toNat+size.toNat → InBlock r.base.toNat r.order.toNat a := by
  obtain ⟨m,hm⟩ := exists_leastOrder h1 hfit
  have hle := hm.le
  rw [sbiDomainMemregionInit_eq hm h1 hfit] at hr
  split_ifs at hr with ht
  · have hmx : m<x.bits := by
      by_contra hge
      have : 2^x.bits≤2^m := Nat.pow_le_pow_right (by decide) (Nat.le_of_not_lt hge)
      omega
    subst hr
    rw [toNat_order hle,Word.toNat_clearLow addr hmx]
    refine ⟨Nat.dvd_mul_left _ _,fun a hlo hhi => ?_⟩
    have hlast := Nat.lt_div_mul_add (a := lastOf addr size) (Nat.two_pow_pos m)
    have hbase := Nat.div_mul_le_self addr.toNat (2^m)
    rw [← hm.shared] at hlast
    unfold lastOf at hlast
    exact ⟨by omega,by omega⟩
  · have hzero : (0 : Word x).toNat=0 := by cases x <;> rfl
    subst hr
    rw [toNat_order (le_refl _),hzero]
    exact ⟨dvd_zero _,fun a _ hhi => ⟨Nat.zero_le a,by omega⟩⟩

/-- `sbi_domain_memregion_init()` finds a smallest aligned block around the range exactly when the
range is not top-heavy. -/
theorem sbiDomainMemregionInit_tightest_iff (addr size flags : Word x) (h1 : 1 ≤ size.toNat)
    (hfit : addr.toNat+size.toNat≤2^x.bits) :
    (sbiDomainMemregionInit addr size flags).Tightest addr size ↔ ¬TopHeavy addr size := by
  obtain ⟨m,hm⟩ := exists_leastOrder h1 hfit
  have hleast : ∀ k < m,¬∃ b,2^k∣b ∧ InBlock b k addr.toNat ∧ InBlock b k (lastOf addr size) :=
    fun k hk h => hm.apart k hk ((exists_block_iff _ _ _).mp h)
  have hle := hm.le
  obtain ⟨hbase,hcontains⟩ := sbiDomainMemregionInit_around addr size flags h1 hfit rfl
  have heq := sbiDomainMemregionInit_eq hm h1 hfit flags
  rw [topHeavy_iff hm h1 hfit]
  split_ifs at heq with ht
  · refine iff_of_true ⟨hbase,hcontains,?_⟩ (by omega)
    rw [heq]
    rwa [toNat_order hle]
  · rcases Nat.lt_or_eq_of_le hle with hmx | rfl
    · refine iff_of_false (fun h => ?_) (not_not_intro ⟨hmx,by omega⟩)
      have hleast' := h.least
      rw [heq] at hleast'
      exact hleast' m (by rwa [toNat_order (le_refl _)]) ((exists_block_iff _ _ _).mpr hm.shared)
    · refine iff_of_true ⟨hbase,hcontains,?_⟩ (by omega)
      rw [heq]
      rwa [toNat_order (le_refl _)]

/-- A firmware image at the start of memory. -/
theorem bootFirmware_tightest :
    (sbiDomainMemregionInit (0x80000000 : Word .rv64) 0x20000 0).Tightest 0x80000000 0x20000 :=
  (sbiDomainMemregionInit_tightest_iff (0x80000000 : Word .rv64) 0x20000 0 (by decide)
    (by decide)).mpr (by
      rintro ⟨k,hk,htop,-⟩
      have : 2^k≤2^63 := Nat.pow_le_pow_right (by decide) (Nat.le_of_lt_succ hk)
      have htop : 2^64≤0x80000000+2^k := htop
      omega)

/-- The last page of the address space is given the whole address space. -/
theorem lastPage_everything :
    ¬∀ (x : Xlen) (addr size flags : Word x),1 ≤ size.toNat → addr.toNat+size.toNat≤2^x.bits →
      (sbiDomainMemregionInit addr size flags).Tightest addr size := by
  intro h
  have hl := (h .rv64 0xfffffffffffff000 0x1000 0 (by decide) (by decide)).least 12 (by decide)
  exact hl ⟨0xfffffffffffff000,by decide,by decide,by decide⟩

end OpenSBI
