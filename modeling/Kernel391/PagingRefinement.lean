import Kernel391.Paging
import Mathlib.Data.Nat.Bitwise
import Mathlib.Tactic.Positivity
import Mathlib.Tactic.Ring

/-!
# The page tables implement an address map

What `map_v_p` is for, said without tables: a partial map from virtual addresses to physical
ones with rights, where a successful call installs or removes one page and nothing else.  The
translation the processor computes from the two arrays is that map after every sequence of
calls.
-/

namespace Kernel391

open Machine

/-- The arguments of one call of `map_v_p`. -/
structure MapCall where
  virtualAddr : BitVec 32
  physicalAddr : BitVec 32
  kbOrMb : BitVec 32
  readWrite : BitVec 32
  userSupervisor : BitVec 32

namespace MapCall

def exec (pageTableAddr : BitVec 32) (c : MapCall) (s : Paging) : BitVec 32 × Paging :=
  mapVP pageTableAddr c.virtualAddr c.physicalAddr c.kbOrMb c.readWrite c.userSupervisor s

def pageSize (c : MapCall) : Nat := if c.kbOrMb = 0 then 2 ^ 12 else 2 ^ 22

/-- The address lies in the page the call names. -/
def Covers (c : MapCall) (a : BitVec 32) : Prop :=
  c.virtualAddr.toNat ≤ a.toNat ∧ a.toNat < c.virtualAddr.toNat + c.pageSize

instance (c : MapCall) (a : BitVec 32) : Decidable (c.Covers a) :=
  inferInstanceAs (Decidable (_ ∧ _))

/-- What every caller of the 4MB mode respects. -/
def Aligned (c : MapCall) : Prop :=
  c.kbOrMb = 1 → c.virtualAddr.toNat % 2 ^ 22 = 0 ∧ c.physicalAddr.toNat % 2 ^ 22 = 0

end MapCall

/-! ## The abstract map -/

abbrev AddrMap := BitVec 32 → Option Mapping

/-- The page of the call leads to the physical page, offset by offset, or nowhere when the
physical address is zero. -/
def AddrMap.install (m : AddrMap) (c : MapCall) : AddrMap := fun a =>
  if c.Covers a then
    if c.physicalAddr = 0 then none
    else some ⟨c.physicalAddr + (a - c.virtualAddr), c.readWrite.getLsbD 0,
      c.userSupervisor.getLsbD 0⟩
  else m a

/-- Only a call that returned 0 changes the map. -/
def AddrMap.record (m : AddrMap) (c : MapCall) (ret : BitVec 32) : AddrMap :=
  if ret = 0 then m.install c else m

/-- The tables and the abstract map, after the same calls. -/
def mapRun (pageTableAddr : BitVec 32) : List MapCall → Paging × AddrMap → Paging × AddrMap
  | [], sm => sm
  | c :: cs, (s, m) =>
      mapRun pageTableAddr cs ((c.exec pageTableAddr s).2, m.record c (c.exec pageTableAddr s).1)

/-- The two calls `init_paging` makes. -/
def initCalls : List MapCall :=
  [⟨KERNEL_MEMORY_ADDR, KERNEL_MEMORY_ADDR, 1, 1, 1⟩, ⟨VIDEO, VIDEO, 0, 1, 1⟩]

/-! ## What the entries written by `map_v_p` say -/

/-- A directory entry that leads to `page_table` and grants every right. -/
structure Linked (pageTableAddr pde : BitVec 32) : Prop where
  present : PdePte.present.get pde = 1
  pageSize : PdePte.pageSize.get pde = 0
  readWrite : PdePte.readWrite.get pde = 1
  userSupervisor : PdePte.userSupervisor.get pde = 1
  ptr : PdePte.ptr.get pde = pageTableAddr.extractLsb' 12 20

theorem linked_linkTable (pageTableAddr pde : BitVec 32) :
    Linked pageTableAddr (linkTable pageTableAddr pde) := by
  unfold linkTable
  constructor
  all_goals simp (disch := decide) only [Field.get_assign, Field.get_assign_of_disjoint]
  · rfl
  · rfl
  · rfl
  · rfl
  · exact BitVec.setWidth_ushiftRight_eq_extractLsb

theorem fillPte_unmap (rw us pte : BitVec 32) :
    Pte4kb.present.get (fillPte 0 rw us pte) = 0 := by
  simp (disch := decide) only [fillPte, if_true, Field.get_assign, Field.get_assign_of_disjoint]
  rfl

theorem fillPte_fields {p : BitVec 32} (hp : p ≠ 0) (rw us pte : BitVec 32) :
    Pte4kb.present.get (fillPte p rw us pte) = 1 ∧
      Pte4kb.readWrite.get (fillPte p rw us pte) = rw.setWidth 1 ∧
      Pte4kb.userSupervisor.get (fillPte p rw us pte) = us.setWidth 1 ∧
      Pte4kb.ptr.get (fillPte p rw us pte) = p.extractLsb' 12 20 := by
  unfold fillPte
  rw [if_neg hp]
  simp (disch := decide) only [Field.get_assign, Field.get_assign_of_disjoint]
  exact ⟨rfl, rfl, rfl, BitVec.setWidth_ushiftRight_eq_extractLsb⟩

/-- The reserved bits are the two fields the code clears one after the other. -/
theorem mustBeZero_of_fields {w : BitVec 32} (hlo : Pde4mb.ptrUnused.get w = 0)
    (hhi : Pde4mb.reserved.get w = 0) : Pde4mb.mustBeZero.get w = 0 := by
  apply BitVec.eq_of_getLsbD_eq
  intro i hi
  change i < 9 at hi
  have hlo' := congrArg (fun v : BitVec 8 => v.getLsbD i) hlo
  have hhi' := congrArg (fun v : BitVec 1 => v.getLsbD 0) hhi
  change (w.extractLsb' 13 8).getLsbD i = (0#8).getLsbD i at hlo'
  change (w.extractLsb' 21 1).getLsbD 0 = (0#1).getLsbD 0 at hhi'
  change (w.extractLsb' 13 9).getLsbD i = (0#9).getLsbD i
  simp only [BitVec.getLsbD_extractLsb', BitVec.getLsbD_zero] at hlo' hhi' ⊢
  by_cases h8 : i < 8
  · simpa [h8, hi] using hlo'
  · obtain rfl : i = 8 := by omega
    simpa using hhi'

theorem fillPde_unmap (rw us pde : BitVec 32) :
    PdePte.present.get (fillPde 0 rw us pde) = 0 := by
  change Pde4mb.present.get (fillPde 0 rw us pde) = 0
  simp (disch := decide) only [fillPde, if_true, Field.get_assign, Field.get_assign_of_disjoint]
  rfl

theorem fillPde_fields {p : BitVec 32} (hp : p ≠ 0) (rw us pde : BitVec 32) :
    PdePte.present.get (fillPde p rw us pde) = 1 ∧
      PdePte.pageSize.get (fillPde p rw us pde) = 1 ∧
      Pde4mb.mustBeZero.get (fillPde p rw us pde) = 0 ∧
      Pde4mb.readWrite.get (fillPde p rw us pde) = rw.setWidth 1 ∧
      Pde4mb.userSupervisor.get (fillPde p rw us pde) = us.setWidth 1 ∧
      Pde4mb.ptr.get (fillPde p rw us pde) = p.extractLsb' 22 10 := by
  change Pde4mb.present.get (fillPde p rw us pde) = 1 ∧
    Pde4mb.pageSize.get (fillPde p rw us pde) = 1 ∧ _
  have hzero : Pde4mb.mustBeZero.get (fillPde p rw us pde) = 0 := by
    apply mustBeZero_of_fields
    all_goals
      simp (disch := decide) only [fillPde, hp, if_false, Field.get_assign,
        Field.get_assign_of_disjoint]
      rfl
  refine ⟨?_, ?_, hzero, ?_⟩
  all_goals
    simp (disch := decide) only [fillPde, hp, if_false, Field.get_assign,
      Field.get_assign_of_disjoint]
  · rfl
  · rfl
  · exact ⟨rfl, rfl, BitVec.setWidth_ushiftRight_eq_extractLsb⟩

/-! ## Address arithmetic -/

theorem toNat_extractDir (a : BitVec 32) : (a.extractLsb' 22 10).toNat = a.toNat / 2 ^ 22 := by
  have := a.isLt
  rw [BitVec.extractLsb'_toNat, Nat.shiftRight_eq_div_pow]
  omega

theorem toNat_extractTable (a : BitVec 32) :
    (a.extractLsb' 12 10).toNat = a.toNat / 2 ^ 12 % 2 ^ 10 := by
  rw [BitVec.extractLsb'_toNat, Nat.shiftRight_eq_div_pow]

theorem dirIndex_eq (a : BitVec 32) : dirIndex a = a.extractLsb' 22 10 :=
  BitVec.setWidth_ushiftRight_eq_extractLsb

theorem tableIndex_eq (a : BitVec 32) : tableIndex a = a.extractLsb' 12 10 := by
  apply BitVec.eq_of_toNat_eq
  rw [toNat_extractTable, tableIndex, BitVec.toNat_setWidth, BitVec.toNat_and,
    BitVec.toNat_ushiftRight, Nat.shiftRight_eq_div_pow]
  change (a.toNat / 2 ^ 12 &&& (2 ^ 10 - 1)) % 2 ^ 10 = _
  rw [Nat.and_two_pow_sub_one_eq_mod, Nat.mod_mod]

/-- A low mask tests divisibility of both addresses at once. -/
theorem or_and_mask_eq_zero_iff {v p m : BitVec 32} {k : Nat} (hm : m.toNat = 2 ^ k - 1) :
    (v ||| p) &&& m = 0 ↔ v.toNat % 2 ^ k = 0 ∧ p.toNat % 2 ^ k = 0 := by
  rw [← BitVec.toNat_inj, BitVec.toNat_and, hm, Nat.and_two_pow_sub_one_eq_mod, BitVec.toNat_or,
    Nat.or_mod_two_pow]
  exact Nat.or_eq_zero_iff

/-- Pasting the offset of `a` below the frame of an aligned `p` is adding it. -/
theorem frame_append_offset {k l : Nat} (hkl : l + k = 32) {p a v : BitVec 32}
    (hp : p.toNat % 2 ^ k = 0) (hv : v.toNat % 2 ^ k = 0)
    (hlo : v.toNat ≤ a.toNat) (hhi : a.toNat < v.toNat + 2 ^ k) :
    ((p.extractLsb' k l ++ a.extractLsb' 0 k).cast hkl) = p + (a - v) := by
  have hpow : 2 ^ 32 = 2 ^ l * 2 ^ k := by rw [← Nat.pow_add, hkl]
  have ha := a.isLt
  have hpl := p.isLt
  have hoff : a.toNat % 2 ^ k = a.toNat - v.toNat := by
    rcases Nat.dvd_of_mod_eq_zero hv with ⟨q, hq⟩
    rw [show a.toNat = (a.toNat - v.toNat) + 2 ^ k * q by omega, Nat.add_mul_mod_self_left,
      Nat.mod_eq_of_lt (by omega), ← hq]
    omega
  have hdiv : p.toNat / 2 ^ k % 2 ^ l = p.toNat / 2 ^ k := by
    apply Nat.mod_eq_of_lt
    rw [Nat.div_lt_iff_lt_mul (by positivity), ← hpow]
    exact hpl
  have hback : p.toNat / 2 ^ k * 2 ^ k = p.toNat :=
    Nat.div_mul_cancel (Nat.dvd_of_mod_eq_zero hp)
  have hsub : (a - v).toNat = a.toNat - v.toNat := BitVec.toNat_sub_of_le (by
    rw [BitVec.le_def]; exact hlo)
  have hroom : p.toNat + (a.toNat - v.toNat) < 2 ^ 32 := by
    rcases Nat.dvd_of_mod_eq_zero hp with ⟨q, hq⟩
    have hql : q < 2 ^ l := by
      rw [hpow, hq, Nat.mul_comm] at hpl
      exact Nat.lt_of_mul_lt_mul_right hpl
    calc p.toNat + (a.toNat - v.toNat) < 2 ^ k * q + 2 ^ k := by omega
      _ = (q + 1) * 2 ^ k := by ring
      _ ≤ 2 ^ l * 2 ^ k := Nat.mul_le_mul_right _ hql
      _ = 2 ^ 32 := hpow.symm
  apply BitVec.eq_of_toNat_eq
  rw [BitVec.toNat_cast, BitVec.toNat_append, BitVec.extractLsb'_toNat, BitVec.extractLsb'_toNat,
    Nat.shiftRight_eq_div_pow, hdiv, Nat.shiftRight_zero, hoff, BitVec.toNat_add, hsub,
    Nat.mod_eq_of_lt hroom, ← Nat.shiftLeft_add_eq_or_of_lt (by omega), Nat.shiftLeft_eq, hback]

/-! ## The translation, level by level -/

/-- What a page table entry contributes, once the directory leads to it with full rights. -/
def pteMapping (pte a : BitVec 32) : Option Mapping :=
  if Pte4kb.present.get pte = 0 then none
  else some ⟨(Pte4kb.ptr.get pte : BitVec 20) ++ a.extractLsb' 0 12, Pte4kb.readWrite.get pte == 1,
    Pte4kb.userSupervisor.get pte == 1⟩

/-- What a 4MB directory entry contributes. -/
def pdeMapping (pde a : BitVec 32) : Option Mapping :=
  if PdePte.present.get pde = 0 then none
  else if Pde4mb.mustBeZero.get pde = 0 then
    some ⟨(Pde4mb.ptr.get pde : BitVec 10) ++ a.extractLsb' 0 22, Pde4mb.readWrite.get pde == 1,
      Pde4mb.userSupervisor.get pde == 1⟩
  else none

/-- The invariant of the two arrays: only slot 0 of the directory ever leads to the page table,
and before it does the table is empty; the first page stays unmapped. -/
structure PagingInv (pageTableAddr : BitVec 32) (s : Paging) : Prop where
  low : Linked pageTableAddr (s.pageDir 0) ∨
    PdePte.present.get (s.pageDir 0) = 0 ∧ ∀ i, Pte4kb.present.get (s.pageTable i) = 0
  high : ∀ d, d ≠ 0 → PdePte.present.get (s.pageDir d) = 0 ∨ PdePte.pageSize.get (s.pageDir d) = 1
  page0 : Pte4kb.present.get (s.pageTable 0) = 0

section

variable {pageTableAddr : BitVec 32} {other : BitVec 20 → BitVec 10 → BitVec 32} {s : Paging}

/-- Behind an entry that leads to `page_table` the table decides. -/
theorem translate_linked {a : BitVec 32}
    (hlink : Linked pageTableAddr (s.pageDir (a.extractLsb' 22 10))) :
    translate pageTableAddr other s a = pteMapping (s.pageTable (a.extractLsb' 12 10)) a := by
  have hframe : frames pageTableAddr other s (PdePte.ptr.get (s.pageDir (a.extractLsb' 22 10))) =
      s.pageTable := if_pos hlink.ptr
  unfold translate walk
  simp only [hlink.present, hlink.pageSize, hlink.readWrite, hlink.userSupervisor, hframe,
    pteMapping]
  rfl

theorem translate_big {a : BitVec 32}
    (hsize : PdePte.pageSize.get (s.pageDir (a.extractLsb' 22 10)) = 1) :
    translate pageTableAddr other s a = pdeMapping (s.pageDir (a.extractLsb' 22 10)) a := by
  unfold translate walk
  simp only [hsize, if_true, pdeMapping]

theorem translate_low (inv : PagingInv pageTableAddr s) {a : BitVec 32}
    (ha : a.extractLsb' 22 10 = 0) :
    translate pageTableAddr other s a = pteMapping (s.pageTable (a.extractLsb' 12 10)) a := by
  rcases inv.low with hlink | ⟨habs, hempty⟩
  · apply translate_linked
    rw [ha]
    exact hlink
  · unfold translate walk
    rw [ha]
    simp only [habs, if_true, pteMapping, hempty]

theorem translate_high (inv : PagingInv pageTableAddr s) {a : BitVec 32}
    (ha : a.extractLsb' 22 10 ≠ 0) :
    translate pageTableAddr other s a = pdeMapping (s.pageDir (a.extractLsb' 22 10)) a := by
  rcases inv.high _ ha with habs | hsize
  · unfold translate walk
    simp only [habs, if_true, pdeMapping]
  · exact translate_big hsize

/-! ## One call -/

/-- A 4KB call that passes the checks names an aligned page below 4MB other than the first. -/
theorem accepts_small {v p : BitVec 32} (h : mapRefuses v p 0 = false) :
    v.toNat ≠ 0 ∧ v.toNat < 2 ^ 22 ∧ v.toNat % 2 ^ 12 = 0 ∧ p.toNat % 2 ^ 12 = 0 := by
  simp only [mapRefuses, if_true, Bool.or_eq_false_iff, bne_eq_false_iff_eq, beq_eq_false_iff_ne,
    ne_eq, beq_self_eq_true, Bool.true_and, decide_eq_false_iff_not, BitVec.not_le] at h
  rcases h with ⟨⟨⟨-, hv⟩, hmask⟩, hlt⟩
  rcases (or_and_mask_eq_zero_iff (k := 12) rfl).mp hmask with ⟨hva, hpa⟩
  refine ⟨fun h0 => hv (BitVec.eq_of_toNat_eq h0), ?_, hva, hpa⟩
  exact BitVec.lt_def.mp hlt

theorem accepts_ne_zero {v p k : BitVec 32} (h : mapRefuses v p k = false) : v.toNat ≠ 0 := by
  simp only [mapRefuses, Bool.or_eq_false_iff, beq_eq_false_iff_ne, ne_eq] at h
  exact fun h0 => h.1.1.2 (BitVec.eq_of_toNat_eq h0)

theorem accepts_mode {v p k : BitVec 32} (h : mapRefuses v p k = false) : k = 0 ∨ k = 1 := by
  simp only [mapRefuses, Bool.or_eq_false_iff, Bool.and_eq_false_iff, bne_eq_false_iff_eq] at h
  exact h.1.1.1

/-- The state after an accepted 4KB call. -/
def afterSmall (pageTableAddr v p rw us : BitVec 32) (s : Paging) : Paging where
  pageDir := Function.update s.pageDir 0 (linkTable pageTableAddr (s.pageDir 0))
  pageTable := Function.update s.pageTable (v.extractLsb' 12 10)
    (fillPte p rw us (s.pageTable (v.extractLsb' 12 10)))

/-- The state after an accepted 4MB call. -/
def afterBig (v p rw us : BitVec 32) (s : Paging) : Paging where
  pageDir := Function.update s.pageDir (v.extractLsb' 22 10)
    (fillPde p rw us (s.pageDir (v.extractLsb' 22 10)))
  pageTable := s.pageTable

theorem dir_eq_zero_of_lt {a : BitVec 32} (h : a.toNat < 2 ^ 22) : a.extractLsb' 22 10 = 0 := by
  apply BitVec.eq_of_toNat_eq
  rw [toNat_extractDir]
  exact Nat.div_eq_of_lt h

theorem dir_ne_zero {v : BitVec 32} (hv0 : v.toNat ≠ 0) (hva : v.toNat % 2 ^ 22 = 0) :
    v.extractLsb' 22 10 ≠ 0 := by
  intro h
  have hn := congrArg BitVec.toNat h
  rw [toNat_extractDir] at hn
  change _ = 0 at hn
  omega

theorem mapVP_big {pageTableAddr v p rw us : BitVec 32} {s : Paging}
    (hok : mapRefuses v p 1 = false) :
    mapVP pageTableAddr v p 1 rw us s = (0, afterBig v p rw us s) := by
  unfold mapVP
  simp only [hok, Bool.false_eq_true, if_false, dirIndex_eq, show ¬(1 : BitVec 32) = 0 by decide]
  rfl

/-- Every call is refused and changes nothing, or is one of the two page installations. -/
theorem mapVP_cases (pageTableAddr v p k rw us : BitVec 32) (s : Paging) :
    mapVP pageTableAddr v p k rw us s = (-1, s) ∨
      k = 0 ∧ mapRefuses v p 0 = false ∧
        mapVP pageTableAddr v p k rw us s = (0, afterSmall pageTableAddr v p rw us s) ∨
      k = 1 ∧ mapRefuses v p 1 = false ∧
        mapVP pageTableAddr v p k rw us s = (0, afterBig v p rw us s) := by
  cases hr : mapRefuses v p k with
  | true => exact .inl (if_pos hr)
  | false =>
    rcases accepts_mode hr with rfl | rfl
    · have hdir : dirIndex v = 0 := by
        rw [dirIndex_eq]
        exact dir_eq_zero_of_lt (accepts_small hr).2.1
      refine .inr (.inl ⟨rfl, hr, ?_⟩)
      unfold mapVP
      simp only [hr, Bool.false_eq_true, if_false, if_true, hdir, tableIndex_eq]
      rfl
    · exact .inr (.inr ⟨rfl, hr, mapVP_big hr⟩)

/-- The low bit that a one-bit field keeps of a 32-bit argument. -/
theorem setWidth_one_beq (x : BitVec 32) : (x.setWidth 1 == 1) = x.getLsbD 0 := by
  cases hx : x.getLsbD 0 with
  | true =>
    rw [beq_iff_eq]
    apply BitVec.eq_of_getLsbD_eq
    intro i hi
    obtain rfl : i = 0 := by omega
    simp [hx]
  | false =>
    rw [beq_eq_false_iff_ne]
    intro h
    have hbit : (x.setWidth 1).getLsbD 0 = true := by rw [h]; rfl
    rw [BitVec.getLsbD_setWidth, hx] at hbit
    exact absurd hbit (by decide)

theorem pteMapping_fillPte {p v a : BitVec 32} (rw us pte : BitVec 32)
    (hp : p.toNat % 2 ^ 12 = 0) (hv : v.toNat % 2 ^ 12 = 0)
    (hlo : v.toNat ≤ a.toNat) (hhi : a.toNat < v.toNat + 2 ^ 12) :
    pteMapping (fillPte p rw us pte) a =
      if p = 0 then none else some ⟨p + (a - v), rw.getLsbD 0, us.getLsbD 0⟩ := by
  unfold pteMapping
  by_cases hz : p = 0
  · subst hz
    rw [fillPte_unmap, if_pos rfl, if_pos rfl]
  · rcases fillPte_fields hz rw us pte with ⟨hpres, hrw, hus, hptr⟩
    rw [hpres, hrw, hus, if_neg (by decide), if_neg hz]
    congr 2
    · exact (congrArg (· ++ a.extractLsb' 0 12) hptr).trans
        (frame_append_offset (k := 12) (l := 20) rfl hp hv hlo hhi)
    · exact setWidth_one_beq rw
    · exact setWidth_one_beq us

theorem pdeMapping_fillPde {p v a : BitVec 32} (rw us pde : BitVec 32)
    (hp : p.toNat % 2 ^ 22 = 0) (hv : v.toNat % 2 ^ 22 = 0)
    (hlo : v.toNat ≤ a.toNat) (hhi : a.toNat < v.toNat + 2 ^ 22) :
    pdeMapping (fillPde p rw us pde) a =
      if p = 0 then none else some ⟨p + (a - v), rw.getLsbD 0, us.getLsbD 0⟩ := by
  unfold pdeMapping
  by_cases hz : p = 0
  · subst hz
    rw [fillPde_unmap, if_pos rfl, if_pos rfl]
  · rcases fillPde_fields hz rw us pde with ⟨hpres, -, hzero, hrw, hus, hptr⟩
    rw [hpres, hzero, hrw, hus, if_neg (by decide), if_pos rfl, if_neg hz]
    congr 2
    · exact (congrArg (· ++ a.extractLsb' 0 22) hptr).trans
        (frame_append_offset (k := 22) (l := 10) rfl hp hv hlo hhi)
    · exact setWidth_one_beq rw
    · exact setWidth_one_beq us

/-- The tables satisfy their invariant and translate as the abstract map says. -/
structure Refines (pageTableAddr : BitVec 32) (other : BitVec 20 → BitVec 10 → BitVec 32)
    (s : Paging) (m : AddrMap) : Prop where
  inv : PagingInv pageTableAddr s
  agree : ∀ a, translate pageTableAddr other s a = m a

theorem afterSmall_inv (inv : PagingInv pageTableAddr s) {v : BitVec 32} (p rw us : BitVec 32)
    (hv0 : v.toNat ≠ 0) (hlt : v.toNat < 2 ^ 22) (hva : v.toNat % 2 ^ 12 = 0) :
    PagingInv pageTableAddr (afterSmall pageTableAddr v p rw us s) where
  low := by
    left
    simp only [afterSmall, Function.update_self]
    exact linked_linkTable _ _
  high d hd := by
    simp only [afterSmall, Function.update_of_ne hd]
    exact inv.high d hd
  page0 := by
    have hne : (0 : BitVec 10) ≠ v.extractLsb' 12 10 := by
      intro h
      have hn := congrArg BitVec.toNat h
      rw [toNat_extractTable] at hn
      change 0 = _ at hn
      omega
    simp only [afterSmall, Function.update_of_ne hne]
    exact inv.page0

theorem afterBig_inv (inv : PagingInv pageTableAddr s) {v : BitVec 32} (p rw us : BitVec 32)
    (hdir : v.extractLsb' 22 10 ≠ 0) : PagingInv pageTableAddr (afterBig v p rw us s) where
  low := by
    simp only [afterBig, Function.update_of_ne hdir.symm]
    exact inv.low
  high d hd := by
    simp only [afterBig]
    by_cases hvd : d = v.extractLsb' 22 10
    · subst hvd
      rw [Function.update_self]
      by_cases hz : p = 0
      · subst hz
        exact .inl (fillPde_unmap rw us _)
      · exact .inr (fillPde_fields hz rw us _).2.1
    · rw [Function.update_of_ne hvd]
      exact inv.high d hd
  page0 := inv.page0

/-- An accepted 4KB call installs its page in the translation and touches no other address. -/
theorem translate_afterSmall (inv : PagingInv pageTableAddr s) {c : MapCall}
    (hk : c.kbOrMb = 0) (hok : mapRefuses c.virtualAddr c.physicalAddr 0 = false) (a : BitVec 32) :
    translate pageTableAddr other (afterSmall pageTableAddr c.virtualAddr c.physicalAddr
        c.readWrite c.userSupervisor s) a =
      AddrMap.install (translate pageTableAddr other s) c a := by
  rcases accepts_small hok with ⟨hv0, hlt, hva, hpa⟩
  have inv' := afterSmall_inv inv c.physicalAddr c.readWrite c.userSupervisor hv0 hlt hva
  have hcov : c.Covers a ↔ a.extractLsb' 22 10 = 0 ∧
      a.extractLsb' 12 10 = c.virtualAddr.extractLsb' 12 10 := by
    simp only [MapCall.Covers, MapCall.pageSize, hk, if_true, ← BitVec.toNat_inj,
      toNat_extractDir, toNat_extractTable]
    change _ ↔ a.toNat / 2 ^ 22 = 0 ∧ _
    have := a.isLt
    omega
  unfold AddrMap.install
  by_cases hdir : a.extractLsb' 22 10 = 0
  · rw [translate_low inv' hdir]
    by_cases htab : a.extractLsb' 12 10 = c.virtualAddr.extractLsb' 12 10
    · have hin := hcov.mpr ⟨hdir, htab⟩
      rw [if_pos hin]
      simp only [afterSmall, htab, Function.update_self]
      refine pteMapping_fillPte _ _ _ hpa hva hin.1 ?_
      have hhi := hin.2
      rwa [MapCall.pageSize, if_pos hk] at hhi
    · rw [if_neg fun hin => htab (hcov.mp hin).2, translate_low inv hdir]
      simp only [afterSmall, Function.update_of_ne htab]
  · rw [if_neg fun hin => hdir (hcov.mp hin).1, translate_high inv' hdir, translate_high inv hdir]
    simp only [afterSmall, Function.update_of_ne hdir]

/-- A 4MB page that has been entered leads to its physical page, whatever the tables held before. -/
theorem translate_afterBig_self {v p : BitVec 32} (rw us : BitVec 32) (hp : p ≠ 0)
    (hva : v.toNat % 2 ^ 22 = 0) (hpa : p.toNat % 2 ^ 22 = 0) {a : BitVec 32}
    (hlo : v.toNat ≤ a.toNat) (hhi : a.toNat < v.toNat + 2 ^ 22) :
    translate pageTableAddr other (afterBig v p rw us s) a =
      some ⟨p + (a - v), rw.getLsbD 0, us.getLsbD 0⟩ := by
  have hdir : a.extractLsb' 22 10 = v.extractLsb' 22 10 := by
    apply BitVec.eq_of_toNat_eq
    rw [toNat_extractDir, toNat_extractDir]
    omega
  have hfields := fillPde_fields hp rw us (s.pageDir (v.extractLsb' 22 10))
  rw [translate_big]
  · simp only [afterBig, hdir, Function.update_self]
    rw [pdeMapping_fillPde _ _ _ hpa hva hlo hhi, if_neg hp]
  · simp only [afterBig, hdir, Function.update_self]
    exact hfields.2.1

/-- The same for an accepted 4MB call with aligned addresses. -/
theorem translate_afterBig (inv : PagingInv pageTableAddr s) {c : MapCall}
    (hk : c.kbOrMb = 1) (hv0 : c.virtualAddr.toNat ≠ 0) (hal : c.Aligned) (a : BitVec 32) :
    translate pageTableAddr other (afterBig c.virtualAddr c.physicalAddr
        c.readWrite c.userSupervisor s) a =
      AddrMap.install (translate pageTableAddr other s) c a := by
  rcases hal hk with ⟨hva, hpa⟩
  have hk0 : ¬c.kbOrMb = 0 := by rw [hk]; decide
  have hvdir := dir_ne_zero hv0 hva
  have inv' := afterBig_inv inv c.physicalAddr c.readWrite c.userSupervisor hvdir
  have hcov : c.Covers a ↔ a.extractLsb' 22 10 = c.virtualAddr.extractLsb' 22 10 := by
    simp only [MapCall.Covers, MapCall.pageSize, hk0, if_false, ← BitVec.toNat_inj,
      toNat_extractDir]
    omega
  unfold AddrMap.install
  by_cases hdir : a.extractLsb' 22 10 = c.virtualAddr.extractLsb' 22 10
  · have hin := hcov.mpr hdir
    rw [if_pos hin, translate_high inv' (hdir ▸ hvdir)]
    simp only [afterBig, hdir, Function.update_self]
    refine pdeMapping_fillPde _ _ _ hpa hva hin.1 ?_
    have hhi := hin.2
    rwa [MapCall.pageSize, if_neg hk0] at hhi
  · rw [if_neg fun hin => hdir (hcov.mp hin)]
    by_cases hlow : a.extractLsb' 22 10 = 0
    · rw [translate_low inv' hlow, translate_low inv hlow]
      rfl
    · rw [translate_high inv' hlow, translate_high inv hlow]
      simp only [afterBig, Function.update_of_ne hdir]

/-- The step of the simulation. -/
theorem Refines.exec {m : AddrMap} (h : Refines pageTableAddr other s m) {c : MapCall}
    (hal : c.Aligned) :
    Refines pageTableAddr other (c.exec pageTableAddr s).2
      (m.record c (c.exec pageTableAddr s).1) := by
  have hm : translate pageTableAddr other s = m := funext h.agree
  unfold MapCall.exec AddrMap.record
  rcases mapVP_cases pageTableAddr c.virtualAddr c.physicalAddr c.kbOrMb c.readWrite
    c.userSupervisor s with href | ⟨hk, hok, hsmall⟩ | ⟨hk, hok, hbig⟩
  · rw [href, if_neg (show ¬(-1 : BitVec 32) = 0 by decide)]
    exact h
  · rcases accepts_small hok with ⟨hv0, hlt, hva, -⟩
    rw [hsmall, if_pos rfl]
    refine ⟨afterSmall_inv h.inv _ _ _ hv0 hlt hva, fun a => ?_⟩
    rw [translate_afterSmall h.inv hk hok, hm]
  · have hv0 := accepts_ne_zero hok
    have hvdir := dir_ne_zero hv0 (hal hk).1
    rw [hbig, if_pos rfl]
    refine ⟨afterBig_inv h.inv _ _ _ hvdir, fun a => ?_⟩
    rw [translate_afterBig h.inv hk hv0 hal, hm]

/-! ## Every sequence of calls -/

theorem Refines.run {m : AddrMap} (h : Refines pageTableAddr other s m) {cs : List MapCall}
    (hal : ∀ c ∈ cs, c.Aligned) :
    Refines pageTableAddr other (mapRun pageTableAddr cs (s, m)).1
      (mapRun pageTableAddr cs (s, m)).2 := by
  induction cs generalizing s m with
  | nil => exact h
  | cons c cs ih =>
    exact ih (h.exec (hal c List.mem_cons_self)) fun c' hc' => hal c' (List.mem_cons_of_mem c hc')

/-- The cleared tables map nothing. -/
theorem refines_clear (junkPde junkPte : BitVec 32) :
    Refines pageTableAddr other (clearPaging junkPde junkPte) fun _ => none := by
  have hpde : PdePte.present.get (initPde junkPde) = 0 := by
    simp (disch := decide) only [initPde, Field.get_assign, Field.get_assign_of_disjoint]
    rfl
  have hpte : Pte4kb.present.get (initPte junkPte) = 0 := by
    simp (disch := decide) only [initPte, Field.get_assign, Field.get_assign_of_disjoint]
    rfl
  refine ⟨⟨.inr ⟨hpde, fun _ => hpte⟩, fun _ _ => .inl hpde, hpte⟩, fun a => ?_⟩
  unfold translate walk clearPaging
  exact if_pos hpde

theorem initCalls_aligned : ∀ c ∈ initCalls, c.Aligned := by
  intro c hc
  rcases List.mem_pair.mp hc with rfl | rfl
  · intro _
    exact ⟨by decide, by decide⟩
  · intro h
    exact absurd h (by decide)

theorem initPaging_eq_run (junkPde junkPte : BitVec 32) (m : AddrMap) :
    initPaging pageTableAddr junkPde junkPte =
      (mapRun pageTableAddr initCalls (clearPaging junkPde junkPte, m)).1 :=
  rfl

/-- The address map `init_paging` leaves behind: the kernel page and the video page. -/
def initMap : AddrMap :=
  AddrMap.install (AddrMap.install (fun _ => none) ⟨KERNEL_MEMORY_ADDR, KERNEL_MEMORY_ADDR, 1, 1, 1⟩)
    ⟨VIDEO, VIDEO, 0, 1, 1⟩

theorem refines_init (junkPde junkPte : BitVec 32) :
    Refines pageTableAddr other (initPaging pageTableAddr junkPde junkPte) initMap := by
  rw [initPaging_eq_run junkPde junkPte fun _ => none]
  exact (refines_clear junkPde junkPte).run initCalls_aligned

/-- In a state that keeps the invariant, no address of the first page is mapped. -/
theorem PagingInv.first_page (inv : PagingInv pageTableAddr s) {a : BitVec 32}
    (ha : a.toNat < 2 ^ 12) : translate pageTableAddr other s a = none := by
  have htab : a.extractLsb' 12 10 = 0 := by
    apply BitVec.eq_of_toNat_eq
    rw [toNat_extractTable, Nat.div_eq_of_lt ha]
    rfl
  rw [translate_low inv (dir_eq_zero_of_lt (by omega)), htab]
  exact if_pos inv.page0

end

/-! ## Single calls -/

/-- The translation from 4MB on is the same in both states. -/
def KeepsHigh (pageTableAddr : BitVec 32) (s s' : Paging) : Prop :=
  PagingInv pageTableAddr s → PagingInv pageTableAddr s' ∧
    ∀ other a, 2 ^ 22 ≤ a.toNat →
      translate pageTableAddr other s' a = translate pageTableAddr other s a

theorem KeepsHigh.refl (pageTableAddr : BitVec 32) (s : Paging) : KeepsHigh pageTableAddr s s :=
  fun inv => ⟨inv, fun _ _ _ => rfl⟩

theorem KeepsHigh.trans {pageTableAddr : BitVec 32} {s₁ s₂ s₃ : Paging}
    (h : KeepsHigh pageTableAddr s₁ s₂) (h' : KeepsHigh pageTableAddr s₂ s₃) :
    KeepsHigh pageTableAddr s₁ s₃ := by
  intro inv
  have h₂ := h inv
  have h₃ := h' h₂.1
  exact ⟨h₃.1, fun other a ha => (h₃.2 other a ha).trans (h₂.2 other a ha)⟩

/-- A call in 4KB mode works below 4MB. -/
theorem keepsHigh_mapVP (pageTableAddr v p rw us : BitVec 32) (s : Paging) :
    KeepsHigh pageTableAddr s (mapVP pageTableAddr v p 0 rw us s).2 := by
  intro inv
  rcases mapVP_cases pageTableAddr v p 0 rw us s with heq | ⟨-, hok, heq⟩ | ⟨hmode, -⟩
  · rw [heq]
    exact ⟨inv, fun _ _ _ => rfl⟩
  · rcases accepts_small hok with ⟨hv0, hlt, hva, -⟩
    rw [heq]
    refine ⟨afterSmall_inv inv p rw us hv0 hlt hva, fun other a ha => ?_⟩
    have hinstall : translate pageTableAddr other (afterSmall pageTableAddr v p rw us s) a =
        AddrMap.install (translate pageTableAddr other s) ⟨v, p, 0, rw, us⟩ a :=
      translate_afterSmall inv (c := ⟨v, p, 0, rw, us⟩) rfl hok a
    have houtside : ¬(⟨v, p, 0, rw, us⟩ : MapCall).Covers a := by
      intro hcov
      have hhi : a.toNat < v.toNat + 2 ^ 12 := hcov.2
      omega
    rw [AddrMap.install, if_neg houtside] at hinstall
    exact hinstall
  · exact absurd hmode (by decide)

/-- An accepted call in 4MB mode maps its whole page. -/
theorem translate_mapVP_big {pageTableAddr v p : BitVec 32} {s : Paging}
    (hok : mapRefuses v p 1 = false) (hp : p ≠ 0) (hva : v.toNat % 2 ^ 22 = 0)
    (hpa : p.toNat % 2 ^ 22 = 0) (other : BitVec 20 → BitVec 10 → BitVec 32) (a : BitVec 32)
    (hlo : v.toNat ≤ a.toNat) (hhi : a.toNat < v.toNat + 2 ^ 22) :
    translate pageTableAddr other (mapVP pageTableAddr v p 1 1 1 s).2 a =
      some ⟨p + (a - v), true, true⟩ := by
  rw [mapVP_big hok]
  exact translate_afterBig_self 1 1 hp hva hpa hlo hhi

theorem mapVP_big_inv {pageTableAddr v p : BitVec 32} {s : Paging}
    (inv : PagingInv pageTableAddr s) (hok : mapRefuses v p 1 = false)
    (hva : v.toNat % 2 ^ 22 = 0) : PagingInv pageTableAddr (mapVP pageTableAddr v p 1 1 1 s).2 := by
  rw [mapVP_big hok]
  exact afterBig_inv inv p 1 1 (dir_ne_zero (accepts_ne_zero hok) hva)

/-! ## Runs -/

/-- After `init_paging` and any calls of `map_v_p`, with 4MB addresses aligned, the processor
translates every address as the abstract map does, and the first 4KB are unmapped. -/
theorem page_tables_refine_map (pageTableAddr junkPde junkPte : BitVec 32)
    (other : BitVec 20 → BitVec 10 → BitVec 32) (cs : List MapCall) (hal : ∀ c ∈ cs, c.Aligned) :
    let sm := mapRun pageTableAddr cs (initPaging pageTableAddr junkPde junkPte, initMap)
    (∀ a, translate pageTableAddr other sm.1 a = sm.2 a) ∧
      ∀ a : BitVec 32, a.toNat < 2 ^ 12 → translate pageTableAddr other sm.1 a = none := by
  have h := (@refines_init pageTableAddr other junkPde junkPte).run hal
  exact ⟨h.agree, fun a ha => h.inv.first_page ha⟩

/-- The mapping `execute` makes for process 0: its entry page lands at 8MB plus the offset. -/
theorem page_tables_refine_map_user_page :
    (∀ c ∈ [(⟨0x8000000, 0x800000, 1, 1, 1⟩ : MapCall)], c.Aligned) ∧
      translate 0x401000 (fun _ _ => 0)
        (mapRun 0x401000 [⟨0x8000000, 0x800000, 1, 1, 1⟩] (initPaging 0x401000 0 0, initMap)).1
        0x8048000 = some ⟨0x848000, true, true⟩ := by
  have hal : ∀ c ∈ [(⟨0x8000000, 0x800000, 1, 1, 1⟩ : MapCall)], c.Aligned := by
    intro c hc
    rw [List.mem_singleton.mp hc]
    intro _
    exact ⟨by decide, by decide⟩
  refine ⟨hal, ?_⟩
  rw [(page_tables_refine_map 0x401000 0 0 (fun _ _ => 0) _ hal).1 0x8048000]
  decide

end Kernel391
