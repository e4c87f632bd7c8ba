import Kernel391.PagingRefinement

/-!
# What `map_v_p` accepts

The checks of `map_v_p` and the entries it writes, compared in an arbitrary state of the tables.
In 4KB mode they agree.  In 4MB mode the check lets through every multiple of 16KB, and the entry
keeps the top ten bits.
-/

namespace Kernel391

namespace MapCall

/-- The mapping asked for is one of whole pages, and it is there afterwards. -/
def Honoured (pageTableAddr : BitVec 32) (other : BitVec 20 → BitVec 10 → BitVec 32)
    (s : Paging) (c : MapCall) : Prop :=
  (c.virtualAddr.toNat % c.pageSize = 0 ∧ c.physicalAddr.toNat % c.pageSize = 0) ∧
    ∃ m, translate pageTableAddr other s c.virtualAddr = some m ∧ m.phys = c.physicalAddr

/-- A mapping in 4MB mode of multiples of 16KB that are not both multiples of 4MB. -/
def LosesBits (c : MapCall) : Prop :=
  c.kbOrMb = 1 ∧ c.virtualAddr ≠ 0 ∧ c.physicalAddr ≠ 0 ∧
    (c.virtualAddr.toNat % 2 ^ 14 = 0 ∧ c.physicalAddr.toNat % 2 ^ 14 = 0) ∧
    ¬(c.virtualAddr.toNat % 2 ^ 22 = 0 ∧ c.physicalAddr.toNat % 2 ^ 22 = 0)

end MapCall

/-- The mask `0x3FFF` of the 4MB mode. -/
theorem mapRefuses_big {v p : BitVec 32} : mapRefuses v p 1 = false ↔
    v ≠ 0 ∧ v.toNat % 2 ^ 14 = 0 ∧ p.toNat % 2 ^ 14 = 0 := by
  have hmask : (v ||| p) &&& 0x3FFF = 0 ↔ v.toNat % 2 ^ 14 = 0 ∧ p.toNat % 2 ^ 14 = 0 :=
    or_and_mask_eq_zero_iff rfl
  rw [← hmask]
  simp [mapRefuses]

section

variable {pageTableAddr : BitVec 32} {other : BitVec 20 → BitVec 10 → BitVec 32} {s : Paging}

theorem pageSize_small {c : MapCall} (hk : c.kbOrMb = 0) : c.pageSize = 2 ^ 12 := if_pos hk

theorem pageSize_big {c : MapCall} (hk : c.kbOrMb = 1) : c.pageSize = 2 ^ 22 := by
  have hne : ¬c.kbOrMb = 0 := by
    rw [hk]
    decide
  exact if_neg hne

/-- An accepted 4KB call maps its page whatever the tables held before: it links the table and
fills the entry itself. -/
theorem honoured_afterSmall {c : MapCall} (hk : c.kbOrMb = 0)
    (hok : mapRefuses c.virtualAddr c.physicalAddr 0 = false) (hp : c.physicalAddr ≠ 0) :
    c.Honoured pageTableAddr other (afterSmall pageTableAddr c.virtualAddr c.physicalAddr
      c.readWrite c.userSupervisor s) := by
  obtain ⟨-, hlt, hva, hpa⟩ := accepts_small hok
  have hdir := dir_eq_zero_of_lt hlt
  unfold MapCall.Honoured
  rw [pageSize_small hk, translate_linked]
  · simp only [afterSmall, Function.update_self]
    rw [pteMapping_fillPte _ _ _ hpa hva (Nat.le_refl _) (by omega), if_neg hp]
    exact ⟨⟨hva, hpa⟩, _, rfl, by simp⟩
  · simp only [afterSmall, hdir, Function.update_self]
    exact linked_linkTable _ _

theorem honoured_afterBig {c : MapCall} (hk : c.kbOrMb = 1) (hp : c.physicalAddr ≠ 0)
    (hva : c.virtualAddr.toNat % 2 ^ 22 = 0) (hpa : c.physicalAddr.toNat % 2 ^ 22 = 0) :
    c.Honoured pageTableAddr other (afterBig c.virtualAddr c.physicalAddr
      c.readWrite c.userSupervisor s) := by
  unfold MapCall.Honoured
  rw [pageSize_big hk, translate_afterBig_self _ _ hp hva hpa (Nat.le_refl _) (by omega)]
  exact ⟨⟨hva, hpa⟩, _, rfl, by simp⟩

/-- In every state of the tables, a call that returns 0 for a physical address has mapped whole
pages and its virtual address leads there, exactly if the call is not one that loses bits. -/
theorem map_honoured_iff (pageTableAddr : BitVec 32) (other : BitVec 20 → BitVec 10 → BitVec 32)
    (s : Paging) (c : MapCall) :
    ((c.exec pageTableAddr s).1 = 0 → c.physicalAddr ≠ 0 →
      c.Honoured pageTableAddr other (c.exec pageTableAddr s).2) ↔ ¬c.LosesBits := by
  constructor
  · rintro h ⟨hk, hv, hp, h16, hloses⟩
    have hok : mapRefuses c.virtualAddr c.physicalAddr 1 = false := mapRefuses_big.mpr ⟨hv, h16⟩
    have hret : (c.exec pageTableAddr s).1 = 0 := by
      unfold MapCall.exec mapVP
      rw [hk, hok]
      rfl
    have hdiv := (h hret hp).1
    rw [pageSize_big hk] at hdiv
    exact hloses hdiv
  · intro hkeeps hret hp
    unfold MapCall.exec at hret ⊢
    rcases mapVP_cases pageTableAddr c.virtualAddr c.physicalAddr c.kbOrMb c.readWrite
      c.userSupervisor s with hrefused | ⟨hk, hok, heq⟩ | ⟨hk, hok, heq⟩
    · have hfail : ¬(-1 : BitVec 32) = 0 := by decide
      rw [hrefused] at hret
      exact absurd hret hfail
    · rw [heq]
      exact honoured_afterSmall hk hok hp
    · obtain ⟨hne, h16⟩ := mapRefuses_big.mp hok
      have hal : c.virtualAddr.toNat % 2 ^ 22 = 0 ∧ c.physicalAddr.toNat % 2 ^ 22 = 0 := by
        by_contra hnot
        exact hkeeps ⟨hk, hne, hp, h16, hnot⟩
      rw [heq]
      exact honoured_afterBig hk hp hal.1 hal.2

end

/-- A page at 80MB plus 16KB is accepted, and its address leads 16KB past the physical address
that was asked for. -/
theorem misaligned_page_accepted :
    let c : MapCall := ⟨0x5004000, 0x6000000, 1, 1, 0⟩
    let s := initPaging 0x401000 0 0
    (c.exec 0x401000 s).1 = 0 ∧
      translate 0x401000 (fun _ _ => 0) (c.exec 0x401000 s).2 c.virtualAddr =
        some ⟨0x6004000, true, false⟩ ∧
      ¬c.Honoured 0x401000 (fun _ _ => 0) (c.exec 0x401000 s).2 := by
  have hret : ((⟨0x5004000, 0x6000000, 1, 1, 0⟩ : MapCall).exec 0x401000
      (initPaging 0x401000 0 0)).1 = 0 := by decide
  have hleads : translate 0x401000 (fun _ _ => 0)
      ((⟨0x5004000, 0x6000000, 1, 1, 0⟩ : MapCall).exec 0x401000 (initPaging 0x401000 0 0)).2
      0x5004000 = some ⟨0x6004000, true, false⟩ := by decide +kernel
  refine ⟨hret, hleads, ?_⟩
  rintro ⟨⟨hva, -⟩, -⟩
  revert hva
  decide

end Kernel391
