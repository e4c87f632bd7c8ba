import Kernel391.Tokenizer

/-!
# `copy_string` in memory

Source and destination are addresses in one memory here, so the two may overlap.  `string_length`
gives up behind a million bytes and returns `-1`; that is not looked at before it is used as a
bound and as a subscript.
-/

namespace Kernel391

/-- `copy_string`: its result and the memory afterwards. -/
def copyStringAt (source dest : Nat) (mem : Memory) : Int × Memory :=
  if source = 0 ∨ dest = 0 then (-1, mem)
  else
    let len := stringLength (some (stringAt mem source))
    let mem := (List.range len.toNat).foldl
      (fun m i => Function.update m (dest + i) (m (source + i))) mem
    (0, Function.update mem ((dest : Int) + len).toNat 0)

/-- The string of length `n` is at its destination and nothing else has changed. -/
structure Copied (n source dest : Nat) (mem mem' : Memory) : Prop where
  bytes : ∀ i, i ≤ n → mem' (dest + i) = mem (source + i)
  frame : ∀ a, a < dest ∨ dest + n < a → mem' a = mem a
  equal : stringEqual (stringAt mem' source) (text (stringAt mem' dest) n) 0 = 1

def AllOrNothing (n source dest : Nat) (mem : Memory) (r : Int × Memory) : Prop :=
  r.1 = 0 ∧ Copied n source dest mem r.2 ∨ r.1 = -1 ∧ r.2 = mem

/-- The length is counted, and the destination is apart from the string or is the string. -/
def CopyFits (n source dest : Nat) : Prop :=
  n ≤ 1000000 ∧ (source = dest ∨ source + n < dest ∨ dest + n < source)

/-- There is nothing to do: the string is at its destination, behind a NUL. -/
def AlreadyCopied (n source dest : Nat) (mem : Memory) : Prop :=
  mem (dest - 1) = 0 ∧ ∀ i, i ≤ n → mem (dest + i) = mem (source + i)

/-! ## Comparing strings -/

theorem stringEqual_eq_one_iff (s : CStr) : ∀ (l : List UInt8) (i : Nat),
    stringEqual s l i = 1 ↔
      (∀ j, j < l.length → s (i + j) ≠ 0 ∧ s (i + j) = l.getD j 0) ∧ s (i + l.length) = 0
  | [], i => by
      by_cases hend : s i = 0
      · simp [stringEqual, hend]
      · simp [stringEqual, hend]
  | c :: l, i => by
      have hshift : ∀ j, i + (j + 1) = i + 1 + j := by omega
      have ih := stringEqual_eq_one_iff s l (i + 1)
      have hsplit : (∀ j, j < (c :: l).length → s (i + j) ≠ 0 ∧ s (i + j) = (c :: l).getD j 0) ↔
          (s i ≠ 0 ∧ s i = c) ∧
            ∀ j, j < l.length → s (i + 1 + j) ≠ 0 ∧ s (i + 1 + j) = l.getD j 0 := by
        constructor
        · intro h
          refine ⟨h 0 (Nat.zero_lt_succ _), ?_⟩
          intro j hj
          rw [← hshift]
          exact h (j + 1) (Nat.succ_lt_succ hj)
        · rintro ⟨hfirst, hrest⟩ j hj
          cases j with
          | zero => exact hfirst
          | succ j =>
            rw [hshift]
            exact hrest j (Nat.lt_of_succ_lt_succ hj)
      rw [hsplit, List.length_cons, hshift l.length, and_assoc, ← ih, stringEqual]
      by_cases hend : s i = 0
      · simp [hend]
      · by_cases hc : s i = c
        · rw [if_neg hend, if_neg (not_not_intro hc)]
          exact (and_iff_right ⟨hend, hc⟩).symm
        · simp [hend, hc]

/-- Two strings of one length are equal byte by byte. -/
theorem stringEqual_text_iff {s₁ s₂ : CStr} {n : Nat} :
    stringEqual s₁ (text s₂ n) 0 = 1 ↔ IsCStr s₁ n ∧ ∀ j, j < n → s₁ j = s₂ j := by
  have hget : ∀ j, j < n → (text s₂ n).getD j 0 = s₂ j := by
    intro j hj
    simp [text, hj]
  rw [stringEqual_eq_one_iff, length_text]
  simp only [Nat.zero_add]
  constructor
  · rintro ⟨hbytes, hend⟩
    refine ⟨⟨hend, fun j hj => (hbytes j hj).1⟩, fun j hj => ?_⟩
    rw [(hbytes j hj).2, hget j hj]
  · rintro ⟨hstr, hbytes⟩
    refine ⟨fun j hj => ⟨hstr.2 j hj, ?_⟩, hstr.1⟩
    rw [hbytes j hj, hget j hj]

-- The terminator of the one would lie inside the other.
theorem strings_apart {mem : Memory} {n p q : Nat} (hp : IsCStr (stringAt mem p) n)
    (hq : IsCStr (stringAt mem q) n) : p = q ∨ p + n < q ∨ q + n < p := by
  by_contra hoverlap
  by_cases hlt : p < q
  · apply hq.2 (p + n - q) (by omega)
    show mem (q + (p + n - q)) = 0
    rw [Nat.add_sub_cancel' (by omega)]
    exact hp.1
  · apply hp.2 (q + n - p) (by omega)
    show mem (p + (q + n - p)) = 0
    rw [Nat.add_sub_cancel' (by omega)]
    exact hq.1

/-! ## The copy -/

/-- A memory with the first `k` bytes of a string stored from `dest` on. -/
def storedAt (dest : Nat) (s : CStr) (k : Nat) (mem : Memory) : Memory := fun a =>
  if dest ≤ a ∧ a < dest + k then s (a - dest) else mem a

theorem storedAt_succ (dest : Nat) (s : CStr) (k : Nat) (mem : Memory) :
    Function.update (storedAt dest s k mem) (dest + k) (s k) = storedAt dest s (k + 1) mem := by
  funext a
  unfold storedAt
  by_cases ha : a = dest + k
  · rw [ha, Function.update_self, if_pos (by omega), Nat.add_sub_cancel_left]
  · rw [Function.update_of_ne ha]
    apply if_congr _ rfl rfl
    omega

-- What is read in turn `k` may depend on the memory, as long as it comes to the byte of the string.
theorem storeLoop_eq (dest : Nat) (s : CStr) (mem : Memory) (read : Memory → Nat → UInt8) :
    ∀ n, (∀ k, k < n → read (storedAt dest s k mem) k = s k) →
      (List.range n).foldl (fun m k => Function.update m (dest + k) (read m k)) mem =
        storedAt dest s n mem
  | 0, _ => by
      funext a
      rw [storedAt, if_neg (by omega)]
      rfl
  | n + 1, hread => by
      rw [List.range_succ, List.foldl_append,
        storeLoop_eq dest s mem read n fun k hk => hread k (by omega), List.foldl_cons,
        List.foldl_nil, hread n (Nat.lt_succ_self n), storedAt_succ]

section

variable {mem : Memory} {n source dest : Nat} (hs : IsCStr (stringAt mem source) n)

include hs

/-- Going upwards is safe unless the destination starts inside the string. -/
theorem copyStringAt_eq (hn : n ≤ 1000000) (hsource : source ≠ 0) (hdest : dest ≠ 0)
    (hapart : dest ≤ source ∨ source + n < dest) :
    copyStringAt source dest mem = (0, storedAt dest (stringAt mem source) (n + 1) mem) := by
  have hloop := storeLoop_eq dest (stringAt mem source) mem (fun m k => m (source + k)) n (by
    intro k hk
    rw [storedAt, if_neg (by omega)]
    rfl)
  have hend : ((dest : Int) + (n : Int)).toNat = dest + n := by omega
  have hlast := storedAt_succ dest (stringAt mem source) n mem
  rw [hs.1] at hlast
  unfold copyStringAt
  rw [if_neg (by omega), stringLength_eq hs hn]
  dsimp only
  rw [Int.toNat_natCast, hloop, hend, hlast]

/-- There it is the copy that the system calls make, with the memory for a destination. -/
theorem copyStringAt_eq_copyString (hn : n ≤ 1000000) (hsource : source ≠ 0) (hdest : dest ≠ 0)
    (hapart : dest ≤ source ∨ source + n < dest) :
    copyStringAt source dest mem =
      (0, copyString (fun i b m => Function.update m ((dest : Int) + i).toNat b)
        (stringAt mem source) mem) := by
  have hend : ∀ k : Nat, ((dest : Int) + (k : Int)).toNat = dest + k := by omega
  have hloop := storeLoop_eq dest (stringAt mem source) mem (fun _ k => stringAt mem source k)
    (n + 1) fun _ _ => rfl
  rw [copyStringAt_eq hs hn hsource hdest hapart, copyString_counted hs hn]
  simp only [hend, hloop]

-- Too long to be counted: nothing is copied, and the terminator goes below the destination.
theorem copyStringAt_long (hn : 1000000 < n) (hsource : source ≠ 0) (hdest : dest ≠ 0) :
    copyStringAt source dest mem = (0, Function.update mem (dest - 1) 0) := by
  have hlen := stringLength_long fun j hj => hs.2 j (by omega)
  have hbelow : ((dest : Int) + -1).toNat = dest - 1 := by omega
  unfold copyStringAt
  rw [if_neg (by omega), hlen]
  dsimp only
  rw [hbelow]
  rfl

end

/-! ## All or nothing -/

-- With both pointers the call never fails.
theorem allOrNothing_iff_copied {mem : Memory} {n source dest : Nat} (hsource : source ≠ 0)
    (hdest : dest ≠ 0) :
    AllOrNothing n source dest mem (copyStringAt source dest mem) ↔
      Copied n source dest mem (copyStringAt source dest mem).2 := by
  have hret : (copyStringAt source dest mem).1 = 0 := by
    rw [copyStringAt, if_neg (by omega)]
  unfold AllOrNothing
  rw [hret]
  simp

section

variable {mem : Memory} {n source dest : Nat} (hs : IsCStr (stringAt mem source) n)

include hs

-- A string that is neither changed nor overrun is equal to its copy.
theorem copied_of_bytes {mem' : Memory}
    (hbytes : ∀ i, i ≤ n → mem' (dest + i) = mem (source + i))
    (hframe : ∀ a, a < dest ∨ dest + n < a → mem' a = mem a)
    (hsource : ∀ i, i ≤ n → mem' (source + i) = mem (source + i)) :
    Copied n source dest mem mem' := by
  refine ⟨hbytes, hframe, stringEqual_text_iff.mpr ⟨⟨?_, ?_⟩, ?_⟩⟩
  · exact (hsource n (Nat.le_refl n)).trans hs.1
  · intro j hj hz
    exact hs.2 j hj ((hsource j (by omega)).symm.trans hz)
  · intro j hj
    exact (hsource j (by omega)).trans (hbytes j (by omega)).symm

theorem Copied.apart {mem' : Memory} (h : Copied n source dest mem mem') :
    source = dest ∨ source + n < dest ∨ dest + n < source := by
  have hcopy : IsCStr (stringAt mem' dest) n := by
    refine ⟨(h.bytes n (Nat.le_refl n)).trans hs.1, ?_⟩
    intro j hj hz
    exact hs.2 j hj ((h.bytes j (by omega)).symm.trans hz)
  exact strings_apart (stringEqual_text_iff.mp h.equal).1 hcopy

theorem copied_of_fits (hfits : CopyFits n source dest) :
    Copied n source dest mem (storedAt dest (stringAt mem source) (n + 1) mem) := by
  obtain ⟨-, hapart⟩ := hfits
  apply copied_of_bytes hs
  · intro i hi
    rw [storedAt, if_pos (by omega), Nat.add_sub_cancel_left]
    rfl
  · intro a ha
    rw [storedAt, if_neg (by omega)]
  · intro i hi
    by_cases heq : source = dest
    · rw [storedAt, if_pos (by omega), heq, Nat.add_sub_cancel_left]
      rfl
    · rw [storedAt, if_neg (by omega)]

theorem AlreadyCopied.copied (h : AlreadyCopied n source dest mem) :
    Copied n source dest mem mem :=
  copied_of_bytes hs h.2 (fun _ _ => rfl) fun _ _ => rfl

theorem copied_long_iff (hdest : dest ≠ 0) :
    Copied n source dest mem (Function.update mem (dest - 1) 0) ↔
      AlreadyCopied n source dest mem := by
  constructor
  · intro h
    refine ⟨?_, ?_⟩
    · rw [← h.frame (dest - 1) (by omega), Function.update_self]
    · intro i hi
      rw [← h.bytes i hi, Function.update_of_ne (by omega)]
  · intro h
    have hsame : Function.update mem (dest - 1) 0 = mem := by
      rw [← h.1, Function.update_eq_self]
    rw [hsame]
    exact h.copied hs

end

/-- `copy_string` copies the whole string or refuses exactly when a pointer is NULL, or the string
has at most a million bytes and does not overlap its destination, or there is nothing to copy. -/
theorem copy_string_all_or_nothing_iff (mem : Memory) (n source dest : Nat)
    (hs : IsCStr (stringAt mem source) n) :
    AllOrNothing n source dest mem (copyStringAt source dest mem) ↔
      source = 0 ∨ dest = 0 ∨ CopyFits n source dest ∨ AlreadyCopied n source dest mem := by
  by_cases hnull : source = 0 ∨ dest = 0
  · rw [copyStringAt, if_pos hnull]
    exact iff_of_true (.inr ⟨rfl, rfl⟩) (hnull.elim .inl fun h => .inr (.inl h))
  obtain ⟨hsource, hdest⟩ := not_or.mp hnull
  simp only [hsource, hdest, false_or]
  rw [allOrNothing_iff_copied hsource hdest]
  by_cases hn : n ≤ 1000000
  · constructor
    · intro h
      exact .inl ⟨hn, h.apart hs⟩
    · intro h
      have hapart := h.elim And.right fun halready => (halready.copied hs).apart hs
      rw [copyStringAt_eq hs hn hsource hdest (by omega)]
      exact copied_of_fits hs ⟨hn, hapart⟩
  · rw [copyStringAt_long hs (by omega) hsource hdest, copied_long_iff hs hdest]
    constructor
    · exact .inr
    · exact fun h => h.resolve_left fun hfits => hn hfits.1

-- "hi" at address 1, copied to address 100.
def hiMemory : Memory := fun a => if a = 1 then 0x68 else if a = 2 then 0x69 else 0

theorem copy_string_all_or_nothing_hi :
    IsCStr (stringAt hiMemory 1) 2 ∧
      AllOrNothing 2 1 100 hiMemory (copyStringAt 1 100 hiMemory) := by
  have hs : IsCStr (stringAt hiMemory 1) 2 := ⟨rfl, by decide⟩
  refine ⟨hs, (copy_string_all_or_nothing_iff hiMemory 2 1 100 hs).mpr ?_⟩
  exact .inr (.inr (.inl ⟨by decide, .inr (.inl (by decide))⟩))

-- Letters everywhere but at one address.
def longMemory : Memory := fun a => if a = 1000002 then 0 else 0x61

/-- One byte more than `string_length` counts: success is reported, nothing has been copied, and
the byte below the destination is gone. -/
theorem copy_string_long_writes_below :
    IsCStr (stringAt longMemory 1) 1000001 ∧
      copyStringAt 1 2000001 longMemory = (0, Function.update longMemory 2000000 0) ∧
      longMemory 2000000 = 0x61 ∧
      ¬AllOrNothing 1000001 1 2000001 longMemory (copyStringAt 1 2000001 longMemory) := by
  have hs : IsCStr (stringAt longMemory 1) 1000001 := by
    refine ⟨rfl, ?_⟩
    intro j hj
    show (if 1 + j = 1000002 then (0 : UInt8) else 0x61) ≠ 0
    rw [if_neg (by omega)]
    decide
  have hlong := @copyStringAt_long longMemory 1000001 1 2000001 hs (by decide) (by decide)
    (by decide)
  have hbelow : longMemory 2000000 = 0x61 := rfl
  refine ⟨hs, hlong, hbelow, ?_⟩
  rw [allOrNothing_iff_copied (by decide) (by decide), hlong, copied_long_iff hs (by decide)]
  rintro ⟨hzero, -⟩
  exact absurd (hbelow.symm.trans hzero) (by decide)

end Kernel391
