import Mathlib.Tactic.Common
import Mathlib.Data.Nat.Find
import Mathlib.Algebra.Ring.Nat
import Mathlib.Algebra.Ring.Int.Defs

/-!
# Strings (`utils/char_util.c`)

A `uint8_t*` is the memory it points to, read by offset, and NULL is `none`.  A destination is
any state with a byte writer, so the same copy loop runs on a stack buffer and on a field inside
a larger record; the offset is an `Int` because the code can compute `-1`.
-/

namespace Kernel391

abbrev CStr := Nat → UInt8

abbrev Memory := Nat → UInt8

/-- What a pointer into a memory points to. -/
def stringAt (mem : Memory) (p : Nat) : CStr := fun i => mem (p + i)

/-- The string at `s` has length `n`. -/
def IsCStr (s : CStr) (n : Nat) : Prop := s n = 0 ∧ ∀ j, j < n → s j ≠ 0

/-- The loop of `string_length`; `fuel` counts down from the cap of 1000001 iterations. -/
def stringLengthFrom (s : CStr) : Nat → Nat → Int
  | 0, _ => -1
  | fuel + 1, count =>
      if s count = 0 then count
      else if count + 1 > 1000000 then -1
      else stringLengthFrom s fuel (count + 1)

def stringLength : Option CStr → Int
  | none => -1
  | some s => stringLengthFrom s 1000001 0

/-- `copy_string` for non-NULL pointers.  A length of `-1` is not checked: the loop then copies
nothing and the terminator goes to offset `-1`. -/
def copyString {σ : Type} (write : Int → UInt8 → σ → σ) (source : CStr) (dest : σ) : σ :=
  let len := stringLength (some source)
  let dest := (List.range len.toNat).foldl (fun d (i : Nat) => write i (source i) d) dest
  write len 0 dest

/-- `string_equal` from subscript `i`; `s2` is what is left of the second string before its NUL. -/
def stringEqual (s1 : CStr) : List UInt8 → Nat → Int
  | [], i => if s1 i = 0 then 1 else 0
  | c :: s2, i => if s1 i = 0 then 0 else if s1 i ≠ c then 0 else stringEqual s1 s2 (i + 1)

/-- `substring` for non-NULL pointers: the bytes stored, or `none` for the result `-1`.  The
length is compared as an unsigned number. -/
def substring (s : CStr) (start stop : Nat) : Option (List UInt8) :=
  if stop < start ∨ stringLength (some s) % 2 ^ 32 < stop then none
  else some ((List.range (stop - start)).map (fun i => s (start + i)) ++ [0])

/-- A buffer after bytes have been stored from its start on. -/
def storeBytes (stored : List UInt8) (buf : CStr) : CStr := fun i => stored.getD i (buf i)

/-- `copy_buf` into a fresh destination: the bytes it stores. -/
def copyBuf (source : CStr) (nbytes : Nat) : List UInt8 := (List.range nbytes).map source

theorem stringLengthFrom_eq {s : CStr} {n : Nat} (hs : IsCStr s n) (hn : n ≤ 1000000) :
    ∀ fuel count, count ≤ n → n < count + fuel → stringLengthFrom s fuel count = n
  | 0, count, hle, hlt => by omega
  | fuel + 1, count, hle, hlt => by
      unfold stringLengthFrom
      by_cases hz : s count = 0
      · have hcount : count = n := by
          by_contra hne
          exact hs.2 count (by omega) hz
        rw [if_pos hz, hcount]
      · have hne : count ≠ n := fun h => hz (h ▸ hs.1)
        rw [if_neg hz, if_neg (by omega)]
        exact stringLengthFrom_eq hs hn fuel (count + 1) (by omega) (by omega)

theorem stringLength_eq {s : CStr} {n : Nat} (hs : IsCStr s n) (hn : n ≤ 1000000) :
    stringLength (some s) = n :=
  stringLengthFrom_eq hs hn 1000001 0 (by omega) (by omega)

theorem stringLengthFrom_long {s : CStr} (hs : ∀ j, j ≤ 1000000 → s j ≠ 0) :
    ∀ fuel count, stringLengthFrom s fuel count = -1 ∨ 1000000 < count
  | 0, _ => .inl rfl
  | fuel + 1, count => by
      by_cases hc : 1000000 < count
      · exact .inr hc
      · left
        unfold stringLengthFrom
        rw [if_neg (hs count (by omega))]
        by_cases hlast : count + 1 > 1000000
        · rw [if_pos hlast]
        · rw [if_neg hlast]
          exact (stringLengthFrom_long hs fuel (count + 1)).resolve_right (by omega)

/-- Past a million bytes `string_length` reports failure. -/
theorem stringLength_long {s : CStr} (hs : ∀ j, j ≤ 1000000 → s j ≠ 0) :
    stringLength (some s) = -1 :=
  (stringLengthFrom_long hs 1000001 0).resolve_right (by omega)

theorem stringLength_cases (s : CStr) :
    (∃ n, n ≤ 1000000 ∧ IsCStr s n ∧ stringLength (some s) = n) ∨
      ((∀ j, j ≤ 1000000 → s j ≠ 0) ∧ stringLength (some s) = -1) := by
  by_cases hex : ∃ n, n ≤ 1000000 ∧ s n = 0
  · have hspec := Nat.find_spec hex
    have hstr : IsCStr s (Nat.find hex) := by
      refine ⟨hspec.2, ?_⟩
      intro j hj hz
      exact Nat.find_min hex hj ⟨by omega, hz⟩
    exact .inl ⟨Nat.find hex, hspec.1, hstr, stringLength_eq hstr hspec.1⟩
  · have hlong : ∀ j, j ≤ 1000000 → s j ≠ 0 := fun j hj hz => hex ⟨j, hj, hz⟩
    exact .inr ⟨hlong, stringLength_long hlong⟩

/-- As long as the length is counted, the bytes are stored one after the other and the terminator is
the last of them. -/
theorem copyString_counted {σ : Type} {source : CStr} {n : Nat} (hs : IsCStr source n)
    (hn : n ≤ 1000000) (write : Int → UInt8 → σ → σ) (dest : σ) :
    copyString write source dest =
      (List.range (n + 1)).foldl (fun d (i : Nat) => write i (source i) d) dest := by
  unfold copyString
  dsimp only
  rw [stringLength_eq hs hn, Int.toNat_natCast, List.range_succ, List.foldl_append,
    List.foldl_cons, List.foldl_nil, hs.1]

/-- What every store of `copy_string` keeps, the copy keeps.  A store below the destination is
that of the terminator. -/
theorem copyString_induct {σ : Type} {write : Int → UInt8 → σ → σ} {source : CStr} {P : σ → Prop}
    (hwrite : ∀ (i : Int) b d, -1 ≤ i → i ≤ stringLength (some source) → (i = -1 → b = 0) → P d →
      P (write i b d))
    {dest : σ} (h : P dest) : P (copyString write source dest) := by
  have hlen : -1 ≤ stringLength (some source) := by
    rcases stringLength_cases source with ⟨n, -, -, hn⟩ | ⟨-, hn⟩ <;> omega
  have hloop : ∀ n : Nat, n ≤ (stringLength (some source)).toNat →
      P ((List.range n).foldl (fun d (i : Nat) => write i (source i) d) dest) := by
    intro n
    induction n with
    | zero => exact fun _ => h
    | succ n ih =>
      intro hn
      rw [List.range_succ, List.foldl_append]
      exact hwrite n (source n) _ (by omega) (by omega) (by omega) (ih (by omega))
  exact hwrite _ 0 _ hlen (Int.le_refl _) (fun _ => rfl) (hloop _ (Nat.le_refl _))

/-! ## Stored bytes -/

-- A buffer after bytes have been stored from subscript `j` on.
def storeFrom (j : Nat) (stored : List UInt8) (buf : CStr) : CStr :=
  fun i => if i < j then buf i else stored.getD (i - j) (buf i)

@[simp] theorem storeFrom_nil (j : Nat) (buf : CStr) : storeFrom j [] buf = buf := by
  funext i
  simp [storeFrom]

theorem storeFrom_zero (stored : List UInt8) (buf : CStr) :
    storeFrom 0 stored buf = storeBytes stored buf := by
  funext i
  simp [storeFrom, storeBytes]

theorem storeFrom_cons (j : Nat) (c : UInt8) (stored : List UInt8) (buf : CStr) :
    storeFrom j (c :: stored) buf = storeFrom (j + 1) stored (Function.update buf j c) := by
  funext i
  by_cases hlt : i < j
  · have hne : i ≠ j := by omega
    simp [storeFrom, hlt, hne, Nat.lt_succ_of_lt hlt]
  · by_cases he : i = j
    · simp [storeFrom, he]
    · have hsub : i - j = i - (j + 1) + 1 := by omega
      have hle : ¬i < j + 1 := by omega
      simp [storeFrom, hlt, hle, he, hsub]

theorem storeFrom_snoc (j : Nat) (stored : List UInt8) (c : UInt8) (buf : CStr) :
    storeFrom j (stored ++ [c]) buf =
      Function.update (storeFrom j stored buf) (j + stored.length) c := by
  induction stored generalizing j buf with
  | nil => rw [List.nil_append, storeFrom_cons, storeFrom_nil, storeFrom_nil, List.length_nil,
      Nat.add_zero]
  | cons d stored ih =>
    rw [List.cons_append, storeFrom_cons, ih, storeFrom_cons, List.length_cons, Nat.add_right_comm,
      Nat.add_assoc]

/-- A text and the byte behind it. -/
theorem storeBytes_snoc (stored : List UInt8) (c : UInt8) (buf : CStr) :
    storeBytes (stored ++ [c]) buf =
      Function.update (storeBytes stored buf) stored.length c := by
  rw [← storeFrom_zero, storeFrom_snoc, storeFrom_zero, Nat.zero_add]

end Kernel391
