import Kernel391.Filesys
import Mathlib.Data.Nat.Find

/-! Looking a file up by name and by index. -/

namespace Kernel391

/-- `k` bytes from offset `j`, up to the first NUL. -/
def cstrFrom (s : Nat → UInt8) (j k : Nat) : List UInt8 :=
  ((List.range' j k).map s).takeWhile (· ≠ 0)

/-- The text of a name field or of a name: at most 32 bytes, up to the first NUL. -/
def cstr32 (s : Nat → UInt8) : List UInt8 := cstrFrom s 0 FNAME_MAX_LEN

theorem cstrFrom_zero {s : Nat → UInt8} {j : Nat} (hs : s j = 0) (k : Nat) :
    cstrFrom s j (k + 1) = [] := by
  simp [cstrFrom, List.range'_succ, hs]

theorem cstrFrom_cons {s : Nat → UInt8} {j : Nat} (hs : s j ≠ 0) (k : Nat) :
    cstrFrom s j (k + 1) = s j :: cstrFrom s (j + 1) k := by
  simp [cstrFrom, List.range'_succ, hs]

theorem or_eq_zero_iff (a : UInt8) : a ||| a = 0 ↔ a = 0 := by
  rw [UInt8.or_self]

/-- The inner loop compares texts.  The induction is on the iterations left, and the loop always
decides before they run out because `j = 31` does. -/
theorem nameLoop_iff (name fname : Nat → UInt8) (k j : Nat) (hj : j + k = 31) :
    nameLoop name fname (k + 1) j = true ↔
      cstrFrom name j (k + 1) = cstrFrom fname j (k + 1) := by
  induction k generalizing j with
  | zero =>
    obtain rfl : j = 31 := by omega
    unfold nameLoop
    by_cases hne : name 31 = fname 31
    · simp [hne, FNAME_MAX_LEN, cstrFrom, List.range'_succ]
    · by_cases hn : name 31 = 0
      · have hf : fname 31 ≠ 0 := fun h => hne (hn.trans h.symm)
        rw [if_pos hne, cstrFrom_zero hn, cstrFrom_cons hf]
        simp
      · by_cases hf : fname 31 = 0
        · rw [if_pos hne, cstrFrom_zero hf, cstrFrom_cons hn]
          simp
        · rw [if_pos hne, cstrFrom_cons hf, cstrFrom_cons hn]
          simp [hne]
  | succ k ih =>
    rw [nameLoop]
    by_cases hne : name j = fname j
    · simp only [hne, ne_eq, not_true_eq_false, if_false, or_eq_zero_iff]
      by_cases hz : fname j = 0
      · rw [if_pos (.inl hz), cstrFrom_zero hz, cstrFrom_zero (hne.trans hz)]
        simp
      · have hlast : ¬j = FNAME_MAX_LEN - 1 := by change ¬j = 31; omega
        rw [if_neg (not_or.mpr ⟨hz, hlast⟩), ih (j + 1) (by omega), cstrFrom_cons hz,
          cstrFrom_cons (fun h => hz (hne.symm.trans h)), hne, List.cons_inj_right]
    · rw [if_pos hne]
      by_cases hn : name j = 0
      · have hf : fname j ≠ 0 := fun h => hne (hn.trans h.symm)
        rw [cstrFrom_zero hn, cstrFrom_cons hf]
        simp
      · by_cases hf : fname j = 0
        · rw [cstrFrom_zero hf, cstrFrom_cons hn]
          simp
        · rw [cstrFrom_cons hf, cstrFrom_cons hn]
          simp [hne]

theorem nameMatches_iff (d : Dentry) (fname : CStr) :
    nameMatches d fname = true ↔ cstr32 d.name = cstr32 fname :=
  nameLoop_iff d.name fname 31 0 rfl

/-! ## Names of any length -/

/-- The bytes of a name of length `n`. -/
def cstrText (s : CStr) (n : Nat) : List UInt8 := (List.range n).map s

theorem length_cstrText (s : CStr) (n : Nat) : (cstrText s n).length = n := by
  simp [cstrText]

theorem cstrText_drop {s : CStr} {n j : Nat} (hj : j < n) :
    (cstrText s n).drop j = s j :: (cstrText s n).drop (j + 1) := by
  have hlt : j < (cstrText s n).length := by
    rw [length_cstrText]
    exact hj
  rw [List.drop_eq_getElem_cons hlt]
  simp [cstrText]

-- On a terminated string the first NUL is the one at its length, so only `k` cuts it short.
theorem cstrFrom_eq_take {s : CStr} {n : Nat} (hs : IsCStr s n) :
    ∀ k j, j ≤ n → cstrFrom s j k = ((cstrText s n).drop j).take k
  | 0, j, _ => by simp [cstrFrom]
  | k + 1, j, hj => by
      by_cases heq : j = n
      · have hend : (cstrText s n).drop j = [] :=
          List.drop_of_length_le (by rw [length_cstrText]; omega)
        rw [cstrFrom_zero (heq ▸ hs.1), hend, List.take_nil]
      · rw [cstrFrom_cons (hs.2 j (by omega)), cstrFrom_eq_take hs k (j + 1) (by omega),
          @cstrText_drop s n j (by omega), List.take_succ_cons]

theorem cstr32_eq_take {s : CStr} {n : Nat} (hs : IsCStr s n) :
    cstr32 s = (cstrText s n).take 32 :=
  cstrFrom_eq_take hs 32 0 (Nat.zero_le n)

/-- The subscripts of `fname` that the inner loop reads, in order: one for the comparison of the
two characters and, where they agree, one more for the test for the end. -/
def nameReads (name fname : Nat → UInt8) : Nat → Nat → List Nat
  | 0, _ => []
  | k + 1, j =>
      if name j ≠ fname j then [j]
      else if name j ||| fname j = 0 ∨ j = FNAME_MAX_LEN - 1 then [j, j]
      else j :: j :: nameReads name fname k (j + 1)

-- The loop goes on only past a character that both strings have.
theorem nameReads_le {name fname : Nat → UInt8} {n : Nat} (hs : IsCStr fname n) :
    ∀ k j, j ≤ n → j + k ≤ 32 → ∀ i ∈ nameReads name fname k j, i ≤ n ∧ i ≤ 31
  | 0, j, _, _, i, hi => by cases hi
  | k + 1, j, hj, hk, i, hi => by
      rw [nameReads] at hi
      by_cases hne : name j = fname j
      · simp only [hne, ne_eq, not_true_eq_false, if_false, or_eq_zero_iff] at hi
        by_cases hstop : fname j = 0 ∨ j = FNAME_MAX_LEN - 1
        · rw [if_pos hstop] at hi
          simp only [List.mem_cons, List.not_mem_nil, or_false, or_self] at hi
          omega
        · obtain ⟨hz, hlast⟩ := not_or.mp hstop
          have hlt : j ≠ n := fun h => hz (h ▸ hs.1)
          rw [if_neg hstop, List.mem_cons, List.mem_cons] at hi
          obtain rfl | rfl | hrest := hi
          · omega
          · omega
          · exact nameReads_le hs k (j + 1) (by omega) (by omega) i hrest
      · rw [if_pos hne, List.mem_singleton] at hi
        omega

/-- The inner loop declares a match exactly when the field's text is the name, cut to 32 bytes.
An entry of fewer bytes is therefore matched by no extension and no proper prefix of it, and the
name is read no further than its terminator and no further than subscript 31. -/
theorem name_match (d : Dentry) (fname : CStr) (n : Nat) (hs : IsCStr fname n) :
    (nameMatches d fname = true ↔ cstr32 d.name = (cstrText fname n).take 32) ∧
      (∀ t, t ≠ [] → (cstr32 d.name).length < 32 →
        cstrText fname n = cstr32 d.name ++ t ∨ cstr32 d.name = cstrText fname n ++ t →
        nameMatches d fname = false) ∧
      (∀ i ∈ nameReads d.name fname FNAME_MAX_LEN 0, i ≤ n ∧ i ≤ 31) := by
  have hiff : nameMatches d fname = true ↔ cstr32 d.name = (cstrText fname n).take 32 := by
    rw [nameMatches_iff, cstr32_eq_take hs]
  refine ⟨hiff, ?_, nameReads_le hs FNAME_MAX_LEN 0 (Nat.zero_le n) (Nat.le_refl 32)⟩
  intro t ht hshort hext
  by_contra hmatch
  rw [Bool.not_eq_false, hiff] at hmatch
  -- below 32 bytes nothing of the name is cut, so the two texts have the same length
  have hcut := congrArg List.length hmatch
  rw [List.length_take, length_cstrText] at hcut
  have htail : 0 < t.length := List.length_pos_iff.mpr ht
  obtain h | h := hext
  · have hlen := congrArg List.length h
    rw [List.length_append, length_cstrText] at hlen
    omega
  · have hlen := congrArg List.length h
    rw [List.length_append, length_cstrText] at hlen
    omega

/-- A name held in memory, followed by NULs. -/
def nameBytes (text : List Char) : CStr := fun j => (text.map Char.toUInt8).getD j 0

/-- A field of 32 letters is matched by the name of 33, which is cut, and an entry of two letters
by no longer name. -/
theorem name_match_full :
    (IsCStr (nameBytes (List.replicate 33 'a')) 33 ∧
      nameMatches ⟨fun _ => 0x61, 2, 0, fun _ => 0⟩ (nameBytes (List.replicate 33 'a')) = true) ∧
      (IsCStr (nameBytes ['l', 's', 't']) 3 ∧
        nameMatches ⟨nameBytes ['l', 's'], 2, 0, fun _ => 0⟩ (nameBytes ['l', 's', 't']) =
          false) := by
  have hlong : IsCStr (nameBytes (List.replicate 33 'a')) 33 := ⟨by decide, by decide⟩
  have hshort : IsCStr (nameBytes ['l', 's', 't']) 3 := ⟨by decide, by decide⟩
  constructor
  · exact ⟨hlong, (name_match _ _ 33 hlong).1.mpr (by decide)⟩
  · refine ⟨hshort, (name_match _ _ 3 hshort).2.1 [0x74] (by decide) (by decide) (.inl ?_)⟩
    decide

/-! ## The scan -/

-- A scan that meets no match reads all its entries and reports failure.
theorem scanDentries_none {bb : BootBlock} {fname : CStr} (k i : Nat)
    (h : ∀ j, i ≤ j → j < i + k → nameMatches (bb.dentries j) fname = false) :
    scanDentries bb fname k i = ⟨List.range' i k, none⟩ := by
  induction k generalizing i with
  | zero => rfl
  | succ k ih =>
    unfold scanDentries
    rw [h i (by omega) (by omega), ih (i + 1) fun j hlo hhi => h j (by omega) (by omega)]
    rfl

-- A scan stops at the first match and has read exactly the entries up to it.
theorem scanDentries_some {bb : BootBlock} {fname : CStr} {m : Nat} (k i : Nat)
    (hlo : i ≤ m) (hhi : m < i + k) (hm : nameMatches (bb.dentries m) fname = true)
    (hfirst : ∀ j, i ≤ j → j < m → nameMatches (bb.dentries j) fname = false) :
    scanDentries bb fname k i = ⟨List.range' i (m - i + 1), some (bb.dentries m)⟩ := by
  induction k generalizing i with
  | zero => omega
  | succ k ih =>
    unfold scanDentries
    by_cases him : i = m
    · subst him
      rw [hm, Nat.sub_self]
      rfl
    · rw [hfirst i (by omega) (by omega), ih (i + 1) (by omega) (by omega)
        fun j hlo hlt => hfirst j (by omega) hlt,
        show m - i + 1 = (m - (i + 1) + 1) + 1 by omega]
      rfl

/-! ## Agreement of the two lookups -/

/-- Entry `i` carries the name, as texts of at most 32 bytes. -/
def NameAt (bb : BootBlock) (fname : CStr) (i : Nat) : Prop :=
  cstr32 (bb.dentries i).name = cstr32 fname

instance (bb : BootBlock) (fname : CStr) (i : Nat) : Decidable (NameAt bb fname i) :=
  inferInstanceAs (Decidable (_ = _))

/-- The name lookup serves exactly the entries the index lookup serves, returns the first one
that carries the name and reads none at or above `dentry_count`. -/
structure LookupAgrees (bb : BootBlock) (fname : CStr) : Prop where
  found_iff : (readDentryByName bb (some fname)).found.isSome ↔
    ∃ i d, readDentryByIndex bb i = some d ∧ cstr32 d.name = cstr32 fname
  first : ∀ i, i < bb.dentryCount.toNat → NameAt bb fname i → (∀ j, j < i → ¬NameAt bb fname j) →
    (readDentryByName bb (some fname)).found = readDentryByIndex bb i
  bounded : ∀ i ∈ (readDentryByName bb (some fname)).examined, i < bb.dentryCount.toNat

theorem readDentryByName_eq_scan {bb : BootBlock} {fname : CStr} (hne : fname 0 ≠ 0) :
    readDentryByName bb (some fname) = scanDentries bb fname bb.inodeCount.toNat 0 :=
  if_neg hne

theorem nameMatches_eq_false_iff {bb : BootBlock} {fname : CStr} {i : Nat} :
    nameMatches (bb.dentries i) fname = false ↔ ¬NameAt bb fname i := by
  rw [NameAt, ← nameMatches_iff, Bool.not_eq_true]

theorem byIndex_exists_iff (bb : BootBlock) (fname : CStr) :
    (∃ i d, readDentryByIndex bb i = some d ∧ cstr32 d.name = cstr32 fname) ↔
      ∃ i, i < bb.dentryCount.toNat ∧ NameAt bb fname i := by
  constructor
  · rintro ⟨i, d, hd, hname⟩
    unfold readDentryByIndex at hd
    split at hd
    · cases hd
    · rename_i hlt
      cases hd
      exact ⟨i, by omega, hname⟩
  · rintro ⟨i, hi, hname⟩
    exact ⟨i, bb.dentries i, if_neg (by omega), hname⟩

-- The two ways a scan ends: at the first match below `inode_count`, or past all of them.
theorem byName_cases (bb : BootBlock) {fname : CStr} (hne : fname 0 ≠ 0) :
    (∃ m, m < bb.inodeCount.toNat ∧ NameAt bb fname m ∧ (∀ j, j < m → ¬NameAt bb fname j) ∧
        readDentryByName bb (some fname) = ⟨List.range (m + 1), some (bb.dentries m)⟩) ∨
      (∀ j, j < bb.inodeCount.toNat → ¬NameAt bb fname j) ∧
        readDentryByName bb (some fname) = ⟨List.range bb.inodeCount.toNat, none⟩ := by
  rw [readDentryByName_eq_scan hne]
  by_cases hex : ∃ m, m < bb.inodeCount.toNat ∧ NameAt bb fname m
  · rcases Nat.find_spec hex with ⟨hlt, hm⟩
    have hfirst : ∀ j, j < Nat.find hex → ¬NameAt bb fname j := fun j hj hname =>
      Nat.find_min hex hj ⟨by omega, hname⟩
    refine .inl ⟨Nat.find hex, hlt, hm, hfirst, ?_⟩
    rw [scanDentries_some _ 0 (Nat.zero_le _) (by omega) ((nameMatches_iff _ _).mpr hm)
      fun j _ hj => nameMatches_eq_false_iff.mpr (hfirst j hj), Nat.sub_zero,
      ← List.range_eq_range']
  · have habs : ∀ j, j < bb.inodeCount.toNat → ¬NameAt bb fname j := fun j hj hname =>
      hex ⟨j, hj, hname⟩
    refine .inr ⟨habs, ?_⟩
    rw [scanDentries_none _ 0 fun j _ hj => nameMatches_eq_false_iff.mpr (habs j (by omega)),
      ← List.range_eq_range']

-- After a successful scan only the bound can go wrong.
theorem agrees_of_found {bb : BootBlock} {fname : CStr} {m : Nat} (hm : NameAt bb fname m)
    (hfirst : ∀ j, j < m → ¬NameAt bb fname j)
    (hlook : readDentryByName bb (some fname) = ⟨List.range (m + 1), some (bb.dentries m)⟩) :
    LookupAgrees bb fname ↔ m < bb.dentryCount.toNat := by
  constructor
  · intro hag
    apply hag.bounded
    rw [hlook]
    exact List.self_mem_range_succ
  · intro hmd
    refine ⟨?_, fun i _ hi hmin => ?_, fun j hj => ?_⟩
    · rw [hlook, byIndex_exists_iff]
      exact iff_of_true rfl ⟨m, hmd, hm⟩
    · have heq : i = m := by
        rcases Nat.lt_trichotomy i m with hlt | heq | hgt
        · exact absurd hi (hfirst i hlt)
        · exact heq
        · exact absurd hm (hmin m hgt)
      rw [hlook, heq]
      exact (if_neg (by omega)).symm
    · rw [hlook, List.mem_range] at hj
      omega

-- After a failed scan the directory must neither be shorter nor hold the name further on.
theorem agrees_of_absent {bb : BootBlock} {fname : CStr}
    (habs : ∀ j, j < bb.inodeCount.toNat → ¬NameAt bb fname j)
    (hlook : readDentryByName bb (some fname) = ⟨List.range bb.inodeCount.toNat, none⟩) :
    LookupAgrees bb fname ↔ bb.inodeCount.toNat ≤ bb.dentryCount.toNat ∧
      ∀ i, bb.inodeCount.toNat ≤ i → i < bb.dentryCount.toNat → ¬NameAt bb fname i := by
  constructor
  · intro hag
    refine ⟨?_, fun i _ hid hi => ?_⟩
    · by_contra hgt
      have hbad := hag.bounded bb.dentryCount.toNat (by
        rw [hlook]
        exact List.mem_range.mpr (by omega))
      omega
    · have hsome := hag.found_iff.mpr ((byIndex_exists_iff bb fname).mpr ⟨i, hid, hi⟩)
      rw [hlook] at hsome
      cases hsome
  · rintro ⟨hcount, hrest⟩
    have hnone : ∀ i, i < bb.dentryCount.toNat → ¬NameAt bb fname i := by
      intro i hid
      by_cases hii : i < bb.inodeCount.toNat
      · exact habs i hii
      · exact hrest i (by omega) hid
    refine ⟨?_, fun i hid hi _ => absurd hi (hnone i hid), fun j hj => ?_⟩
    · rw [hlook, byIndex_exists_iff]
      exact iff_of_false Bool.false_ne_true fun ⟨i, hid, hi⟩ => hnone i hid hi
    · rw [hlook, List.mem_range] at hj
      omega

/-- The lookups agree exactly when the name is carried by an entry below both counts, or the
scan stops no later than the directory and misses no listed entry of that name. -/
theorem lookup_agrees_iff (bb : BootBlock) (fname : CStr) (hne : fname 0 ≠ 0) :
    LookupAgrees bb fname ↔
      (∃ i, i < bb.inodeCount.toNat ∧ i < bb.dentryCount.toNat ∧ NameAt bb fname i) ∨
      (bb.inodeCount.toNat ≤ bb.dentryCount.toNat ∧
        ∀ i, bb.inodeCount.toNat ≤ i → i < bb.dentryCount.toNat → ¬NameAt bb fname i) := by
  rcases byName_cases bb hne with ⟨m, hmi, hm, hfirst, hlook⟩ | ⟨habs, hlook⟩
  · rw [agrees_of_found hm hfirst hlook]
    constructor
    · intro hmd
      exact .inl ⟨m, hmi, hmd, hm⟩
    · rintro (⟨i, -, hid, hi⟩ | ⟨hcount, -⟩)
      · have hle : m ≤ i := by
          by_contra hlt
          exact hfirst i (by omega) hi
        omega
      · omega
  · rw [agrees_of_absent habs hlook]
    constructor
    · exact .inr
    · rintro (⟨i, hii, -, hi⟩ | h)
      · exact absurd hi (habs i hii)
      · exact h

/-- A directory with the counts of the shipped image: 17 entries and 64 inodes. -/
def sampleBoot : BootBlock where
  dentryCount := 17
  inodeCount := 64
  dataCount := 59
  dentries i := ⟨nameBytes (if i = 0 then ['.'] else []), if i = 0 then 1 else 2, 0, fun _ => 0⟩

/-- Looking up an absent name there reads on past the directory, to subscript 63 of an array of
63 entries. -/
theorem sampleBoot_lookup_disagrees :
    nameBytes ['h', 'e', 'l', 'l', 'o', 'o'] 0 ≠ 0 ∧ sampleBoot.dentryCount.toNat ≤ 63 ∧
      63 ∈ (readDentryByName sampleBoot
        (some (nameBytes ['h', 'e', 'l', 'l', 'o', 'o']))).examined ∧
      ¬LookupAgrees sampleBoot (nameBytes ['h', 'e', 'l', 'l', 'o', 'o']) := by
  have hread : 63 ∈ (readDentryByName sampleBoot
      (some (nameBytes ['h', 'e', 'l', 'l', 'o', 'o']))).examined := by decide +kernel
  refine ⟨by decide, by decide, hread, fun hag => ?_⟩
  exact absurd (hag.bounded 63 hread) (by decide)

theorem sampleBoot_lookup_dot :
    nameBytes ['.'] 0 ≠ 0 ∧ LookupAgrees sampleBoot (nameBytes ['.']) := by
  have hne : nameBytes ['.'] 0 ≠ 0 := by decide
  exact ⟨hne, (lookup_agrees_iff sampleBoot (nameBytes ['.']) hne).mpr
    (.inl ⟨0, by decide, by decide, by decide⟩)⟩

end Kernel391
