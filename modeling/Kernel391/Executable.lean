import Kernel391.CommandLine
import Kernel391.SequentialRead
import Mathlib.Data.List.GetD

/-!
# Recognising executables

`is_executable` reads four bytes into a buffer, cuts the last three out of it as a string and
compares that with a constant.  Where the file is short, or has a NUL among its first bytes, the
comparison sees what was on the stack before.
-/

namespace Kernel391

variable (fs : FileSys)

/-- The file a name stands for. -/
def fileNamed (fname : CStr) : Option Inode :=
  (readDentryByName fs.bootBlock (some fname)).found.bind fun dentry =>
    if dentry.inodeIndex < fs.bootBlock.inodeCount then
      some (fs.inodes dentry.inodeIndex.toNat)
    else none

/-- What `is_executable` is to recognise: a file of at least four bytes that starts with the byte
0x7F and the letters ELF. -/
def IsElf (exe : CStr) : Prop :=
  ∃ inode, fileNamed fs exe = some inode ∧ 4 ≤ inode.length.toNat ∧
    (contents fs inode).take 4 = 0x7F :: elfMagic

/-- The first bytes of the file; past its end they are what `data` held. -/
def headByte (data : CStr) (inode : Inode) (i : Nat) : UInt8 :=
  (contents fs inode).getD i (data i)

def FullHead (data : CStr) (inode : Inode) : Prop := ∀ i, i < 4 → headByte fs data inode i ≠ 0

-- The string at `buf` is "ELF".
def HoldsElf (buf : CStr) : Prop := buf 0 = 0x45 ∧ buf 1 = 0x4C ∧ buf 2 = 0x46 ∧ buf 3 = 0

instance (buf : CStr) : Decidable (HoldsElf buf) := inferInstanceAs (Decidable (_ ∧ _ ∧ _ ∧ _))

/-- When the answer can be relied on.  Four bytes without a NUL have to be the file's own and start
with 0x7F if the letters follow; and where there is a NUL, the second buffer must not happen to
hold the letters. -/
def HeadDecides (data buf exe : CStr) : Prop :=
  ∀ inode, fileNamed fs exe = some inode →
    (FullHead fs data inode →
      [headByte fs data inode 1, headByte fs data inode 2, headByte fs data inode 3] = elfMagic →
      4 ≤ inode.length.toNat ∧ headByte fs data inode 0 = 0x7F) ∧
    (¬FullHead fs data inode → ¬HoldsElf buf)

variable {fs}

/-! ## The pieces -/

theorem readFileBytesByName_eq (fname : CStr) (n : Nat) :
    readFileBytesByName fs fname n =
      (fileNamed fs fname).map fun inode => (contents fs inode).take n := by
  unfold readFileBytesByName fileNamed
  cases (readDentryByName fs.bootBlock (some fname)).found with
  | none => rfl
  | some dentry =>
    rw [Option.bind_some, Option.bind_some]
    by_cases hlt : dentry.inodeIndex < fs.bootBlock.inodeCount
    · rw [if_pos hlt, readData_eq hlt (Nat.zero_le _), List.drop_zero]
      rfl
    · have hge : fs.bootBlock.inodeCount.toNat ≤ dentry.inodeIndex.toNat :=
        BitVec.le_def.mp (BitVec.not_lt.mp hlt)
      rw [if_neg hlt, readData, if_pos hge]
      rfl

theorem stringEqual_elf (buf : CStr) : stringEqual buf elfMagic 0 ≠ 0 ↔ HoldsElf buf := by
  simp only [elfMagic, stringEqual, HoldsElf, Nat.zero_add, Nat.reduceAdd]
  by_cases h0 : buf 0 = 0x45
  · by_cases h1 : buf 1 = 0x4C
    · by_cases h2 : buf 2 = 0x46
      · by_cases h3 : buf 3 = 0
        · simp [h0, h1, h2, h3]
        · simp [h0, h1, h2, h3]
      · simp [h0, h1, h2]
    · simp [h0, h1]
  · simp [h0]

theorem substring_full {s : CStr} (hs : IsCStr s 4) :
    substring s 1 4 = some [s 1, s 2, s 3, 0] := by
  unfold substring
  rw [stringLength_eq hs (by decide), if_neg (by decide)]
  rfl

theorem substring_short {s : CStr} {n : Nat} (hs : IsCStr s n) (hn : n < 4) :
    substring s 1 4 = none := by
  unfold substring
  rw [stringLength_eq hs (by omega), if_pos]
  omega

/-- `data` as it is when the string is cut out of it. -/
def headString (fs : FileSys) (data : CStr) (inode : Inode) : CStr :=
  storeBytes ((contents fs inode).take 4) fun i => if i = 4 then 0 else data i

theorem headString_lt (data : CStr) (inode : Inode) {i : Nat} (hi : i < 4) :
    headString fs data inode i = headByte fs data inode i := by
  have hne : i ≠ 4 := by omega
  simp only [headString, storeBytes, headByte, List.getD_eq_getElem?_getD, List.getElem?_take,
    if_pos hi, if_neg hne]

theorem headString_end (data : CStr) (inode : Inode) : headString fs data inode 4 = 0 := by
  simp [headString, storeBytes]

theorem isCStr_headString_full {data : CStr} {inode : Inode} (h : FullHead fs data inode) :
    IsCStr (headString fs data inode) 4 := by
  refine ⟨headString_end data inode, ?_⟩
  intro j hj
  rw [headString_lt data inode hj]
  exact h j hj

-- The first NUL ends the string early.
theorem isCStr_headString_short {data : CStr} {inode : Inode} (h : ¬FullHead fs data inode) :
    ∃ n, n < 4 ∧ IsCStr (headString fs data inode) n := by
  have hex : ∃ i, i < 4 ∧ headByte fs data inode i = 0 := by
    by_contra hnone
    exact h fun i hi hz => hnone ⟨i, hi, hz⟩
  obtain ⟨hlt, hzero⟩ := Nat.find_spec hex
  refine ⟨Nat.find hex, hlt, ?_, ?_⟩
  · rw [headString_lt data inode hlt]
    exact hzero
  · intro j hj hz
    rw [headString_lt data inode (by omega)] at hz
    exact Nat.find_min hex hj ⟨by omega, hz⟩

/-! ## The answer -/

theorem isExecutable_eq {data buf exe : CStr} {inode : Inode}
    (hfile : fileNamed fs exe = some inode) :
    (isExecutable fs data buf exe = true ↔
      HoldsElf (((substring (headString fs data inode) 1 4).map fun b => storeBytes b buf).getD
        buf)) := by
  rw [← stringEqual_elf]
  unfold isExecutable
  rw [readFileBytesByName_eq, hfile, Option.map_some]
  unfold headString
  dsimp only
  generalize substring (storeBytes ((contents fs inode).take 4) fun i =>
    if i = 4 then 0 else data i) 1 4 = cut
  rw [decide_eq_true_eq]
  cases cut with
  | none => exact Iff.rfl
  | some bytes => exact Iff.rfl

theorem isExecutable_full {data exe : CStr} {inode : Inode} (hfile : fileNamed fs exe = some inode)
    (hfull : FullHead fs data inode) (buf : CStr) :
    (isExecutable fs data buf exe = true ↔
      [headByte fs data inode 1, headByte fs data inode 2, headByte fs data inode 3] =
        elfMagic) := by
  rw [isExecutable_eq hfile, substring_full (isCStr_headString_full hfull),
    headString_lt data inode (by decide), headString_lt data inode (by decide),
    headString_lt data inode (by decide)]
  simp [HoldsElf, storeBytes, elfMagic]

theorem isExecutable_short {data exe : CStr} {inode : Inode} (hfile : fileNamed fs exe = some inode)
    (hshort : ¬FullHead fs data inode) (buf : CStr) :
    (isExecutable fs data buf exe = true ↔ HoldsElf buf) := by
  obtain ⟨n, hn, hstr⟩ := isCStr_headString_short hshort
  rw [isExecutable_eq hfile, substring_short hstr hn]
  rfl

theorem isExecutable_missing {exe : CStr} (hfile : fileNamed fs exe = none) (data buf : CStr) :
    isExecutable fs data buf exe = false := by
  unfold isExecutable
  rw [readFileBytesByName_eq, hfile]
  rfl

/-- What is to be recognised, by the bytes `is_executable` has before it. -/
theorem isElf_iff {exe : CStr} {inode : Inode} (hfile : fileNamed fs exe = some inode)
    (data : CStr) :
    IsElf fs exe ↔ 4 ≤ inode.length.toNat ∧ headByte fs data inode 0 = 0x7F ∧
      [headByte fs data inode 1, headByte fs data inode 2, headByte fs data inode 3] =
        elfMagic := by
  have hlength := length_contents fs inode
  unfold IsElf
  rw [hfile]
  constructor
  · rintro ⟨_, hsome, hlen, htake⟩
    cases hsome
    have hbyte : ∀ i, i < 4 → headByte fs data inode i =
        (0x7F :: elfMagic).getD i (data i) := by
      intro i hi
      rw [← htake, headByte, List.getD_eq_getElem?_getD, List.getD_eq_getElem?_getD,
        List.getElem?_take, if_pos hi]
    rw [hbyte 0 (by decide), hbyte 1 (by decide), hbyte 2 (by decide), hbyte 3 (by decide)]
    exact ⟨hlen, rfl, rfl⟩
  · rintro ⟨hlen, hfirst, hletters⟩
    refine ⟨inode, rfl, hlen, ?_⟩
    have hfour : (contents fs inode).take 4 = [headByte fs data inode 0, headByte fs data inode 1,
        headByte fs data inode 2, headByte fs data inode 3] := by
      apply List.ext_getElem
      · simp only [List.length_take, hlength, List.length_cons, List.length_nil]
        omega
      · intro i hi hi'
        have hlt : i < 4 := hi'
        have hin : i < (contents fs inode).length := by omega
        rw [List.getElem_take]
        interval_cases i <;>
          simp [headByte, List.getD_eq_getElem?_getD, List.getElem?_eq_getElem hin]
    rw [hfour, hfirst, hletters]

-- A NUL rules the file out, whatever `buf` holds.
theorem not_isElf_of_short {data exe : CStr} {inode : Inode}
    (hfile : fileNamed fs exe = some inode) (hshort : ¬FullHead fs data inode) :
    ¬IsElf fs exe := by
  rw [isElf_iff hfile data]
  rintro ⟨-, hfirst, hletters⟩
  simp only [elfMagic, List.cons.injEq, and_true] at hletters
  apply hshort
  intro i hi
  interval_cases i
  · rw [hfirst]
    decide
  · rw [hletters.1]
    decide
  · rw [hletters.2.1]
    decide
  · rw [hletters.2.2]
    decide

theorem headDecides_iff {data exe : CStr} {inode : Inode} (hfile : fileNamed fs exe = some inode)
    (buf : CStr) :
    HeadDecides fs data buf exe ↔
      (FullHead fs data inode →
        [headByte fs data inode 1, headByte fs data inode 2, headByte fs data inode 3] =
          elfMagic → 4 ≤ inode.length.toNat ∧ headByte fs data inode 0 = 0x7F) ∧
      (¬FullHead fs data inode → ¬HoldsElf buf) := by
  constructor
  · exact fun h => h inode hfile
  · intro h inode' hsome
    rw [hfile] at hsome
    cases hsome
    exact h

/-- `is_executable` answers right exactly when the first bytes of the file decide. -/
theorem is_executable_right_iff (fs : FileSys) (data buf exe : CStr) :
    (isExecutable fs data buf exe = true ↔ IsElf fs exe) ↔ HeadDecides fs data buf exe := by
  cases hfile : fileNamed fs exe with
  | none =>
    apply iff_of_true
    · rw [isExecutable_missing hfile]
      apply iff_of_false Bool.false_ne_true
      rintro ⟨inode, hsome, -⟩
      rw [hfile] at hsome
      cases hsome
    · intro inode hsome
      rw [hfile] at hsome
      cases hsome
  | some inode =>
    rw [headDecides_iff hfile]
    by_cases hfull : FullHead fs data inode
    · rw [isExecutable_full hfile hfull, isElf_iff hfile data]
      constructor
      · intro h
        exact ⟨fun _ hletters => ⟨(h.mp hletters).1, (h.mp hletters).2.1⟩,
          fun hshort => absurd hfull hshort⟩
      · rintro ⟨h, -⟩
        constructor
        · intro hletters
          exact ⟨(h hfull hletters).1, (h hfull hletters).2, hletters⟩
        · exact fun h => h.2.2
    · have hnot := not_isElf_of_short hfile hfull
      rw [isExecutable_short hfile hfull]
      constructor
      · intro h
        exact ⟨fun habs => absurd habs hfull, fun _ hbuf => hnot (h.mp hbuf)⟩
      · rintro ⟨-, h⟩
        exact iff_of_false (h hfull) hnot

-- Over a cleared stack there is no NUL only where the file itself has four bytes.
theorem headByte_of_full {inode : Inode} (h : FullHead fs (fun _ => 0) inode) (data : CStr)
    {i : Nat} (hi : i < 4) :
    headByte fs data inode i = headByte fs (fun _ => 0) inode i ∧ i < inode.length.toNat := by
  have hin : i < (contents fs inode).length := by
    by_contra hge
    apply h i hi
    rw [headByte, List.getD_eq_default _ _ (by omega)]
  rw [headByte, headByte, List.getD_eq_getElem _ _ hin, List.getD_eq_getElem _ _ hin,
    ← length_contents fs inode]
  exact ⟨rfl, hin⟩

/-- Whatever is on the stack, the answer is right exactly when the name has no file, or one that
starts with four bytes without a NUL and has the letters only behind 0x7F. -/
theorem is_executable_always_right_iff (fs : FileSys) (exe : CStr) :
    (∀ data buf, isExecutable fs data buf exe = true ↔ IsElf fs exe) ↔
      ∀ inode, fileNamed fs exe = some inode → FullHead fs (fun _ => 0) inode ∧
        ([headByte fs (fun _ => 0) inode 1, headByte fs (fun _ => 0) inode 2,
          headByte fs (fun _ => 0) inode 3] = elfMagic →
            headByte fs (fun _ => 0) inode 0 = 0x7F) := by
  simp only [is_executable_right_iff]
  constructor
  · intro h inode hfile
    obtain ⟨hletters, hbuf⟩ := h (fun _ => 0) (storeBytes elfMagic fun _ => 0) inode hfile
    have hfull : FullHead fs (fun _ => 0) inode := by
      by_contra hshort
      exact hbuf hshort (by decide)
    exact ⟨hfull, fun heq => (hletters hfull heq).2⟩
  · intro h data buf inode hfile
    obtain ⟨hfull, hletters⟩ := h inode hfile
    have hbyte := fun i hi => (@headByte_of_full fs inode hfull data i hi).1
    have hlast := (headByte_of_full hfull data (show 3 < 4 by decide)).2
    rw [hbyte 0 (by decide), hbyte 1 (by decide), hbyte 2 (by decide), hbyte 3 (by decide)]
    constructor
    · intro _ heq
      exact ⟨hlast, hletters heq⟩
    · intro hshort
      apply absurd _ hshort
      intro i hi
      rw [hbyte i hi]
      exact hfull i hi

def oneFileBoot : BootBlock := ⟨1, 1, 1, fun _ => ⟨nameBytes ['a'], 2, 0, fun _ => 0⟩⟩

/-- An image of one file. -/
def oneFileFs (bytes : List UInt8) : FileSys where
  bootBlock := oneFileBoot
  inodes _ := ⟨BitVec.ofNat 32 bytes.length, fun _ => 0⟩
  blocks _ p := bytes.getD p 0

theorem fileNamed_oneFileFs (bytes : List UInt8) :
    fileNamed (oneFileFs bytes) (nameBytes ['a']) = some ((oneFileFs bytes).inodes 0) := by
  have hfound : (readDentryByName oneFileBoot (some (nameBytes ['a']))).found =
      some (oneFileBoot.dentries 0) := rfl
  show (readDentryByName oneFileBoot (some (nameBytes ['a']))).found.bind _ = _
  rw [hfound, Option.bind_some]
  exact if_pos (show (0 : BitVec 32) < 1 by decide)

/-- Four letters that are no magic number, and an empty file over a stack that still holds the
letters, are taken for programs. -/
theorem is_executable_fooled :
    isExecutable (oneFileFs (0x58 :: elfMagic)) (fun _ => 0) (fun _ => 0) (nameBytes ['a']) = true ∧
      ¬IsElf (oneFileFs (0x58 :: elfMagic)) (nameBytes ['a']) ∧
      isExecutable (oneFileFs []) (fun _ => 0) (storeBytes elfMagic fun _ => 0) (nameBytes ['a']) =
        true ∧
      ¬IsElf (oneFileFs []) (nameBytes ['a']) := by
  have hfull : FullHead (oneFileFs (0x58 :: elfMagic)) (fun _ => 0)
      ((oneFileFs (0x58 :: elfMagic)).inodes 0) := by
    intro i hi
    interval_cases i <;> decide
  have hempty : ¬FullHead (oneFileFs []) (fun _ => 0) ((oneFileFs []).inodes 0) := by
    intro h
    exact h 0 (by decide) rfl
  refine ⟨?_, ?_, ?_, ?_⟩
  · rw [isExecutable_full (fileNamed_oneFileFs _) hfull]
    decide
  · rw [isElf_iff (fileNamed_oneFileFs _) fun _ => 0]
    rintro ⟨-, hfirst, -⟩
    exact absurd hfirst (by decide)
  · rw [isExecutable_short (fileNamed_oneFileFs _) hempty]
    decide
  · rw [isElf_iff (fileNamed_oneFileFs _) fun _ => 0]
    rintro ⟨hlen, -⟩
    exact absurd hlen (by decide)

end Kernel391
