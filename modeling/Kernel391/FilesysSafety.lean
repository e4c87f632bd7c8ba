import Kernel391.ReadData

/-!
# The file system reader on arbitrary images

Every subscript that `read_data`, `file_size` and `read_file_bytes_by_name` follow comes out of
the image.  The calls are run here with a record of those subscripts, in the order in which they
are followed, on an image about which nothing is known.
-/

namespace Kernel391

/-- A subscript that is followed: an inode, an entry of its block table, a data block. -/
inductive FsAccess where
  | inode (i : Nat)
  | index (j : Nat)
  | block (b : Nat)
deriving DecidableEq

def FsAccess.InRange (fs : FileSys) : FsAccess → Prop
  | .inode i => i < fs.bootBlock.inodeCount.toNat
  | .index j => j < 1023
  | .block b => b < fs.bootBlock.dataCount.toNat

/-- The result of a call, where failure is all ones, and what it has followed. -/
structure FsResult where
  ret : BitVec 32
  accesses : List FsAccess

inductive FsCall where
  | readData (inodeI offset : BitVec 32) (null : Bool) (length : BitVec 32)
  | fileSize (fname : Option CStr)
  | readFileBytesByName (fname : Option CStr) (null : Bool) (length : BitVec 32)

/-- The copy loop of `read_data` as a list of subscripts, two for each byte. -/
def readAccesses (inode : Inode) (offset : Nat) : Nat → Nat → List FsAccess
  | 0, _ => []
  | k + 1, byteCount =>
      let pos := (byteCount + offset) % 2 ^ 32
      if pos < inode.length.toNat then
        .index (pos >>> 12) :: .block (inode.dataIndices (pos >>> 12)).toNat ::
          readAccesses inode offset k (byteCount + 1)
      else []

namespace FileSys

variable (fs : FileSys)

-- `read_data`; of the subscripts only that of the inode is checked.
def runReadData (inodeI offset : BitVec 32) (null : Bool) (length : BitVec 32) : FsResult :=
  if fs.bootBlock.inodeCount ≤ inodeI then ⟨-1, []⟩
  else if null then ⟨-1, []⟩
  else
    let inode := fs.inodes inodeI.toNat
    ⟨BitVec.ofNat 32 (readLoop fs inode offset.toNat length.toNat 0).length,
      .inode inodeI.toNat :: readAccesses inode offset.toNat length.toNat 0⟩

-- `file_size`
def runFileSize (fname : Option CStr) : FsResult :=
  match (readDentryByName fs.bootBlock fname).found with
  | none => ⟨-1, []⟩
  | some dentry =>
      ⟨(fs.inodes dentry.inodeIndex.toNat).length, [.inode dentry.inodeIndex.toNat]⟩

-- `read_file_bytes_by_name`
def runReadFileBytesByName (fname : Option CStr) (null : Bool) (length : BitVec 32) : FsResult :=
  match (readDentryByName fs.bootBlock fname).found with
  | none => ⟨-1, []⟩
  | some dentry =>
      let r := fs.runReadData dentry.inodeIndex 0 null length
      if r.ret.toInt < 0 then { r with ret := -1 } else { r with ret := 0 }

def run : FsCall → FsResult
  | .readData inodeI offset null length => fs.runReadData inodeI offset null length
  | .fileSize fname => fs.runFileSize fname
  | .readFileBytesByName fname null length => fs.runReadFileBytesByName fname null length

/-- What a reader without any checks would have to follow to serve the call. -/
def required : FsCall → List FsAccess
  | .readData inodeI offset null length =>
      if null then []
      else .inode inodeI.toNat ::
        readAccesses (fs.inodes inodeI.toNat) offset.toNat length.toNat 0
  | .fileSize fname =>
      (readDentryByName fs.bootBlock fname).found.toList.map fun dentry =>
        .inode dentry.inodeIndex.toNat
  | .readFileBytesByName fname null length =>
      match (readDentryByName fs.bootBlock fname).found with
      | none => []
      | some dentry =>
          if null then []
          else .inode dentry.inodeIndex.toNat ::
            readAccesses (fs.inodes dentry.inodeIndex.toNat) 0 length.toNat 0

/-- Nothing out of range is followed, and a call that would have to fails. -/
structure Served (c : FsCall) : Prop where
  inRange : ∀ a ∈ (fs.run c).accesses, a.InRange fs
  refused : (∃ a ∈ fs.required c, ¬a.InRange fs) → (fs.run c).ret = -1

/-- The bytes asked for have their places in the block table, and the blocks exist. -/
def BlocksFit (inode : Inode) (offset length : Nat) : Prop :=
  ∀ p, offset ≤ p → p < offset + length → p < inode.length.toNat →
    p / 4096 < 1023 ∧ (inode.dataIndices (p / 4096)).toNat < fs.bootBlock.dataCount.toNat

-- Under which condition on the image a call of `read_data` with a buffer keeps in range.
def InodeFits (inodeI : BitVec 32) (offset length : Nat) : Prop :=
  inodeI < fs.bootBlock.inodeCount → fs.BlocksFit (fs.inodes inodeI.toNat) offset length

def CallFits (fs : FileSys) : FsCall → Prop
  | .readData inodeI offset null length =>
      null = true ∨ fs.InodeFits inodeI offset.toNat length.toNat
  | .fileSize fname => ∀ dentry, (readDentryByName fs.bootBlock fname).found = some dentry →
      dentry.inodeIndex < fs.bootBlock.inodeCount
  | .readFileBytesByName fname null length =>
      ∀ dentry, (readDentryByName fs.bootBlock fname).found = some dentry →
        null = true ∨ fs.InodeFits dentry.inodeIndex 0 length.toNat

end FileSys

/-! ## The loop -/

-- The loop visits the positions from `offset` on, until one of the two bounds stops it.
theorem mem_readAccesses_from (inode : Inode) (offset : Nat) (hoff : offset < 2 ^ 32)
    (a : FsAccess) : ∀ k byteCount, byteCount = 0 ∨ byteCount + offset ≤ inode.length.toNat →
      (a ∈ readAccesses inode offset k byteCount ↔
        ∃ p, byteCount + offset ≤ p ∧ p < byteCount + offset + k ∧ p < inode.length.toNat ∧
          (a = .index (p / 4096) ∨ a = .block (inode.dataIndices (p / 4096)).toNat))
  | 0, byteCount, _ => by
      simp only [readAccesses, List.not_mem_nil, false_iff]
      rintro ⟨p, hlo, hhi, -⟩
      omega
  | k + 1, byteCount, hstart => by
      have hlength := inode.length.isLt
      have hpos : (byteCount + offset) % 2 ^ 32 = byteCount + offset := by omega
      have hshift : (byteCount + offset) >>> 12 = (byteCount + offset) / 4096 :=
        Nat.shiftRight_eq_div_pow _ _
      simp only [readAccesses, hpos, hshift]
      by_cases hlt : byteCount + offset < inode.length.toNat
      · have ih := mem_readAccesses_from inode offset hoff a k (byteCount + 1) (.inr (by omega))
        rw [if_pos hlt, List.mem_cons, List.mem_cons, ih]
        constructor
        · rintro (hindex | hblock | ⟨p, hlo, hhi, hp, ha⟩)
          · exact ⟨_, Nat.le_refl _, by omega, hlt, .inl hindex⟩
          · exact ⟨_, Nat.le_refl _, by omega, hlt, .inr hblock⟩
          · exact ⟨p, by omega, by omega, hp, ha⟩
        · rintro ⟨p, hlo, hhi, hp, ha⟩
          by_cases hfirst : p = byteCount + offset
          · rw [hfirst] at ha
            exact ha.elim .inl fun hblock => .inr (.inl hblock)
          · exact .inr (.inr ⟨p, by omega, by omega, hp, ha⟩)
      · rw [if_neg hlt]
        simp only [List.not_mem_nil, false_iff]
        rintro ⟨p, hlo, -, hp, -⟩
        omega

theorem mem_readAccesses {inode : Inode} {offset : Nat} (hoff : offset < 2 ^ 32) {n : Nat}
    {a : FsAccess} :
    a ∈ readAccesses inode offset n 0 ↔
      ∃ p, offset ≤ p ∧ p < offset + n ∧ p < inode.length.toNat ∧
        (a = .index (p / 4096) ∨ a = .block (inode.dataIndices (p / 4096)).toNat) := by
  have h := mem_readAccesses_from inode offset hoff a n 0 (.inl rfl)
  rwa [Nat.zero_add] at h

section

variable {fs : FileSys}

theorem readAccesses_inRange {inode : Inode} {offset : Nat} (hoff : offset < 2 ^ 32) {n : Nat} :
    (∀ a ∈ readAccesses inode offset n 0, a.InRange fs) ↔ fs.BlocksFit inode offset n := by
  constructor
  · intro h p hlo hhi hp
    have hindex := h (.index (p / 4096))
      ((mem_readAccesses hoff).mpr ⟨p, hlo, hhi, hp, .inl rfl⟩)
    have hblock := h (.block (inode.dataIndices (p / 4096)).toNat)
      ((mem_readAccesses hoff).mpr ⟨p, hlo, hhi, hp, .inr rfl⟩)
    exact ⟨hindex, hblock⟩
  · intro h a ha
    obtain ⟨p, hlo, hhi, hp, rfl | rfl⟩ := (mem_readAccesses hoff).mp ha
    · exact (h p hlo hhi hp).1
    · exact (h p hlo hhi hp).2

theorem runReadData_refused {inodeI : BitVec 32} {null : Bool}
    (h : fs.bootBlock.inodeCount ≤ inodeI ∨ null = true) (offset length : BitVec 32) :
    fs.runReadData inodeI offset null length = ⟨-1, []⟩ := by
  unfold FileSys.runReadData
  by_cases hge : fs.bootBlock.inodeCount ≤ inodeI
  · rw [if_pos hge]
  · rw [if_neg hge, if_pos (h.resolve_left hge)]

theorem runReadData_accesses {inodeI : BitVec 32} (h : inodeI < fs.bootBlock.inodeCount)
    (offset length : BitVec 32) :
    (fs.runReadData inodeI offset false length).accesses = .inode inodeI.toNat ::
      readAccesses (fs.inodes inodeI.toNat) offset.toNat length.toNat 0 := by
  unfold FileSys.runReadData
  rw [if_neg (BitVec.not_le.mpr h), if_neg (by decide)]

/-! ## The calls -/

-- A call of `read_data` goes wrong only behind an inode number that has passed its check.
theorem runReadData_inRange (inodeI offset : BitVec 32) (null : Bool) (length : BitVec 32) :
    (∀ a ∈ (fs.runReadData inodeI offset null length).accesses, a.InRange fs) ↔
      null = true ∨ fs.InodeFits inodeI offset.toNat length.toNat := by
  by_cases href : fs.bootBlock.inodeCount ≤ inodeI ∨ null = true
  · rw [runReadData_refused href]
    apply iff_of_true
    · intro a ha
      cases ha
    · exact href.symm.imp_right fun hge hlt => absurd hge (BitVec.not_le.mpr hlt)
  · obtain ⟨hlt, hnull⟩ := not_or.mp href
    rw [BitVec.not_le] at hlt
    rw [Bool.not_eq_true] at hnull
    subst hnull
    have hinode : FsAccess.InRange fs (.inode inodeI.toNat) := hlt
    have hiff := @readAccesses_inRange fs (fs.inodes inodeI.toNat) _ offset.isLt length.toNat
    rw [runReadData_accesses hlt, List.forall_mem_cons, hiff]
    constructor
    · rintro ⟨-, hfit⟩
      exact .inr fun _ => hfit
    · rintro (habs | hfit)
      · cases habs
      · exact ⟨hinode, hfit hlt⟩

-- The check on the inode number is what refuses; past it everything required is followed.
theorem runReadData_refuses {inodeI offset length : BitVec 32} {null : Bool}
    (hfit : null = true ∨ fs.InodeFits inodeI offset.toNat length.toNat)
    (hbad : ∃ a ∈ fs.required (.readData inodeI offset null length), ¬a.InRange fs) :
    (fs.runReadData inodeI offset null length).ret = -1 := by
  by_cases href : fs.bootBlock.inodeCount ≤ inodeI ∨ null = true
  · rw [runReadData_refused href]
  · obtain ⟨hlt, hnull⟩ := not_or.mp href
    rw [BitVec.not_le] at hlt
    rw [Bool.not_eq_true] at hnull
    subst hnull
    obtain ⟨a, ha, hout⟩ := hbad
    have hreq : a ∈ (fs.runReadData inodeI offset false length).accesses := by
      rwa [runReadData_accesses hlt]
    exact absurd ((runReadData_inRange inodeI offset false length).mpr hfit a hreq) hout

theorem runReadFileBytesByName_none {fname : Option CStr}
    (h : (readDentryByName fs.bootBlock fname).found = none) (null : Bool) (length : BitVec 32) :
    fs.runReadFileBytesByName fname null length = ⟨-1, []⟩ := by
  simp only [FileSys.runReadFileBytesByName, h]

theorem runReadFileBytesByName_accesses {fname : Option CStr} {dentry : Dentry}
    (h : (readDentryByName fs.bootBlock fname).found = some dentry) (null : Bool)
    (length : BitVec 32) :
    (fs.runReadFileBytesByName fname null length).accesses =
      (fs.runReadData dentry.inodeIndex 0 null length).accesses := by
  simp only [FileSys.runReadFileBytesByName, h]
  split <;> rfl

theorem runReadFileBytesByName_failed {fname : Option CStr} {dentry : Dentry}
    (h : (readDentryByName fs.bootBlock fname).found = some dentry) {null : Bool}
    {length : BitVec 32} (hret : (fs.runReadData dentry.inodeIndex 0 null length).ret = -1) :
    (fs.runReadFileBytesByName fname null length).ret = -1 := by
  simp only [FileSys.runReadFileBytesByName, h, hret]
  rw [if_pos (by decide)]

end

namespace FileSys

variable (fs : FileSys)

theorem served_readData_iff (inodeI offset : BitVec 32) (null : Bool) (length : BitVec 32) :
    fs.Served (.readData inodeI offset null length) ↔
      fs.CallFits (.readData inodeI offset null length) := by
  constructor
  · intro h
    exact (runReadData_inRange inodeI offset null length).mp h.inRange
  · intro hfit
    exact ⟨(runReadData_inRange inodeI offset null length).mpr hfit, runReadData_refuses hfit⟩

theorem served_fileSize_iff (fname : Option CStr) :
    fs.Served (.fileSize fname) ↔ fs.CallFits (.fileSize fname) := by
  cases hfound : (readDentryByName fs.bootBlock fname).found with
  | none =>
    apply iff_of_true
    · constructor
      · simp [run, runFileSize, hfound]
      · simp [run, runFileSize, hfound]
    · intro dentry hsome
      rw [hfound] at hsome
      cases hsome
  | some dentry =>
    have hacc : (fs.run (.fileSize fname)).accesses = [.inode dentry.inodeIndex.toNat] := by
      simp only [run, runFileSize, hfound]
    have hreq : fs.required (.fileSize fname) = [.inode dentry.inodeIndex.toNat] := by
      simp only [required, hfound, Option.toList_some, List.map_cons, List.map_nil]
    constructor
    · intro h d hd
      rw [hfound] at hd
      cases hd
      apply h.inRange (.inode dentry.inodeIndex.toNat)
      rw [hacc]
      exact List.mem_singleton_self _
    · intro hfit
      have hin : FsAccess.InRange fs (.inode dentry.inodeIndex.toNat) := hfit dentry hfound
      constructor
      · intro a ha
        rw [hacc, List.mem_singleton] at ha
        rwa [ha]
      · rintro ⟨a, ha, hout⟩
        rw [hreq, List.mem_singleton] at ha
        rw [ha] at hout
        exact absurd hin hout

theorem served_readFileBytesByName_iff (fname : Option CStr) (null : Bool) (length : BitVec 32) :
    fs.Served (.readFileBytesByName fname null length) ↔
      fs.CallFits (.readFileBytesByName fname null length) := by
  cases hfound : (readDentryByName fs.bootBlock fname).found with
  | none =>
    have hrun := runReadFileBytesByName_none hfound null length
    apply iff_of_true
    · constructor
      · simp [run, hrun]
      · simp [run, hrun]
    · intro dentry hsome
      rw [hfound] at hsome
      cases hsome
  | some dentry =>
    have hacc := runReadFileBytesByName_accesses hfound null length
    have hreq : fs.required (.readFileBytesByName fname null length) =
        fs.required (.readData dentry.inodeIndex 0 null length) := by
      simp only [required, hfound]
      rfl
    have hinRange := @runReadData_inRange fs dentry.inodeIndex 0 null length
    constructor
    · intro h d hd
      rw [hfound] at hd
      cases hd
      apply hinRange.mp
      rw [← hacc]
      exact h.inRange
    · intro hfit
      have hcall := hfit dentry hfound
      constructor
      · show ∀ a ∈ (fs.runReadFileBytesByName fname null length).accesses, _
        rw [hacc]
        exact hinRange.mpr hcall
      · intro hbad
        rw [hreq] at hbad
        exact runReadFileBytesByName_failed hfound (runReadData_refuses hcall hbad)

/-- The reader keeps in range and refuses what would lead out exactly when the looked up inode
exists, for `file_size`, and when the bytes asked for lie in blocks that exist, for the others. -/
theorem served_iff (c : FsCall) : fs.Served c ↔ fs.CallFits c := by
  cases c with
  | readData inodeI offset null length => exact fs.served_readData_iff inodeI offset null length
  | fileSize fname => exact fs.served_fileSize_iff fname
  | readFileBytesByName fname null length =>
    exact fs.served_readFileBytesByName_iff fname null length

end FileSys

/-- An image of one inode whose only entry names inode 5. -/
def strayFs : FileSys where
  bootBlock := ⟨1, 1, 1, fun _ => ⟨nameBytes ['a'], 2, 5, fun _ => 0⟩⟩
  inodes _ := ⟨10, fun _ => 7⟩
  blocks _ _ := 0

/-- `file_size` follows that number, and reading inode 0 follows block 7 of an image of one. -/
theorem strayFs_not_served :
    FsAccess.inode 5 ∈ (strayFs.run (.fileSize (some (nameBytes ['a'])))).accesses ∧
      ¬strayFs.Served (.fileSize (some (nameBytes ['a']))) ∧
      FsAccess.block 7 ∈ (strayFs.run (.readData 0 0 false 1)).accesses ∧
      ¬strayFs.Served (.readData 0 0 false 1) := by
  have hinode : FsAccess.inode 5 ∈
      (strayFs.run (.fileSize (some (nameBytes ['a'])))).accesses := by decide
  have hblock : FsAccess.block 7 ∈ (strayFs.run (.readData 0 0 false 1)).accesses := by decide
  have hout : ¬FsAccess.InRange strayFs (.inode 5) := by
    show ¬5 < 1
    omega
  have hout' : ¬FsAccess.InRange strayFs (.block 7) := by
    show ¬7 < 1
    omega
  exact ⟨hinode, fun h => hout (h.inRange _ hinode), hblock, fun h => hout' (h.inRange _ hblock)⟩

end Kernel391
