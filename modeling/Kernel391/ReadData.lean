import Kernel391.SequentialRead

/-!
# The slice `read_data` copies

`read_data` with its buffer: the copy loop with its 32-bit counter, and the slice of the file it
leaves behind.
-/

namespace Kernel391

/-- The `for` loop of `read_data` with `k` iterations left before `length`: where `byte_count`
stands in the end, and the buffer then. -/
def readDataLoop (fs : FileSys) (inode : Inode) (offset : BitVec 32) :
    Nat → BitVec 32 → CStr → BitVec 32 × CStr
  | 0, byteCount, buffer => (byteCount, buffer)
  | k + 1, byteCount, buffer =>
      if byteCount + offset < inode.length then
        readDataLoop fs inode offset k (byteCount + 1)
          (Function.update buffer byteCount.toNat (inode.byteAt fs (byteCount + offset).toNat))
      else (byteCount, buffer)

/-- `read_data` with its four arguments; `none` is the NULL buffer. -/
def readDataInto (fs : FileSys) (inodeI offset : BitVec 32) (buffer : Option CStr)
    (length : BitVec 32) : Int × Option CStr :=
  if fs.bootBlock.inodeCount ≤ inodeI then (-1, buffer)
  else
    match buffer with
    | none => (-1, none)
    | some b =>
        let stop := readDataLoop fs (fs.inodes inodeI.toNat) offset length.toNat 0 b
        (stop.1.toInt, some stop.2)

/-- A file fits its block table, and the blocks in use exist. -/
structure FilesFit (fs : FileSys) : Prop where
  lengths : ∀ i, i < fs.bootBlock.inodeCount.toNat → (fs.inodes i).length.toNat ≤ 1023 * 4096
  blocks : ∀ i, i < fs.bootBlock.inodeCount.toNat → ∀ j, 4096 * j < (fs.inodes i).length.toNat →
    ((fs.inodes i).dataIndices j).toNat < fs.bootBlock.dataCount.toNat

variable (fs : FileSys) (inode : Inode)

/-! ## The loop and its list of bytes -/

-- The counter has not wrapped as long as it and the iterations left fit 32 bits.
theorem readDataLoop_eq (offset : BitVec 32) :
    ∀ k byteCount (buffer : CStr), byteCount + k < 2 ^ 32 →
      readDataLoop fs inode offset k (BitVec.ofNat 32 byteCount) buffer =
        (BitVec.ofNat 32 (byteCount + (readLoop fs inode offset.toNat k byteCount).length),
          storeFrom byteCount (readLoop fs inode offset.toNat k byteCount) buffer)
  | 0, byteCount, buffer, _ => by simp [readDataLoop, readLoop]
  | k + 1, byteCount, buffer, hk => by
      have hcount : (BitVec.ofNat 32 byteCount).toNat = byteCount := by
        rw [BitVec.toNat_ofNat]
        omega
      have hpos : (BitVec.ofNat 32 byteCount + offset).toNat =
          (byteCount + offset.toNat) % 2 ^ 32 := by
        rw [BitVec.toNat_add, hcount]
      simp only [readDataLoop, readLoop, BitVec.lt_def, hpos]
      by_cases hlt : (byteCount + offset.toNat) % 2 ^ 32 < inode.length.toNat
      · have hnext : BitVec.ofNat 32 byteCount + 1 = BitVec.ofNat 32 (byteCount + 1) := by
          rw [BitVec.ofNat_add]
          rfl
        rw [if_pos hlt, if_pos hlt, hnext, hcount,
          readDataLoop_eq offset k (byteCount + 1) _ (by omega), storeFrom_cons, List.length_cons,
          Nat.add_right_comm, Nat.add_assoc]
      · rw [if_neg hlt, if_neg hlt]
        simp

/-- Wherever it starts, the loop copies the rest of the file, as far as it was asked to. -/
theorem readLoop_slice {offset : Nat} (hoff : offset < 2 ^ 32) (k : Nat) :
    readLoop fs inode offset k 0 = ((contents fs inode).drop offset).take k := by
  by_cases hle : offset ≤ inode.length.toNat
  · rw [readLoop_eq fs inode offset k 0 (by omega), Nat.zero_add]
  · -- behind the end the first test fails
    have hlen := length_contents fs inode
    rw [List.drop_of_length_le (by omega), List.take_nil]
    cases k with
    | zero => rfl
    | succ k =>
      have hmod : (0 + offset) % 2 ^ 32 = offset := by omega
      simp only [readLoop, hmod]
      rw [if_neg (by omega)]

theorem length_readLoop {offset : Nat} (hoff : offset < 2 ^ 32) (k : Nat) :
    (readLoop fs inode offset k 0).length = min k (inode.length.toNat - offset) := by
  rw [readLoop_slice fs inode hoff, List.length_take, List.length_drop, length_contents]

theorem readLoop_get {offset : Nat} (hoff : offset < 2 ^ 32) {n k : Nat}
    (hk : k < min n (inode.length.toNat - offset)) (d : UInt8) :
    (readLoop fs inode offset n 0).getD k d =
      fs.blocks (inode.dataIndices ((offset + k) / 4096)).toNat ((offset + k) % 4096) := by
  have hlen := length_contents fs inode
  have hin : offset + k < (contents fs inode).length := by omega
  rw [readLoop_slice fs inode hoff, List.getD_eq_getElem?_getD, List.getElem?_take,
    if_pos (by omega), List.getElem?_drop, List.getElem?_eq_getElem hin, Option.getD_some]
  simp only [contents, List.getElem_map, List.getElem_range]

variable {fs}

/-- The two readings of `read_data` agree: the bytes it reports are the ones it stores. -/
theorem readDataInto_eq (inodeI offset length : BitVec 32) (buffer : Option CStr) :
    readDataInto fs inodeI offset buffer length =
      match readData fs inodeI.toNat offset.toNat buffer.isNone length.toNat with
      | none => (-1, buffer)
      | some bytes => ((BitVec.ofNat 32 bytes.length).toInt, buffer.map (storeBytes bytes)) := by
  unfold readDataInto readData
  by_cases hge : fs.bootBlock.inodeCount ≤ inodeI
  · rw [if_pos hge, if_pos (BitVec.le_def.mp hge)]
  · rw [if_neg hge, if_neg (mt BitVec.le_def.mpr hge)]
    cases buffer with
    | none => rfl
    | some b =>
      have hfits := length.isLt
      have hloop := readDataLoop_eq fs (fs.inodes inodeI.toNat) offset length.toNat 0 b (by omega)
      rw [Nat.zero_add, storeFrom_zero] at hloop
      simp only [show (0 : BitVec 32) = BitVec.ofNat 32 0 by rfl, hloop, Option.isNone_some,
        Bool.false_eq_true, if_false, Option.map_some]

theorem readData_none {inodeI : Nat} {null : Bool}
    (h : fs.bootBlock.inodeCount.toNat ≤ inodeI ∨ null = true) (offset length : Nat) :
    readData fs inodeI offset null length = none := by
  unfold readData
  by_cases hge : fs.bootBlock.inodeCount.toNat ≤ inodeI
  · rw [if_pos hge]
  · rw [if_neg hge, if_pos (h.resolve_left hge)]

theorem readData_some {inodeI : Nat} (hinode : inodeI < fs.bootBlock.inodeCount.toNat)
    (offset length : Nat) : readData fs inodeI offset false length =
      some (readLoop fs (fs.inodes inodeI) offset length 0) := by
  unfold readData
  rw [if_neg (by omega), if_neg (by decide)]

/-- `read_data` stores the addressed slice of the file and nothing else, without a sum ever
wrapping around; a missing inode or buffer is refused. -/
theorem read_data_slice (hfit : FilesFit fs) (inodeI offset length : BitVec 32)
    (buffer : Option CStr) :
    (∀ b, inodeI < fs.bootBlock.inodeCount → buffer = some b →
      let inode := fs.inodes inodeI.toNat
      let n := min length.toNat (inode.length.toNat - offset.toNat)
      ∃ b' : CStr, readDataInto fs inodeI offset buffer length = ((n : Int), some b') ∧
        (∀ k, k < n →
          (offset.toNat + k) / 4096 < 1023 ∧
          (inode.dataIndices ((offset.toNat + k) / 4096)).toNat < fs.bootBlock.dataCount.toNat ∧
          b' k = fs.blocks (inode.dataIndices ((offset.toNat + k) / 4096)).toNat
            ((offset.toNat + k) % 4096)) ∧
        (∀ k, n ≤ k → b' k = b k) ∧
        (∀ k, k ≤ n → offset.toNat + k < 2 ^ 32)) ∧
      (¬inodeI < fs.bootBlock.inodeCount ∨ buffer = none →
        readDataInto fs inodeI offset buffer length = (-1, buffer)) := by
  constructor
  · intro b hinode hbuf
    subst hbuf
    have hoff := offset.isLt
    have hlength := hfit.lengths inodeI.toNat hinode
    have hblocks := hfit.blocks inodeI.toNat hinode
    have hcount := length_readLoop fs (fs.inodes inodeI.toNat) hoff length.toNat
    have hbyte := fun k hk d => @readLoop_get fs (fs.inodes inodeI.toNat) _ hoff length.toNat k hk d
    have hcall := @readDataInto_eq fs inodeI offset length (some b)
    rw [Option.isNone_some, readData_some hinode] at hcall
    generalize hbytes : readLoop fs (fs.inodes inodeI.toNat) offset.toNat length.toNat 0 = bytes
      at hcount hcall hbyte
    have hret : (BitVec.ofNat 32 bytes.length).toInt = bytes.length := by
      rw [BitVec.toInt_eq_toNat_of_lt, BitVec.toNat_ofNat, Nat.mod_eq_of_lt (by omega)]
      rw [BitVec.toNat_ofNat]
      omega
    refine ⟨storeBytes bytes b, ?_, ?_, ?_, ?_⟩
    · rw [hcall, ← hcount]
      show ((BitVec.ofNat 32 bytes.length).toInt, some (storeBytes bytes b)) = _
      rw [hret]
    · intro k hk
      refine ⟨by omega, hblocks _ (by omega), ?_⟩
      exact hbyte k hk (b k)
    · intro k hk
      simp only [storeBytes]
      rw [List.getD_eq_getElem?_getD, List.getElem?_eq_none (by omega), Option.getD_none]
    · intro k hk
      omega
  · intro hbad
    have hnone : fs.bootBlock.inodeCount.toNat ≤ inodeI.toNat ∨ buffer.isNone = true := by
      rw [Option.isNone_iff_eq_none]
      exact hbad.imp_left fun hge => BitVec.le_def.mp (BitVec.not_lt.mp hge)
    rw [readDataInto_eq, readData_none hnone]

/-- The last three bytes of the note, into a buffer of zeros. -/
theorem read_data_slice_note :
    ∃ b' : CStr, readDataInto noteFs 0 2 (some fun _ => 0) 100 = (3, some b') ∧
      b' 0 = 0x6C ∧ b' 2 = 0x6F ∧ b' 3 = 0 := by
  have hfit : FilesFit noteFs := ⟨noteFs_wellFormed.lengths, noteFs_wellFormed.blocks⟩
  obtain ⟨b', hcall, hbytes, hrest, -⟩ :=
    (read_data_slice hfit 0 2 100 (some fun _ => 0)).1 (fun _ => 0) (by decide) rfl
  refine ⟨b', hcall, ?_, ?_, ?_⟩
  · exact (hbytes 0 (by decide)).2.2
  · exact (hbytes 2 (by decide)).2.2
  · exact hrest 3 (by decide)

end Kernel391
