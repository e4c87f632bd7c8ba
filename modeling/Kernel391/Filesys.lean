import Kernel391.CharUtil

/-!
# The read-only file system (`filesys.c`)

The image is a boot block with the directory, an array of inodes and an array of data blocks.
C subscripts are not checked, so the arrays are total functions: past its declared bound an
array stands for whatever memory follows it.
-/

namespace Kernel391

def FNAME_MAX_LEN : Nat := 32

def DENTRY_COUNT : Nat := 63

/-- `dentry_t`: bytes `name[0..31]`, type, inode number and six reserved words. -/
structure Dentry where
  name : Nat → UInt8
  fileType : BitVec 32
  inodeIndex : BitVec 32
  reserved : Nat → BitVec 32

/-- `inode_t`: `data_indices` has 1023 entries. -/
structure Inode where
  length : BitVec 32
  dataIndices : Nat → BitVec 32

/-- `boot_block_t`: `dentries` has 63 entries. -/
structure BootBlock where
  dentryCount : BitVec 32
  inodeCount : BitVec 32
  dataCount : BitVec 32
  dentries : Nat → Dentry

structure FileSys where
  bootBlock : BootBlock
  inodes : Nat → Inode
  blocks : Nat → Nat → UInt8

/-! ## Lookups -/

/-- The inner loop of `read_dentry_by_name` from subscript `j`, with `k` iterations left. -/
def nameLoop (name fname : Nat → UInt8) : Nat → Nat → Bool
  | 0, _ => false
  | k + 1, j =>
      if name j ≠ fname j then false
      else if name j ||| fname j = 0 ∨ j = FNAME_MAX_LEN - 1 then true
      else nameLoop name fname k (j + 1)

def nameMatches (d : Dentry) (fname : CStr) : Bool := nameLoop d.name fname FNAME_MAX_LEN 0

/-- The outcome of a name lookup, with the subscripts of the directory entries it read. -/
structure Lookup where
  examined : List Nat
  found : Option Dentry

/-- The outer loop from entry `i`, with `k` iterations left. -/
def scanDentries (bb : BootBlock) (fname : CStr) : Nat → Nat → Lookup
  | 0, _ => ⟨[], none⟩
  | k + 1, i =>
      if nameMatches (bb.dentries i) fname then ⟨[i], some (bb.dentries i)⟩
      else
        let rest := scanDentries bb fname k (i + 1)
        ⟨i :: rest.examined, rest.found⟩

/-- `read_dentry_by_name`.  The outer loop is bounded by `inode_count`. -/
def readDentryByName (bb : BootBlock) : Option CStr → Lookup
  | none => ⟨[], none⟩
  | some fname =>
      if fname 0 = 0 then ⟨[], none⟩ else scanDentries bb fname bb.inodeCount.toNat 0

/-- `read_dentry_by_index`. -/
def readDentryByIndex (bb : BootBlock) (index : Nat) : Option Dentry :=
  if bb.dentryCount.toNat ≤ index then none else some (bb.dentries index)

/-! ## File data -/

/-- Byte `pos` of a file, through the block indirection. -/
def Inode.byteAt (inode : Inode) (fs : FileSys) (pos : Nat) : UInt8 :=
  fs.blocks (inode.dataIndices (pos >>> 12)).toNat (pos &&& 0xFFF)

/-- The copy loop of `read_data`, with `k` iterations left before `length`; the sum of the two
counters is a 32-bit one. -/
def readLoop (fs : FileSys) (inode : Inode) (offset : Nat) : Nat → Nat → List UInt8
  | 0, _ => []
  | k + 1, byteCount =>
      let pos := (byteCount + offset) % 2 ^ 32
      if pos < inode.length.toNat then
        inode.byteAt fs pos :: readLoop fs inode offset k (byteCount + 1)
      else []

/-- `read_data`: `none` is the result `-1`, otherwise the bytes stored from the start of the
buffer, whose number is the result.  `null` tells whether the buffer is NULL. -/
def readData (fs : FileSys) (inodeI offset : Nat) (null : Bool) (length : Nat) :
    Option (List UInt8) :=
  if fs.bootBlock.inodeCount.toNat ≤ inodeI then none
  else if null then none
  else some (readLoop fs (fs.inodes inodeI) offset length 0)

/-- `read_file_bytes_by_name` into a non-NULL buffer: the bytes stored, or `none` for `-1`. -/
def readFileBytesByName (fs : FileSys) (fname : CStr) (length : Nat) : Option (List UInt8) :=
  (readDentryByName fs.bootBlock (some fname)).found.bind fun dentry =>
    readData fs dentry.inodeIndex.toNat 0 false length

end Kernel391
