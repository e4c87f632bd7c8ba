import Kernel391.Filesys
import Kernel391.Lib.BitField
import Mathlib.Tactic.IntervalCases
import Mathlib.Tactic.Simps.Basic

/-!
# Process control blocks (`syscalls.h`)

A `pcb_t` is given by its fields, and also byte by byte as the compiler lays it out: eight
descriptor records of 48 bytes, the argument buffer at 384, and four words from 512 on.  `peek`
and `poke` are what a byte pointer into the block sees and does; a store that runs off the end
of one field shows up in the next.
-/

namespace Kernel391

open Machine

/-- `fd_t`; `file_name` has 32 bytes. -/
structure FdT where
  fops : BitVec 32
  inode : BitVec 32
  pos : BitVec 32
  flags : BitVec 32
  fileName : Nat → UInt8

/-- `pcb_t`; `file_array` has 8 entries and `arg_buffer` 128 bytes. -/
structure Pcb where
  fileArray : Nat → FdT
  argBuffer : Nat → UInt8
  pId : Int
  parPId : Int
  esp : BitVec 32
  ebp : BitVec 32

def FILE_ARRAY_LEN : Nat := 8

def MIN_FD : Int := 2

def MAX_FD : Int := 7

/-! ## Bytes -/

def byteField (k : Nat) : Field 32 := ⟨8 * (k % 4), 8, by omega⟩

def wordByte (w : BitVec 32) (k : Nat) : UInt8 := ⟨((byteField k).get w).setWidth 8⟩

def setWordByte (k : Nat) (b : UInt8) (w : BitVec 32) : BitVec 32 :=
  (byteField k).assign b.toBitVec w

theorem wordByte_setWordByte (w : BitVec 32) (k k' : Nat) (b : UInt8) :
    wordByte (setWordByte k b w) k' = if k' % 4 = k % 4 then b else wordByte w k' := by
  unfold wordByte setWordByte
  by_cases he : k' % 4 = k % 4
  · have hfield : byteField k' = byteField k := by
      simp only [byteField, he]
    rw [if_pos he, hfield, Field.get_assign]
    change (⟨(b.toBitVec.setWidth 8).setWidth 8⟩ : UInt8) = b
    rw [BitVec.setWidth_eq, BitVec.setWidth_eq]
  · have hdisj : (byteField k').Disjoint (byteField k) := by
      change 8 * (k' % 4) + 8 ≤ 8 * (k % 4) ∨ 8 * (k % 4) + 8 ≤ 8 * (k' % 4)
      omega
    rw [if_neg he, Field.get_assign_of_disjoint hdisj]

def FD_SIZE : Nat := 48

namespace FdT

-- The four words in front of the name.
def word (f : FdT) : Nat → BitVec 32
  | 0 => f.fops
  | 1 => f.inode
  | 2 => f.pos
  | _ => f.flags

def setWord (f : FdT) (w : BitVec 32) : Nat → FdT
  | 0 => { f with fops := w }
  | 1 => { f with inode := w }
  | 2 => { f with pos := w }
  | _ => { f with flags := w }

def peek (f : FdT) (o : Nat) : UInt8 :=
  if o < 16 then wordByte (f.word (o / 4)) o else f.fileName (o - 16)

def poke (o : Nat) (b : UInt8) (f : FdT) : FdT :=
  if o < 16 then f.setWord (setWordByte o b (f.word (o / 4))) (o / 4)
  else { f with fileName := fun i => if i = o - 16 then b else f.fileName i }

theorem word_setWord (f : FdT) (w : BitVec 32) :
    ∀ i j, i < 4 → j < 4 → (f.setWord w i).word j = if j = i then w else f.word j := by
  intro i j hi hj
  interval_cases i <;> interval_cases j <;> rfl

theorem fileName_setWord (f : FdT) (w : BitVec 32) : ∀ i, (f.setWord w i).fileName = f.fileName
  | 0 | 1 | 2 | _ + 3 => rfl

theorem peek_poke (f : FdT) (b : UInt8) (o o' : Nat) :
    (f.poke o b).peek o' = if o' = o then b else f.peek o' := by
  unfold poke peek
  by_cases ho : o < 16
  · rw [if_pos ho, fileName_setWord]
    by_cases ho' : o' < 16
    · rw [if_pos ho', if_pos ho', word_setWord _ _ _ _ (by omega) (by omega)]
      by_cases hword : o' / 4 = o / 4
      · rw [if_pos hword, wordByte_setWordByte, hword]
        by_cases he : o' = o
        · rw [if_pos (by rw [he]), if_pos he]
        · rw [if_neg (by omega), if_neg he]
      · rw [if_neg hword, if_neg (fun he => hword (by rw [he]))]
    · rw [if_neg ho', if_neg ho', if_neg (by omega)]
  · rw [if_neg ho]
    by_cases ho' : o' < 16
    · rw [if_pos ho', if_pos ho', if_neg (by omega)]
      rfl
    · rw [if_neg ho', if_neg ho']
      dsimp only
      by_cases he : o' = o
      · rw [if_pos (by rw [he]), if_pos he]
      · rw [if_neg (by omega), if_neg he]

end FdT

namespace Pcb

@[simps]
def setFd (fd : Nat) (f : FdT) (pcb : Pcb) : Pcb :=
  { pcb with fileArray := fun i => if i = fd then f else pcb.fileArray i }

-- The four words behind the argument buffer.
def word (pcb : Pcb) : Nat → BitVec 32
  | 0 => BitVec.ofInt 32 pcb.pId
  | 1 => BitVec.ofInt 32 pcb.parPId
  | 2 => pcb.esp
  | _ => pcb.ebp

def setWord (pcb : Pcb) (w : BitVec 32) : Nat → Pcb
  | 0 => { pcb with pId := w.toInt }
  | 1 => { pcb with parPId := w.toInt }
  | 2 => { pcb with esp := w }
  | _ => { pcb with ebp := w }

def peek (pcb : Pcb) (o : Nat) : UInt8 :=
  if o < 384 then (pcb.fileArray (o / FD_SIZE)).peek (o % FD_SIZE)
  else if o < 512 then pcb.argBuffer (o - 384)
  else wordByte (pcb.word ((o - 512) / 4)) o

def poke (o : Nat) (b : UInt8) (pcb : Pcb) : Pcb :=
  if o < 384 then pcb.setFd (o / FD_SIZE) ((pcb.fileArray (o / FD_SIZE)).poke (o % FD_SIZE) b)
  else if o < 512 then { pcb with argBuffer := fun i => if i = o - 384 then b else pcb.argBuffer i }
  else pcb.setWord (setWordByte o b (pcb.word ((o - 512) / 4))) ((o - 512) / 4)

-- `sizeof (pcb_t)`
def SIZE : Nat := 528

theorem peek_setFd (pcb : Pcb) (fd : Nat) (f : FdT) (o : Nat) :
    (pcb.setFd fd f).peek o =
      if o < 384 ∧ o / FD_SIZE = fd then f.peek (o % FD_SIZE) else pcb.peek o := by
  unfold peek
  by_cases ho : o < 384
  · rw [if_pos ho, if_pos ho, setFd_fileArray]
    by_cases hfd : o / FD_SIZE = fd
    · rw [if_pos hfd, if_pos ⟨ho, hfd⟩]
    · rw [if_neg hfd, if_neg (fun h => hfd h.2)]
  · rw [if_neg ho, if_neg (fun h : o < 384 ∧ o / FD_SIZE = fd => ho h.1), if_neg ho]
    rfl

/-- Below the trailing words a store changes one byte of the block. -/
theorem peek_poke (pcb : Pcb) (b : UInt8) {o : Nat} (ho : o < 512) (o' : Nat) :
    (pcb.poke o b).peek o' = if o' = o then b else pcb.peek o' := by
  unfold poke
  by_cases hfd : o < 384
  · rw [if_pos hfd, peek_setFd]
    by_cases hslot : o' < 384 ∧ o' / FD_SIZE = o / FD_SIZE
    · rw [if_pos hslot, FdT.peek_poke]
      by_cases he : o' = o
      · rw [if_pos (by rw [he]), if_pos he]
      · have hmod : o' % FD_SIZE ≠ o % FD_SIZE := by
          intro hm
          apply he
          rw [← Nat.div_add_mod o' FD_SIZE, ← Nat.div_add_mod o FD_SIZE, hslot.2, hm]
        unfold peek
        rw [if_neg hmod, if_neg he, if_pos hslot.1, hslot.2]
    · rw [if_neg hslot, if_neg]
      intro he
      subst he
      exact hslot ⟨hfd, rfl⟩
  · rw [if_neg hfd, if_pos ho]
    unfold peek
    by_cases hfd' : o' < 384
    · rw [if_pos hfd', if_pos hfd', if_neg (by omega)]
    · rw [if_neg hfd', if_neg hfd']
      by_cases harg : o' < 512
      · rw [if_pos harg, if_pos harg]
        dsimp only
        by_cases he : o' = o
        · rw [if_pos (by rw [he]), if_pos he]
        · rw [if_neg (by omega), if_neg he]
      · rw [if_neg harg, if_neg harg, if_neg (by omega)]
        rfl

end Pcb

end Kernel391
