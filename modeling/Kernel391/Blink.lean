import Kernel391.Lib.Chain
import Kernel391.Lib.Program
import Mathlib.Order.Interval.Finset.Nat

/-!
# Blinking characters (`fish/blink.S`)

The structures in use are kept in a linked list, most recent first; `mp1_malloc` takes them from
`blink_array`, where a location of zero marks a free element.  The tasklet walks along the list
once for each tick of the clock.
-/

namespace Kernel391

open Machine

/-! ## The structure and its list -/

/-- `struct mp1_blink_struct` up to its link. -/
structure BlinkEntry where
  location : BitVec 16
  onChar : UInt8
  offChar : UInt8
  onLength : BitVec 16
  offLength : BitVec 16
  countdown : BitVec 16
  status : BitVec 16
deriving DecidableEq, Repr

/-- The pointer to element `i` of `blink_array` is `i + 1`, and zero is the null pointer. -/
structure BlinkStruct extends BlinkEntry where
  next : Nat
deriving DecidableEq, Repr

-- 80*25
def BLINK_COUNT : Nat := 2000

/-- `blink_array` by pointer, `mp1_list_head`, and the page at `vmem_base_addr`. -/
@[ext]
structure Fish where
  blinkArray : Nat → BlinkStruct
  mp1ListHead : Nat
  vmem : Nat → UInt8

/-- Where a pointer to a structure can be kept. -/
inductive Link where
  | mp1ListHead
  | next (p : Nat)

/-- A pointer to an element of `blink_array`. -/
abbrev InArray (p : Nat) : Prop := 1 ≤ p ∧ p ≤ BLINK_COUNT

namespace Fish

def load (p : Nat) : Program Fish BlinkStruct := fun s =>
  if InArray p then some (s.blinkArray p, s) else none

def setBlink (s : Fish) (p : Nat) (b : BlinkStruct) : Fish :=
  { s with blinkArray := Function.update s.blinkArray p b }

def store (p : Nat) (b : BlinkStruct) : Program Fish Unit := fun s =>
  if InArray p then some ((), s.setBlink p b) else none

def loadLink : Link → Program Fish Nat
  | .mp1ListHead => fun s => some (s.mp1ListHead, s)
  | .next p => do
      let b ← load p
      return b.next

def storeLink (value : Nat) : Link → Program Fish Unit
  | .mp1ListHead => fun s => some ((), { s with mp1ListHead := value })
  | .next p => do
      let b ← load p
      store p { b with next := value }

/-- A byte at an offset of the page. -/
def mp1Poke (cl : UInt8) (eax : Nat) : Program Fish Unit := fun s =>
  if eax < 4096 then some ((), { s with vmem := Function.update s.vmem eax cl }) else none

/-! ## `fish.c` -/

/-- The loop of `mp1_malloc` over the elements that are left. -/
def mallocLoop : Nat → Nat → Program Fish Nat
  | 0, _ => return 0
  | k + 1, i => do
      let b ← load (i + 1)
      if b.location = 0 then return i + 1
      mallocLoop k (i + 1)

def mp1Malloc : Program Fish Nat := mallocLoop BLINK_COUNT 0

def mp1Free (memory : Nat) : Program Fish Unit := store memory ⟨⟨0, 0, 0, 0, 0, 0, 0⟩, 0⟩

/-! ## `blink.S` -/

/-- From `currently_off` or the branch before it to `end_blink`. -/
def blink (ebx : Nat) (b : BlinkStruct) : Program Fish Unit :=
  let eax := b.location.toNat * 2
  if b.status &&& 1 = 0 then do
    mp1Poke b.onChar eax
    store ebx { b with countdown := b.onLength, status := b.status ^^^ 1 }
  else do
    mp1Poke b.offChar eax
    store ebx { b with countdown := b.offLength, status := b.status ^^^ 1 }

/-- `tasklet_loop`.  A walk that is longer than the array has met a structure twice and never
ends. -/
def taskletLoop : Nat → Nat → Program Fish Unit
  | 0, _ => failure
  | k + 1, ebx =>
      if ebx = 0 then return
      else do
        let b ← load ebx
        let b := { b with countdown := b.countdown - 1 }
        store ebx b
        if BitVec.slt 0 b.countdown then taskletLoop k b.next
        else do
          blink ebx b
          taskletLoop k b.next

def mp1RtcTasklet : Program Fish Unit := do
  let head ← loadLink .mp1ListHead
  taskletLoop (BLINK_COUNT + 1) head

/-- `mp1_ioctl_add` of a copy of the structure of the caller. -/
def mp1IoctlAdd (arg : BlinkStruct) : Program Fish Int := do
  if arg.location.toNat ≥ 80 * 25 then return -1
  let temp := { arg with status := 1, countdown := arg.onLength }
  let eax ← mp1Malloc
  if eax = 0 then return -1
  store eax temp
  let head ← loadLink .mp1ListHead
  storeLink head (.next eax)
  storeLink eax .mp1ListHead
  let b ← load eax
  mp1Poke b.onChar (b.location.toNat * 2)
  return 0

/-- The loop of `mp1_find_helper`, which compares 16 bits. -/
def findLoop (ax : BitVec 16) : Nat → Nat → Program Fish Nat
  | 0, _ => failure
  | k + 1, ebx => do
      if ebx = 0 then return 0
      let b ← load ebx
      if b.location = ax then return ebx
      findLoop ax k b.next

def mp1FindHelper (arg : BitVec 32) : Program Fish Nat := do
  let head ← loadLink .mp1ListHead
  findLoop (arg.setWidth 16) (BLINK_COUNT + 1) head

def removeFindPrev (eax : Nat) : Nat → Link → Program Fish Link
  | 0, _ => failure
  | k + 1, edx => do
      let p ← loadLink edx
      if p = eax then return edx
      removeFindPrev eax k (.next p)

def mp1IoctlRemove (arg : BitVec 32) : Program Fish Int := do
  let eax ← mp1FindHelper arg
  if eax = 0 then return -1
  let edx ← removeFindPrev eax (BLINK_COUNT + 1) .mp1ListHead
  let ecx ← loadLink (.next eax)
  storeLink ecx edx
  mp1Free eax
  return 0

/-- The move on `l` after `testb $0x1, STATUS` looks at the sign of the result, and there is no
overflow. -/
def syncChar (b : BlinkEntry) : UInt8 :=
  if (b.status.setWidth 8 &&& 1#8).msb then b.onChar else b.offChar

def mp1IoctlSync (arg : BitVec 32) : Program Fish Int := do
  let esi ← mp1FindHelper (arg >>> 16)
  if esi = 0 then return -1
  let edi ← mp1FindHelper (arg &&& 0xFFFF)
  if edi = 0 then return -1
  let src ← load esi
  let b ← load edi
  let b := { b with
    onLength := src.onLength, offLength := src.offLength,
    countdown := src.countdown, status := src.status }
  store edi b
  mp1Poke (syncChar b.toBlinkEntry) (b.location.toNat * 2)
  return 0

/-- `mp1_ioctl_find`, with the structure of the caller afterwards. -/
def mp1IoctlFind (arg : BlinkStruct) : Program Fish (Int × BlinkStruct) := do
  let eax ← mp1FindHelper (arg.location.setWidth 32)
  if eax = 0 then return (-1, arg)
  let b ← load eax
  return (0, b)

end Fish

/-- A call of the tasklet or, through the table of `mp1_ioctl`, of a command. -/
inductive BlinkCall where
  | tasklet
  | add (arg : BlinkStruct)
  | remove (arg : BitVec 32)
  | find (arg : BlinkStruct)
  | sync (arg : BitVec 32)

/-- The result of a call, and what `find` has left in the structure of its caller. -/
structure BlinkAnswer where
  ret : Int
  found : Option BlinkEntry
deriving DecidableEq

namespace BlinkCall

def perform : BlinkCall → Program Fish BlinkAnswer
  | .tasklet => do
      Fish.mp1RtcTasklet
      return ⟨0, none⟩
  | .add arg => do
      let r ← Fish.mp1IoctlAdd arg
      return ⟨r, none⟩
  | .remove arg => do
      let r ← Fish.mp1IoctlRemove arg
      return ⟨r, none⟩
  | .find arg => do
      let r ← Fish.mp1IoctlFind arg
      return ⟨r.1, some r.2.toBlinkEntry⟩
  | .sync arg => do
      let r ← Fish.mp1IoctlSync arg
      return ⟨r, none⟩

def performAll : List BlinkCall → Program Fish (List BlinkAnswer)
  | [] => return []
  | call :: calls => do
      let answer ← call.perform
      let answers ← performAll calls
      return answer :: answers

end BlinkCall

end Kernel391
