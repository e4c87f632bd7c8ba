import Kernel391.Lib.BitField
import Mathlib.Logic.Function.Basic

/-!
# Page tables (`paging.c`, `x86_desc.h`)

One page directory and one page table, both arrays of 1024 words that the code reads through
three overlapping bit-field unions.  `mapVP` is the only writer after `initPaging`.
-/

namespace Kernel391

open Machine

def KERNEL_MEMORY_ADDR : BitVec 32 := 0x400000

def VIDEO : BitVec 32 := 0xB8000

/-- `page_dir` and `page_table`. -/
structure Paging where
  pageDir : BitVec 10 → BitVec 32
  pageTable : BitVec 10 → BitVec 32

/-! ## The three unions -/

namespace PdePte

def present : Field 32 := ⟨0, 1, by decide⟩
def readWrite : Field 32 := ⟨1, 1, by decide⟩
def userSupervisor : Field 32 := ⟨2, 1, by decide⟩
def writeThrough : Field 32 := ⟨3, 1, by decide⟩
def cacheDisable : Field 32 := ⟨4, 1, by decide⟩
def accessed : Field 32 := ⟨5, 1, by decide⟩
def ignored0 : Field 32 := ⟨6, 1, by decide⟩
def pageSize : Field 32 := ⟨7, 1, by decide⟩
def ignored1 : Field 32 := ⟨8, 4, by decide⟩
def ptr : Field 32 := ⟨12, 20, by decide⟩

end PdePte

namespace Pte4kb

def present : Field 32 := ⟨0, 1, by decide⟩
def readWrite : Field 32 := ⟨1, 1, by decide⟩
def userSupervisor : Field 32 := ⟨2, 1, by decide⟩
def writeThrough : Field 32 := ⟨3, 1, by decide⟩
def cacheDisable : Field 32 := ⟨4, 1, by decide⟩
def accessed : Field 32 := ⟨5, 1, by decide⟩
def dirty : Field 32 := ⟨6, 1, by decide⟩
def reserved : Field 32 := ⟨7, 1, by decide⟩
def global : Field 32 := ⟨8, 1, by decide⟩
def ignored : Field 32 := ⟨9, 3, by decide⟩
def ptr : Field 32 := ⟨12, 20, by decide⟩

end Pte4kb

namespace Pde4mb

def present : Field 32 := ⟨0, 1, by decide⟩
def readWrite : Field 32 := ⟨1, 1, by decide⟩
def userSupervisor : Field 32 := ⟨2, 1, by decide⟩
def writeThrough : Field 32 := ⟨3, 1, by decide⟩
def cacheDisable : Field 32 := ⟨4, 1, by decide⟩
def accessed : Field 32 := ⟨5, 1, by decide⟩
def dirty : Field 32 := ⟨6, 1, by decide⟩
def pageSize : Field 32 := ⟨7, 1, by decide⟩
def global : Field 32 := ⟨8, 1, by decide⟩
def ignored : Field 32 := ⟨9, 3, by decide⟩
def memType : Field 32 := ⟨12, 1, by decide⟩
def ptrUnused : Field 32 := ⟨13, 8, by decide⟩
def reserved : Field 32 := ⟨21, 1, by decide⟩
def ptr : Field 32 := ⟨22, 10, by decide⟩

end Pde4mb

/-! ## `map_v_p` -/

section

-- The link-time address of `page_table`.
variable (pageTableAddr : BitVec 32)

/-- The directory half of the 4KB branch: point the entry at the page table. -/
def linkTable (pde : BitVec 32) : BitVec 32 :=
  pde
    |> PdePte.pageSize.assign (0 : BitVec 32)
    |> PdePte.present.assign (1 : BitVec 32)
    |> PdePte.readWrite.assign (1 : BitVec 32)
    |> PdePte.userSupervisor.assign (1 : BitVec 32)
    |> PdePte.ptr.assign (pageTableAddr >>> 12)

/-- The table half of the 4KB branch. -/
def fillPte (physicalAddr readWrite userSupervisor pte : BitVec 32) : BitVec 32 :=
  if physicalAddr = 0 then
    pte
      |> Pte4kb.present.assign (0 : BitVec 32)
      |> Pte4kb.readWrite.assign readWrite
      |> Pte4kb.userSupervisor.assign userSupervisor
  else
    pte
      |> Pte4kb.present.assign (1 : BitVec 32)
      |> Pte4kb.readWrite.assign readWrite
      |> Pte4kb.userSupervisor.assign userSupervisor
      |> Pte4kb.writeThrough.assign (0 : BitVec 32)
      |> Pte4kb.cacheDisable.assign (0 : BitVec 32)
      |> Pte4kb.accessed.assign (0 : BitVec 32)
      |> Pte4kb.dirty.assign (0 : BitVec 32)
      |> Pte4kb.reserved.assign (0 : BitVec 32)
      |> Pte4kb.global.assign (0 : BitVec 32)
      |> Pte4kb.ignored.assign (0 : BitVec 32)
      |> Pte4kb.ptr.assign (physicalAddr >>> 12)

/-- The 4MB branch. -/
def fillPde (physicalAddr readWrite userSupervisor pde : BitVec 32) : BitVec 32 :=
  let pde := Pde4mb.pageSize.assign (1 : BitVec 32) pde
  if physicalAddr = 0 then
    pde
      |> Pde4mb.present.assign (0 : BitVec 32)
      |> Pde4mb.readWrite.assign readWrite
      |> Pde4mb.userSupervisor.assign userSupervisor
  else
    pde
      |> Pde4mb.present.assign (1 : BitVec 32)
      |> Pde4mb.readWrite.assign readWrite
      |> Pde4mb.userSupervisor.assign userSupervisor
      |> Pde4mb.writeThrough.assign (0 : BitVec 32)
      |> Pde4mb.cacheDisable.assign (0 : BitVec 32)
      |> Pde4mb.accessed.assign (0 : BitVec 32)
      |> Pde4mb.dirty.assign (0 : BitVec 32)
      |> Pde4mb.pageSize.assign (1 : BitVec 32)
      |> Pde4mb.global.assign (0 : BitVec 32)
      |> Pde4mb.ignored.assign (1 : BitVec 32)
      |> Pde4mb.memType.assign (0 : BitVec 32)
      |> Pde4mb.ptrUnused.assign (0 : BitVec 32)
      |> Pde4mb.reserved.assign (0 : BitVec 32)
      |> Pde4mb.ptr.assign (physicalAddr >>> 22)

/-- The directory subscript `virtual_addr >> 22`. -/
def dirIndex (a : BitVec 32) : BitVec 10 := (a >>> 22).setWidth 10

/-- The table subscript `(virtual_addr >> 12) & 0x3FF`. -/
def tableIndex (a : BitVec 32) : BitVec 10 := ((a >>> 12) &&& 0x3FF).setWidth 10

/-- The argument checks of `map_v_p`.  The 4MB mask is `0x3FFF`, so it only asks for 16KB
alignment. -/
def mapRefuses (virtualAddr physicalAddr kbOrMb : BitVec 32) : Bool :=
  (kbOrMb != 0 && kbOrMb != 1) ||
  virtualAddr == 0 ||
  (if kbOrMb = 0 then (virtualAddr ||| physicalAddr) &&& 0xFFF != 0
   else (virtualAddr ||| physicalAddr) &&& 0x3FFF != 0) ||
  (kbOrMb == 0 && decide (0x400000 ≤ virtualAddr))

/-- `map_v_p`; the result is a `uint32_t`, so failure is all ones. -/
def mapVP (virtualAddr physicalAddr kbOrMb readWrite userSupervisor : BitVec 32) (s : Paging) :
    BitVec 32 × Paging :=
  if mapRefuses virtualAddr physicalAddr kbOrMb then (-1, s)
  else if kbOrMb = 0 then
    let d := dirIndex virtualAddr
    let t := tableIndex virtualAddr
    let pde := linkTable pageTableAddr (s.pageDir d)
    let pte := fillPte physicalAddr readWrite userSupervisor (s.pageTable t)
    (0, ⟨Function.update s.pageDir d pde, Function.update s.pageTable t pte⟩)
  else
    let d := dirIndex virtualAddr
    let pde := fillPde physicalAddr readWrite userSupervisor (s.pageDir d)
    (0, ⟨Function.update s.pageDir d pde, s.pageTable⟩)

/-! ## `init_paging` -/

/-- The directory entry `init_paging` builds in an uninitialised local; its fields cover the
word, so nothing of `junk` survives. -/
def initPde (junk : BitVec 32) : BitVec 32 :=
  junk
    |> PdePte.present.assign (0 : BitVec 32)
    |> PdePte.readWrite.assign (0 : BitVec 32)
    |> PdePte.userSupervisor.assign (1 : BitVec 32)
    |> PdePte.writeThrough.assign (0 : BitVec 32)
    |> PdePte.cacheDisable.assign (0 : BitVec 32)
    |> PdePte.accessed.assign (0 : BitVec 32)
    |> PdePte.ignored0.assign (0 : BitVec 32)
    |> PdePte.pageSize.assign (0 : BitVec 32)
    |> PdePte.ignored1.assign (0 : BitVec 32)
    |> PdePte.ptr.assign (0 : BitVec 32)

def initPte (junk : BitVec 32) : BitVec 32 :=
  junk
    |> Pte4kb.present.assign (0 : BitVec 32)
    |> Pte4kb.readWrite.assign (0 : BitVec 32)
    |> Pte4kb.userSupervisor.assign (1 : BitVec 32)
    |> Pte4kb.writeThrough.assign (0 : BitVec 32)
    |> Pte4kb.cacheDisable.assign (0 : BitVec 32)
    |> Pte4kb.accessed.assign (0 : BitVec 32)
    |> Pte4kb.dirty.assign (0 : BitVec 32)
    |> Pte4kb.reserved.assign (0 : BitVec 32)
    |> Pte4kb.global.assign (0 : BitVec 32)
    |> Pte4kb.ignored.assign (0 : BitVec 32)
    |> Pte4kb.ptr.assign (0 : BitVec 32)

/-- The two arrays after the initialisation loops. -/
def clearPaging (junkPde junkPte : BitVec 32) : Paging where
  pageDir _ := initPde junkPde
  pageTable _ := initPte junkPte

/-- `init_paging` up to `enable_paging`: clear both arrays, then map the kernel page and the
video page onto themselves. -/
def initPaging (junkPde junkPte : BitVec 32) : Paging :=
  let s := clearPaging junkPde junkPte
  let s := (mapVP pageTableAddr KERNEL_MEMORY_ADDR KERNEL_MEMORY_ADDR 1 1 1 s).2
  (mapVP pageTableAddr VIDEO VIDEO 0 1 1 s).2

end

/-! ## Address translation by the processor -/

/-- Where a virtual address leads, and with which rights. -/
structure Mapping where
  phys : BitVec 32
  writable : Bool
  user : Bool
deriving DecidableEq

/-- Bits 13 to 21 of a 4MB directory entry, which must be zero for a 32-bit physical address. -/
def Pde4mb.mustBeZero : Field 32 := ⟨13, 9, by decide⟩

/-- x86 two-level paging with 4MB pages enabled.  `frame f` is the content, as a table of 1024
words, of physical page frame `f`; `none` is a page fault. -/
def walk (frame : BitVec 20 → BitVec 10 → BitVec 32) (dir : BitVec 10 → BitVec 32)
    (a : BitVec 32) : Option Mapping :=
  let pde := dir (a.extractLsb' 22 10)
  if PdePte.present.get pde = 0 then none
  else if PdePte.pageSize.get pde = 1 then
    if Pde4mb.mustBeZero.get pde = 0 then
      some { phys := (Pde4mb.ptr.get pde : BitVec 10) ++ a.extractLsb' 0 22
             writable := Pde4mb.readWrite.get pde == 1
             user := Pde4mb.userSupervisor.get pde == 1 }
    else none
  else
    let pte := frame (PdePte.ptr.get pde) (a.extractLsb' 12 10)
    if Pte4kb.present.get pte = 0 then none
    else some { phys := (Pte4kb.ptr.get pte : BitVec 20) ++ a.extractLsb' 0 12
                writable := PdePte.readWrite.get pde == 1 && Pte4kb.readWrite.get pte == 1
                user := PdePte.userSupervisor.get pde == 1 &&
                  Pte4kb.userSupervisor.get pte == 1 }

/-- Physical memory as the walker sees it: `page_table` sits in its own frame, the other frames
hold anything. -/
def frames (pageTableAddr : BitVec 32) (other : BitVec 20 → BitVec 10 → BitVec 32) (s : Paging) :
    BitVec 20 → BitVec 10 → BitVec 32 :=
  fun f => if f = pageTableAddr.extractLsb' 12 20 then s.pageTable else other f

/-- The translation the processor computes from the kernel's tables. -/
def translate (pageTableAddr : BitVec 32) (other : BitVec 20 → BitVec 10 → BitVec 32)
    (s : Paging) (a : BitVec 32) : Option Mapping :=
  walk (frames pageTableAddr other s) s.pageDir a

end Kernel391
