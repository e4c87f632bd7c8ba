import Kernel391.ReadData
import Kernel391.Vidmap
import Kernel391.Getargs

/-!
# Stores through user pointers

Three system calls store through a pointer of the caller: `read`, `getargs` and `vidmap`.  What
is recorded here is where, address by address.  Only `vidmap` looks at the pointer, and it looks
at the first of the four bytes it stores.
-/

namespace Kernel391

/-- The calls that store through a pointer, with their arguments as the registers hold them. -/
inductive PointerCall where
  | read (fd buf nbytes : BitVec 32)
  | getargs (buf nbytes : BitVec 32)
  | vidmap (screenStart : BitVec 32)
deriving DecidableEq

/-- A completed call: its result and the addresses it has stored to, in order. -/
structure PointerStores where
  ret : Int
  stores : List (BitVec 32)
deriving DecidableEq

/-- `n` addresses from `a` on. -/
def addresses (a : BitVec 32) (n : Nat) : List (BitVec 32) :=
  (List.range n).map fun i => a + BitVec.ofNat 32 i

-- One more address behind those stored to so far.
def logStore (buf : BitVec 32) (i : Int) (_ : UInt8) (log : List (BitVec 32)) :
    List (BitVec 32) :=
  log ++ [buf + BitVec.ofInt 32 i]

/-- A call of the current process, from the driver's polling loop on; `none` while it waits. -/
def Kernel.pointerCall (img : Image) (beyond : CStr) (k : Kernel) :
    PointerCall → Option PointerStores
  | .read fd buf nbytes =>
      (sysRead img.lay img.fs fd.toInt (buf = 0) nbytes.toInt (k.pcbs k.current) k.dev).map
        fun r => ⟨r.ret, addresses buf r.stored.length⟩
  | .getargs buf nbytes =>
      let r := k.getargs (logStore buf) (buf = 0) nbytes beyond []
      some ⟨r.1, r.2.1⟩
  | .vidmap screenStart =>
      if VidmapRefuses screenStart then some ⟨-1, []⟩
      else some ⟨USER_VIDMAP.toNat, addresses screenStart 4⟩

/-! ## Where a call is headed -/

/-- How many bytes the `read` of a driver stores, whatever the pointer; one that has to wait has
stored none yet. -/
def Driver.storeCount (fs : FileSys) (file : FdT) (nbytes : Int) (dev : Devices) : Driver → Nat
  | .terminal => if dev.term.enterDown ∧ 0 < nbytes then MAX_BUFF_LENGTH else 0
  | .rtc => 0
  | .fsys =>
      if file.inode.toNat < fs.bootBlock.inodeCount.toNat then
        min nbytes.toNat ((fs.inodes file.inode.toNat).length.toNat - file.pos.toNat)
      else 0
  | .dir => if dev.drIndex < fs.bootBlock.dentryCount.toNat then nbytes.toNat else 0

def Kernel.readCount (img : Image) (k : Kernel) (fd nbytes : BitVec 32) : Nat :=
  let file := (k.pcbs k.current).fileArray fd.toInt.toNat
  if fd.toInt < 0 ∨ fd.toInt > MAX_FD ∨ fd.toInt = 1 ∨ nbytes.toInt < 0 then 0
  else if file.flags = 0 then 0
  else
    (img.lay.driverAt file.fops).elim 0 (Driver.storeCount img.fs file nbytes.toInt k.dev)

-- The length of the caller's arguments as `getargs` computes it.
def Kernel.argLength (beyond : CStr) (k : Kernel) : Int :=
  stringLength (some ((k.pcbs k.current).argString beyond))

/-- The addresses a call would store to if its pointer were accepted.  An argument string without
an end has its terminator stored in front of the buffer. -/
def Kernel.destination (img : Image) (beyond : CStr) (k : Kernel) :
    PointerCall → List (BitVec 32)
  | .read fd buf nbytes => addresses buf (k.readCount img fd nbytes)
  | .getargs buf nbytes =>
      let len := k.argLength beyond
      if nbytes < BitVec.ofInt 32 (len + 1) ∨ len = 0 then []
      else if len < 0 then addresses (buf - 1) 1
      else addresses buf (len.toNat + 1)
  | .vidmap screenStart => addresses screenStart 4

/-- Every store is inside the program page, and a call headed elsewhere fails without a store. -/
structure StoresConfined (destination : List (BitVec 32)) (o : PointerStores) : Prop where
  stores : ∀ a ∈ o.stores, InUserPage a
  refused : (∃ a ∈ destination, ¬InUserPage a) → o.ret = -1 ∧ o.stores = []

/-- `n` bytes from `a` on, between 128MB and 132MB. -/
def Spans (a : BitVec 32) (n : Nat) : Prop :=
  0x8000000 ≤ a.toNat ∧ a.toNat + n ≤ 0x8400000

/-- The pointers a call has to be given for its stores to stay in the page. -/
def CallFits (img : Image) (beyond : CStr) (k : Kernel) : PointerCall → Prop
  | .read fd buf nbytes =>
      buf = 0 ∨ k.readCount img fd nbytes = 0 ∨ Spans buf (k.readCount img fd nbytes)
  | .getargs buf nbytes =>
      buf = 0 ∨ k.argLength beyond = 0 ∨ nbytes < BitVec.ofInt 32 (k.argLength beyond + 1) ∨
        if k.argLength beyond < 0 then Spans (buf - 1) 1
        else Spans buf ((k.argLength beyond).toNat + 1)
  | .vidmap screenStart => screenStart.toNat < 0x83FFFFD ∨ 0x8400000 ≤ screenStart.toNat

/-! ## Ranges of addresses -/

@[simp] theorem addresses_zero (a : BitVec 32) : addresses a 0 = [] := by
  simp [addresses]

/-- A range of addresses is inside the page exactly if its two ends are. -/
theorem addresses_in_page (a : BitVec 32) {n : Nat} (hn : 0 < n) :
    (∀ b ∈ addresses a n, InUserPage b) ↔ Spans a n := by
  have hstart : USER_PROCESS_START_VIRTUAL.toNat = 0x8000000 := by decide
  simp only [addresses, List.mem_map, List.mem_range, forall_exists_index, and_imp,
    forall_apply_eq_imp_iff₂, InUserPage, Spans, BitVec.toNat_add, BitVec.toNat_ofNat, hstart]
  have ha := a.isLt
  constructor
  · intro h
    have hfirst := h 0 hn
    -- the first address past the page, if the range gets there
    have hpast := h (0x8400000 - a.toNat)
    omega
  · intro h i hi
    omega

theorem leaves_page (a : BitVec 32) {n : Nat} (hn : 0 < n) :
    (∃ b ∈ addresses a n, ¬InUserPage b) ↔ ¬Spans a n := by
  rw [← addresses_in_page a hn]
  push Not
  rfl

/-- A call that either stores all of its destination or refuses is confined exactly if it
refuses or has its destination in the page. -/
theorem storesConfined_iff {a : BitVec 32} {n : Nat} (hn : 0 < n) {ret : Int} :
    StoresConfined (addresses a n) ⟨ret, addresses a n⟩ ↔ Spans a n := by
  constructor
  · intro h
    exact (addresses_in_page a hn).mp h.stores
  · intro h
    refine ⟨(addresses_in_page a hn).mpr h, ?_⟩
    rw [leaves_page a hn]
    exact fun hnot => absurd h hnot

theorem storesConfined_refused (destination : List (BitVec 32)) : StoresConfined destination ⟨-1, []⟩ :=
  ⟨by simp, fun _ => ⟨rfl, rfl⟩⟩

theorem storesConfined_nil (ret : Int) : StoresConfined [] ⟨ret, []⟩ := ⟨by simp, by simp⟩

/-! ## What each call stores -/

theorem Driver.read_stored (fs : FileSys) (fd : Nat) (nbytes : Int) (pcb : Pcb) (dev : Devices)
    (d : Driver) : ((Driver.read fs fd nbytes pcb dev d).elim 0 fun r => r.stored.length) =
      d.storeCount fs (pcb.fileArray fd) nbytes dev := by
  cases d with
  | terminal =>
    simp only [Driver.read, Driver.storeCount, Term.terminalReadResume]
    by_cases henter : dev.term.enterDown
    · by_cases hn : 0 < nbytes
      · rw [if_pos henter, if_neg (by omega), if_pos ⟨henter, hn⟩]
        exact length_strncpy _ _ _
      · rw [if_pos henter, if_pos (by omega), if_neg (by tauto)]
        rfl
    · rw [if_neg henter, if_neg (by tauto)]
      rfl
  | rtc =>
    simp only [Driver.read, Driver.storeCount]
    cases rtcRead dev.rtc <;> rfl
  | fsys =>
    simp only [Driver.read, Driver.storeCount, Option.elim_some, fileRead]
    by_cases hinode : (pcb.fileArray fd).inode.toNat < fs.bootBlock.inodeCount.toNat
    · rw [if_pos hinode, readData_some hinode]
      exact length_readLoop fs _ (pcb.fileArray fd).pos.isLt _
    · rw [if_neg hinode, readData_none (.inl (by omega))]
      rfl
  | dir =>
    simp only [Driver.read, Driver.storeCount, Option.elim_some, dirRead, readDentryByIndex]
    by_cases hindex : dev.drIndex < fs.bootBlock.dentryCount.toNat
    · rw [if_pos hindex, if_neg (by omega)]
      simp [copyBuf]
    · rw [if_neg hindex, if_pos (by omega)]
      rfl

theorem sysRead_stored (img : Image) (k : Kernel) (fd nbytes : BitVec 32) :
    ((sysRead img.lay img.fs fd.toInt false nbytes.toInt (k.pcbs k.current) k.dev).elim 0
      fun r => r.stored.length) = k.readCount img fd nbytes := by
  unfold sysRead Kernel.readCount
  dsimp only
  by_cases hbad : fd.toInt < 0 ∨ fd.toInt > MAX_FD ∨ fd.toInt = 1 ∨ nbytes.toInt < 0
  · rw [if_pos (.inr hbad), if_pos hbad]
    rfl
  · rw [if_neg (by simpa using hbad), if_neg hbad]
    by_cases hflags : ((k.pcbs k.current).fileArray fd.toInt.toNat).flags = 0
    · rw [if_pos hflags, if_pos hflags]
      rfl
    · rw [if_neg hflags, if_neg hflags]
      cases img.lay.driverAt ((k.pcbs k.current).fileArray fd.toInt.toNat).fops with
      | none => rfl
      | some d => exact Driver.read_stored img.fs _ _ _ _ d

theorem foldl_logStore (buf : BitVec 32) (source : CStr) (n : Nat) :
    (List.range n).foldl (fun d (i : Nat) => logStore buf i (source i) d) [] =
      addresses buf n := by
  induction n with
  | zero => rfl
  | succ n ih =>
    rw [List.range_succ, List.foldl_append, ih]
    simp [logStore, addresses, List.range_succ]

theorem copyString_logStore (buf : BitVec 32) (source : CStr) :
    copyString (logStore buf) source [] =
      if stringLength (some source) < 0 then addresses (buf - 1) 1
      else addresses buf ((stringLength (some source)).toNat + 1) := by
  unfold copyString
  dsimp only
  rw [foldl_logStore]
  rcases stringLength_cases source with ⟨n, -, -, hlen⟩ | ⟨-, hlen⟩
  · rw [hlen, if_neg (by omega), Int.toNat_natCast]
    simp [logStore, addresses, List.range_succ]
  · rw [hlen, if_pos (by omega)]
    simp [logStore, addresses, BitVec.sub_eq_add_neg]

/-! ## Call by call -/

section

variable (img : Image) (beyond : CStr) (k : Kernel)

/-- Every outcome of the call is confined. -/
def CallConfined (c : PointerCall) : Prop :=
  ∀ o, k.pointerCall img beyond c = some o → StoresConfined (k.destination img beyond c) o

theorem read_confined_iff (fd buf nbytes : BitVec 32) :
    CallConfined img beyond k (.read fd buf nbytes) ↔
      CallFits img beyond k (.read fd buf nbytes) := by
  have hstored := sysRead_stored img k fd nbytes
  simp only [CallConfined, CallFits, Kernel.pointerCall, Kernel.destination]
  by_cases hnull : buf = 0
  · -- a NULL pointer is refused at once
    apply iff_of_true _ (.inl hnull)
    intro o ho
    have hrefused : sysRead img.lay img.fs fd.toInt (decide (buf = 0)) nbytes.toInt
        (k.pcbs k.current) k.dev = some ⟨-1, [], k.pcbs k.current, k.dev⟩ := by
      unfold sysRead
      rw [if_pos (.inl (decide_eq_true hnull))]
    rw [hrefused] at ho
    cases ho
    exact storesConfined_refused _
  · rw [decide_eq_false hnull]
    cases hcall : sysRead img.lay img.fs fd.toInt false nbytes.toInt (k.pcbs k.current) k.dev with
    | none =>
      rw [hcall] at hstored
      apply iff_of_true _ (.inr (.inl hstored.symm))
      intro o ho
      cases ho
    | some r =>
      rw [hcall, Option.elim_some] at hstored
      simp only [Option.map_some, Option.some.injEq, forall_eq', hstored]
      by_cases hzero : k.readCount img fd nbytes = 0
      · rw [hzero, addresses_zero]
        exact iff_of_true (storesConfined_nil _) (.inr (.inl rfl))
      · rw [storesConfined_iff (Nat.pos_of_ne_zero hzero)]
        tauto

theorem pointerCall_getargs (buf nbytes : BitVec 32) :
    k.pointerCall img beyond (.getargs buf nbytes) =
      some (if nbytes < BitVec.ofInt 32 (k.argLength beyond + 1) ∨ buf = 0 ∨
          k.argLength beyond = 0 then ⟨-1, []⟩
        else
          ⟨0, if k.argLength beyond < 0 then addresses (buf - 1) 1
            else addresses buf ((k.argLength beyond).toNat + 1)⟩) := by
  have hcopy := copyString_logStore buf ((k.pcbs k.current).argString beyond)
  have hnull : decide (buf = 0) = true ↔ buf = 0 := decide_eq_true_iff
  have htest : (nbytes < BitVec.ofInt 32 (k.argLength beyond + 1) ∨ buf = 0 ∨
      k.argLength beyond = 0) ↔ (nbytes < BitVec.ofInt 32 (stringLength (some
        ((k.pcbs k.current).argString beyond)) + 1) ∨ decide (buf = 0) = true ∨
          stringLength (some ((k.pcbs k.current).argString beyond)) = 0) := by
    rw [hnull]
    rfl
  dsimp only [Kernel.pointerCall, Kernel.getargs]
  by_cases hrefuse : nbytes < BitVec.ofInt 32 (k.argLength beyond + 1) ∨ buf = 0 ∨
      k.argLength beyond = 0
  · rw [if_pos hrefuse, if_pos (htest.mp hrefuse)]
  · rw [if_neg hrefuse, if_neg (mt htest.mpr hrefuse), hcopy]
    rfl

theorem getargs_confined_iff (buf nbytes : BitVec 32) :
    CallConfined img beyond k (.getargs buf nbytes) ↔
      CallFits img beyond k (.getargs buf nbytes) := by
  simp only [CallConfined, pointerCall_getargs, CallFits, Kernel.destination, Option.some.injEq,
    forall_eq']
  by_cases hrefuse : nbytes < BitVec.ofInt 32 (k.argLength beyond + 1) ∨ buf = 0 ∨
      k.argLength beyond = 0
  · rw [if_pos hrefuse]
    exact iff_of_true (storesConfined_refused _) (by tauto)
  · rw [if_neg hrefuse]
    simp only [not_or] at hrefuse
    obtain ⟨hfits, hnull, hlen⟩ := hrefuse
    rw [if_neg (by tauto)]
    by_cases hneg : k.argLength beyond < 0
    · rw [if_pos hneg, if_pos hneg, storesConfined_iff Nat.one_pos]
      tauto
    · rw [if_neg hneg, if_neg hneg, storesConfined_iff (Nat.succ_pos _)]
      tauto

theorem vidmap_confined_iff (screenStart : BitVec 32) :
    CallConfined img beyond k (.vidmap screenStart) ↔
      CallFits img beyond k (.vidmap screenStart) := by
  have hrange : VidmapRefuses screenStart ↔
      screenStart.toNat < 0x8048000 ∨ 0x8400000 ≤ screenStart.toNat := by
    have hlow : (USER_PROCESS_START_VIRTUAL + USER_PROCESS_IMAGE_OFFSET).toNat = 0x8048000 := by
      decide
    have hhigh : (USER_PROCESS_START_VIRTUAL + 0x400000).toNat = 0x8400000 := by decide
    have hzero : screenStart = 0 ↔ screenStart.toNat = 0 := BitVec.toNat_inj.symm
    simp only [VidmapRefuses, BitVec.lt_def, BitVec.le_def, hlow, hhigh, hzero]
    omega
  simp only [CallConfined, CallFits, Kernel.pointerCall, Kernel.destination]
  by_cases hrefuse : VidmapRefuses screenStart
  · rw [if_pos hrefuse]
    simp only [Option.some.injEq, forall_eq']
    apply iff_of_true (storesConfined_refused _)
    rw [hrange] at hrefuse
    omega
  · rw [if_neg hrefuse]
    simp only [Option.some.injEq, forall_eq', storesConfined_iff (show 0 < 4 by decide)]
    rw [hrange] at hrefuse
    unfold Spans
    omega

/-- For every state, pointer and length, a call keeps its stores to the program page, and fails
if they would leave it, exactly if its pointer fits the bytes it is about to store. -/
theorem stores_confined_iff (c : PointerCall) :
    (∀ o, k.pointerCall img beyond c = some o → StoresConfined (k.destination img beyond c) o) ↔
      CallFits img beyond k c := by
  cases c with
  | read fd buf nbytes => exact read_confined_iff img beyond k fd buf nbytes
  | getargs buf nbytes => exact getargs_confined_iff img beyond k buf nbytes
  | vidmap screenStart => exact vidmap_confined_iff img beyond k screenStart

end

/-! ## A read into the kernel -/

def noteImage : Image := ⟨sampleLayout, noteFs, fun _ => 0, 0x403000⟩

-- The first process has opened the note.
def noteKernel : Kernel :=
  { freshKernel with runningProcs := fun _ => 0, pcbs := fun _ => notePcb }

/-- The first bytes of the kernel are overwritten with the note, and the call reports success. -/
theorem read_into_kernel :
    noteKernel.pointerCall noteImage (fun _ => 0) (.read 2 0x400000 2) =
        some ⟨2, [0x400000, 0x400001]⟩ ∧
      ¬StoresConfined (noteKernel.destination noteImage (fun _ => 0) (.read 2 0x400000 2))
        ⟨2, [0x400000, 0x400001]⟩ := by
  constructor
  · decide +kernel
  · intro h
    have hfirst := h.stores 0x400000 (List.mem_cons_self)
    revert hfirst
    unfold InUserPage
    decide

end Kernel391
