import Kernel391.DirectoryScan
import Kernel391.UserLibrary

/-!
# Two user programs (`syscalls/ece391cat.c`, `syscalls/ece391ls.c`)

Both are loops of a read and a write.  What they print is stated for every file system, as long as
the rest of the system does not touch the descriptors and arguments of the process between its
calls.
-/

namespace Kernel391

open Machine

/-! ## `cat` -/

/-- The loop of `cat`, with `k` iterations left. -/
def catLoop (os : Os) (fd : Int) : Nat → List UInt8 → User Int
  | 0, _ => failure
  | k + 1, buf => do
      let (cnt, stored) ← os.read fd 1024
      let buf ← storeAt 0 stored buf
      if cnt = 0 then return 0
      if cnt = -1 then
        ece391Fdputs os 1 (literal "file read failed\n") 0
        return 3
      let bytes ← bytesAt buf 0 cnt.toNat
      let r ← os.write 1 bytes
      if r = -1 then return 3
      catLoop os fd k buf

/-- `main` of `cat` from its `open` on. -/
def catFile (os : Os) (k : Nat) (buf : List UInt8) : User Int := do
  let fd ← os.openFile buf
  if fd = -1 then
    ece391Fdputs os 1 (literal "file not found\n") 0
    return 2
  catLoop os fd k buf

/-- `main` of `cat`; `buf` is its uninitialised array of 1024 bytes. -/
def cat (os : Os) (k : Nat) (buf : List UInt8) : User Int := do
  let (r, buf) ← os.getargs buf 1024
  if r ≠ 0 then
    ece391Fdputs os 1 (literal "could not read arguments\n") 0
    return 3
  catFile os k buf

/-- What `cat` returns and prints for an entry that it finds.  There is no outcome for the
directory: `cat` asks for 1024 bytes of each entry, and gets what lies behind it on the stack. -/
def entryOutcome (fs : FileSys) (dentry : Dentry) : Option (Int × List UInt8) :=
  match driverOfType dentry.fileType with
  | some .rtc => some (0, [])
  | some .fsys =>
      if dentry.inodeIndex.toNat < fs.bootBlock.inodeCount.toNat then
        some (0, contents fs (fs.inodes dentry.inodeIndex.toNat))
      else some (3, message "file read failed\n")
  | some _ => none
  | none => some (2, message "file not found\n")

/-- What it returns and prints for an argument, as a function of the file system. -/
def catOutcome (fs : FileSys) (name : List UInt8) : Option (Int × List UInt8) :=
  if name = [] then some (3, message "could not read arguments\n")
  else if 32 < name.length then some (2, message "file not found\n")
  else
    match (readDentryByName fs.bootBlock (some (cstring (name ++ [0])))).found with
    | none => some (2, message "file not found\n")
    | some dentry => entryOutcome fs dentry

section Cat

variable {os : Os} {p : Int} {files : Nat → FdT} {index : Nat} {w : World}

theorem storeAt_zero {bytes buf : List UInt8} (h : bytes.length ≤ buf.length) :
    storeAt 0 bytes buf = some (bytes ++ buf.drop bytes.length) := by
  unfold storeAt
  rw [if_pos (by omega), List.take_zero, List.nil_append, Nat.zero_add]

/-- Each iteration writes the bytes it has read, and the last one finds none. -/
theorem catLoop_ends {fd pos : Nat} {file : List UInt8} {S : Nat → (Nat → FdT) → Prop}
    (hos : os.Undisturbed p) (hdel : FileDelivers os p fd file S) (hS : S pos files)
    (hw : Running os p files index w) (hout : Stdout os.img.lay (files 1)) (hfd : 2 ≤ fd)
    (hpos : pos ≤ file.length) {buf : List UInt8} (hbuf : buf.length = 1024) {k : Nat}
    (hk : file.length - pos < k) :
    Ends (catLoop os fd k buf) w fun r w' => r = 0 ∧
      w'.written = Function.update w.written 1 (w.written 1 ++ file.drop pos) := by
  induction k generalizing pos files w buf with
  | zero => omega
  | succ k ih =>
    have hread := hdel.read 1024 hS hpos hw
    generalize hdata : (file.drop pos).take 1024 = data at hread
    have hlen : data.length = min 1024 (file.length - pos) := by
      rw [← hdata, List.length_take, List.length_drop]
    unfold catLoop
    refine Ends.bind_of hread ?_
    rintro ⟨cnt, stored⟩ w₁ ⟨hr, hwritten₁, files₁, hS₁, hw₁, hother⟩
    obtain ⟨rfl, rfl⟩ := Prod.mk.inj hr
    refine Ends.bind (Ends.lift (storeAt_zero (by omega)) ?_)
    by_cases hend : stored = []
    · -- nothing is left
      have hdrop : file.drop pos = [] := by
        rw [hend] at hlen
        apply List.drop_of_length_le
        simp at hlen
        omega
      rw [if_pos (by rw [hend]; rfl)]
      refine Ends.pure ⟨rfl, ?_⟩
      rw [hdrop, List.append_nil, Function.update_eq_self, hwritten₁]
    · have hne : stored.length ≠ 0 := fun h => hend (List.length_eq_zero_iff.mp h)
      rw [if_neg (by omega), if_neg (by omega)]
      refine Ends.bind (Ends.lift (a := stored) ?_ ?_)
      · rw [Int.toNat_natCast]
        exact bytesAt_eq rfl (Nat.zero_le _)
      have hout₁ : Stdout os.img.lay (files₁ 1) := by
        rw [hother 1 (by omega)]
        exact hout
      refine Ends.bind_of (os.write_ends hos hw₁ hout₁ stored) ?_
      rintro r w₂ ⟨hr, hw₂, hwritten₂⟩
      rw [if_neg (hr hend)]
      refine (ih hS₁ hw₂ hout₁ (by omega) ?_ (by omega)).mono ?_
      · rw [List.length_append, List.length_drop]
        omega
      · rintro r w₃ ⟨hr, hwritten₃⟩
        refine ⟨hr, ?_⟩
        rw [hwritten₃, hwritten₂, hwritten₁, Function.update_idem, Function.update_self,
          List.append_assoc]
        have hprefix : stored <+: file.drop pos := hdata ▸ List.take_prefix 1024 _
        rw [← List.drop_drop, List.prefix_iff_eq_append.mp hprefix]

/-- Without its inode a file cannot be read. -/
theorem catLoop_fails {fd pos k : Nat} {inode : BitVec 32} {buf : List UInt8}
    (hos : os.Undisturbed p) (hw : Running os p files index w)
    (hout : Stdout os.img.lay (files 1)) (hfd : 2 ≤ fd ∧ fd < 8)
    (hinode : os.img.fs.bootBlock.inodeCount.toNat ≤ inode.toNat)
    (hslot : FileSlot os.img.lay inode pos (files fd)) (hk : 0 < k) :
    Ends (catLoop os fd k buf) w fun r w' => r = 3 ∧
      w'.written = Function.update w.written 1
        (w.written 1 ++ message "file read failed\n") := by
  obtain ⟨k, rfl⟩ := Nat.exists_eq_succ_of_ne_zero (show k ≠ 0 by omega)
  unfold catLoop
  refine Ends.bind_of (os.read_fails hos hw hfd hinode hslot 1024) ?_
  rintro ⟨cnt, stored⟩ w₁ ⟨hr, hwritten₁, files₁, hw₁, hother⟩
  obtain ⟨rfl, rfl⟩ := Prod.mk.inj hr
  refine Ends.bind (Ends.lift (storeAt_zero (Nat.zero_le _)) ?_)
  rw [if_neg (by omega), if_pos rfl]
  have hout₁ : Stdout os.img.lay (files₁ 1) := by
    rw [hother 1 (by omega)]
    exact hout
  refine Ends.bind_of (fdputs_literal_ends hos hw₁ hout₁ (by decide) (by decide)) ?_
  rintro - w₂ ⟨-, hwritten₂⟩
  refine Ends.pure ⟨rfl, ?_⟩
  rw [hwritten₂, hwritten₁]

/-- The lookup of a name reads it no further than its terminator. -/
theorem readDentryByName_congr (bb : BootBlock) {s t : CStr} {n : Nat} (hs : IsCStr s n)
    (ht : IsCStr t n) (hst : ∀ j < n, s j = t j) :
    readDentryByName bb (some s) = readDentryByName bb (some t) := by
  have hle : ∀ j ≤ n, s j = t j := by
    intro j hj
    by_cases hlast : j = n
    · rw [hlast, hs.1, ht.1]
    · exact hst j (by omega)
  have htext : cstr32 s = cstr32 t := by
    rw [cstr32_eq_take hs, cstr32_eq_take ht]
    congr 1
    exact List.map_congr_left fun j hj => hst j (List.mem_range.mp hj)
  have hmatch : ∀ d, nameMatches d s = nameMatches d t := by
    intro d
    rw [Bool.eq_iff_iff, nameMatches_iff, nameMatches_iff, htext]
  have hscan : ∀ k i, scanDentries bb s k i = scanDentries bb t k i := by
    intro k
    induction k with
    | zero => exact fun _ => rfl
    | succ k ih =>
      intro i
      unfold scanDentries
      rw [hmatch, ih]
  unfold readDentryByName
  dsimp only
  rw [hle 0 (Nat.zero_le n), hscan]

theorem readDentryByName_cstring (bb : BootBlock) {name : List UInt8} (hname : ∀ c ∈ name, c ≠ 0)
    (rest : List UInt8) :
    readDentryByName bb (some (cstring (name ++ 0 :: rest))) =
      readDentryByName bb (some (cstring (name ++ [0]))) := by
  refine readDentryByName_congr bb (isCStr_cstring hname) (isCStr_cstring hname) ?_
  intro j hj
  show (name ++ 0 :: rest).getD j 0 = (name ++ [0]).getD j 0
  rw [List.getD_append _ _ _ _ hj, List.getD_append _ _ _ _ hj]

/-- Nothing in the directory under the name, or nothing that can be opened. -/
theorem catFile_notFound {k : Nat} {buf : List UInt8} (hos : os.Undisturbed p)
    (hw : Running os p files index w) (hout : Stdout os.img.lay (files 1))
    (hfound : stringLength (some (cstring buf)) ≤ 32 → ∀ dentry,
      (readDentryByName os.img.fs.bootBlock (some (cstring buf))).found = some dentry →
      driverOfType dentry.fileType = none) :
    Ends (catFile os k buf) w fun r w' => r = 2 ∧
      w'.written = Function.update w.written 1 (w.written 1 ++ message "file not found\n") := by
  unfold catFile
  refine Ends.bind_of (os.open_fails hos hw hfound) ?_
  rintro fd w₁ ⟨rfl, hw₁, hwritten₁⟩
  rw [if_pos rfl]
  refine Ends.bind_of (fdputs_literal_ends hos hw₁ hout (by decide) (by decide)) ?_
  rintro - w₂ ⟨-, hwritten₂⟩
  refine Ends.pure ⟨rfl, ?_⟩
  rw [hwritten₂, hwritten₁]

theorem driverOfType_eq_some {fileType : BitVec 32} {d : Driver}
    (h : driverOfType fileType = some d) :
    fileType = 0 ∧ d = .rtc ∨ fileType = 1 ∧ d = .dir ∨ fileType = 2 ∧ d = .fsys := by
  unfold driverOfType at h
  grind

/-- A file that is found, whatever its type and its inode. -/
theorem catFile_found {k fd n : Nat} {buf text : List UInt8} {ret : Int} {dentry : Dentry}
    (hos : os.Undisturbed p) (hw : Running os p files index w)
    (hout : Stdout os.img.lay (files 1)) (hfree : FirstFree files fd) (hbuf : buf.length = 1024)
    (hname : IsCStr (cstring buf) n) (hn : n ≤ 32)
    (hfound : (readDentryByName os.img.fs.bootBlock (some (cstring buf))).found = some dentry)
    (houtcome : entryOutcome os.img.fs dentry = some (ret, text))
    (hticks : dentry.fileType = 0 → os.ClockTicks) (hk : text.length < k) :
    Ends (catFile os k buf) w fun r w' => r = ret ∧
      w'.written = Function.update w.written 1 (w.written 1 ++ text) := by
  obtain ⟨-, hlo, hhi, -⟩ := id hfree
  -- the clock and the regular files that are there
  have hreadable : Readable os.img.fs dentry → ret = 0 ∧ text = deliveredBy os.img.fs dentry →
      Ends (catFile os k buf) w fun r w' => r = ret ∧
        w'.written = Function.update w.written 1 (w.written 1 ++ text) := by
    rintro hread ⟨rfl, rfl⟩
    unfold catFile
    refine Ends.bind_of (os.open_readable hos hticks hw hfree hname hn hfound hread) ?_
    rintro r w₁ ⟨rfl, hwritten₁, S, files₁, hdel, hS, hw₁, hbefore⟩
    have hout₁ : Stdout os.img.lay (files₁ 1) := by
      rw [hbefore 1 (by omega)]
      exact hout
    rw [if_neg (by omega), ← hwritten₁]
    exact catLoop_ends hos hdel hS hw₁ hout₁ hlo (Nat.zero_le _) hbuf (by omega)
  unfold entryOutcome at houtcome
  cases hdrv : driverOfType dentry.fileType with
  | none =>
    rw [hdrv] at houtcome
    obtain ⟨rfl, rfl⟩ := Prod.mk.inj (Option.some.inj houtcome)
    refine catFile_notFound hos hw hout fun _ other hother => ?_
    rw [← Option.some.inj (hfound.symm.trans hother)]
    exact hdrv
  | some d =>
    rw [hdrv] at houtcome
    rcases driverOfType_eq_some hdrv with ⟨htype, rfl⟩ | ⟨htype, rfl⟩ | ⟨htype, rfl⟩
    · obtain ⟨rfl, rfl⟩ := Prod.mk.inj (Option.some.inj houtcome)
      refine hreadable ⟨.inl htype, fun h => ?_⟩ ⟨rfl, (if_neg ?_).symm⟩
      · rw [htype] at h
        exact absurd h (by decide)
      · rw [htype]
        decide
    · cases houtcome
    · dsimp only at houtcome
      split at houtcome
      · rename_i hinode
        obtain ⟨rfl, rfl⟩ := Prod.mk.inj (Option.some.inj houtcome)
        exact hreadable ⟨.inr htype, fun _ => hinode⟩ ⟨rfl, (if_pos htype).symm⟩
      · rename_i hinode
        obtain ⟨rfl, rfl⟩ := Prod.mk.inj (Option.some.inj houtcome)
        unfold catFile
        refine Ends.bind_of (os.open_ends hos hw hfree hname hn hfound hdrv) ?_
        rintro r w₁ ⟨rfl, hwritten₁, pcb, hpcb, hw₁⟩
        have hout₁ : Stdout os.img.lay ((openedPcb os.img.lay pokeName fd .fsys (cstring buf) dentry
            pcb).fileArray 1) := by
          rw [openedPcb_other (.inl (by omega)), hpcb]
          exact hout
        have hshort : stringLength (some (cstring buf)) ≤ 32 := by
          rw [stringLength_eq hname (by omega)]
          omega
        rw [if_neg (by omega), ← hwritten₁]
        exact catLoop_fails hos hw₁ hout₁ ⟨hlo, hhi⟩ (by omega)
          (fileSlot_openedPcb hhi hshort dentry pcb) (by omega)

/-- What `cat` prints of a file, and what it says of one it cannot print. -/
theorem cat_prints {name buf text : List UInt8} {old : CStr} {k fd : Nat} {ret : Int}
    (hos : os.Undisturbed p) (hw : Running os p files index w)
    (hout : Stdout os.img.lay (files 1)) (hname : ∀ c ∈ name, c ≠ 0) (hlen : name.length ≤ 127)
    (hargs : (w.kernel.pcbs p).argBuffer = storeBytes (name ++ [0]) old)
    (hfree : FirstFree files fd) (hbuf : buf.length = 1024)
    (houtcome : catOutcome os.img.fs name = some (ret, text))
    (hticks : ∀ dentry, (readDentryByName os.img.fs.bootBlock
      (some (cstring (name ++ [0])))).found = some dentry → dentry.fileType = 0 → os.ClockTicks)
    (hk : text.length < k) :
    Ends (cat os k buf) w fun r w' => r = ret ∧
      w'.written = Function.update w.written 1 (w.written 1 ++ text) := by
  unfold cat
  refine Ends.bind_of (os.getargs_ends (n := 1024) hos hw hname hlen hargs hbuf.symm) ?_
  rintro ⟨r, buf₁⟩ w₁ ⟨hr, hw₁, hwritten₁⟩
  rw [← hwritten₁]
  unfold catOutcome at houtcome
  by_cases hempty : name = []
  · rw [if_neg (fun h => h.1 hempty)] at hr
    obtain ⟨rfl, rfl⟩ := Prod.mk.inj hr
    rw [if_pos hempty] at houtcome
    obtain ⟨rfl, rfl⟩ := Prod.mk.inj (Option.some.inj houtcome)
    refine Ends.bind_of (fdputs_literal_ends hos hw₁ hout (by decide) (by decide)) ?_
    rintro - w₂ ⟨-, hwritten₂⟩
    exact Ends.pure ⟨rfl, hwritten₂⟩
  rw [if_pos ⟨hempty, by omega⟩] at hr
  obtain ⟨rfl, rfl⟩ := Prod.mk.inj hr
  rw [if_neg hempty] at houtcome
  dsimp only
  rw [if_neg (show ¬(0 : Int) ≠ 0 by simp)]
  have hcstr := @isCStr_cstring name (buf.drop (name.length + 1)) hname
  have hlength := stringLength_eq hcstr (by omega)
  have hlookup := readDentryByName_cstring os.img.fs.bootBlock hname (buf.drop (name.length + 1))
  by_cases hlong : 32 < name.length
  · rw [if_pos hlong] at houtcome
    obtain ⟨rfl, rfl⟩ := Prod.mk.inj (Option.some.inj houtcome)
    exact catFile_notFound hos hw₁ hout fun h => absurd h (by omega)
  rw [if_neg hlong] at houtcome
  cases hfound : (readDentryByName os.img.fs.bootBlock (some (cstring (name ++ [0])))).found with
  | none =>
    rw [hfound] at houtcome
    obtain ⟨rfl, rfl⟩ := Prod.mk.inj (Option.some.inj houtcome)
    refine catFile_notFound hos hw₁ hout fun _ dentry hdentry => ?_
    rw [hlookup, hfound] at hdentry
    cases hdentry
  | some dentry =>
    rw [hfound] at houtcome
    refine catFile_found hos hw₁ hout hfree ?_ hcstr (by omega) (by rw [hlookup, hfound]) houtcome
      (hticks dentry hfound) hk
    rw [List.length_append, List.length_cons, List.length_drop]
    omega

end Cat

-- The clock ticks between the calls of the program.
def tickingOs (fs : FileSys) : Os where
  img := ⟨sampleLayout, fs, fun _ => 0, 0x403000⟩
  beyond _ := 0
  between _ k := (kernelStep ⟨sampleLayout, fs, fun _ => 0, 0x403000⟩ k .tick).getD k

theorem tickingOs_tick (fs : FileSys) (n : Nat) (k : Kernel) :
    ∃ rtc, (tickingOs fs).between n k = { k with dev := { k.dev with rtc := rtc } } := by
  show ∃ rtc, ((rtcHandler k.dev.rtc).map fun rtc =>
    { k with dev := { k.dev with rtc := rtc } }).getD k = _
  cases rtcHandler k.dev.rtc with
  | none => exact ⟨k.dev.rtc, rfl⟩
  | some rtc => exact ⟨rtc, rfl⟩

theorem tickingOs_undisturbed (fs : FileSys) (p : Int) : (tickingOs fs).Undisturbed p := by
  constructor
  · intro n k hk
    obtain ⟨rtc, hrtc⟩ := tickingOs_tick fs n k
    rw [hrtc]
    exact hk
  · intro n k _
    obtain ⟨rtc, hrtc⟩ := tickingOs_tick fs n k
    rw [hrtc]
  · intro n k _
    obtain ⟨rtc, hrtc⟩ := tickingOs_tick fs n k
    rw [hrtc]

-- A tick is pending whenever a call arrives.
def pendingOs (fs : FileSys) : Os where
  img := ⟨sampleLayout, fs, fun _ => 0, 0x403000⟩
  beyond _ := 0
  between _ k := { k with dev := { k.dev with rtc := { k.dev.rtc with irFlag := 1 } } }

theorem pendingOs_undisturbed (fs : FileSys) (p : Int) : (pendingOs fs).Undisturbed p :=
  ⟨fun _ _ h => h, fun _ _ _ => rfl, fun _ _ _ => rfl⟩

theorem pendingOs_ticks (fs : FileSys) : (pendingOs fs).ClockTicks :=
  fun _ _ => show (1 : Int) ≠ 0 by decide

-- A process that has been started with an argument.
def startedWorld (args : List UInt8) : World :=
  ⟨bootKernel idleDevices (fun _ => { samplePcb false with
    argBuffer := storeBytes (args ++ [0]) fun _ => 0 }) (initPaging 0x403000 0 0) 0, 0, fun _ => []⟩

theorem cat_prints_note :
    ∃ w', cat (tickingOs noteFs) 6 (List.replicate 1024 0xCC) (startedWorld (message "note")) =
        some (0, w') ∧ w'.written 1 = message "hello" := by
  have hfree : FirstFree ((startedWorld (message "note")).kernel.pcbs 0).fileArray 2 :=
    ⟨rfl, by decide, by decide, fun j _ _ => by omega⟩
  have houtcome : catOutcome noteFs (message "note") = some (0, message "hello") := by
    decide +kernel
  have hcat := @cat_prints (tickingOs noteFs) 0 _ 0 (startedWorld (message "note"))
    (message "note") (List.replicate 1024 0xCC) (message "hello") (fun _ => 0) 6 2 0
    (tickingOs_undisturbed noteFs 0) ⟨rfl, rfl, fun _ => rfl⟩ ⟨rfl, by decide⟩
    (List.forall_mem_ne'.mpr (by decide)) (by decide) rfl hfree List.length_replicate houtcome (by
      intro dentry hfound htype
      rw [← Option.some.inj hfound] at htype
      exact absurd htype (by decide)) (by decide)
  obtain ⟨r, w', hrun, hr, hwritten⟩ := hcat
  refine ⟨w', ?_, ?_⟩
  · rw [hrun, hr]
  · rw [hwritten, Function.update_self]
    rfl

/-! ## `ls` -/

/-- The loop of `ls`, with `k` iterations left. -/
def lsLoop (os : Os) (fd : Int) : Nat → List UInt8 → User Int
  | 0, _ => failure
  | k + 1, buf => do
      let (cnt, stored) ← os.read fd 32
      let buf ← storeAt 0 stored buf
      if cnt = 0 then return 0
      if cnt = -1 then
        ece391Fdputs os 1 (literal "directory entry read failed\n") 0
        return 3
      let buf ← storeAt cnt.toNat [0x0A] buf
      let bytes ← bytesAt buf 0 (cnt.toNat + 1)
      let r ← os.write 1 bytes
      if r = -1 then return 3
      lsLoop os fd k buf

/-- `main` of `ls`; `buf` is its uninitialised array of 33 bytes. -/
def ls (os : Os) (k : Nat) (buf : List UInt8) : User Int := do
  let fd ← os.openFile (literal ".")
  if fd = -1 then
    ece391Fdputs os 1 (literal "directory open failed\n") 0
    return 2
  lsLoop os fd k buf

/-- The field of a directory entry that holds its name. -/
def nameField (fs : FileSys) (i : Nat) : List UInt8 :=
  (List.range 32).map (fs.bootBlock.dentries i).name

/-- What a listing prints from entry `i` on, with the text it prints for each. -/
def entriesFrom (fs : FileSys) (text : Nat → List UInt8) (i : Nat) : List UInt8 :=
  (List.range' i (fs.bootBlock.dentryCount.toNat - i)).flatMap text

theorem entriesFrom_of_lt {fs : FileSys} {text : Nat → List UInt8} {i : Nat}
    (h : i < fs.bootBlock.dentryCount.toNat) :
    entriesFrom fs text i = text i ++ entriesFrom fs text (i + 1) := by
  unfold entriesFrom
  rw [show fs.bootBlock.dentryCount.toNat - i =
    fs.bootBlock.dentryCount.toNat - (i + 1) + 1 by omega, List.range'_succ, List.flatMap_cons]

theorem entriesFrom_of_le {fs : FileSys} {text : Nat → List UInt8} {i : Nat}
    (h : fs.bootBlock.dentryCount.toNat ≤ i) : entriesFrom fs text i = [] := by
  unfold entriesFrom
  rw [Nat.sub_eq_zero_of_le h]
  rfl

/-- The lines of the entries from `i` on: each name field with its padding, and a newline. -/
def lsText (fs : FileSys) (i : Nat) : List UInt8 :=
  entriesFrom fs (fun j => nameField fs j ++ [0x0A]) i

/-- A descriptor of the directory. -/
structure DirSlot (lay : FopsLayout) (f : FdT) : Prop where
  fops : f.fops = lay.addr .dir
  flags : f.flags ≠ 0

section Ls

variable {os : Os} {p : Int} {files : Nat → FdT} {index : Nat} {w : World}

/-- A read of the directory by its sole reader. -/
theorem Os.readDir_ends {fd : Nat} (hos : os.Undisturbed p) (hsole : os.SoleReader)
    (hw : Running os p files index w) (hfd : 2 ≤ fd ∧ fd < 8)
    (hslot : DirSlot os.img.lay (files fd)) :
    Ends (os.read fd 32) w fun r w' => w'.written = w.written ∧
      if index < os.img.fs.bootBlock.dentryCount.toNat then
        r = (32, nameField os.img.fs index) ∧ Running os p files (index + 1) w'
      else r = (0, []) ∧ Running os p files 0 w' := by
  unfold Os.read
  refine Ends.bind_of (os.descriptorCall_ends
    (i := if index < os.img.fs.bootBlock.dentryCount.toNat then index + 1 else 0)
    (R := fun r => r.pcb.fileArray = files ∧ (r.ret, r.stored) =
      if index < os.img.fs.bootBlock.dentryCount.toNat then (32, nameField os.img.fs index)
      else (0, [])) hos hw ?_) ?_
  · intro pcb dev hfiles _ hdev
    have hmax : MAX_FD = 7 := rfl
    have hread : DirRead os.img.lay fd false 32 pcb := by
      refine ⟨by simp; omega, ?_, ?_⟩
      · rw [Int.toNat_natCast, hfiles]
        exact hslot.flags
      · rw [Int.toNat_natCast, hfiles, hslot.fops, FopsLayout.driverAt_addr]
    refine ⟨_, sysRead_dir hread dev, ?_⟩
    have hindex := hdev hsole
    have hbound := os.img.fs.bootBlock.dentryCount.isLt
    unfold dirRead readDentryByIndex
    by_cases hend : index < os.img.fs.bootBlock.dentryCount.toNat
    · rw [if_neg (by omega), if_pos hend, if_pos hend, hindex]
      refine ⟨fun _ => Nat.mod_eq_of_lt (by omega), hfiles, ?_⟩
      refine Prod.ext rfl (List.map_congr_left ?_)
      intro j hj
      rw [Dentry.bytes, if_pos (show j < 32 from List.mem_range.mp hj)]
    · rw [if_pos (by omega), if_neg hend, if_neg hend]
      exact ⟨fun _ => rfl, hfiles, rfl⟩
  · rintro r w' ⟨⟨hfiles, hret⟩, hw', hwritten⟩
    rw [hfiles] at hw'
    refine Ends.pure ⟨hwritten, ?_⟩
    by_cases hend : index < os.img.fs.bootBlock.dentryCount.toNat
    · rw [if_pos hend] at hret hw' ⊢
      exact ⟨hret, hw'⟩
    · rw [if_neg hend] at hret hw' ⊢
      exact ⟨hret, hw'⟩

theorem lsLoop_ends {fd : Nat} (hos : os.Undisturbed p) (hsole : os.SoleReader)
    (hw : Running os p files index w) (hout : Stdout os.img.lay (files 1))
    (hfd : 2 ≤ fd ∧ fd < 8) (hslot : DirSlot os.img.lay (files fd)) {buf : List UInt8}
    (hbuf : buf.length = 33) {k : Nat}
    (hk : os.img.fs.bootBlock.dentryCount.toNat - index < k) :
    Ends (lsLoop os fd k buf) w fun r w' => r = 0 ∧ w'.kernel.dev.drIndex = 0 ∧
      w'.written = Function.update w.written 1 (w.written 1 ++ lsText os.img.fs index) := by
  induction k generalizing index w buf with
  | zero => omega
  | succ k ih =>
    unfold lsLoop
    refine Ends.bind_of (os.readDir_ends hos hsole hw hfd hslot) ?_
    rintro ⟨cnt, stored⟩ w₁ ⟨hwritten₁, hread⟩
    by_cases hend : index < os.img.fs.bootBlock.dentryCount.toNat
    · rw [if_pos hend] at hread
      obtain ⟨hr, hw₁⟩ := hread
      obtain ⟨rfl, rfl⟩ := Prod.mk.inj hr
      have hname : (nameField os.img.fs index).length = 32 := by
        rw [nameField, List.length_map, List.length_range]
      refine Ends.bind (Ends.lift (storeAt_zero (by omega)) ?_)
      rw [if_neg (by omega), if_neg (by omega)]
      -- the byte behind the name becomes the newline
      have hline : storeAt (Int.toNat 32) [0x0A] (nameField os.img.fs index ++
          buf.drop (nameField os.img.fs index).length) =
            some (nameField os.img.fs index ++ [0x0A]) := by
        have hrest : (buf.drop 32).length = 1 := by
          rw [List.length_drop, hbuf]
        unfold storeAt
        rw [hname, show Int.toNat 32 = 32 from rfl, if_pos (by simp [hname, hrest]),
          List.take_left' hname,
          List.drop_of_length_le (by simp [hname, hrest]), List.append_nil]
      refine Ends.bind (Ends.lift hline ?_)
      refine Ends.bind (Ends.lift (a := nameField os.img.fs index ++ [0x0A]) ?_ ?_)
      · have hlen : Int.toNat 32 + 1 = (nameField os.img.fs index ++ [0x0A]).length := by
          rw [List.length_append, hname]
          rfl
        rw [hlen]
        exact bytesAt_eq (List.append_nil _).symm (Nat.zero_le _)
      refine Ends.bind_of (os.write_ends hos hw₁ hout _) ?_
      rintro r w₂ ⟨hr, hw₂, hwritten₂⟩
      rw [if_neg (hr (by simp))]
      refine (ih hw₂ (by rw [List.length_append, hname]; rfl) (by omega)).mono ?_
      rintro r w₃ ⟨hr, hindex, hwritten₃⟩
      refine ⟨hr, hindex, ?_⟩
      rw [hwritten₃, hwritten₂, hwritten₁, Function.update_idem, Function.update_self,
        List.append_assoc, lsText, lsText, entriesFrom_of_lt hend]
    · rw [if_neg hend] at hread
      obtain ⟨hr, hw₁⟩ := hread
      obtain ⟨rfl, rfl⟩ := Prod.mk.inj hr
      refine Ends.bind (Ends.lift (storeAt_zero (by simp)) ?_)
      rw [if_pos rfl]
      refine Ends.pure ⟨rfl, hw₁.index hsole, ?_⟩
      rw [lsText, entriesFrom_of_le (by omega), List.append_nil, Function.update_eq_self, hwritten₁]

/-- `ls` prints the entries from wherever the position of the directory stands, and leaves it at
the start: it prints all of them exactly when nobody has left a listing unfinished. -/
theorem ls_prints {buf : List UInt8} {k fd : Nat} {dot : Dentry} (hos : os.Undisturbed p)
    (hsole : os.SoleReader) (hw : Running os p files w.kernel.dev.drIndex w)
    (hout : Stdout os.img.lay (files 1)) (hfree : FirstFree files fd) (hbuf : buf.length = 33)
    (hdot : (readDentryByName os.img.fs.bootBlock (some (cstring (literal ".")))).found = some dot)
    (htype : dot.fileType = 1) (hk : os.img.fs.bootBlock.dentryCount.toNat < k) :
    Ends (ls os k buf) w fun r w' => r = 0 ∧ w'.kernel.dev.drIndex = 0 ∧
      w'.written = Function.update w.written 1
        (w.written 1 ++ lsText os.img.fs w.kernel.dev.drIndex) := by
  have hdrv : driverOfType dot.fileType = some .dir := by
    rw [htype]
    rfl
  have hname : IsCStr (cstring (literal ".")) 1 :=
    @isCStr_cstring (message ".") [] (List.forall_mem_ne'.mpr (by decide))
  obtain ⟨hflags, hlo, hhi, hbusy⟩ := hfree
  unfold ls
  refine Ends.bind_of (os.open_ends hos hw ⟨hflags, hlo, hhi, hbusy⟩ hname (by omega) hdot hdrv) ?_
  rintro r w₁ ⟨rfl, hwritten₁, pcb, hpcb, hw₁⟩
  rw [if_neg (by omega)]
  have hout₁ : Stdout os.img.lay ((openedPcb os.img.lay pokeName fd .dir (cstring (literal ".")) dot
      pcb).fileArray 1) := by
    rw [openedPcb_other (.inl (by omega)), hpcb]
    exact hout
  have hslot : DirSlot os.img.lay ((openedPcb os.img.lay pokeName fd .dir (cstring (literal "."))
      dot pcb).fileArray fd) := by
    have hopened : (openedPcb os.img.lay pokeName fd .dir (cstring (literal ".")) dot
        pcb).fileArray fd = openedFd os.img.lay .dir dot (pcb.fileArray fd) := if_pos rfl
    rw [hopened]
    exact ⟨rfl, show (1 : BitVec 32) ≠ 0 by decide⟩
  refine (lsLoop_ends hos hsole hw₁ hout₁ ⟨hlo, hhi⟩ hslot hbuf (by omega)).mono ?_
  rintro r w₂ ⟨hr, hindex, hwritten₂⟩
  refine ⟨hr, hindex, ?_⟩
  rw [hwritten₂, hwritten₁]

end Ls

theorem tickingOs_soleReader (fs : FileSys) : (tickingOs fs).SoleReader := by
  intro n k
  obtain ⟨rtc, hrtc⟩ := tickingOs_tick fs n k
  rw [hrtc]

-- The first entry has been read by someone before.
theorem ls_prints_rest :
    let w := { startedWorld [] with kernel := { (startedWorld []).kernel with
      dev := { idleDevices with drIndex := 1 } } }
    ∃ w', ls (tickingOs listingFs) 3 (List.replicate 33 0xCC) w = some (0, w') ∧
      w'.written 1 = 0x61 :: List.replicate 31 0 ++ [0x0A] := by
  intro w
  have hfree : FirstFree (w.kernel.pcbs 0).fileArray 2 :=
    ⟨rfl, by decide, by decide, fun j _ _ => by omega⟩
  have hls := @ls_prints (tickingOs listingFs) 0 _ w (List.replicate 33 0xCC) 3 2 _
    (tickingOs_undisturbed listingFs 0) (tickingOs_soleReader listingFs) ⟨rfl, rfl, fun _ => rfl⟩
    ⟨rfl, by decide⟩ hfree List.length_replicate rfl rfl (by decide)
  obtain ⟨r, w', hrun, hr, -, hwritten⟩ := hls
  refine ⟨w', ?_, ?_⟩
  · rw [hrun, hr]
  · rw [hwritten, Function.update_self]
    decide +kernel

end Kernel391
