import Kernel391.ExecuteBuffers

/-!
# `getargs`

A process finds the text behind the first word of its command line in the `arg_buffer` of its
control block.  `getargs` copies it out with the same `copy_string` that `execute` uses, so its
destination is again anything with a byte writer; what lies behind the control block is given from
outside, since the source of the copy is a string and nothing else ends it.
-/

namespace Kernel391

open Machine Words

/-- The string at `pcb->arg_buffer`; `beyond` is the memory from the start of the block on. -/
def Pcb.argString (pcb : Pcb) (beyond : CStr) : CStr := fun i =>
  if 384 + i < Pcb.SIZE then pcb.peek (384 + i) else beyond (384 + i)

-- "getargs buf: "
def getargsText : List UInt8 :=
  [0x67, 0x65, 0x74, 0x61, 0x72, 0x67, 0x73, 0x20, 0x62, 0x75, 0x66, 0x3A, 0x20]

/-- `getargs` of the current process: its result, its destination and the state with the message
on the screen.  The length is compared as an unsigned number. -/
def Kernel.getargs {σ : Type} (write : Int → UInt8 → σ → σ) (null : Bool) (nbytes : BitVec 32)
    (beyond : CStr) (dest : σ) (k : Kernel) : Int × σ × Kernel :=
  let source := (k.pcbs k.current).argString beyond
  let len := stringLength (some source)
  if nbytes < BitVec.ofInt 32 (len + 1) ∨ null ∨ len = 0 then (-1, dest, k)
  else (0, copyString write source dest, k.printf (getargsText ++ stringBytes source ++ [0x0A]))

/-- The program `execute` loads: `file_size` gives the length to `read_file_bytes_by_name`. -/
def fileSize (fs : FileSys) (fname : CStr) : Nat :=
  match (readDentryByName fs.bootBlock (some fname)).found with
  | none => 2 ^ 32 - 1
  | some dentry => (fs.inodes dentry.inodeIndex.toNat).length.toNat

def programImage (img : Image) (fr : ExecFrame) (allArguments : CStr) : Option (List UInt8) :=
  (commandName fr.executable (copyArguments (some allArguments) fr.allArgumentsCopy)).bind
    fun executable => readFileBytesByName img.fs executable (fileSize img.fs executable)

/-! ## What `execute` leaves in the control block -/

theorem Pcb.argBuffer_poke {i : Nat} (hi : i < 128) (b : UInt8) (pcb : Pcb) :
    (pcb.poke (384 + i) b).argBuffer = Function.update pcb.argBuffer i b := by
  unfold Pcb.poke
  rw [if_neg (by omega), if_pos (by omega)]
  funext j
  by_cases hj : j = i
  · simp [hj]
  · simp [hj]

theorem Pcb.argBuffer_storeArgs {bytes : List UInt8} (hlen : bytes.length ≤ 128) (pcb : Pcb) :
    (pcb.storeArgs bytes).argBuffer = storeBytes bytes pcb.argBuffer := by
  have hloop : ∀ (bytes : List UInt8) (j : Nat) (pcb : Pcb), j + bytes.length ≤ 128 →
      ((bytes.zipIdx j).foldl (fun pcb p => if 384 + p.2 < Pcb.SIZE then pcb.poke (384 + p.2) p.1
        else pcb) pcb).argBuffer = storeFrom j bytes pcb.argBuffer := by
    intro bytes
    induction bytes with
    | nil =>
      intro j pcb _
      rw [storeFrom_nil]
      rfl
    | cons b bytes ih =>
      intro j pcb hj
      rw [List.length_cons] at hj
      have hsize : 384 + j < Pcb.SIZE := by
        show 384 + j < 528
        omega
      rw [List.zipIdx_cons, List.foldl_cons, if_pos hsize, ih (j + 1) _ (by omega),
        Pcb.argBuffer_poke (by omega), storeFrom_cons]
  rw [Pcb.storeArgs, hloop bytes 0 pcb (by omega), storeFrom_zero]

theorem Pcb.argString_of_lt (pcb : Pcb) (beyond : CStr) {i : Nat} (hi : i < 128) :
    pcb.argString beyond i = pcb.argBuffer i := by
  have hsize : 384 + i < Pcb.SIZE := by
    show 384 + i < 528
    omega
  unfold Pcb.argString Pcb.peek
  rw [if_pos hsize, if_neg (by omega), if_pos (by omega), Nat.add_sub_cancel_left]

/-- A saved pair of registers is behind the argument buffer. -/
theorem argBuffer_saveRegs (k : Kernel) (pid p : Int) (r : Regs) :
    ((k.saveRegs pid r).pcbs p).argBuffer = (k.pcbs p).argBuffer := by
  show (Function.update k.pcbs pid _ p).argBuffer = _
  by_cases hp : p = pid
  · rw [hp, Function.update_self]
  · rw [Function.update_of_ne hp]

theorem argBuffer_startProcess (img : Image) (k : Kernel) (fr : ExecFrame) (args : CStr)
    (pid parent p : Int) :
    ((k.startProcess img fr args pid parent).pcbs p).argBuffer =
      if p = pid then ((k.pcbs pid).storeArgs ((getNextArguments args).getD [])).argBuffer
      else (k.pcbs p).argBuffer := by
  have hset : ((((k.setPcb pid (k.newPcb img fr args pid parent)).mapUser img pid).setEsp0
      pid).pcbs p).argBuffer = if p = pid then
        ((k.pcbs pid).storeArgs ((getNextArguments args).getD [])).argBuffer
      else (k.pcbs p).argBuffer := by
    show (Function.update k.pcbs pid (k.newPcb img fr args pid parent) p).argBuffer = _
    by_cases hp : p = pid
    · rw [hp, Function.update_self, if_pos rfl]
      rfl
    · rw [Function.update_of_ne hp, if_neg hp]
  unfold Kernel.startProcess
  dsimp only
  split
  · rw [argBuffer_saveRegs, hset]
  · exact hset

/-! ## Events that leave the arguments alone -/

/-- Process `p` is as live as before and has the same argument buffer. -/
structure ArgsKept (p : Nat) (k k' : Kernel) : Prop where
  procs : k'.procs p = k.procs p
  args : (k'.pcbs p).argBuffer = (k.pcbs p).argBuffer

section

variable {p : Nat} {k k' k'' : Kernel}

theorem ArgsKept.refl (p : Nat) (k : Kernel) : ArgsKept p k k := ⟨rfl, rfl⟩

theorem ArgsKept.trans (h : ArgsKept p k k') (h' : ArgsKept p k' k'') : ArgsKept p k k'' :=
  ⟨h'.procs.trans h.procs, h'.args.trans h.args⟩

theorem argsKept_onTerm (f : Term → Term) : ArgsKept p k (k.onTerm f) := ⟨rfl, rfl⟩

theorem argsKept_printf (text : List UInt8) : ArgsKept p k (k.printf text) := argsKept_onTerm _

theorem argsKept_setPcb {pid : Int} {pcb : Pcb} (h : pcb.argBuffer = (k.pcbs pid).argBuffer) :
    ArgsKept p k (k.setPcb pid pcb) := by
  refine ⟨rfl, ?_⟩
  show (Function.update k.pcbs pid pcb p).argBuffer = _
  by_cases hp : (p : Int) = pid
  · rw [hp, Function.update_self, h]
  · rw [Function.update_of_ne hp]

theorem OnlySlot.argBuffer {fd : Int} {pcb pcb' : Pcb} (h : OnlySlot fd pcb pcb') :
    pcb'.argBuffer = pcb.argBuffer := by
  rcases h with rfl | ⟨-, f, rfl⟩ <;> rfl

/-- A new process has a number that no live process has. -/
theorem argsKept_execute (img : Image) (fr : ExecFrame) (allArguments : Option CStr)
    (hlive : k.procs p = 1) : ArgsKept p k (k.execute img fr allArguments).2 := by
  rcases h : k.execute img fr allArguments with ⟨value | pid, k'⟩
  · rcases execute_returned h with ⟨text, rfl⟩
    exact argsKept_printf text
  · rcases execute_entered h with ⟨i, executable, -, -, hfree, -, -, rfl⟩
    have hne : p ≠ i := by
      intro he
      rw [he, (freePid_eq_some hfree).2] at hlive
      omega
    have hquiet := quiet_startProcess img (k.takePid i) fr
      (copyArguments allArguments fr.allArgumentsCopy) i k.current
    refine ⟨?_, ?_⟩
    · rw [hquiet.procs]
      exact Function.update_of_ne hne _ _
    · rw [argBuffer_startProcess, if_neg (by omega)]
      rfl

theorem argsKept_execRet (img : Image) (fr : ExecFrame) (hlive : k.procs p = 1) :
    ArgsKept p k (k.execRet img fr) := by
  unfold Kernel.execRet
  split
  · have hprint : ArgsKept p k (k.printf restartText) := argsKept_printf restartText
    exact hprint.trans (argsKept_execute img fr (some shellName) (hprint.procs.trans hlive))
  · exact .refl p k

theorem argsKept_closeSlot {img : Image} {child : Int} {i : Nat}
    (h : k.closeSlot img child i = some k') : ArgsKept p k k' := by
  unfold Kernel.closeSlot at h
  rcases Option.map_eq_some_iff.mp h with ⟨k₁, hclose, rfl⟩
  have hclosed : ArgsKept p k k₁ := by
    split at hclose
    · rcases Option.map_eq_some_iff.mp hclose with ⟨r, hr, rfl⟩
      exact argsKept_setPcb (sysClose_onlySlot hr).argBuffer
    · rw [← Option.some.inj hclose]
      exact .refl p k
  exact hclosed.trans (argsKept_setPcb rfl)

theorem argsKept_closeAll {img : Image} {child : Int} {slots : List Nat}
    (h : k.closeAll img child slots = some k') : ArgsKept p k k' := by
  induction slots generalizing k with
  | nil =>
    rw [← Option.some.inj h]
    exact .refl p k
  | cons i slots ih =>
    rcases Option.bind_eq_some_iff.mp h with ⟨k₁, hslot, hrest⟩
    exact (argsKept_closeSlot hslot).trans (ih hrest)

theorem argsKept_unmapVideo (img : Image) : ArgsKept p k (k.unmapVideo img) := by
  unfold Kernel.unmapVideo
  split
  · exact ⟨rfl, rfl⟩
  · exact .refl p k

theorem argsKept_deleteProcess {pid : Int} (hne : pid ≠ p) : ArgsKept p k (k.deleteProcess pid) := by
  refine ⟨?_, by rw [(deleteProcess_frame k pid).1]⟩
  unfold Kernel.deleteProcess
  split
  · rfl
  · exact Function.update_of_ne (by omega) _ _

/-- Only the process that halts gives up its number. -/
theorem argsKept_halt {img : Image} {fr : ExecFrame} (hpid : (k.pcbs k.current).pId ≠ p)
    (hlive : k.procs p = 1) (h : k.halt img fr = some k') : ArgsKept p k k' := by
  have hret : ∀ k₁ : Kernel, ArgsKept p k k₁ → ArgsKept p k (k₁.execRet img fr) := by
    intro k₁ hk₁
    exact hk₁.trans (argsKept_execRet img fr (hk₁.procs.trans hlive))
  obtain ⟨-, ⟨-, k₁, hclose, rfl⟩ | ⟨-, rfl⟩⟩ := halt_eq_some h
  · apply hret
    have hleft : ArgsKept p k (((k.mapUser img (k.pcbs (k.pcbs k.current).parPId).pId).setEsp0
        (k.pcbs (k.pcbs k.current).parPId).pId).deleteProcess (k.pcbs k.current).pId) := by
      have henter : ArgsKept p k ((k.mapUser img (k.pcbs (k.pcbs k.current).parPId).pId).setEsp0
        (k.pcbs (k.pcbs k.current).parPId).pId) := ⟨rfl, rfl⟩
      exact henter.trans (argsKept_deleteProcess hpid)
    exact ((hleft.trans (argsKept_closeAll hclose)).trans (argsKept_unmapVideo img)).trans
      (argsKept_onTerm _)
  · exact hret _ (argsKept_deleteProcess hpid)

theorem argsKept_switchRunningTerminal {img : Image} {next : Nat} {r : Regs} {s : Bool × Kernel}
    (h : k.switchRunningTerminal img next r = some s) : ArgsKept p k s.2 := by
  rcases switchRunningTerminal_cases h with ⟨-, rfl⟩ | ⟨-, -, rfl⟩
  · exact ⟨rfl, rfl⟩
  · refine ⟨rfl, ?_⟩
    exact argBuffer_saveRegs { k with runningTerminal := next } k.current p r

theorem argsKept_keyboardHandler {img : Image} {scancode : UInt8} {entry switch : Regs}
    {fr : ExecFrame} (hlive : k.procs p = 1)
    (h : k.keyboardHandler img scancode entry switch fr = some k') : ArgsKept p k k' := by
  rcases Option.bind_eq_some_iff.mp h with ⟨s, hswitch, hrest⟩
  have hentry : ArgsKept p k s.2 := argsKept_switchRunningTerminal hswitch
  have hother : ∀ k₁, some (s.2.onTerm (Term.keyboardHandler img.rom scancode)) = some k₁ →
      ArgsKept p k k₁ := by
    intro k₁ hk₁
    rw [← Option.some.inj hk₁]
    exact hentry.trans (argsKept_onTerm _)
  split at hrest
  · next t _ =>
    unfold Kernel.selectTerminal at hrest
    split at hrest
    · rcases Option.map_eq_some_iff.mp hrest with ⟨s', hselect, rfl⟩
      have hshown : ArgsKept p k s'.2 :=
        (hentry.trans (argsKept_onTerm (Term.switchDisplayTerminal t))).trans
          (argsKept_switchRunningTerminal hselect)
      split
      · exact hshown.trans (argsKept_execute img fr _ (hshown.procs.trans hlive))
      · exact hshown
    · rw [← Option.some.inj hrest]
      exact hentry
  · exact hother k' hrest

theorem argsKept_withCurrent {call : Pcb → Devices → Option CallResult}
    (hcall : ∀ r, call (k.pcbs k.current) k.dev = some r →
      k.current = p → r.pcb.argBuffer = (k.pcbs p).argBuffer)
    (h : k.withCurrent call = some k') : ArgsKept p k k' := by
  unfold Kernel.withCurrent at h
  split at h
  · cases h
  · rcases Option.map_eq_some_iff.mp h with ⟨r, hr, rfl⟩
    refine ⟨rfl, ?_⟩
    show (Function.update k.pcbs k.current r.pcb p).argBuffer = _
    by_cases hp : k.current = p
    · rw [← hcall r hr hp, hp, Function.update_self]
    · rw [Function.update_of_ne (Ne.symm hp)]

end

/-! ## Runs -/

/-- The event neither ends process `p` nor opens a file for it. -/
def KeepsArguments (img : Image) (p : Int) (k : Kernel) : Event → Prop
  | .open filename =>
      k.current = p → (sysOpen img.lay img.fs pokeName filename (k.pcbs p)).1 = -1
  | .halt _ => k.current ≠ p
  | _ => True

instance (img : Image) (p : Int) (k : Kernel) : (e : Event) → Decidable (KeepsArguments img p k e)
  | .open _ => inferInstanceAs (Decidable (_ → _))
  | .halt _ => inferInstanceAs (Decidable (_ ≠ _))
  | .execute .. | .key .. | .tick | .readStart | .read .. | .write .. | .close _ | .vidmap _ =>
      inferInstanceAs (Decidable True)

theorem kernelStep_argsKept {img : Image} {k k' : Kernel} {d : Desk (Fin 3) Int} {p : Nat}
    {e : Event} (hrep : Represents k d) (hlive : k.procs p = 1) (hkeep : KeepsArguments img p k e)
    (h : kernelStep img k e = some k') : ArgsKept p k k' := by
  cases e with
  | execute allArguments fr =>
    rw [← Option.some.inj h]
    exact argsKept_execute img fr allArguments hlive
  | halt fr =>
    have hcur := (halt_cases h).1
    rcases hrep.current_live hcur with ⟨i, -, hi, hpid, -⟩
    have hne : (k.pcbs k.current).pId ≠ p := by
      rw [hi, hpid, ← hi]
      exact hkeep
    exact argsKept_halt hne hlive h
  | key scancode entry switch fr => exact argsKept_keyboardHandler hlive h
  | tick =>
    rcases Option.map_eq_some_iff.mp h with ⟨rtc, -, rfl⟩
    exact ⟨rfl, rfl⟩
  | «open» filename =>
    unfold kernelStep at h
    refine argsKept_withCurrent ?_ h
    intro r hr hp
    rw [← Option.some.inj hr, hp]
    rcases sysOpen_cases img.lay img.fs pokeName filename (k.pcbs p) with
      ⟨fd, name, dentry, d, -, -, -, -, -, heq⟩ | ⟨-, heq⟩
    · have hfail := hkeep hp
      rw [heq] at hfail
      exact absurd hfail (by show (fd : Int) ≠ -1; omega)
    · rw [heq]
  | readStart =>
    rw [← Option.some.inj h]
    exact argsKept_onTerm _
  | read fd null nbytes =>
    refine argsKept_withCurrent ?_ h
    intro r hr hp
    rw [(sysRead_onlySlot hr).argBuffer, hp]
  | write fd buf nbytes =>
    refine argsKept_withCurrent ?_ h
    intro r hr hp
    rw [sysWrite_pcb hr, hp]
  | close fd =>
    unfold kernelStep at h
    refine argsKept_withCurrent ?_ h
    intro r hr hp
    rcases Option.map_eq_some_iff.mp hr with ⟨s, hs, rfl⟩
    show s.2.argBuffer = _
    rw [(sysClose_onlySlot hs).argBuffer, hp]
  | vidmap screenStart =>
    rw [← Option.some.inj h]
    show ArgsKept p k (k.vidmap img screenStart)
    unfold Kernel.vidmap
    split <;> exact ⟨rfl, rfl⟩

/-- Through every run that keeps to the condition, a live process has the same arguments. -/
theorem run_argsKept {img : Image} {k k' : Kernel} {d : Desk (Fin 3) Int} {p : Nat}
    {es : List Event} (hok : d.Ok) (hrep : Represents k d) (hlive : k.procs p = 1)
    (hkeep : Along (kernelStep img) (KeepsArguments img p) k es)
    (hrun : run (kernelStep img) k es = some k') : ArgsKept p k k' := by
  have hstep : ∀ k₁ e k₂, ((∃ d, Desk.Ok d ∧ Represents k₁ d) ∧ ArgsKept p k k₁) →
      KeepsArguments img p k₁ e → kernelStep img k₁ e = some k₂ →
      (∃ d, Desk.Ok d ∧ Represents k₂ d) ∧ ArgsKept p k k₂ := by
    rintro k₁ e k₂ ⟨⟨d₁, hok₁, hrep₁⟩, hkept⟩ hok he
    have hnext := kernelStep_argsKept hrep₁ (hkept.procs.trans hlive) hok he
    exact ⟨hrep₁.step hok₁ he, hkept.trans hnext⟩
  exact (run_invariant hstep ⟨⟨d, hok, hrep⟩, .refl p k⟩ hkeep hrun).2

/-! ## From `execute` to `getargs` -/

/-- A buffer after a text and its terminator have been stored from its start on. -/
def storeText (l : List UInt8) (buf : Int → UInt8) : Int → UInt8 := fun i =>
  if 0 ≤ i ∧ i ≤ l.length then (l ++ [0]).getD i.toNat 0 else buf i

theorem copyString_text {s : CStr} {n : Nat} (hs : IsCStr s n) (hn : n ≤ 1000000)
    (buf : Int → UInt8) :
    copyString (fun i b (m : Int → UInt8) => Function.update m i b) s buf =
      storeText (text s n) buf := by
  rw [copyString_update hs hn]
  funext i
  unfold storeText
  rw [length_text]
  by_cases hi : 0 ≤ i ∧ i ≤ n
  · rw [if_pos hi, if_pos hi]
    by_cases hlast : i.toNat = n
    · rw [hlast, hs.1, List.getD_append_right _ _ _ _ (by rw [length_text]), length_text,
        Nat.sub_self]
      rfl
    · have hlt : i.toNat < (text s n).length := by
        rw [length_text]
        omega
      rw [List.getD_append _ _ _ _ hlt, List.getD_eq_getElem _ _ hlt]
      simp [text]
  · rw [if_neg hi, if_neg hi]

/-- `getargs` hands out a text that is not empty and fits, and nothing else. -/
theorem getargs_eq {k : Kernel} {l : List UInt8} (hl : ∀ c ∈ l, c ≠ 0) (hlen : l.length ≤ 127)
    {buf₀ : CStr} (hargs : (k.pcbs k.current).argBuffer = storeBytes (l ++ [0]) buf₀)
    (beyond : CStr) (buf : Int → UInt8) (nbytes : BitVec 32) :
    ((k.getargs (fun i b m => Function.update m i b) false nbytes beyond buf).1,
      (k.getargs (fun i b m => Function.update m i b) false nbytes beyond buf).2.1) =
      if l ≠ [] ∧ l.length + 1 ≤ nbytes.toNat then (0, storeText l buf) else (-1, buf) := by
  have hstored := isCStr_storeBytes hl buf₀
  have hbyte : ∀ j, j ≤ l.length → (k.pcbs k.current).argString beyond j =
      storeBytes (l ++ [0]) buf₀ j := by
    intro j hj
    rw [Pcb.argString_of_lt _ _ (by omega), hargs]
  have hstr : IsCStr ((k.pcbs k.current).argString beyond) l.length := by
    refine ⟨?_, fun j hj => ?_⟩
    · rw [hbyte _ (Nat.le_refl _)]
      exact hstored.1
    · rw [hbyte j (Nat.le_of_lt hj)]
      exact hstored.2 j hj
  have htext : text ((k.pcbs k.current).argString beyond) l.length = l := by
    have hcongr : text ((k.pcbs k.current).argString beyond) l.length =
        text (storeBytes (l ++ [0]) buf₀) l.length :=
      List.map_congr_left fun j hj => hbyte j (Nat.le_of_lt (List.mem_range.mp hj))
    rw [hcongr, text_storeBytes]
  have hlength := stringLength_eq hstr (by omega)
  have hfits : nbytes < BitVec.ofInt 32 ((l.length : Int) + 1) ↔ ¬l.length + 1 ≤ nbytes.toNat := by
    have hnat : BitVec.ofInt 32 ((l.length : Int) + 1) = BitVec.ofNat 32 (l.length + 1) := by
      rw [← Int.natCast_one, ← Int.natCast_add, BitVec.ofInt_natCast]
    rw [hnat, BitVec.lt_def, BitVec.toNat_ofNat, Nat.mod_eq_of_lt (by omega)]
    omega
  have hempty : (l.length : Int) = 0 ↔ ¬l ≠ [] := by
    rw [not_not, ← List.length_eq_zero_iff]
    omega
  unfold Kernel.getargs
  simp only [hlength, hfits, hempty]
  by_cases hok : l ≠ [] ∧ l.length + 1 ≤ nbytes.toNat
  · rw [if_pos hok, if_neg (by simp [hok]), copyString_text hstr (by omega), htext]
  · rw [if_neg hok, if_pos (by grind)]

/-- The name that `execute` looks up is the first word, as a string. -/
theorem commandName_eq {s : CStr} {n : Nat} (hs : IsCStr s n) (hn : n ≤ 1000000) {executable name : CStr}
    (h : commandName executable s = some name) :
    ∃ word, (arguments s n)[0]? = some word ∧ IsCStr name word.length ∧
      text name word.length = word := by
  have hlength := getArgumentLength_eq hs hn 0
  have hword := getArgument_eq hs hn 0
  unfold commandName at h
  rw [hword, hlength] at h
  cases hwords : arguments s n with
  | nil =>
    rw [hwords] at h
    cases h
  | cons word ws =>
    rw [hwords, List.getElem?_cons_zero] at h
    simp only [if_neg (Int.not_lt.mpr (Int.natCast_nonneg word.length)), Option.map_some,
      Option.some.injEq] at h
    have hbytes : ∀ c ∈ word, c ≠ 0 := by
      intro c hc
      rw [(words_split hwords).1] at hc
      exact mem_text hs ((List.dropWhile_suffix _).subset ((List.takeWhile_prefix _).subset hc))
    have hname : name = storeBytes (word ++ [0]) executable := by
      rw [← h, storeBytes_snoc]
      funext i
      by_cases hi : i = word.length
      · rw [hi, Function.update_self, storeBytes, List.getD_eq_default _ _ (Nat.le_refl _),
          if_pos rfl]
      · rw [Function.update_of_ne hi]
        show word.getD i (if (i : Int) = word.length then 0 else executable i) =
          word.getD i (executable i)
        rw [if_neg (by omega)]
    rw [hname]
    exact ⟨word, rfl, isCStr_storeBytes hbytes executable, text_storeBytes word executable⟩

/-- The argument buffer of a process that `execute` has just started. -/
theorem argBuffer_execute {s : CStr} {n : Nat} (hs : IsCStr s n) (hn : n ≤ 127) (img : Image)
    (fr : ExecFrame) (k : Kernel) (i : Nat) (parent : Int) (hword : arguments s n ≠ []) :
    ((k.startProcess img fr (copyArguments (some s) fr.allArgumentsCopy) i parent).pcbs i).argBuffer =
      storeBytes (afterWord isSpace (text s n) ++ [0]) (k.pcbs i).argBuffer := by
  have hcopy := isCStr_copyArguments hs (by omega) fr.allArgumentsCopy
  have htext := text_copyArguments hs (by omega) fr.allArgumentsCopy
  have hnext := getNextArguments_eq hcopy (by omega) (by rw [htext]; exact hword)
  have hlen := (@afterWord_suffix _ isSpace (text s n)).length_le
  rw [length_text] at hlen
  rw [argBuffer_startProcess, if_pos rfl, hnext, htext, Option.getD_some]
  apply Pcb.argBuffer_storeArgs
  rw [List.length_append, List.length_singleton]
  omega

/-- Whatever a run of the kernel does after `execute` has accepted a command line, the process finds
the text behind the first word with `getargs`, until it opens a file. -/
theorem arguments_survive (img : Image) (dev : Devices) (pcbs : Int → Pcb) (paging : Paging)
    (esp0 : BitVec 32) {es : List Event} {k : Kernel}
    (hboot : run (kernelStep img) ((bootKernel dev pcbs paging esp0).schedInit img) es = some k)
    {s : CStr} {n : Nat} (hs : IsCStr s n) (hn : n ≤ 127) {fr : ExecFrame} {pid : Int}
    {k₁ : Kernel} (hexec : k.execute img fr (some s) = (.entered pid, k₁)) :
    (∃ word name, (arguments s n)[0]? = some word ∧ IsCStr name word.length ∧
      text name word.length = word ∧
      commandName fr.executable (copyArguments (some s) fr.allArgumentsCopy) = some name ∧
      isExecutable img.fs fr.data fr.buf name = true ∧
      programImage img fr s = readFileBytesByName img.fs name (fileSize img.fs name)) ∧
    k₁.current = pid ∧
    ∀ es' k₂, Along (kernelStep img) (KeepsArguments img pid) k₁ es' →
      run (kernelStep img) k₁ es' = some k₂ → k₂.current = pid →
      ∀ (beyond : CStr) (buf : Int → UInt8) (nbytes : BitVec 32),
        ((k₂.getargs (fun i b m => Function.update m i b) false nbytes beyond buf).1,
          (k₂.getargs (fun i b m => Function.update m i b) false nbytes beyond buf).2.1) =
        if afterWord isSpace (text s n) ≠ [] ∧
            (afterWord isSpace (text s n)).length + 1 ≤ nbytes.toNat
          then (0, storeText (afterWord isSpace (text s n)) buf) else (-1, buf) := by
  rcases execute_entered hexec with ⟨i, name, rfl, hroom, hfree, hname, hcheck, hstart⟩
  have hcopy := isCStr_copyArguments hs (by omega) fr.allArgumentsCopy
  have hwords := arguments_copyArguments hs hn fr.allArgumentsCopy
  obtain ⟨word, hfirst, hnameStr, hnameText⟩ := commandName_eq hcopy (by omega) hname
  rw [hwords] at hfirst
  refine ⟨⟨word, name, hfirst, hnameStr, hnameText, hname, hcheck, ?_⟩, ?_, ?_⟩
  · rw [programImage, hname, Option.bind_some]
  · rw [hstart]
    exact current_startProcess img k fr _ i
  · intro es' k₂ hkeep hrun hcur beyond buf nbytes
    rcases run_represents hboot with ⟨d, hok, hrep⟩
    have hstep : kernelStep img k (.execute (some s) fr) = some k₁ := by
      show some (k.execute img fr (some s)).2 = some k₁
      rw [hexec]
    rcases hrep.step hok hstep with ⟨d₁, hok₁, hrep₁⟩
    have hlive : k₁.procs i = 1 := by
      rw [hstart, (quiet_startProcess img (k.takePid i) fr _ i k.current).procs]
      exact Function.update_self ..
    have hkept := run_argsKept hok₁ hrep₁ hlive hkeep hrun
    have hnonempty : arguments s n ≠ [] := by
      intro hnil
      rw [hnil] at hfirst
      cases hfirst
    have hbytes : ∀ c ∈ afterWord isSpace (text s n), c ≠ 0 := fun c hc =>
      mem_text hs ((afterWord_suffix _).mem hc)
    have hlen := (@afterWord_suffix _ isSpace (text s n)).length_le
    rw [length_text] at hlen
    have hargs : (k₂.pcbs k₂.current).argBuffer =
        storeBytes (afterWord isSpace (text s n) ++ [0]) (k.pcbs i).argBuffer := by
      rw [hcur, hkept.args, hstart]
      exact argBuffer_execute hs hn img fr (k.takePid i) i k.current hnonempty
    exact getargs_eq hbytes (by omega) hargs beyond buf nbytes

-- " shell  a "
def shellLine : CStr :=
  storeBytes [0x20, 0x73, 0x68, 0x65, 0x6C, 0x6C, 0x20, 0x20, 0x61, 0x20] fun _ => 0

-- The process runs a second shell, which halts, before it asks for its arguments.
theorem arguments_survive_nested :
    ∃ k₁ k₂, freshKernel.execute shellImage zeroFrame (some shellLine) = (.entered 0, k₁) ∧
      run (kernelStep shellImage) k₁ [.execute (some shellName) zeroFrame, .halt zeroFrame] =
        some k₂ ∧
      ((k₂.getargs (fun i b m => Function.update m i b) false 3 (fun _ => 0) fun _ => 0xFF).1,
        (k₂.getargs (fun i b m => Function.update m i b) false 3 (fun _ => 0) fun _ => 0xFF).2.1) =
      ((0 : Int), storeText [0x61, 0x20] fun _ => 0xFF) := by
  have hline : IsCStr shellLine 10 := ⟨rfl, by decide⟩
  have houtcome : (freshKernel.execute shellImage zeroFrame (some shellLine)).1 = .entered 0 := by
    decide +kernel
  have hexec : freshKernel.execute shellImage zeroFrame (some shellLine) = (.entered 0,
      (freshKernel.execute shellImage zeroFrame (some shellLine)).2) := by
    rw [← houtcome]
  have hkeep : Along (kernelStep shellImage) (KeepsArguments shellImage 0)
      (freshKernel.execute shellImage zeroFrame (some shellLine)).2
      [.execute (some shellName) zeroFrame, .halt zeroFrame] := by
    decide +kernel
  have hend : ((run (kernelStep shellImage)
      (freshKernel.execute shellImage zeroFrame (some shellLine)).2
      [.execute (some shellName) zeroFrame, .halt zeroFrame]).map Kernel.current) = some 0 := by
    decide +kernel
  rcases Option.map_eq_some_iff.mp hend with ⟨k₂, hrun, hcur⟩
  have hsurvive := (@arguments_survive shellImage idleDevices (fun _ => zeroPcb)
    (initPaging 0x403000 0 0) 0 [] freshKernel rfl shellLine 10 hline (by decide) zeroFrame 0 _
      hexec).2.2 _ k₂ hkeep hrun hcur (fun _ => 0) (fun _ => 0xFF) 3
  have hrest : afterWord isSpace (text shellLine 10) = [0x61, 0x20] := by decide
  rw [hrest, if_pos (by decide)] at hsurvive
  exact ⟨_, k₂, hexec, hrun, hsurvive⟩

end Kernel391
