import Kernel391.PagingRefinement
import Kernel391.Process
import Kernel391.TerminalFrame

/-!
# What leaves the process tables alone

`SameProcesses` says that two states hold the same processes with the same parent links, and
`SameTables` that the same terminal is running and displayed as well.  `Quiet` adds the machine
state that goes with the running process: the kernel stack of the task-state segment, the page of
video memory and the mappings from 4MB on.  Everything the kernel does apart from `add_process`,
`delete_process`, the entry into a process and the switches of terminals is quiet.
-/

namespace Kernel391

structure SameProcesses (k k' : Kernel) : Prop where
  procs : k'.procs = k.procs
  termProcs : k'.termProcs = k.termProcs
  runningProcs : k'.runningProcs = k.runningProcs
  processCount : k'.processCount = k.processCount
  pId : ∀ p, (k'.pcbs p).pId = (k.pcbs p).pId
  parPId : ∀ p, (k'.pcbs p).parPId = (k.pcbs p).parPId

structure SameTables (k k' : Kernel) : Prop extends SameProcesses k k' where
  running : k'.runningTerminal = k.runningTerminal
  display : k'.displayTerminal = k.displayTerminal

structure Quiet (img : Image) (k k' : Kernel) : Prop extends SameTables k k' where
  esp0 : k'.esp0 = k.esp0
  videoMem : k'.dev.term.screen.videoMem = k.dev.term.screen.videoMem
  paging : KeepsHigh img.pageTableAddr k.paging k'.paging

theorem SameProcesses.trans {k₁ k₂ k₃ : Kernel} (h : SameProcesses k₁ k₂)
    (h' : SameProcesses k₂ k₃) : SameProcesses k₁ k₃ where
  procs := h'.procs.trans h.procs
  termProcs := h'.termProcs.trans h.termProcs
  runningProcs := h'.runningProcs.trans h.runningProcs
  processCount := h'.processCount.trans h.processCount
  pId p := (h'.pId p).trans (h.pId p)
  parPId p := (h'.parPId p).trans (h.parPId p)

theorem SameTables.refl (k : Kernel) : SameTables k k :=
  ⟨⟨rfl, rfl, rfl, rfl, fun _ => rfl, fun _ => rfl⟩, rfl, rfl⟩

theorem SameTables.trans {k₁ k₂ k₃ : Kernel} (h : SameTables k₁ k₂) (h' : SameTables k₂ k₃) :
    SameTables k₁ k₃ where
  toSameProcesses := h.toSameProcesses.trans h'.toSameProcesses
  running := h'.running.trans h.running
  display := h'.display.trans h.display

theorem SameTables.current {k k' : Kernel} (h : SameTables k k') : k'.current = k.current := by
  unfold Kernel.current
  rw [h.runningProcs, h.running]

theorem Quiet.refl (img : Image) (k : Kernel) : Quiet img k k :=
  ⟨.refl k, rfl, rfl, .refl _ _⟩

theorem Quiet.trans {img : Image} {k₁ k₂ k₃ : Kernel} (h : Quiet img k₁ k₂)
    (h' : Quiet img k₂ k₃) : Quiet img k₁ k₃ :=
  ⟨h.toSameTables.trans h'.toSameTables, h'.esp0.trans h.esp0, h'.videoMem.trans h.videoMem,
    h.paging.trans h'.paging⟩

/-! ## The parts of the state outside the tables -/

section

variable (img : Image) (k : Kernel)

theorem sameProcesses_onTerm (f : Term → Term) : SameProcesses k (k.onTerm f) :=
  ⟨rfl, rfl, rfl, rfl, fun _ => rfl, fun _ => rfl⟩

theorem quiet_onTerm {f : Term → Term} (hf : SameView k.dev.term (f k.dev.term)) :
    Quiet img k (k.onTerm f) :=
  ⟨⟨sameProcesses_onTerm k f, rfl, hf.display⟩, rfl, hf.videoMem, .refl _ _⟩

theorem quiet_printf (text : List UInt8) : Quiet img k (k.printf text) :=
  quiet_onTerm img k (sameView_putLoop text k.dev.term)

theorem sameTables_setPcb {pid : Int} {pcb : Pcb} (hpid : pcb.pId = (k.pcbs pid).pId)
    (hpar : pcb.parPId = (k.pcbs pid).parPId) : SameTables k (k.setPcb pid pcb) := by
  refine ⟨⟨rfl, rfl, rfl, rfl, ?_, ?_⟩, rfl, rfl⟩ <;> intro p <;> by_cases hp : p = pid
  · rw [hp, ← hpid]
    exact congrArg Pcb.pId (Function.update_self ..)
  · exact congrArg Pcb.pId (Function.update_of_ne hp ..)
  · rw [hp, ← hpar]
    exact congrArg Pcb.parPId (Function.update_self ..)
  · exact congrArg Pcb.parPId (Function.update_of_ne hp ..)

theorem quiet_setPcb {pid : Int} {pcb : Pcb} (hpid : pcb.pId = (k.pcbs pid).pId)
    (hpar : pcb.parPId = (k.pcbs pid).parPId) : Quiet img k (k.setPcb pid pcb) :=
  ⟨sameTables_setPcb k hpid hpar, rfl, rfl, .refl _ _⟩

theorem quiet_saveRegs (pid : Int) (r : Regs) : Quiet img k (k.saveRegs pid r) :=
  quiet_setPcb img k rfl rfl

theorem sameTables_mapVP (virtualAddr physicalAddr kbOrMb : BitVec 32) :
    SameTables k (k.mapVP img virtualAddr physicalAddr kbOrMb) :=
  ⟨⟨rfl, rfl, rfl, rfl, fun _ => rfl, fun _ => rfl⟩, rfl, rfl⟩

theorem quiet_mapVP (virtualAddr physicalAddr : BitVec 32) :
    Quiet img k (k.mapVP img virtualAddr physicalAddr 0) :=
  ⟨sameTables_mapVP img k _ _ _, rfl, rfl, keepsHigh_mapVP _ _ _ _ _ _⟩

theorem sameTables_setEsp0 (pid : Int) : SameTables k (k.setEsp0 pid) :=
  ⟨⟨rfl, rfl, rfl, rfl, fun _ => rfl, fun _ => rfl⟩, rfl, rfl⟩

theorem sameTables_enter (pid : Int) : SameTables k ((k.mapUser img pid).setEsp0 pid) :=
  (sameTables_mapVP img k _ _ _).trans (sameTables_setEsp0 _ pid)

theorem quiet_vidmap (screenStart : BitVec 32) : Quiet img k (k.vidmap img screenStart) := by
  unfold Kernel.vidmap
  split
  · exact .refl img k
  · have hflag : Quiet img k { k with vidmapCalled := true } :=
      ⟨⟨⟨rfl, rfl, rfl, rfl, fun _ => rfl, fun _ => rfl⟩, rfl, rfl⟩, rfl, rfl, .refl _ _⟩
    exact hflag.trans (quiet_mapVP img _ _ _)

theorem quiet_unmapVideo : Quiet img k (k.unmapVideo img) := by
  unfold Kernel.unmapVideo
  split
  · exact quiet_mapVP img k _ _
  · exact .refl img k

/-- Of `execute`, the new control block and the entry into the process matter. -/
theorem quiet_startProcess (fr : ExecFrame) (args : CStr) (pid parent : Int) :
    Quiet img
      (((k.setPcb pid (k.newPcb img fr args pid parent)).mapUser img pid).setEsp0 pid)
      (k.startProcess img fr args pid parent) := by
  unfold Kernel.startProcess
  simp only
  split
  · exact quiet_saveRegs img _ parent fr.regs
  · exact .refl img _

end

/-! ## Descriptor calls -/

/-- A call that leaves the process numbers of its block alone, and the view. -/
structure CallFrame (pcb : Pcb) (dev : Devices) (r : CallResult) : Prop where
  pId : r.pcb.pId = pcb.pId
  parPId : r.pcb.parPId = pcb.parPId
  view : SameView dev.term r.dev.term

theorem quiet_withCurrent (img : Image) {k k' : Kernel}
    {call : Pcb → Devices → Option CallResult}
    (hcall : ∀ pcb dev r, call pcb dev = some r → CallFrame pcb dev r)
    (h : k.withCurrent call = some k') : Quiet img k k' := by
  unfold Kernel.withCurrent at h
  split at h
  · cases h
  · rcases Option.map_eq_some_iff.mp h with ⟨r, hr, rfl⟩
    have hframe := hcall _ _ r hr
    have hset := sameTables_setPcb k hframe.pId hframe.parPId
    exact ⟨⟨⟨rfl, rfl, rfl, rfl, hset.pId, hset.parPId⟩, rfl, hframe.view.display⟩, rfl,
      hframe.view.videoMem, .refl _ _⟩

theorem Pcb.poke_pids {o : Nat} (ho : o < 512) (b : UInt8) (pcb : Pcb) :
    (pcb.poke o b).pId = pcb.pId ∧ (pcb.poke o b).parPId = pcb.parPId := by
  unfold Pcb.poke
  by_cases hfd : o < 384
  · rw [if_pos hfd]
    exact ⟨rfl, rfl⟩
  · rw [if_neg hfd, if_pos ho]
    exact ⟨rfl, rfl⟩

-- The longest accepted name in the last slot ends at offset 384.
theorem openedPcb_pids (lay : FopsLayout) {fd : Nat} (hfd : fd < 8) (d : Driver) {name : CStr}
    (hlen : stringLength (some name) ≤ 32) (dentry : Dentry) (pcb : Pcb) :
    (openedPcb lay pokeName fd d name dentry pcb).pId = pcb.pId ∧
      (openedPcb lay pokeName fd d name dentry pcb).parPId = pcb.parPId := by
  unfold openedPcb
  split
  · refine copyString_induct (P := fun p : Pcb => p.pId = pcb.pId ∧ p.parPId = pcb.parPId) ?_
      ⟨rfl, rfl⟩
    intro i b p hlo hhi _ hp
    have hpoke := Pcb.poke_pids (show (48 * (fd : Int) + 16 + i).toNat < 512 by omega) b p
    exact ⟨hpoke.1.trans hp.1, hpoke.2.trans hp.2⟩
  · exact ⟨rfl, rfl⟩

theorem sysOpen_pids (lay : FopsLayout) (fs : FileSys) (filename : Option CStr) (pcb : Pcb) :
    (sysOpen lay fs pokeName filename pcb).2.pId = pcb.pId ∧
      (sysOpen lay fs pokeName filename pcb).2.parPId = pcb.parPId := by
  rcases sysOpen_cases lay fs pokeName filename pcb with
    ⟨fd, name, dentry, d, rfl, hlen, hfree, -, -, heq⟩ | ⟨-, heq⟩
  · rw [heq]
    exact openedPcb_pids lay (freeSlot_eq_some.mp hfree).2.2.1 d hlen dentry pcb
  · rw [heq]
    exact ⟨rfl, rfl⟩

theorem Driver.read_view {fs : FileSys} {fd : Nat} {nbytes : Int} {pcb : Pcb} {dev : Devices}
    {d : Driver} {r : CallResult} (h : d.read fs fd nbytes pcb dev = some r) :
    SameView dev.term r.dev.term := by
  cases d with
  | terminal =>
    rcases Option.map_eq_some_iff.mp h with ⟨s, hs, rfl⟩
    exact sameView_resume hs
  | rtc =>
    rcases Option.map_eq_some_iff.mp h with ⟨s, -, rfl⟩
    exact .refl _
  | fsys =>
    rw [← Option.some.inj h]
    simp only [fileRead]
    split <;> exact .refl _
  | dir =>
    rw [← Option.some.inj h]
    unfold dirRead
    split <;> exact .refl _

theorem sysRead_frame {lay : FopsLayout} {fs : FileSys} {fd : Int} {null : Bool} {nbytes : Int}
    {pcb : Pcb} {dev : Devices} {r : CallResult}
    (h : sysRead lay fs fd null nbytes pcb dev = some r) : CallFrame pcb dev r := by
  have hpids := (sysRead_onlySlot h).pids
  refine ⟨hpids.1, hpids.2, ?_⟩
  unfold sysRead at h
  split at h
  · rw [← Option.some.inj h]
    exact .refl _
  · split at h
    · rw [← Option.some.inj h]
      exact .refl _
    · rcases Option.bind_eq_some_iff.mp h with ⟨d, -, hd⟩
      exact Driver.read_view hd

theorem Driver.write_view (buf : CStr) (nbytes : Int) (dev : Devices) (d : Driver) :
    SameView dev.term (d.write buf nbytes dev).2.term := by
  cases d with
  | terminal => exact sameView_terminalWrite (some buf) nbytes dev.term
  | _ => exact .refl _

theorem sysWrite_frame {lay : FopsLayout} {fd : Int} {buf : Option CStr} {nbytes : Int} {pcb : Pcb}
    {dev : Devices} {r : CallResult} (h : sysWrite lay fd buf nbytes pcb dev = some r) :
    CallFrame pcb dev r := by
  have hpcb := sysWrite_pcb h
  refine ⟨congrArg Pcb.pId hpcb, congrArg Pcb.parPId hpcb, ?_⟩
  unfold sysWrite at h
  split at h
  · rw [← Option.some.inj h]
    exact .refl _
  · split at h
    · rw [← Option.some.inj h]
      exact .refl _
    · split at h
      · rw [← Option.some.inj h]
        exact .refl _
      · rcases Option.map_eq_some_iff.mp h with ⟨d, -, rfl⟩
        exact d.write_view _ nbytes dev

/-! ## The loop of `halt` and the task switch -/

theorem quiet_closeSlot {img : Image} {child : Int} {i : Nat} {k k' : Kernel}
    (h : k.closeSlot img child i = some k') : Quiet img k k' := by
  unfold Kernel.closeSlot at h
  rcases Option.map_eq_some_iff.mp h with ⟨k₁, hclose, rfl⟩
  have hclosed : Quiet img k k₁ := by
    split at hclose
    · rcases Option.map_eq_some_iff.mp hclose with ⟨r, hr, rfl⟩
      have hpids := (sysClose_onlySlot hr).pids
      exact quiet_setPcb img k hpids.1 hpids.2
    · rw [← Option.some.inj hclose]
      exact .refl img k
  exact hclosed.trans (quiet_setPcb img k₁ rfl rfl)

theorem quiet_closeAll {img : Image} {child : Int} {slots : List Nat} {k k' : Kernel}
    (h : k.closeAll img child slots = some k') : Quiet img k k' := by
  induction slots generalizing k with
  | nil =>
    rw [← Option.some.inj h]
    exact .refl img k
  | cons i slots ih =>
    rcases Option.bind_eq_some_iff.mp h with ⟨k₁, hslot, hrest⟩
    exact (quiet_closeSlot hslot).trans (ih hrest)

/-- `delete_process` works on the tables alone. -/
theorem deleteProcess_frame (k : Kernel) (pid : Int) :
    (k.deleteProcess pid).pcbs = k.pcbs ∧ (k.deleteProcess pid).dev = k.dev ∧
      (k.deleteProcess pid).paging = k.paging ∧ (k.deleteProcess pid).esp0 = k.esp0 ∧
      (k.deleteProcess pid).runningTerminal = k.runningTerminal := by
  unfold Kernel.deleteProcess
  split <;> simp

/-- `switch_running_terminal` finds the terminal empty, or switches to its foremost process. -/
theorem switchRunningTerminal_cases {img : Image} {next : Nat} {r : Regs} {k : Kernel}
    {s : Bool × Kernel} (h : k.switchRunningTerminal img next r = some s) :
    (k.runningProcs next < 0 ∧ s = (true, k.idleTerminal next)) ∨
      (0 ≤ k.runningProcs next ∧ 0 ≤ k.current ∧
        s = (false, k.switchTask img next (k.runningProcs next) r)) := by
  unfold Kernel.switchRunningTerminal at h
  split at h
  · rename_i hempty
    exact .inl ⟨hempty, (Option.some.inj h).symm⟩
  · rename_i hnext
    split at h
    · cases h
    · rename_i hcur
      exact .inr ⟨Int.not_lt.mp hnext, Int.not_lt.mp hcur, (Option.some.inj h).symm⟩

theorem sameProcesses_idleTerminal (k : Kernel) (next : Nat) :
    SameProcesses k (k.idleTerminal next) :=
  ⟨rfl, rfl, rfl, rfl, fun _ => rfl, fun _ => rfl⟩

theorem sameProcesses_switchTask (img : Image) (k : Kernel) (next : Nat) (pid : Int) (r : Regs) :
    SameProcesses k (k.switchTask img next pid r) := by
  have hsave := quiet_saveRegs img { k with runningTerminal := next } k.current r
  exact ⟨rfl, rfl, rfl, rfl, hsave.pId, hsave.parPId⟩

/-! ## The machine state of a switch

Stated field by field: comparing whole states would compare addresses bit by bit. -/

theorem mapUser_paging (img : Image) (k : Kernel) (pid : Int) :
    (k.mapUser img pid).paging = (mapVP img.pageTableAddr USER_PROCESS_START_VIRTUAL
      (BitVec.ofInt 32 (USER_PROCESS_START_PHYSICAL + pid * USER_PROCESS_SIZE)) 1 1 1
        k.paging).2 := by
  simp only [Kernel.mapUser, Kernel.mapVP]

theorem mapUser_congr (img : Image) {k k' : Kernel} (pid : Int) (h : k'.paging = k.paging) :
    (k'.mapUser img pid).paging = (k.mapUser img pid).paging := by
  rw [mapUser_paging, mapUser_paging, h]

theorem setEsp0_paging (k : Kernel) (pid : Int) : (k.setEsp0 pid).paging = k.paging := by
  simp only [Kernel.setEsp0]

section

variable (img : Image) (k : Kernel) (next : Nat) (pid : Int) (r : Regs)

theorem switchTask_paging :
    (k.switchTask img next pid r).paging = (k.mapUser img pid).paging := by
  rw [mapUser_paging]
  simp only [Kernel.switchTask, Kernel.setVideoMem, Kernel.onTerm, Kernel.mapUser, Kernel.mapVP,
    Kernel.saveRegs, Kernel.setPcb]

theorem switchTask_videoMem : (k.switchTask img next pid r).dev.term.screen.videoMem =
    k.videoAddr (k.termProcs pid.toNat) := by
  simp only [Kernel.switchTask, Kernel.setVideoMem, Kernel.onTerm, Kernel.mapUser, Kernel.mapVP,
    Kernel.saveRegs, Kernel.setPcb, Term.onScreen, Screen.setVideoMem]
  rfl

-- The registers are saved first, so a switch to the process itself loads what it has just saved.
theorem switchTask_esp0 : (k.switchTask img next pid r).esp0 =
    if pid = k.current then r.esp else (k.pcbs pid).esp := by
  simp only [Kernel.switchTask, Kernel.setVideoMem, Kernel.onTerm, Kernel.mapUser, Kernel.mapVP,
    Kernel.saveRegs, Kernel.setPcb, Function.update_apply]
  split <;> simp

end

end Kernel391
