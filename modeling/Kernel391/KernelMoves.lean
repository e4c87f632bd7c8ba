import Kernel391.ProcessFrame
import Mathlib.Data.Fin.Basic
import Mathlib.Logic.Relation

/-!
# What a kernel event is made of

Every event of the kernel is a sequence of a few moves: a process is entered or left, the displayed
or the running terminal changes, or nothing happens to the tables and to the machine state that
belongs to the running process.  Invariants of the kernel are proved for the moves.
-/

namespace Kernel391

open Relation

/-- The moves of `execute` and `halt`.  A process can be left in any state of the two terminal
numbers; the moves cover the case that they agree. -/
inductive ProcessMove (img : Image) : Kernel → Kernel → Prop
  | quiet {k k' : Kernel} (h : Quiet img k k') : ProcessMove img k k'
  | start (k : Kernel) (i : Nat)
      (hroom : ¬(k.numProcsPerTerm k.runningTerminal ≠ 0 ∧ k.numProcsVirt ≥ MAX_DEVICES))
      (hfree : k.freePid = some i) (fr : ExecFrame) (args : CStr) :
      ProcessMove img k ((k.takePid i).startProcess img fr args i k.current)
  | finish (k : Kernel) (parent : Int) (hfocus : k.runningTerminal = k.displayTerminal)
      (hcur : 0 ≤ k.current) (hpar : (k.pcbs k.current).parPId = parent) (hparent : 0 ≤ parent) :
      ProcessMove img k (((k.mapUser img (k.pcbs parent).pId).setEsp0
        (k.pcbs parent).pId).deleteProcess (k.pcbs k.current).pId)
  | finishLast (k : Kernel) (hfocus : k.runningTerminal = k.displayTerminal) (hcur : 0 ≤ k.current)
      (hlast : (k.pcbs k.current).parPId < 0) :
      ProcessMove img k (k.deleteProcess (k.pcbs k.current).pId)

/-- The moves of a terminal switch.  Only with a timer does a terminal run that is not shown. -/
inductive SwitchMove (img : Image) (timer : Bool) : Kernel → Kernel → Prop
  | display (k : Kernel) (t : Fin 3) :
      SwitchMove img timer k (k.onTerm (Term.switchDisplayTerminal t))
  | idle (k : Kernel) (t : Fin 3) (hfocus : timer = true ∨ t = k.displayTerminal)
      (hempty : k.runningProcs t < 0) : SwitchMove img timer k (k.idleTerminal t)
  | task (k : Kernel) (t : Fin 3) (hfocus : timer = true ∨ t = k.displayTerminal) (r : Regs)
      (hnext : 0 ≤ k.runningProcs t) (hcur : 0 ≤ k.current) :
      SwitchMove img timer k (k.switchTask img t (k.runningProcs t) r)

def KernelMove (img : Image) (timer : Bool) (k k' : Kernel) : Prop :=
  ProcessMove img k k' ∨ SwitchMove img timer k k'

/-! ## `execute` and `halt` -/

theorem freePid_eq_some {k : Kernel} {i : Nat} (h : k.freePid = some i) :
    i < MAX_DEVICES ∧ k.procs i = 0 := by
  have hmem := List.mem_of_find?_eq_some h
  have hzero := List.find?_some h
  exact ⟨List.mem_range.mp hmem, of_decide_eq_true hzero⟩

/-- A new process becomes the current one, with the one it was started from as its parent. -/
theorem current_startProcess (img : Image) (k : Kernel) (fr : ExecFrame) (args : CStr) (i : Nat) :
    ((k.takePid i).startProcess img fr args i k.current).current = i := by
  rw [(quiet_startProcess img (k.takePid i) fr args i k.current).current]
  exact Function.update_self ..

theorem parPId_startProcess (img : Image) (k : Kernel) (fr : ExecFrame) (args : CStr) (i : Nat) :
    (((k.takePid i).startProcess img fr args i k.current).pcbs i).parPId = k.current := by
  rw [(quiet_startProcess img (k.takePid i) fr args i k.current).parPId]
  show (Function.update k.pcbs i ((k.takePid i).newPcb img fr args i k.current) i).parPId = _
  rw [Function.update_self, Kernel.newPcb]

theorem addProcess_cases (k : Kernel) :
    (∃ i, ¬(k.numProcsPerTerm k.runningTerminal ≠ 0 ∧ k.numProcsVirt ≥ MAX_DEVICES) ∧
        k.freePid = some i ∧ k.addProcess = ((i : Int), k.takePid i)) ∨
      k.addProcess = (-1, k) := by
  unfold Kernel.addProcess
  split
  · exact .inr rfl
  · rename_i hroom
    cases hfree : k.freePid with
    | none => exact .inr rfl
    | some i => exact .inl ⟨i, hroom, rfl, rfl⟩

/-- A process that `execute` enters, and everything it needed for that. -/
theorem execute_entered {img : Image} {fr : ExecFrame} {allArguments : Option CStr} {k k' : Kernel}
    {pid : Int} (h : k.execute img fr allArguments = (.entered pid, k')) :
    ∃ (i : Nat) (executable : CStr), pid = i ∧
      ¬(k.numProcsPerTerm k.runningTerminal ≠ 0 ∧ k.numProcsVirt ≥ MAX_DEVICES) ∧
      k.freePid = some i ∧
      commandName fr.executable (copyArguments allArguments fr.allArgumentsCopy) =
        some executable ∧
      isExecutable img.fs fr.data fr.buf executable = true ∧
      k' = (k.takePid i).startProcess img fr (copyArguments allArguments fr.allArgumentsCopy) i
        k.current := by
  unfold Kernel.execute at h
  generalize copyArguments allArguments fr.allArgumentsCopy = args at h ⊢
  simp only at h
  cases hname : commandName fr.executable args with
  | none =>
    rw [hname] at h
    cases h
  | some executable =>
    rw [hname] at h
    simp only at h
    split at h
    · next hexec =>
      rcases addProcess_cases k with ⟨i, hroom, hfree, hadd⟩ | hadd
      · rw [hadd] at h
        simp only [if_neg (show ¬(i : Int) < 0 by omega), Prod.mk.injEq, ExecOutcome.entered.injEq]
          at h
        exact ⟨i, executable, h.1.symm, hroom, hfree, rfl, hexec, h.2.symm⟩
      · rw [hadd] at h
        cases h
    · cases h

/-- Otherwise `execute` does nothing but print. -/
theorem execute_returned {img : Image} {fr : ExecFrame} {allArguments : Option CStr} {k k' : Kernel}
    {value : Int} (h : k.execute img fr allArguments = (.returned value, k')) :
    ∃ text, k' = k.printf text := by
  unfold Kernel.execute at h
  generalize copyArguments allArguments fr.allArgumentsCopy = args at h
  simp only at h
  cases hname : commandName fr.executable args with
  | none =>
    rw [hname] at h
    exact ⟨[], (Prod.mk.inj h).2.symm⟩
  | some executable =>
    rw [hname] at h
    simp only at h
    split at h
    · rcases addProcess_cases k with ⟨i, hroom, hfree, hadd⟩ | hadd
      · rw [hadd] at h
        simp only [if_neg (show ¬(i : Int) < 0 by omega), Prod.mk.injEq, reduceCtorEq, false_and]
          at h
      · rw [hadd] at h
        exact ⟨refusalText, (Prod.mk.inj h).2.symm⟩
    · exact ⟨[], (Prod.mk.inj h).2.symm⟩

/-- `execute` starts a process, or does nothing but print. -/
theorem execute_cases (img : Image) (fr : ExecFrame) (allArguments : Option CStr) (k : Kernel) :
    (∃ i args, ¬(k.numProcsPerTerm k.runningTerminal ≠ 0 ∧ k.numProcsVirt ≥ MAX_DEVICES) ∧
        k.freePid = some i ∧ (k.execute img fr allArguments).2 =
          (k.takePid i).startProcess img fr args i k.current) ∨
      Quiet img k (k.execute img fr allArguments).2 := by
  rcases h : k.execute img fr allArguments with ⟨value | pid, k'⟩
  · rcases execute_returned h with ⟨text, heq⟩
    rw [heq]
    exact .inr (quiet_printf img k text)
  · rcases execute_entered h with ⟨i, executable, -, hroom, hfree, -, -, heq⟩
    exact .inl ⟨i, _, hroom, hfree, heq⟩

theorem execute_move (img : Image) (fr : ExecFrame) (allArguments : Option CStr) (k : Kernel) :
    ProcessMove img k (k.execute img fr allArguments).2 := by
  rcases execute_cases img fr allArguments k with ⟨i, args, hroom, hfree, heq⟩ | hquiet
  · rw [heq]
    exact .start k i hroom hfree fr args
  · exact .quiet hquiet

theorem execRet_moves (img : Image) (fr : ExecFrame) (k : Kernel) :
    ReflTransGen (ProcessMove img) k (k.execRet img fr) := by
  unfold Kernel.execRet
  split
  · exact .head (.quiet (quiet_printf img k restartText)) (.single (execute_move img fr _ _))
  · exact .refl

/-- The two ways through `halt`.  With a parent, the tables lose the child before its descriptors
are closed. -/
theorem halt_eq_some {img : Image} {fr : ExecFrame} {k k' : Kernel}
    (h : k.halt img fr = some k') :
    0 ≤ k.current ∧
      ((0 ≤ (k.pcbs k.current).parPId ∧ ∃ k₁,
          (((k.mapUser img (k.pcbs (k.pcbs k.current).parPId).pId).setEsp0
            (k.pcbs (k.pcbs k.current).parPId).pId).deleteProcess (k.pcbs k.current).pId).closeAll
              img k.current (List.range FILE_ARRAY_LEN) = some k₁ ∧
          k' = ((k₁.unmapVideo img).onTerm (Term.putc 0x0A)).execRet img fr) ∨
        ((k.pcbs k.current).parPId < 0 ∧
          k' = (k.deleteProcess (k.pcbs k.current).pId).execRet img fr)) := by
  unfold Kernel.halt at h
  simp only at h
  split at h
  case isTrue => cases h
  case isFalse hcur =>
    refine ⟨Int.not_lt.mp hcur, ?_⟩
    split at h
    case isTrue hpar =>
      obtain ⟨k₁, hclose, rfl⟩ := Option.map_eq_some_iff.mp h
      exact .inl ⟨hpar, k₁, hclose, rfl⟩
    case isFalse hlast => exact .inr ⟨Int.not_le.mp hlast, (Option.some.inj h).symm⟩

/-- `halt` takes the process out of the tables, with the parent's address space loaded first if
there is a parent, and goes to `exec_ret`. -/
theorem halt_cases {img : Image} {fr : ExecFrame} {k k' : Kernel}
    (h : k.halt img fr = some k') :
    0 ≤ k.current ∧ ∃ k₁, k' = k₁.execRet img fr ∧
      ((0 ≤ (k.pcbs k.current).parPId ∧ Quiet img
          (((k.mapUser img (k.pcbs (k.pcbs k.current).parPId).pId).setEsp0
            (k.pcbs (k.pcbs k.current).parPId).pId).deleteProcess (k.pcbs k.current).pId) k₁) ∨
        ((k.pcbs k.current).parPId < 0 ∧ k₁ = k.deleteProcess (k.pcbs k.current).pId)) := by
  obtain ⟨hcur, ⟨hpar, k₁, hclose, rfl⟩ | ⟨hlast, rfl⟩⟩ := halt_eq_some h
  · have hput : Quiet img (k₁.unmapVideo img) ((k₁.unmapVideo img).onTerm (Term.putc 0x0A)) :=
      quiet_onTerm img _ (sameView_putc 0x0A _)
    have hquiet := ((quiet_closeAll hclose).trans (quiet_unmapVideo img k₁)).trans hput
    exact ⟨hcur, _, rfl, .inl ⟨hpar, hquiet⟩⟩
  · exact ⟨hcur, _, rfl, .inr ⟨hlast, rfl⟩⟩

theorem halt_leaves {img : Image} {fr : ExecFrame} {k k' : Kernel}
    (hfocus : k.runningTerminal = k.displayTerminal) (h : k.halt img fr = some k') :
    ∃ k₁, ReflTransGen (ProcessMove img) k k₁ ∧ k' = k₁.execRet img fr := by
  rcases halt_cases h with ⟨hcur, k₁, hret, ⟨hpar, hquiet⟩ | ⟨hlast, hleft⟩⟩
  · exact ⟨k₁, .head (.finish k _ hfocus hcur rfl hpar) (.single (.quiet hquiet)), hret⟩
  · rw [hleft] at hret
    exact ⟨_, .single (.finishLast k hfocus hcur hlast), hret⟩

theorem halt_moves {img : Image} {fr : ExecFrame} {k k' : Kernel}
    (hfocus : k.runningTerminal = k.displayTerminal) (h : k.halt img fr = some k') :
    ReflTransGen (ProcessMove img) k k' := by
  rcases halt_leaves hfocus h with ⟨k₁, hmoves, rfl⟩
  exact hmoves.trans (execRet_moves img fr k₁)

/-- Entering and leaving processes does not change which terminal runs and which is shown. -/
theorem ProcessMove.terminals {img : Image} {k k' : Kernel} (h : ProcessMove img k k') :
    k'.runningTerminal = k.runningTerminal ∧ k'.displayTerminal = k.displayTerminal := by
  have hdelete : ∀ (k : Kernel) (pid : Int), (k.deleteProcess pid).runningTerminal =
      k.runningTerminal ∧ (k.deleteProcess pid).displayTerminal = k.displayTerminal := by
    intro k pid
    rcases deleteProcess_frame k pid with ⟨-, hdev, -, -, hrun⟩
    exact ⟨hrun, congrArg (fun dev => dev.term.displayTerminal) hdev⟩
  cases h with
  | quiet h => exact ⟨h.running, h.display⟩
  | start i hroom hfree fr args =>
    have hquiet := quiet_startProcess img (k.takePid i) fr args i k.current
    exact ⟨hquiet.running, hquiet.display⟩
  | finish parent =>
    have hgone := hdelete ((k.mapUser img (k.pcbs parent).pId).setEsp0 (k.pcbs parent).pId)
      (k.pcbs k.current).pId
    exact ⟨hgone.1, hgone.2⟩
  | finishLast => exact hdelete k _

theorem ProcessMove.moves_terminals {img : Image} {k k' : Kernel}
    (h : ReflTransGen (ProcessMove img) k k') :
    k'.runningTerminal = k.runningTerminal ∧ k'.displayTerminal = k.displayTerminal := by
  induction h with
  | refl => exact ⟨rfl, rfl⟩
  | tail _ hmove ih =>
    have hsame := hmove.terminals
    exact ⟨hsame.1.trans ih.1, hsame.2.trans ih.2⟩

theorem moves_of_process {img : Image} (timer : Bool) {k k' : Kernel}
    (h : ReflTransGen (ProcessMove img) k k') : ReflTransGen (KernelMove img timer) k k' := by
  induction h with
  | refl => exact .refl
  | tail _ hmove ih => exact ih.tail (.inl hmove)

/-! ## Terminal switches -/

theorem switchRunningTerminal_move {img : Image} {timer : Bool} (next : Fin 3) {r : Regs}
    {k : Kernel} {s : Bool × Kernel} (hfocus : timer = true ∨ next = k.displayTerminal)
    (h : k.switchRunningTerminal img next r = some s) :
    SwitchMove img timer k s.2 ∧ s.2.runningTerminal = next ∧
      s.2.displayTerminal = k.displayTerminal := by
  rcases switchRunningTerminal_cases h with ⟨hempty, rfl⟩ | ⟨hnext, hcur, rfl⟩
  · exact ⟨.idle k next hfocus hempty, rfl, rfl⟩
  · exact ⟨.task k next hfocus r hnext hcur, rfl, rfl⟩

/-- A function key shows and runs the terminal it names, with a shell if there is none, or does
nothing. -/
theorem selectTerminal_moves {img : Image} (timer : Bool) {t : Fin 3} {r : Regs} {fr : ExecFrame}
    {k k' : Kernel} (h : k.selectTerminal img t r fr = some k') :
    ReflTransGen (KernelMove img timer) k k' ∧
      (k' = k ∨ k'.runningTerminal = t ∧ k'.displayTerminal = t) := by
  unfold Kernel.selectTerminal at h
  split at h
  · rcases Option.map_eq_some_iff.mp h with ⟨s, hswitch, rfl⟩
    have hshow : KernelMove img timer k (k.onTerm (Term.switchDisplayTerminal t)) :=
      .inr (.display k t)
    have hfocus : timer = true ∨ t = (k.onTerm (Term.switchDisplayTerminal t)).displayTerminal :=
      .inr rfl
    rcases switchRunningTerminal_move t hfocus hswitch with ⟨hmove, hrunning, hdisplay⟩
    have hreach : ReflTransGen (KernelMove img timer) k s.2 := .head hshow (.single (.inr hmove))
    split
    · have hexec := execute_move img fr (some shellName) s.2
      have hsame := hexec.terminals
      exact ⟨hreach.tail (.inl hexec), .inr ⟨hsame.1.trans hrunning, hsame.2.trans hdisplay⟩⟩
    · exact ⟨hreach, .inr ⟨hrunning, hdisplay⟩⟩
  · rw [← Option.some.inj h]
    exact ⟨.refl, .inl rfl⟩

/-- A keyboard interrupt first switches to the displayed terminal; then a function key may select
another one, and any other key concerns the terminal's own data. -/
theorem keyboardHandler_cases {img : Image} {scancode : UInt8} {entry switch : Regs}
    {fr : ExecFrame} {k k' : Kernel}
    (h : k.keyboardHandler img scancode entry switch fr = some k') :
    ∃ s, k.switchRunningTerminal img k.displayTerminal entry = some s ∧
      ((∃ t, keyLabel scancode = .f t ∧ s.2.selectTerminal img t switch fr = some k') ∨
        ((∀ t, keyLabel scancode ≠ .f t) ∧ Quiet img s.2 k')) := by
  rcases Option.bind_eq_some_iff.mp h with ⟨s, hswitch, hrest⟩
  refine ⟨s, hswitch, ?_⟩
  by_cases hlabel : ∃ t, keyLabel scancode = .f t
  · rcases hlabel with ⟨t, ht⟩
    simp only [ht] at hrest
    exact .inl ⟨t, ht, hrest⟩
  · have hother : ∀ t, keyLabel scancode ≠ .f t := fun t ht => hlabel ⟨t, ht⟩
    have hplain : some (s.2.onTerm (Term.keyboardHandler img.rom scancode)) = some k' := by
      rw [← hrest]
      cases hl : keyLabel scancode with
      | f t => exact absurd hl (hother t)
      | _ => rfl
    rw [← Option.some.inj hplain]
    exact .inr ⟨hother, quiet_onTerm img s.2
      (sameView_keyboardHandler img.rom s.2.dev.term hother)⟩

/-- A keyboard interrupt ends with the displayed terminal running. -/
theorem keyboardHandler_moves {img : Image} (timer : Bool) {scancode : UInt8}
    {entry switch : Regs} {fr : ExecFrame} {k k' : Kernel}
    (hdisp : k.displayTerminal < MAX_TERMINAL_NUM)
    (h : k.keyboardHandler img scancode entry switch fr = some k') :
    ReflTransGen (KernelMove img timer) k k' ∧ k'.runningTerminal = k'.displayTerminal ∧
      k'.displayTerminal < MAX_TERMINAL_NUM := by
  rcases keyboardHandler_cases h with ⟨s, hswitch, hrest⟩
  have hshown : timer = true ∨ k.displayTerminal = k.displayTerminal := .inr rfl
  rcases switchRunningTerminal_move ⟨k.displayTerminal, hdisp⟩ hshown hswitch with
    ⟨hmove, hrunning, hdisplay⟩
  have hfocus : s.2.runningTerminal = s.2.displayTerminal := hrunning.trans hdisplay.symm
  have hentry : ReflTransGen (KernelMove img timer) k s.2 := .single (.inr hmove)
  rcases hrest with ⟨t, -, hsel⟩ | ⟨-, hquiet⟩
  · rcases selectTerminal_moves timer hsel with ⟨hmoves, rfl | ⟨hrun, hshow⟩⟩
    · exact ⟨hentry, hfocus, hdisplay ▸ hdisp⟩
    · exact ⟨hentry.trans hmoves, hrun.trans hshow.symm, hshow ▸ t.isLt⟩
  · refine ⟨hentry.tail (.inl (.quiet hquiet)), ?_, ?_⟩
    · rw [hquiet.running, hquiet.display]
      exact hfocus
    · rw [hquiet.display, hdisplay]
      exact hdisp

/-! ## Events -/

-- The events that are neither `execute` nor `halt` nor a key.
theorem kernelStep_quiet {img : Image} {k k' : Kernel} {e : Event}
    (hexec : ∀ allArguments fr, e ≠ .execute allArguments fr) (hhalt : ∀ fr, e ≠ .halt fr)
    (hkey : ∀ scancode entry switch fr, e ≠ .key scancode entry switch fr)
    (h : kernelStep img k e = some k') : Quiet img k k' := by
  cases e with
  | execute allArguments fr => exact absurd rfl (hexec allArguments fr)
  | halt fr => exact absurd rfl (hhalt fr)
  | key scancode entry switch fr => exact absurd rfl (hkey scancode entry switch fr)
  | tick =>
    rcases Option.map_eq_some_iff.mp h with ⟨rtc, -, rfl⟩
    exact ⟨⟨⟨rfl, rfl, rfl, rfl, fun _ => rfl, fun _ => rfl⟩, rfl, rfl⟩, rfl, rfl, .refl _ _⟩
  | «open» filename =>
    unfold kernelStep at h
    refine quiet_withCurrent img ?_ h
    intro pcb dev r hr
    have hpids := sysOpen_pids img.lay img.fs filename pcb
    rw [← Option.some.inj hr]
    exact ⟨hpids.1, hpids.2, .refl _⟩
  | readStart =>
    rw [← Option.some.inj h]
    exact quiet_onTerm img k ⟨rfl, rfl⟩
  | read fd null nbytes => exact quiet_withCurrent img (fun _ _ _ hr => sysRead_frame hr) h
  | write fd buf nbytes => exact quiet_withCurrent img (fun _ _ _ hr => sysWrite_frame hr) h
  | close fd =>
    unfold kernelStep at h
    refine quiet_withCurrent img ?_ h
    intro pcb dev r hr
    rcases Option.map_eq_some_iff.mp hr with ⟨s, hs, rfl⟩
    have hpids := (sysClose_onlySlot hs).pids
    exact ⟨hpids.1, hpids.2, .refl _⟩
  | vidmap screenStart =>
    rw [← Option.some.inj h]
    exact quiet_vidmap img k screenStart

/-- The running terminal is the one that is shown. -/
structure Focused (k : Kernel) : Prop where
  running : k.runningTerminal = k.displayTerminal
  display : k.displayTerminal < MAX_TERMINAL_NUM

theorem Focused.of_process {img : Image} {k k' : Kernel} (h : Focused k)
    (hm : ReflTransGen (ProcessMove img) k k') : Focused k' := by
  have hsame := ProcessMove.moves_terminals hm
  exact ⟨by rw [hsame.1, hsame.2, h.running], hsame.2 ▸ h.display⟩

/-- Events other than keys enter and leave processes. -/
theorem kernelStep_process {img : Image} {k k' : Kernel} {e : Event} (hfocus : Focused k)
    (hkey : ∀ scancode entry switch fr, e ≠ .key scancode entry switch fr)
    (h : kernelStep img k e = some k') : ReflTransGen (ProcessMove img) k k' := by
  by_cases hexec : ∃ allArguments fr, e = .execute allArguments fr
  · rcases hexec with ⟨allArguments, fr, rfl⟩
    rw [← Option.some.inj h]
    exact .single (execute_move img fr allArguments k)
  · by_cases hhalt : ∃ fr, e = .halt fr
    · rcases hhalt with ⟨fr, rfl⟩
      exact halt_moves hfocus.running h
    · exact .single (.quiet (kernelStep_quiet (fun args fr he => hexec ⟨args, fr, he⟩)
        (fun fr he => hhalt ⟨fr, he⟩) hkey h))

/-- Without a timer, every event is a sequence of moves that ends with the displayed terminal
running. -/
theorem kernelStep_moves {img : Image} {k k' : Kernel} {e : Event} (hfocus : Focused k)
    (h : kernelStep img k e = some k') :
    ReflTransGen (KernelMove img false) k k' ∧ Focused k' := by
  by_cases hkey : ∃ scancode entry switch fr, e = .key scancode entry switch fr
  · rcases hkey with ⟨scancode, entry, switch, fr, rfl⟩
    rcases keyboardHandler_moves false hfocus.display h with ⟨hmoves, hrun, hdisp⟩
    exact ⟨hmoves, hrun, hdisp⟩
  · have hmoves := kernelStep_process hfocus
      (fun c r s fr he => hkey ⟨c, r, s, fr, he⟩) h
    exact ⟨moves_of_process false hmoves, hfocus.of_process hmoves⟩

end Kernel391
