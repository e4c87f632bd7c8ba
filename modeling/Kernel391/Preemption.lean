import Kernel391.ProcessForest

/-!
# Scheduling by the timer (`pit.c`, with `USING_PIT` one)

A timer interrupt runs the next terminal, whichever is displayed.  `delete_process` repoints the
entry of the displayed terminal, so the tables survive a `halt` when the running terminal is the
displayed one.
-/

namespace Kernel391

open Machine Relation

namespace Kernel

/-- `cycle_task`; `running_terminal` is unsigned. -/
def cycleTask (img : Image) (r : Regs) (k : Kernel) : Option (Bool × Kernel) :=
  k.switchRunningTerminal img ((k.runningTerminal + 1) % 2 ^ 32 % 3) r

/-- `pit_handler`. -/
def pitHandler (img : Image) (r : Regs) (fr : ExecFrame) (k : Kernel) : Option Kernel :=
  (k.cycleTask img r).map fun s =>
    if s.1 then (s.2.execute img fr (some shellName)).2 else s.2

/-- `sched_init`, with `USING_PIT` one: no terminal is running yet. -/
def schedInitTimer (img : Image) (k : Kernel) : Kernel :=
  { k.schedInit img with runningTerminal := 2 ^ 32 - 1 }

end Kernel

/-- Events of the kernel with the timer on. -/
inductive TimerEvent where
  | pit (r : Regs) (fr : ExecFrame)
  | kernel (e : Event)

/-- Interrupts come at any time; the other events are calls of the running process. -/
def Event.isInterrupt : Event → Bool
  | .key _ _ _ _ => true
  | .tick => true
  | _ => false

def timerStep (img : Image) (k : Kernel) : TimerEvent → Option Kernel
  | .pit r fr => k.pitHandler img r fr
  | .kernel e =>
      if e.isInterrupt ∨ k.runningTerminal < MAX_TERMINAL_NUM ∧ 0 ≤ k.current then kernelStep img k e
      else none

/-- Each terminal has no process, or its foremost process is live and belongs to it. -/
def TablesAgree (k : Kernel) : Prop :=
  ∀ u < MAX_TERMINAL_NUM, k.runningProcs u = -1 ∨
    ∃ i : Nat, i < MAX_DEVICES ∧ k.runningProcs u = i ∧ k.procs i = 1 ∧ k.termProcs i = u

/-- The current process has left its terminal to its parent, or to a shell with the same parent if
it was the last one there, and no other terminal has noticed. -/
structure ReturnsToParent (k k' : Kernel) : Prop where
  terminal : k'.runningProcs k.runningTerminal = (k.pcbs k.current).parPId ∨
    (k.pcbs k.current).parPId < 0 ∧ ∃ i : Nat, i < MAX_DEVICES ∧
      k'.runningProcs k.runningTerminal = i ∧ (k'.pcbs i).parPId = (k.pcbs k.current).parPId
  others : ∀ u, u ≠ k.runningTerminal → k'.runningProcs u = k.runningProcs u

def TimerStepMeets (img : Image) (k : Kernel) (e : TimerEvent) : Prop :=
  ∀ k', timerStep img k e = some k' →
    TablesAgree k' ∧ ∀ fr, e = .kernel (.halt fr) → ReturnsToParent k k'

/-- A process halts while its terminal is displayed. -/
def HaltsShown (k : Kernel) : TimerEvent → Prop
  | .kernel (.halt _) => k.runningTerminal = k.displayTerminal
  | _ => True

/-! ## `halt` -/

section

variable {img : Image} {k k' : Kernel} {d : Desk (Fin 3) Int}

theorem deleteProcess_runningProcs (k : Kernel) (pid : Int) {u : Nat} (hu : u ≠ k.displayTerminal) :
    (k.deleteProcess pid).runningProcs u = k.runningProcs u := by
  unfold Kernel.deleteProcess
  split
  · rfl
  · exact Function.update_of_ne hu ..

theorem execute_runningProcs (img : Image) (fr : ExecFrame) (allArguments : Option CStr) {u : Nat}
    (hu : u ≠ k.runningTerminal) :
    (k.execute img fr allArguments).2.runningProcs u = k.runningProcs u := by
  rcases execute_cases img fr allArguments k with ⟨i, args, -, -, heq⟩ | hquiet
  · rw [heq, (quiet_startProcess img (k.takePid i) fr args i k.current).runningProcs]
    exact Function.update_of_ne hu ..
  · rw [hquiet.runningProcs]

theorem execRet_runningProcs (img : Image) (fr : ExecFrame) {u : Nat}
    (hu : u ≠ k.runningTerminal) : (k.execRet img fr).runningProcs u = k.runningProcs u := by
  unfold Kernel.execRet
  split
  · have hprint := quiet_printf img k restartText
    generalize k.printf restartText = k₁ at hprint
    rw [execute_runningProcs img fr _ (hprint.running ▸ hu), hprint.runningProcs]
  · rfl

-- With nothing left on the terminal, the shell that is started there has no parent either.
theorem execRet_terminal (img : Image) (fr : ExecFrame) (k : Kernel) :
    (k.execRet img fr).current = k.current ∨
      k.runningProcs k.displayTerminal < 0 ∧ ∃ i : Nat, i < MAX_DEVICES ∧
        (k.execRet img fr).current = i ∧ ((k.execRet img fr).pcbs i).parPId = k.current := by
  unfold Kernel.execRet
  split
  · rename_i hempty
    have hprint := quiet_printf img k restartText
    generalize k.printf restartText = k₁ at hprint
    rcases execute_cases img fr (some shellName) k₁ with ⟨i, args, -, hfree, heq⟩ | hquiet
    · rw [heq, ← hprint.current]
      exact .inr ⟨hempty, i, (freePid_eq_some hfree).1, current_startProcess img k₁ fr args i,
        parPId_startProcess img k₁ fr args i⟩
    · exact .inl (hquiet.current.trans hprint.current)
  · exact .inl rfl

/-- With its terminal displayed, a process halts as it should. -/
theorem Stacked.halt_returns (h : Stacked k d) (hrun : k.runningTerminal = d.shown)
    (hfocus : k.runningTerminal = k.displayTerminal) {fr : ExecFrame}
    (hstep : k.halt img fr = some k') : ReturnsToParent k k' := by
  rcases halt_cases hstep with ⟨hcur, k₁, hret, hleave⟩
  have hleft : k₁.current = (k.pcbs k.current).parPId ∧ k₁.runningTerminal = k.runningTerminal ∧
      k₁.displayTerminal = k.displayTerminal ∧
      ∀ u, u ≠ k.displayTerminal → k₁.runningProcs u = k.runningProcs u := by
    rcases hleave with ⟨-, hquiet⟩ | ⟨-, rfl⟩
    · generalize (k.pcbs (k.pcbs k.current).parPId).pId = pid at hquiet
      have henter := sameTables_enter img k pid
      rcases deleteProcess_frame ((k.mapUser img pid).setEsp0 pid) (k.pcbs k.current).pId with
        ⟨-, hdev, -, -, hterm⟩
      refine ⟨?_, ?_, ?_, fun u hu => ?_⟩
      · rw [hquiet.current, h.current_finish img hrun hfocus hcur]
      · rw [hquiet.running, hterm, henter.running]
      · rw [hquiet.display, Kernel.displayTerminal, hdev]
        exact henter.display
      · rw [hquiet.runningProcs, deleteProcess_runningProcs _ _ (henter.display ▸ hu),
          henter.runningProcs]
    · rcases deleteProcess_frame k (k.pcbs k.current).pId with ⟨-, hdev, -, -, hterm⟩
      refine ⟨h.current_deleteProcess hrun hfocus hcur, hterm, ?_, fun u hu => ?_⟩
      · rw [Kernel.displayTerminal, hdev]
        rfl
      · exact deleteProcess_runningProcs k _ hu
  rcases hleft with ⟨hcur₁, hrun₁, hdisp₁, hothers⟩
  have hterms := ProcessMove.moves_terminals (execRet_moves img fr k₁)
  rw [← hret] at hterms
  have hend : k'.current = k'.runningProcs k.runningTerminal := by
    rw [Kernel.current, hterms.1, hrun₁]
  constructor
  · rw [← hend, ← hcur₁, hret]
    rcases execRet_terminal img fr k₁ with hsame | ⟨hempty, i, hi, htop, hpar⟩
    · exact .inl hsame
    · refine .inr ⟨?_, i, hi, htop, hpar⟩
      rw [Kernel.current, hrun₁, hfocus, ← hdisp₁]
      exact hempty
  · intro u hu
    rw [hret, execRet_runningProcs img fr (hrun₁ ▸ hu), hothers u (hfocus ▸ hu)]

/-! ## Every state -/

/-- The invariant of a run with the timer: the stacks, with the running terminal's foremost, if a
terminal is running. -/
structure Scheduled (k : Kernel) (d : Desk (Fin 3) Int) : Prop extends Stacked k d where
  ok : d.Ok
  display : k.displayTerminal < MAX_TERMINAL_NUM
  running : k.runningTerminal < MAX_TERMINAL_NUM → k.runningTerminal = d.shown

theorem Scheduled.tablesAgree (h : Scheduled k d) : TablesAgree k := by
  intro u hu
  by_cases hlive : 0 ≤ k.runningProcs u
  · rcases h.toStacked.foremost (t := ⟨u, hu⟩) hlive with ⟨i, hi, htop, -, hone, hterm, -⟩
    exact .inr ⟨i, hi, htop, hone, hterm⟩
  · have hempty : k.runningProcs (⟨u, hu⟩ : Fin 3) < 0 := Int.not_le.mp hlive
    have hvisits := h.linked ⟨u, hu⟩
    rw [h.toStacked.stack_of_empty hempty] at hvisits
    exact .inl hvisits.nil_inv

/-- A task switch, from a terminal or from none, shows the terminal it leads to. -/
theorem Scheduled.switchRunning (h : Scheduled k d) {next : Nat} (hnext : next < MAX_TERMINAL_NUM)
    {r : Regs} {s : Bool × Kernel} (hs : k.switchRunningTerminal img next r = some s) :
    Scheduled s.2 { d with shown := ⟨next, hnext⟩ } := by
  rcases switchRunningTerminal_cases hs with ⟨-, rfl⟩ | ⟨-, -, rfl⟩
  · exact ⟨h.toStacked.look (sameProcesses_idleTerminal k next) ⟨next, hnext⟩,
      ⟨h.ok.nodup, h.ok.disjoint⟩, h.display, fun _ => rfl⟩
  · exact ⟨h.toStacked.look (sameProcesses_switchTask img k next _ r) ⟨next, hnext⟩,
      ⟨h.ok.nodup, h.ok.disjoint⟩, h.display, fun _ => rfl⟩

theorem Scheduled.moves (h : Scheduled k d) (hrun : k.runningTerminal < MAX_TERMINAL_NUM)
    (hm : ReflTransGen (KernelMove img true) k k')
    (hdisp : k'.displayTerminal < MAX_TERMINAL_NUM) : ∃ d', Scheduled k' d' := by
  rcases h.toStacked.moves h.ok (h.running hrun) hm with ⟨d', hok, hstack, hrun'⟩
  exact ⟨d', hstack, hok, hdisp, fun _ => hrun'⟩

theorem Scheduled.quiet (h : Scheduled k d) (hquiet : Quiet img k k') : Scheduled k' d where
  toStacked := h.toStacked.congr hquiet.toSameProcesses
  ok := h.ok
  display := hquiet.display ▸ h.display
  running hrun := by
    rw [hquiet.running] at hrun ⊢
    exact h.running hrun

theorem Scheduled.pitHandler (h : Scheduled k d) {r : Regs} {fr : ExecFrame}
    (hstep : k.pitHandler img r fr = some k') : ∃ d', Scheduled k' d' := by
  rcases Option.map_eq_some_iff.mp hstep with ⟨s, hs, rfl⟩
  have hnext : (k.runningTerminal + 1) % 2 ^ 32 % 3 < MAX_TERMINAL_NUM :=
    Nat.mod_lt _ (by decide)
  have hsched := h.switchRunning hnext hs
  have htimer : true = true ∨ (k.runningTerminal + 1) % 2 ^ 32 % 3 = k.displayTerminal := .inl rfl
  rcases switchRunningTerminal_move ⟨_, hnext⟩ htimer hs with ⟨-, hrun, hdisp⟩
  split
  · have hexec := execute_move img fr (some shellName) s.2
    have hterms := hexec.terminals
    apply hsched.moves (hrun ▸ hnext) (.single (.inl hexec))
    rw [hterms.2, hdisp]
    exact h.display
  · exact ⟨_, hsched⟩

theorem Scheduled.keyboardHandler (h : Scheduled k d) {scancode : UInt8} {entry switch : Regs}
    {fr : ExecFrame} (hstep : k.keyboardHandler img scancode entry switch fr = some k') :
    ∃ d', Scheduled k' d' := by
  rcases keyboardHandler_cases hstep with ⟨s, hswitch, hrest⟩
  have hsched := h.switchRunning h.display hswitch
  have htimer : true = true ∨ k.displayTerminal = k.displayTerminal := .inl rfl
  rcases switchRunningTerminal_move ⟨_, h.display⟩ htimer hswitch with ⟨-, hrun, hdisp⟩
  rcases hrest with ⟨t, -, hsel⟩ | ⟨-, hquiet⟩
  · rcases selectTerminal_moves true hsel with ⟨hmoves, hend⟩
    apply hsched.moves (hrun ▸ h.display) hmoves
    rcases hend with rfl | ⟨-, hshow⟩
    · rw [hdisp]
      exact h.display
    · rw [hshow]
      exact t.isLt
  · exact ⟨_, hsched.quiet hquiet⟩

-- A call comes from a process, and a process runs on a terminal.
theorem timerStep_kernel {e : Event} (h : timerStep img k (.kernel e) = some k') :
    kernelStep img k e = some k' ∧
      (e.isInterrupt = false → k.runningTerminal < MAX_TERMINAL_NUM ∧ 0 ≤ k.current) := by
  simp only [timerStep] at h
  split at h
  · rename_i hguard
    refine ⟨h, fun hcall => hguard.resolve_left ?_⟩
    simp [hcall]
  · cases h

theorem Scheduled.step (h : Scheduled k d) {e : TimerEvent} (hok : HaltsShown k e)
    (hstep : timerStep img k e = some k') : ∃ d', Scheduled k' d' := by
  cases e with
  | pit r fr => exact h.pitHandler hstep
  | kernel e =>
    rcases timerStep_kernel hstep with ⟨hstep, hcall⟩
    cases e with
    | key scancode entry switch fr => exact h.keyboardHandler hstep
    | execute allArguments fr =>
      have hexec := execute_move img fr allArguments k
      rw [← Option.some.inj hstep]
      exact h.moves (hcall rfl).1 (.single (.inl hexec)) (hexec.terminals.2 ▸ h.display)
    | halt fr =>
      have hmoves := halt_moves hok hstep
      exact h.moves (hcall rfl).1 (moves_of_process true hmoves)
        ((ProcessMove.moves_terminals hmoves).2 ▸ h.display)
    | _ => exact ⟨d, h.quiet (kernelStep_quiet (by nofun) (by nofun) (by nofun) hstep)⟩

end

theorem scheduled_schedInitTimer (img : Image) (dev : Devices) (pcbs : Int → Pcb) (paging : Paging)
    (esp0 : BitVec 32) :
    Scheduled ((bootKernel dev pcbs paging esp0).schedInitTimer img) emptyDesk := by
  have hrep := represents_schedInit img dev pcbs paging esp0
  refine ⟨hrep.stacked.congr ⟨rfl, rfl, rfl, rfl, fun _ => rfl, fun _ => rfl⟩, emptyDesk_ok,
    hrep.focused.display, fun hrun => absurd (show 2 ^ 32 - 1 < 3 from hrun) (by decide)⟩

/-- In every run with the timer on in which processes halt only while their terminal is displayed,
each halting process returns to its parent and the process tables agree. -/
theorem preempted_tables_agree (img : Image) (dev : Devices) (pcbs : Int → Pcb) (paging : Paging)
    (esp0 : BitVec 32) (es : List TimerEvent)
    (hok : Along (timerStep img) HaltsShown
      ((bootKernel dev pcbs paging esp0).schedInitTimer img) es) :
    Along (timerStep img) (TimerStepMeets img)
      ((bootKernel dev pcbs paging esp0).schedInitTimer img) es := by
  have hstep : ∀ k e k', (∃ d, Scheduled k d) → HaltsShown k e → timerStep img k e = some k' →
      ∃ d, Scheduled k' d := by
    rintro k e k' ⟨d, hsched⟩ hok he
    exact hsched.step hok he
  have hmeets : ∀ k e, (∃ d, Scheduled k d) → HaltsShown k e → TimerStepMeets img k e := by
    rintro k e ⟨d, hsched⟩ hok k' he
    rcases hsched.step hok he with ⟨d', hsched'⟩
    refine ⟨hsched'.tablesAgree, fun fr hhalt => ?_⟩
    subst hhalt
    rcases timerStep_kernel he with ⟨he, hcall⟩
    exact hsched.toStacked.halt_returns (hsched.running (hcall rfl).1) hok he
  exact along_of_invariant hstep hmeets
    ⟨emptyDesk, scheduled_schedInitTimer img dev pcbs paging esp0⟩ hok

def timerKernel : Kernel :=
  (bootKernel idleDevices (fun _ => zeroPcb) (initPaging 0x403000 0 0) 0).schedInitTimer shellImage

-- A shell in a shell on the first terminal and one on the second; a key brings the first one back,
-- where the inner shell ends.
def timerSession : List TimerEvent :=
  [.pit ⟨0, 0⟩ zeroFrame, .kernel (.execute (some shellName) zeroFrame), .pit ⟨0, 0⟩ zeroFrame,
    .kernel (.key 0x38 ⟨0, 0⟩ ⟨0, 0⟩ zeroFrame)]

theorem preempted_tables_agree_session :
    ∃ k k', run (timerStep shellImage) timerKernel timerSession = some k ∧
      timerStep shellImage k (.kernel (.halt zeroFrame)) = some k' ∧ k.current = 1 ∧
        ReturnsToParent k k' := by
  have hend : ((run (timerStep shellImage) timerKernel timerSession).bind fun k =>
      (timerStep shellImage k (.kernel (.halt zeroFrame))).map fun _ =>
        (k.current, k.runningTerminal, k.displayTerminal)) = some (1, 0, 0) := by
    decide +kernel
  rcases Option.bind_eq_some_iff.mp hend with ⟨k, hk, hhalt⟩
  rcases Option.map_eq_some_iff.mp hhalt with ⟨k', hk', hfields⟩
  simp only [Prod.mk.injEq] at hfields
  have hshown : Along (timerStep shellImage) HaltsShown timerKernel
      (timerSession ++ [.kernel (.halt zeroFrame)]) := by
    apply along_snoc.mpr
    refine ⟨⟨trivial, fun _ _ => ⟨trivial, fun _ _ => ⟨trivial, fun _ _ => ⟨trivial, fun _ _ =>
      trivial⟩⟩⟩⟩, fun s hs => ?_⟩
    rw [← Option.some.inj (hk.symm.trans hs)]
    exact hfields.2.1.trans hfields.2.2.symm
  have hmeets := along_snoc.mp (preempted_tables_agree shellImage idleDevices (fun _ => zeroPcb)
    (initPaging 0x403000 0 0) 0 _ hshown)
  exact ⟨k, k', hk, hk', hfields.1, (hmeets.2 k hk k' hk').2 zeroFrame rfl⟩

-- The second terminal's shell ends while the first terminal is displayed: it is the first terminal
-- that loses its process.
theorem preempted_tables_disagree :
    ¬Along (timerStep shellImage) (TimerStepMeets shellImage) timerKernel
      ([.pit ⟨0, 0⟩ zeroFrame, .pit ⟨0, 0⟩ zeroFrame] ++ [.kernel (.halt zeroFrame)]) := by
  have hend : ((run (timerStep shellImage) timerKernel
      [.pit ⟨0, 0⟩ zeroFrame, .pit ⟨0, 0⟩ zeroFrame]).bind fun k =>
      (timerStep shellImage k (.kernel (.halt zeroFrame))).map fun k' =>
        (k.runningTerminal, k.runningProcs 0, k'.runningProcs 0)) = some (1, 0, -1) := by
    decide +kernel
  rcases Option.bind_eq_some_iff.mp hend with ⟨k, hk, hhalt⟩
  rcases Option.map_eq_some_iff.mp hhalt with ⟨k', hk', hfields⟩
  simp only [Prod.mk.injEq] at hfields
  intro halong
  have hreturns := ((along_snoc.mp halong).2 k hk k' hk').2 zeroFrame rfl
  have hother := hreturns.others 0 (by omega)
  omega

end Kernel391
