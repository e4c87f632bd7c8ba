import Kernel391.ShellSlots

/-!
# The kernel stack of the running process

`execute` and `halt` load `tss.esp0` with the top of a process's kernel stack.  The task switch
loads it with the stack pointer that was saved last for the process, and every keyboard interrupt
begins with a task switch.
-/

namespace Kernel391

open Machine Relation

/-- The running process enters the kernel at the top of its own stack. -/
def OnOwnStack (k : Kernel) : Prop := 0 ≤ k.current → k.esp0 = kernelStackTop k.current

/-- The terminal that a key turns to, if it is not the displayed one. -/
def Kernel.switchTarget (scancode : UInt8) (k : Kernel) : Option (Fin 3) :=
  match keyLabel scancode with
  | .f t => if k.dev.term.altCheck ∧ k.displayTerminal ≠ t then some t else none
  | _ => none

/-- A key that arrives while a process runs finds its stack pointer at the top of the stack, or
turns to a terminal whose process was left with its stack pointer there. -/
def SavesTop (k : Kernel) : Event → Prop
  | .key scancode entry _ _ => 0 ≤ k.current →
      match k.switchTarget scancode with
      | some t => 0 ≤ k.runningProcs t →
          (k.pcbs (k.runningProcs t)).esp = kernelStackTop (k.runningProcs t)
      | none => entry.esp = kernelStackTop k.current
  | _ => True

section

variable {img : Image} {k k' : Kernel} {d : Desk (Fin 3) Int}

/-! ## `execute` and `halt` -/

theorem OnOwnStack.quiet (h : OnOwnStack k) (hquiet : Quiet img k k') : OnOwnStack k' := by
  unfold OnOwnStack
  rw [hquiet.current, hquiet.esp0]
  exact h

theorem onOwnStack_start (img : Image) (k : Kernel) (i : Nat) (fr : ExecFrame) (args : CStr) :
    OnOwnStack ((k.takePid i).startProcess img fr args i k.current) := by
  intro _
  rw [current_startProcess, (quiet_startProcess img (k.takePid i) fr args i k.current).esp0,
    Kernel.setEsp0]

theorem OnOwnStack.processMove (h : OnOwnStack k) (hbooked : Booked k d)
    (hm : ProcessMove img k k') : OnOwnStack k' := by
  cases hm with
  | quiet hquiet => exact h.quiet hquiet
  | start i hroom hfree fr args => exact onOwnStack_start img k i fr args
  | finish parent hfocus hcur hpar hparent =>
    rcases hbooked.finish hfocus hcur hpar hparent with ⟨i, -, hnumber, hleft⟩
    have hesp := (deleteProcess_frame ((k.mapUser img (k.pcbs parent).pId).setEsp0
      (k.pcbs parent).pId) (k.pcbs k.current).pId).2.2.2.1
    intro _
    rw [hleft, hesp, Kernel.setEsp0, hnumber]
  | finishLast hfocus hcur hlast =>
    have hleft := hbooked.toStacked.current_deleteProcess hbooked.running hfocus hcur
    intro hlive
    omega

theorem OnOwnStack.processMoves (h : OnOwnStack k) (hbooked : Booked k d)
    (hm : ReflTransGen (ProcessMove img) k k') : OnOwnStack k' := by
  induction hm with
  | refl => exact h
  | tail hprev hmove ih =>
    rcases hbooked.moves (moves_of_process false hprev) with ⟨d₁, hbooked₁⟩
    exact ih.processMove hbooked₁ hmove

theorem onOwnStack_execute (img : Image) (fr : ExecFrame) (allArguments : Option CStr)
    (hempty : k.current < 0) : OnOwnStack (k.execute img fr allArguments).2 := by
  rcases execute_cases img fr allArguments k with ⟨i, args, -, -, heq⟩ | hquiet
  · rw [heq]
    exact onOwnStack_start img k i fr args
  · intro hlive
    rw [hquiet.current] at hlive
    omega

/-! ## Keys -/

-- Processes of different terminals are different.
theorem Booked.runningProcs_ne (h : Booked k d) {t u : Fin 3} (ht : 0 ≤ k.runningProcs t)
    (hu : 0 ≤ k.runningProcs u) (htu : t ≠ u) : k.runningProcs t ≠ k.runningProcs u := by
  intro heq
  rcases h.toStacked.foremost ht with ⟨i, -, hi, -, -, hti, -⟩
  rcases h.toStacked.foremost hu with ⟨j, -, hj, -, -, huj, -⟩
  have hij : i = j := by omega
  rw [hij, huj] at hti
  exact htu (Fin.ext (by omega))

/-- The first statement of `keyboard_handler`, with a process running. -/
theorem switchRunningTerminal_self (img : Image) (r : Regs) (hfocus : Focused k)
    (hcur : 0 ≤ k.current) : k.switchRunningTerminal img k.displayTerminal r =
      some (false, k.switchTask img k.displayTerminal k.current r) := by
  have hself : k.runningProcs k.displayTerminal = k.current := by
    rw [Kernel.current, hfocus.running]
  rw [Kernel.switchRunningTerminal, hself, if_neg (Int.not_lt.mpr hcur),
    if_neg (Int.not_lt.mpr hcur)]

-- Nothing but the registers of the running process and the machine state changes there.
theorem switchTask_self_esp (img : Image) (k : Kernel) (next : Nat) (r : Regs) {p : Int}
    (hp : p ≠ k.current) :
    ((k.switchTask img next k.current r).pcbs p).esp = (k.pcbs p).esp := by
  simp only [Kernel.switchTask, Kernel.setVideoMem, Kernel.onTerm, Kernel.mapUser, Kernel.mapVP,
    Kernel.saveRegs, Kernel.setPcb, Function.update_of_ne hp]

/-- A key that turns to no other terminal leaves the process with the stack pointer of the
interrupt. -/
theorem onOwnStack_stay {r : Regs} (hfocus : Focused k)
    (hquiet : Quiet img (k.switchTask img k.displayTerminal k.current r) k') (hcur : 0 ≤ k.current) :
    OnOwnStack k' ↔ r.esp = kernelStackTop k.current := by
  have hself : (k.switchTask img k.displayTerminal k.current r).current = k.current := by
    show k.runningProcs k.displayTerminal = k.runningProcs k.runningTerminal
    rw [hfocus.running]
  unfold OnOwnStack
  rw [hquiet.current, hself, hquiet.esp0, switchTask_esp0, if_pos rfl]
  exact forall_prop_of_true hcur

/-- A key that turns to terminal `t` loads what was saved for its process, or starts a shell. -/
theorem Booked.onOwnStack_turn (hbooked : Booked k d) {t : Fin 3} {entry switch : Regs}
    {fr : ExecFrame} (hcur : 0 ≤ k.current) (hfocus : Focused k) (hother : k.displayTerminal ≠ t)
    {s : Bool × Kernel}
    (hswitch : ((k.switchTask img k.displayTerminal k.current entry).onTerm
      (Term.switchDisplayTerminal t)).switchRunningTerminal img t switch = some s) :
    OnOwnStack (if s.1 then (s.2.execute img fr (some shellName)).2 else s.2) ↔
      (0 ≤ k.runningProcs t →
        (k.pcbs (k.runningProcs t)).esp = kernelStackTop (k.runningProcs t)) := by
  rcases switchRunningTerminal_cases hswitch with ⟨hempty, rfl⟩ | ⟨hnext, -, rfl⟩
  · have hnone : k.runningProcs t < 0 := hempty
    exact iff_of_true (onOwnStack_execute img fr _ hnone) fun hlive => by omega
  · have hlive : 0 ≤ k.runningProcs t := hnext
    have hshown : 0 ≤ k.runningProcs (⟨k.displayTerminal, hfocus.display⟩ : Fin 3) := by
      rw [Kernel.current, hfocus.running] at hcur
      exact hcur
    have hne : k.runningProcs t ≠ k.current := by
      rw [Kernel.current, hfocus.running]
      exact hbooked.runningProcs_ne hlive hshown fun heq => hother (congrArg Fin.val heq).symm
    have hesp := switchTask_self_esp img k k.displayTerminal entry hne
    generalize hk₁ : (k.switchTask img k.displayTerminal k.current entry).onTerm
      (Term.switchDisplayTerminal t) = k₁
    have hcur₁ : k₁.current = k.current := by
      rw [← hk₁, Kernel.current, Kernel.current, hfocus.running]
      rfl
    have hprocs₁ : k₁.runningProcs = k.runningProcs := by
      rw [← hk₁]
      rfl
    have hesp₁ : (k₁.pcbs (k.runningProcs t)).esp = (k.pcbs (k.runningProcs t)).esp := by
      rw [← hesp, ← hk₁]
      rfl
    show OnOwnStack (k₁.switchTask img t (k₁.runningProcs t) switch) ↔ _
    have hend : (k₁.switchTask img t (k₁.runningProcs t) switch).current = k.runningProcs t := by
      rw [← hprocs₁]
      rfl
    unfold OnOwnStack
    rw [hend, switchTask_esp0, hprocs₁, if_neg (hcur₁ ▸ hne), hesp₁]

/-- With a process running, a key leaves it on its own stack exactly when the saved stack pointer
is the top. -/
theorem Booked.onOwnStack_key_iff (hbooked : Booked k d) (hfocus : Focused k) {scancode : UInt8}
    {entry switch : Regs} {fr : ExecFrame} (hcur : 0 ≤ k.current)
    (hstep : k.keyboardHandler img scancode entry switch fr = some k') :
    OnOwnStack k' ↔ SavesTop k (.key scancode entry switch fr) := by
  show _ ↔ (0 ≤ k.current → _)
  rw [forall_prop_of_true hcur]
  rcases keyboardHandler_cases hstep with ⟨s, hswitch, hrest⟩
  rw [switchRunningTerminal_self img entry hfocus hcur] at hswitch
  rw [← Option.some.inj hswitch] at hrest
  rcases hrest with ⟨t, hlabel, hsel⟩ | ⟨hplain, hquiet⟩
  · unfold Kernel.selectTerminal at hsel
    unfold Kernel.switchTarget
    simp only [hlabel]
    split at hsel
    · rename_i halt
      rcases Option.map_eq_some_iff.mp hsel with ⟨s, hturn, rfl⟩
      rw [if_pos (show k.dev.term.altCheck ∧ k.displayTerminal ≠ t from halt)]
      exact hbooked.onOwnStack_turn hcur hfocus halt.2 hturn
    · rename_i hstay
      rw [if_neg (show ¬(k.dev.term.altCheck ∧ k.displayTerminal ≠ t) from hstay),
        ← Option.some.inj hsel]
      exact onOwnStack_stay hfocus (.refl img _) hcur
  · have htarget : k.switchTarget scancode = none := by
      unfold Kernel.switchTarget
      split
      · rename_i t hlabel
        exact absurd hlabel (hplain t)
      · rfl
    rw [htarget]
    exact onOwnStack_stay hfocus hquiet hcur

-- Without a process, a key can only start one.
theorem onOwnStack_key_idle {scancode : UInt8} {entry switch : Regs} {fr : ExecFrame}
    (hfocus : Focused k) (hcur : k.current < 0)
    (hstep : k.keyboardHandler img scancode entry switch fr = some k') : OnOwnStack k' := by
  have hempty : k.runningProcs k.displayTerminal < 0 := by
    rw [Kernel.current, hfocus.running] at hcur
    exact hcur
  rcases keyboardHandler_cases hstep with ⟨s, hswitch, hrest⟩
  rcases switchRunningTerminal_cases hswitch with ⟨-, rfl⟩ | ⟨hnext, -, -⟩
  · have hidle : (k.idleTerminal k.displayTerminal).current < 0 := hempty
    rcases hrest with ⟨t, hlabel, hsel⟩ | ⟨-, hquiet⟩
    · unfold Kernel.selectTerminal at hsel
      split at hsel
      · rcases Option.map_eq_some_iff.mp hsel with ⟨s, hturn, rfl⟩
        rcases switchRunningTerminal_cases hturn with ⟨hnone, rfl⟩ | ⟨-, hlive, -⟩
        · exact onOwnStack_execute img fr _ hnone
        · exact absurd hidle (Int.not_lt.mpr hlive)
      · rw [← Option.some.inj hsel]
        exact fun hlive => absurd hidle (Int.not_lt.mpr hlive)
    · intro hlive
      rw [hquiet.current] at hlive
      exact absurd hidle (Int.not_lt.mpr hlive)
  · omega

-- The handler faults only where it would save registers for no process.
theorem keyboardHandler_completes (img : Image) (scancode : UInt8) (entry switch : Regs)
    (fr : ExecFrame) (hfocus : Focused k) (hcur : 0 ≤ k.current) :
    ∃ k', k.keyboardHandler img scancode entry switch fr = some k' := by
  have hself : 0 ≤ (k.switchTask img k.displayTerminal k.current entry).current := by
    rw [Kernel.current, hfocus.running] at hcur
    exact hcur
  unfold Kernel.keyboardHandler
  rw [switchRunningTerminal_self img entry hfocus hcur, Option.bind_some]
  generalize k.switchTask img k.displayTerminal k.current entry = k₁ at hself
  have hturn : ∀ t : Fin 3, ∃ k', k₁.selectTerminal img t switch fr = some k' := by
    intro t
    have hcur₁ : ¬(k₁.onTerm (Term.switchDisplayTerminal t)).current < 0 := Int.not_lt.mpr hself
    unfold Kernel.selectTerminal Kernel.switchRunningTerminal
    rw [if_neg hcur₁]
    split
    · split <;> exact ⟨_, rfl⟩
    · exact ⟨_, rfl⟩
  cases hlabel : keyLabel scancode with
  | f t => exact hturn t
  | _ => exact ⟨_, rfl⟩

end

/-! ## Runs -/

/-- Whenever control returns to a process, it has its own kernel stack from the top, exactly in the
runs in which every key meets a stack pointer at the top. -/
theorem kernel_stack_top (img : Image) (dev : Devices) (pcbs : Int → Pcb) (paging : Paging)
    (esp0 : BitVec 32) (es : List Event) :
    Along (kernelStep img) (fun k e => ∀ k', kernelStep img k e = some k' → OnOwnStack k')
        ((bootKernel dev pcbs paging esp0).schedInit img) es ↔
      Along (kernelStep img) SavesTop ((bootKernel dev pcbs paging esp0).schedInit img) es := by
  have hiff : ∀ k e, ((∃ d, Booked k d) ∧ Focused k ∧ OnOwnStack k) →
      ((∀ k', kernelStep img k e = some k' → OnOwnStack k') ↔ SavesTop k e) := by
    rintro k e ⟨⟨d, hbooked⟩, hfocus, hstack⟩
    by_cases hkey : ∃ scancode entry switch fr, e = .key scancode entry switch fr
    · rcases hkey with ⟨scancode, entry, switch, fr, rfl⟩
      by_cases hcur : 0 ≤ k.current
      · rcases keyboardHandler_completes img scancode entry switch fr hfocus hcur with ⟨k₁, hk₁⟩
        have hone := hbooked.onOwnStack_key_iff hfocus hcur hk₁
        exact ⟨fun h => hone.mp (h k₁ hk₁),
          fun h k' hk' => Option.some.inj (hk₁.symm.trans hk') ▸ hone.mpr h⟩
      · exact iff_of_true (fun k' hk' => onOwnStack_key_idle hfocus (Int.not_le.mp hcur) hk')
          fun hlive => absurd hlive hcur
    · have hother : ∀ scancode entry switch fr, e ≠ .key scancode entry switch fr :=
        fun scancode entry switch fr he => hkey ⟨scancode, entry, switch, fr, he⟩
      have hok : SavesTop k e := by
        cases e with
        | key scancode entry switch fr => exact absurd rfl (hother scancode entry switch fr)
        | _ => trivial
      exact iff_of_true
        (fun k' hk' => hstack.processMoves hbooked (kernelStep_process hfocus hother hk')) hok
  have hstep : ∀ k e k', ((∃ d, Booked k d) ∧ Focused k ∧ OnOwnStack k) → SavesTop k e →
      kernelStep img k e = some k' → (∃ d, Booked k' d) ∧ Focused k' ∧ OnOwnStack k' := by
    intro k e k' hinv hok he
    rcases hinv with ⟨⟨d, hbooked⟩, hfocus, hstack⟩
    rcases kernelStep_moves hfocus he with ⟨hmoves, hfocus'⟩
    exact ⟨hbooked.moves hmoves, hfocus', (hiff k e ⟨⟨d, hbooked⟩, hfocus, hstack⟩).mpr hok k' he⟩
  have hboot := booked_schedInit img dev pcbs paging esp0
  have hfocus := (represents_schedInit img dev pcbs paging esp0).focused
  have hempty := current_schedInit img dev pcbs paging esp0
  exact along_iff_of_invariant hstep hiff
    ⟨⟨emptyDesk, hboot⟩, hfocus, fun hlive => by omega⟩

-- One letter typed into the first shell, with the handler's frames below the top of its stack.
theorem kernel_stack_drops :
    0x7FE000 ≤ (0x7FFFA0 : BitVec 32) ∧ (0x7FFFA0 : BitVec 32) < 0x800000 ∧
      ¬Along (kernelStep shellImage)
        (fun k e => ∀ k', kernelStep shellImage k e = some k' → OnOwnStack k') freshKernel
        [.execute (some shellName) zeroFrame, .key 0x10 ⟨0x7FFFA0, 0⟩ ⟨0x7FFFA0, 0⟩ zeroFrame] := by
  have hend : ((run (kernelStep shellImage) freshKernel [.execute (some shellName) zeroFrame,
      .key 0x10 ⟨0x7FFFA0, 0⟩ ⟨0x7FFFA0, 0⟩ zeroFrame]).map
        fun k => (k.current, k.esp0, kernelStackTop 0)) = some (0, 0x7FFFA0, 0x7FFFFC) := by
    decide +kernel
  rcases Option.map_eq_some_iff.mp hend with ⟨k, hk, hfields⟩
  simp only [Prod.mk.injEq] at hfields
  rcases run_cons_eq_some.mp hk with ⟨k₁, hk₁, hlast⟩
  rcases run_cons_eq_some.mp hlast with ⟨k₂, hk₂, hnil⟩
  refine ⟨by decide, by decide, fun halong => ?_⟩
  have hown := (halong.2 k₁ hk₁).1 k₂ hk₂
  rw [Option.some.inj hnil] at hown
  have htop := hown (by omega)
  rw [hfields.1, hfields.2.1, hfields.2.2] at htop
  exact absurd htop (by decide)

end Kernel391
