import Kernel391.ProcessForest

/-!
# Room for a shell on every terminal

`add_process` counts an empty terminal as one process, the shell that is still to come.  With that
count the six process numbers are never overbooked, so a terminal without a process can always be
given one.
-/

namespace Kernel391

open Machine Relation

namespace Kernel

/-- The live processes of a terminal. -/
def liveOn (k : Kernel) (t : Nat) : Nat :=
  (List.range MAX_DEVICES).countP fun i => k.procs i = 1 ∧ k.termProcs i = t

/-- The process numbers in use or promised: an empty terminal is owed one. -/
def reserved (k : Kernel) : Nat :=
  ((List.range MAX_TERMINAL_NUM).map fun t => max 1 (k.liveOn t)).sum

end Kernel

/-- What `add_process` can do in a state, and that it never has to refuse an empty terminal. -/
structure SlotsReserved (k : Kernel) : Prop where
  capacity : k.reserved ≤ 6
  refuses : k.addProcess.1 = -1 ↔ k.liveOn k.runningTerminal ≠ 0 ∧ k.reserved = 6
  least : k.addProcess.1 ≠ -1 →
    ∃ i : Nat, i < MAX_DEVICES ∧ k.addProcess.1 = i ∧ k.procs i = 0 ∧ ∀ j < i, k.procs j ≠ 0
  starts : ∀ t : Fin 3, k.liveOn t = 0 → 0 ≤ (k.idleTerminal t).addProcess.1

/-! ## Counting -/

theorem numProcsVirt_eq (k : Kernel) : k.numProcsVirt =
    max 1 (k.numProcsPerTerm 0) + max 1 (k.numProcsPerTerm 1) + max 1 (k.numProcsPerTerm 2) := by
  have hmax : ∀ n : Nat, (if n = 0 then 1 else n) = max 1 n := by
    intro n
    split <;> omega
  simp only [Kernel.numProcsVirt, hmax]
  simp [MAX_TERMINAL_NUM, List.range_succ, Nat.add_assoc]

theorem countP_add_of_disjoint {l : List Nat} {p q₀ q₁ q₂ : Nat → Bool}
    (h : ∀ i ∈ l, (p i).toNat = (q₀ i).toNat + (q₁ i).toNat + (q₂ i).toNat) :
    l.countP p = l.countP q₀ + l.countP q₁ + l.countP q₂ := by
  induction l with
  | nil => rfl
  | cons i l ih =>
    have hi := h i List.mem_cons_self
    have hrest := ih fun j hj => h j (List.mem_cons_of_mem i hj)
    simp only [List.countP_cons, hrest]
    cases hp : p i <;> cases h₀ : q₀ i <;> cases h₁ : q₁ i <;> cases h₂ : q₂ i <;>
      simp [hp, h₀, h₁, h₂] at hi ⊢ <;> omega

section

variable {k : Kernel} {d : Desk (Fin 3) Int}

theorem Stacked.liveOn_eq (h : Stacked k d) (t : Nat) : k.liveOn t = k.numProcsPerTerm t := by
  unfold Kernel.liveOn Kernel.numProcsPerTerm
  apply List.countP_congr
  intro i hi
  have hslot := h.slots i (List.mem_range.mp hi)
  simp only [decide_eq_true_eq]
  constructor
  · exact fun hlive => hlive.2
  · intro hterm
    rcases hslot with ⟨hone, -⟩ | ⟨-, hnone⟩
    · exact ⟨hone, hterm⟩
    · omega

theorem Stacked.reserved_eq (h : Stacked k d) : k.reserved = k.numProcsVirt := by
  rw [numProcsVirt_eq, ← h.liveOn_eq, ← h.liveOn_eq, ← h.liveOn_eq]
  simp [Kernel.reserved, MAX_TERMINAL_NUM, List.range_succ, Nat.add_assoc]

/-- Every live process is on one of the three terminals. -/
theorem Stacked.total_eq (h : Stacked k d) :
    (List.range MAX_DEVICES).countP (fun i => decide (k.procs i = 1)) =
      k.numProcsPerTerm 0 + k.numProcsPerTerm 1 + k.numProcsPerTerm 2 := by
  apply countP_add_of_disjoint
  intro i hi
  rcases h.slots i (List.mem_range.mp hi) with ⟨hone, t, ht⟩ | ⟨hzero, hnone⟩
  · have hone_of : ∀ t : Fin 3, (decide ((1 : Int) = 1)).toNat =
        (decide ((t : Int) = (0 : Nat))).toNat + (decide ((t : Int) = (1 : Nat))).toNat +
          (decide ((t : Int) = (2 : Nat))).toNat := by
      decide
    rw [hone, ht]
    exact hone_of t
  · rw [hzero, hnone]
    decide

-- With all numbers taken, the terminals share six processes.
theorem Stacked.freePid_eq_none (h : Stacked k d) (hfull : k.freePid = none) :
    k.numProcsPerTerm 0 + k.numProcsPerTerm 1 + k.numProcsPerTerm 2 = 6 := by
  have hall : ∀ i ∈ List.range MAX_DEVICES, decide (k.procs i = 1) = true := by
    intro i hi
    have hne := List.find?_eq_none.mp hfull i hi
    rcases h.slots i (List.mem_range.mp hi) with ⟨hone, -⟩ | ⟨hzero, -⟩
    · exact decide_eq_true hone
    · exact absurd (decide_eq_true hzero) hne
  rw [← h.total_eq, List.countP_eq_length.mpr hall]
  rfl

/-! ## The capacity is kept -/

-- A new process is counted on the running terminal.
theorem numProcsPerTerm_takePid (h : Stacked k d) {i : Nat} (hi : i < MAX_DEVICES)
    (hfree : k.procs i = 0) (t : Nat) :
    (k.takePid i).numProcsPerTerm t =
      k.numProcsPerTerm t + if t = k.runningTerminal then 1 else 0 := by
  have hnone : k.termProcs i = -1 := by
    rcases h.slots i hi with ⟨hone, -⟩ | ⟨-, hnone⟩
    · omega
    · exact hnone
  change (List.range MAX_DEVICES).countP (fun j =>
    decide (Function.update k.termProcs i k.runningTerminal j = t)) = _
  split
  · apply countP_range_flip hi
    · simp_all
    · simp [hnone]
    · intro j hj
      rw [Function.update_of_ne hj]
  · rename_i ht
    rw [Nat.add_zero]
    apply List.countP_congr
    intro j _
    by_cases hj : j = i
    · subst hj
      simp only [Function.update_self, hnone, decide_eq_true_eq]
      omega
    · rw [Function.update_of_ne hj]

theorem numProcsPerTerm_deleteProcess (k : Kernel) (pid : Int) (t : Nat) :
    (k.deleteProcess pid).numProcsPerTerm t ≤ k.numProcsPerTerm t := by
  unfold Kernel.deleteProcess
  split
  · exact Nat.le_refl _
  · apply List.countP_mono_left
    intro j _
    by_cases hj : j = pid.toNat
    · subst hj
      simp
    · simp [Function.update_of_ne hj]

theorem numProcsVirt_congr {k' : Kernel} (h : k'.termProcs = k.termProcs) :
    k'.numProcsVirt = k.numProcsVirt := by
  unfold Kernel.numProcsVirt Kernel.numProcsPerTerm
  rw [h]

theorem Stacked.capacity_takePid (h : Stacked k d) (hrun : k.runningTerminal = d.shown)
    (hcap : k.numProcsVirt ≤ 6) {i : Nat}
    (hroom : ¬(k.numProcsPerTerm k.runningTerminal ≠ 0 ∧ k.numProcsVirt ≥ MAX_DEVICES))
    (hi : i < MAX_DEVICES) (hfree : k.procs i = 0) : (k.takePid i).numProcsVirt ≤ 6 := by
  have hsix : MAX_DEVICES = 6 := rfl
  have h₀ := numProcsPerTerm_takePid h hi hfree 0
  have h₁ := numProcsPerTerm_takePid h hi hfree 1
  have h₂ := numProcsPerTerm_takePid h hi hfree 2
  have hlt := d.shown.isLt
  rw [numProcsVirt_eq] at hcap hroom ⊢
  rw [← hrun] at hlt
  -- either the terminal was empty and its slot already counted, or there was one to spare
  have hcases : k.runningTerminal = 0 ∨ k.runningTerminal = 1 ∨ k.runningTerminal = 2 := by omega
  rcases hcases with hr | hr | hr <;> rw [hr] at hroom h₀ h₁ h₂ <;>
    simp only [if_true, if_false, Nat.one_ne_zero, Nat.zero_ne_one, OfNat.ofNat_ne_zero,
      OfNat.ofNat_ne_one, OfNat.zero_ne_ofNat, OfNat.one_ne_ofNat] at h₀ h₁ h₂ <;> omega

theorem capacity_deleteProcess (hcap : k.numProcsVirt ≤ 6) (pid : Int) :
    (k.deleteProcess pid).numProcsVirt ≤ 6 := by
  have h₀ := numProcsPerTerm_deleteProcess k pid 0
  have h₁ := numProcsPerTerm_deleteProcess k pid 1
  have h₂ := numProcsPerTerm_deleteProcess k pid 2
  rw [numProcsVirt_eq] at hcap ⊢
  omega

theorem Stacked.capacity_move {img : Image} {timer : Bool} {k' : Kernel} (h : Stacked k d)
    (hrun : k.runningTerminal = d.shown) (hcap : k.numProcsVirt ≤ 6)
    (hm : KernelMove img timer k k') : k'.numProcsVirt ≤ 6 := by
  rcases hm with hm | hm
  · cases hm with
    | quiet hquiet =>
      rw [numProcsVirt_congr hquiet.termProcs]
      exact hcap
    | start i hroom hfree fr args =>
      have hi := freePid_eq_some hfree
      have hquiet := quiet_startProcess img (k.takePid i) fr args i k.current
      rw [numProcsVirt_congr hquiet.termProcs]
      exact h.capacity_takePid hrun hcap hroom hi.1 hi.2
    | finish parent =>
      have henter : ((k.mapUser img (k.pcbs parent).pId).setEsp0
          (k.pcbs parent).pId).numProcsVirt ≤ 6 := hcap
      exact capacity_deleteProcess henter _
    | finishLast => exact capacity_deleteProcess hcap _
  · cases hm <;> exact hcap

/-! ## What `add_process` does -/

theorem Stacked.freePid_of_room (h : Stacked k d) {t : Fin 3} (hcap : k.numProcsVirt ≤ 6)
    (hroom : ¬(k.numProcsPerTerm t ≠ 0 ∧ k.numProcsVirt = 6)) : k.freePid ≠ none := by
  intro hfull
  have hsum := h.freePid_eq_none hfull
  have ht : (t : Nat) = 0 ∨ (t : Nat) = 1 ∨ (t : Nat) = 2 := by omega
  rw [numProcsVirt_eq] at hcap hroom
  rcases ht with ht | ht | ht <;> rw [ht] at hroom <;> omega

theorem freePid_least {i : Nat} (hfree : k.freePid = some i) : ∀ j < i, k.procs j ≠ 0 := by
  intro j hj
  have hmin := (List.find?_range_eq_some.mp hfree).2.2 j hj
  simpa using hmin

/-- With the capacity kept, `add_process` refuses only a terminal that has a process already, and
only when every other number is used or promised. -/
theorem Stacked.addProcess_cases (h : Stacked k d) (hrun : k.runningTerminal = d.shown)
    (hcap : k.numProcsVirt ≤ 6) :
    (k.numProcsPerTerm k.runningTerminal ≠ 0 ∧ k.numProcsVirt = 6 ∧ k.addProcess.1 = -1) ∨
      (¬(k.numProcsPerTerm k.runningTerminal ≠ 0 ∧ k.numProcsVirt = 6) ∧
        ∃ i : Nat, k.freePid = some i ∧ k.addProcess.1 = i) := by
  have hsix : MAX_DEVICES = 6 := rfl
  unfold Kernel.addProcess
  by_cases hfull : k.numProcsPerTerm k.runningTerminal ≠ 0 ∧ k.numProcsVirt = 6
  · rw [if_pos ⟨hfull.1, by omega⟩]
    exact .inl ⟨hfull.1, hfull.2, rfl⟩
  · have hpid : k.freePid ≠ none := h.freePid_of_room hcap (hrun ▸ hfull)
    rcases Option.ne_none_iff_exists'.mp hpid with ⟨i, hi⟩
    rw [if_neg (fun hr => hfull ⟨hr.1, by omega⟩), hi]
    exact .inr ⟨hfull, i, rfl, rfl⟩

theorem Stacked.slotsReserved (h : Stacked k d) (hrun : k.runningTerminal = d.shown)
    (hcap : k.numProcsVirt ≤ 6) : SlotsReserved k where
  capacity := by
    rw [h.reserved_eq]
    exact hcap
  refuses := by
    rw [h.reserved_eq, h.liveOn_eq]
    rcases h.addProcess_cases hrun hcap with ⟨hbusy, hfull, hret⟩ | ⟨hroom, i, -, hret⟩
    · exact iff_of_true hret ⟨hbusy, hfull⟩
    · exact iff_of_false (by omega) hroom
  least := by
    intro hne
    rcases h.addProcess_cases hrun hcap with ⟨-, -, hret⟩ | ⟨-, i, hfree, hret⟩
    · exact absurd hret hne
    · exact ⟨i, (freePid_eq_some hfree).1, hret, (freePid_eq_some hfree).2, freePid_least hfree⟩
  starts := by
    intro t hempty
    rw [h.liveOn_eq] at hempty
    have hlook := h.look (sameProcesses_idleTerminal k t) t
    rcases hlook.addProcess_cases rfl hcap with ⟨hbusy, -⟩ | ⟨-, i, -, hret⟩
    · exact absurd hempty hbusy
    · omega

end

/-! ## Every reachable state -/

/-- The tables stand for stacks of processes, within the capacity. -/
structure Booked (k : Kernel) (d : Desk (Fin 3) Int) : Prop extends Stacked k d where
  ok : d.Ok
  running : k.runningTerminal = d.shown
  capacity : k.numProcsVirt ≤ 6

theorem Booked.moves {img : Image} {timer : Bool} {k k' : Kernel} {d : Desk (Fin 3) Int}
    (h : Booked k d) (hm : ReflTransGen (KernelMove img timer) k k') : ∃ d', Booked k' d' := by
  induction hm with
  | refl => exact ⟨d, h⟩
  | tail _ hmove ih =>
    rcases ih with ⟨d₁, h₁⟩
    rcases h₁.toStacked.moves h₁.ok h₁.running (.single hmove) with ⟨d', hok, hstack, hrun⟩
    exact ⟨d', hstack, hok, hrun, h₁.toStacked.capacity_move h₁.running h₁.capacity hmove⟩

/-- The process that `halt` returns to: it is still on the stack, so its block carries its number. -/
theorem Booked.finish {img : Image} {k : Kernel} {d : Desk (Fin 3) Int} (h : Booked k d)
    (hfocus : k.runningTerminal = k.displayTerminal) (hcur : 0 ≤ k.current) {parent : Int}
    (hpar : (k.pcbs k.current).parPId = parent) (hparent : 0 ≤ parent) :
    ∃ i : Nat, i < MAX_DEVICES ∧ (k.pcbs parent).pId = i ∧
      (((k.mapUser img (k.pcbs parent).pId).setEsp0 (k.pcbs parent).pId).deleteProcess
        (k.pcbs k.current).pId).current = i := by
  have henter := sameTables_enter img k (k.pcbs parent).pId
  have hleft := h.toStacked.current_finish img h.running hfocus hcur (k.pcbs parent).pId
  rw [hpar] at hleft
  have hmove : KernelMove img false k _ := .inl (.finish k parent hfocus hcur hpar hparent)
  rcases h.moves (.single hmove) with ⟨d', hbooked⟩
  have hlive := hleft ▸ hparent
  have htop := hleft
  rw [Kernel.current, hbooked.running] at hlive htop
  rcases hbooked.toStacked.foremost hlive with ⟨i, hi, hi', hpid, -⟩
  have hparenti : parent = i := htop.symm.trans hi'
  have hpcbs := (deleteProcess_frame ((k.mapUser img (k.pcbs parent).pId).setEsp0
    (k.pcbs parent).pId) (k.pcbs k.current).pId).1
  rw [hpcbs, henter.pId, ← hparenti] at hpid
  exact ⟨i, hi, hpid.trans hparenti, hleft.trans hparenti⟩

theorem booked_schedInit (img : Image) (dev : Devices) (pcbs : Int → Pcb) (paging : Paging)
    (esp0 : BitVec 32) : Booked ((bootKernel dev pcbs paging esp0).schedInit img) emptyDesk := by
  have hrep := represents_schedInit img dev pcbs paging esp0
  refine ⟨hrep.stacked, emptyDesk_ok, hrep.running, ?_⟩
  have hnone : ∀ t : Fin 3,
      ((bootKernel dev pcbs paging esp0).schedInit img).numProcsPerTerm t = 0 := by
    intro t
    apply List.countP_eq_zero.mpr
    intro i hi
    simp only [decide_eq_true_eq]
    intro hterm
    have hmem := (hrep.members t i).mpr ⟨i, List.mem_range.mp hi, rfl, hterm⟩
    exact absurd hmem List.not_mem_nil
  rw [numProcsVirt_eq]
  have h₀ := hnone 0
  have h₁ := hnone 1
  have h₂ := hnone 2
  simp only [Fin.val_zero, Fin.val_one, Fin.val_two] at h₀ h₁ h₂
  omega

theorem current_schedInit (img : Image) (dev : Devices) (pcbs : Int → Pcb) (paging : Paging)
    (esp0 : BitVec 32) : ((bootKernel dev pcbs paging esp0).schedInit img).current = -1 := by
  have hrep := represents_schedInit img dev pcbs paging esp0
  rw [Kernel.current, hrep.running]
  exact (hrep.linked 0).nil_inv

/-- In every reachable state each empty terminal has a process number reserved for its shell. -/
theorem shell_slot_reserved (img : Image) (dev : Devices) (pcbs : Int → Pcb) (paging : Paging)
    (esp0 : BitVec 32) (es : List Event) (k : Kernel)
    (hrun : run (kernelStep img) ((bootKernel dev pcbs paging esp0).schedInit img) es = some k) :
    SlotsReserved k := by
  have hstep : ∀ k e k', ((∃ d, Booked k d) ∧ Focused k) → True → kernelStep img k e = some k' →
      (∃ d, Booked k' d) ∧ Focused k' := by
    rintro k e k' ⟨⟨d, hbooked⟩, hfocus⟩ - he
    rcases kernelStep_moves hfocus he with ⟨hmoves, hfocus'⟩
    exact ⟨hbooked.moves hmoves, hfocus'⟩
  have hboot := booked_schedInit img dev pcbs paging esp0
  have hfocus := (represents_schedInit img dev pcbs paging esp0).focused
  rcases run_invariant hstep ⟨⟨emptyDesk, hboot⟩, hfocus⟩ (along_of_forall fun _ _ => trivial) hrun
    with ⟨⟨d, hbooked⟩, -⟩
  exact hbooked.toStacked.slotsReserved hbooked.running hbooked.capacity

-- Two shells on one terminal and one on another; the third terminal is owed its shell.
theorem shell_slot_reserved_session :
    ∃ k, run (kernelStep shellImage) freshKernel sessionEvents = some k ∧
      k.reserved = 4 ∧ SlotsReserved k := by
  have hend : ((run (kernelStep shellImage) freshKernel sessionEvents).map Kernel.reserved) =
      some 4 := by
    decide +kernel
  rcases Option.map_eq_some_iff.mp hend with ⟨k, hk, hcount⟩
  exact ⟨k, hk, hcount, shell_slot_reserved shellImage idleDevices (fun _ => zeroPcb)
    (initPaging 0x403000 0 0) 0 sessionEvents k hk⟩

/-! ## A process is always running -/

/-- `execute("shell")` finds a program, whatever is on its stack. -/
def ShellRuns (img : Image) : Prop :=
  ∀ fr : ExecFrame, ∃ executable,
    commandName fr.executable (copyArguments (some shellName) fr.allArgumentsCopy) =
      some executable ∧ isExecutable img.fs fr.data fr.buf executable = true

section

variable {img : Image} {k k' : Kernel} {d : Desk (Fin 3) Int}

theorem Stacked.numProcsPerTerm_of_empty (h : Stacked k d) {t : Fin 3}
    (hempty : k.runningProcs t < 0) : k.numProcsPerTerm t = 0 := by
  have hnil := h.stack_of_empty hempty
  apply List.countP_eq_zero.mpr
  intro i hi
  simp only [decide_eq_true_eq]
  intro hterm
  have hmem := (h.members t i).mpr ⟨i, List.mem_range.mp hi, rfl, hterm⟩
  exact absurd (hnil ▸ hmem) List.not_mem_nil

/-- On a terminal without a process, `execute("shell")` starts one. -/
theorem Booked.execute_shell (h : Booked k d) (hshell : ShellRuns img) (fr : ExecFrame)
    (hempty : k.current < 0) : 0 ≤ (k.execute img fr (some shellName)).2.current := by
  rcases hshell fr with ⟨executable, hcommand, hexec⟩
  have hnone : k.numProcsPerTerm k.runningTerminal = 0 := by
    unfold Kernel.current at hempty
    rw [h.running] at hempty ⊢
    exact h.toStacked.numProcsPerTerm_of_empty hempty
  rcases h.toStacked.addProcess_cases h.running h.capacity with ⟨hbusy, -⟩ | ⟨-, i, hfree, hret⟩
  · exact absurd hnone hbusy
  · have hadd : k.addProcess = ((i : Int), k.takePid i) := by
      unfold Kernel.addProcess
      rw [if_neg (fun hr => hr.1 hnone), hfree]
    unfold Kernel.execute
    generalize copyArguments (some shellName) fr.allArgumentsCopy = args at hcommand ⊢
    simp only [hcommand, hexec, if_true, hadd, if_neg (show ¬(i : Int) < 0 by omega),
      current_startProcess]
    omega

theorem Booked.execRet_current (h : Booked k d) (hfocus : Focused k) (hshell : ShellRuns img)
    (fr : ExecFrame) : 0 ≤ (k.execRet img fr).current := by
  unfold Kernel.execRet
  split
  · rename_i hempty
    have hprint := quiet_printf img k restartText
    have hmove : KernelMove img false k (k.printf restartText) := .inl (.quiet hprint)
    rcases h.moves (.single hmove) with ⟨d', hbooked⟩
    apply hbooked.execute_shell hshell
    rw [hprint.current, Kernel.current, hfocus.running]
    exact hempty
  · rename_i hlive
    rw [Kernel.current, hfocus.running]
    exact Int.not_lt.mp hlive

theorem execute_current (img : Image) (fr : ExecFrame) (allArguments : Option CStr)
    (hcur : 0 ≤ k.current) : 0 ≤ (k.execute img fr allArguments).2.current := by
  rcases execute_cases img fr allArguments k with ⟨i, args, -, -, heq⟩ | hquiet
  · rw [heq, current_startProcess]
    omega
  · rw [hquiet.current]
    exact hcur

-- Both switches of the handler end on a terminal with a process, or start one there.
theorem Booked.selectTerminal_current (h : Booked k d) (hshell : ShellRuns img) (hcur : 0 ≤ k.current)
    {t : Fin 3} {r : Regs} {fr : ExecFrame} (hsel : k.selectTerminal img t r fr = some k') :
    0 ≤ k'.current := by
  unfold Kernel.selectTerminal at hsel
  split at hsel
  · rcases Option.map_eq_some_iff.mp hsel with ⟨s, hswitch, rfl⟩
    have hshow : KernelMove img false k (k.onTerm (Term.switchDisplayTerminal t)) :=
      .inr (.display k t)
    have hfocus : false = true ∨ t = (k.onTerm (Term.switchDisplayTerminal t)).displayTerminal :=
      .inr rfl
    have hmove : KernelMove img false (k.onTerm (Term.switchDisplayTerminal t)) s.2 :=
      .inr (switchRunningTerminal_move t hfocus hswitch).1
    rcases h.moves (.head hshow (.single hmove)) with ⟨d', hbooked⟩
    rcases switchRunningTerminal_cases hswitch with ⟨hempty, rfl⟩ | ⟨hnext, -, rfl⟩
    · exact hbooked.execute_shell hshell fr hempty
    · exact hnext
  · rw [← Option.some.inj hsel]
    exact hcur

theorem Booked.step_current (h : Booked k d) (hfocus : Focused k) (hshell : ShellRuns img)
    (hcur : 0 ≤ k.current) {e : Event} (hstep : kernelStep img k e = some k') :
    0 ≤ k'.current := by
  cases e with
  | execute allArguments fr =>
    rw [← Option.some.inj hstep]
    exact execute_current img fr allArguments hcur
  | halt fr =>
    rcases halt_leaves hfocus.running hstep with ⟨k₁, hmoves, rfl⟩
    rcases h.moves (moves_of_process false hmoves) with ⟨d', hbooked⟩
    exact hbooked.execRet_current (hfocus.of_process hmoves) hshell fr
  | key scancode entry switch fr =>
    rcases keyboardHandler_cases hstep with ⟨s, hswitch, hrest⟩
    have hshown : false = true ∨ k.displayTerminal = k.displayTerminal := .inr rfl
    rcases switchRunningTerminal_move ⟨k.displayTerminal, hfocus.display⟩ hshown hswitch with
      ⟨hmove, hrunning, -⟩
    rcases h.moves (.single (.inr hmove)) with ⟨d', hbooked⟩
    -- the first switch leads to the process that was running
    have hentry : 0 ≤ s.2.current := by
      unfold Kernel.current at hcur ⊢
      rw [hrunning]
      rcases switchRunningTerminal_cases hswitch with ⟨-, rfl⟩ | ⟨hnext, -, rfl⟩
      · rw [hfocus.running] at hcur
        exact hcur
      · exact hnext
    rcases hrest with ⟨t, -, hsel⟩ | ⟨-, hquiet⟩
    · exact hbooked.selectTerminal_current hshell hentry hsel
    · rw [hquiet.current]
      exact hentry
  | _ =>
    rw [(kernelStep_quiet (by nofun) (by nofun) (by nofun) hstep).current]
    exact hcur

end

/-- Once the kernel has started its first shell, a process is running after every event. -/
theorem process_always_running {img : Image} (hshell : ShellRuns img) {dev : Devices}
    {pcbs : Int → Pcb} {paging : Paging} {esp0 : BitVec 32} {fr : ExecFrame} {es : List Event}
    {k : Kernel} (hrun : run (kernelStep img) ((bootKernel dev pcbs paging esp0).schedInit img)
      (.execute (some shellName) fr :: es) = some k) : 0 ≤ k.current := by
  have hboot := booked_schedInit img dev pcbs paging esp0
  have hfocus := (represents_schedInit img dev pcbs paging esp0).focused
  have hempty := current_schedInit img dev pcbs paging esp0
  generalize (bootKernel dev pcbs paging esp0).schedInit img = k₀ at hrun hboot hfocus hempty
  rcases run_cons_eq_some.mp hrun with ⟨k₁, hfirst, hrest⟩
  have hstep : ∀ k e k', ((∃ d, Booked k d) ∧ Focused k ∧ 0 ≤ k.current) → True →
      kernelStep img k e = some k' → (∃ d, Booked k' d) ∧ Focused k' ∧ 0 ≤ k'.current := by
    rintro k e k' ⟨⟨d, hbooked⟩, hfocus, hcur⟩ - he
    rcases kernelStep_moves hfocus he with ⟨hmoves, hfocus'⟩
    exact ⟨hbooked.moves hmoves, hfocus', hbooked.step_current hfocus hshell hcur he⟩
  rcases kernelStep_moves hfocus hfirst with ⟨hmoves, hfocus₁⟩
  have hcur : 0 ≤ k₁.current := by
    rw [← Option.some.inj hfirst]
    apply hboot.execute_shell hshell
    omega
  exact (run_invariant hstep ⟨hboot.moves hmoves, hfocus₁, hcur⟩
    (along_of_forall fun _ _ => trivial) hrest).2.2

end Kernel391
