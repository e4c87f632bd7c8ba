import Kernel391.KernelMoves
import Kernel391.Lib.LinkedStacks
import Kernel391.Lib.Run

/-!
# The process forest

Three stacks of programs, one for each terminal, are spread over five structures: `procs`,
`term_procs`, `running_procs`, the parent links of the control blocks and `process_count`.  The
kernel is shown to move through them as through a `Desk`: a successful `execute` pushes a fresh
process on the shown stack, `halt` pops it, and a function key shows another stack.
-/

namespace Kernel391

open Machine Relation

/-- The tables are one forest: `procs` and `term_procs` agree, the counter counts, and the parent
links from each terminal's foremost process visit exactly that terminal's processes, once each. -/
structure ProcessForest (k : Kernel) : Prop where
  slots : ∀ i < MAX_DEVICES,
    (k.procs i = 1 ↔ ∃ t < MAX_TERMINAL_NUM, k.termProcs i = t) ∧
      ((¬∃ t < MAX_TERMINAL_NUM, k.termProcs i = t) → k.termProcs i = -1)
  count : k.processCount = (List.range MAX_DEVICES).countP fun i => k.procs i = 1
  chains : ∀ t < MAX_TERMINAL_NUM, ∃ path,
    Visits (fun p => (k.pcbs p).parPId) (-1) (k.runningProcs t) path ∧ path.Nodup ∧
      ∀ p, p ∈ path ↔ ∃ i : Nat, i < MAX_DEVICES ∧ p = i ∧ k.procs i = 1 ∧ k.termProcs i = t

/-- The two entries of a process number: it runs on one of the terminals, or it is free. -/
def SlotState (proc termProc : Int) : Prop :=
  (proc = 1 ∧ ∃ t : Fin 3, termProc = t) ∨ (proc = 0 ∧ termProc = -1)

/-- How the kernel's tables stand for the stacks. -/
structure Represents (k : Kernel) (d : Desk (Fin 3) Int) : Prop where
  running : k.runningTerminal = d.shown
  display : k.displayTerminal = d.shown
  linked : Threaded (fun p => (k.pcbs p).parPId) (-1) (fun t : Fin 3 => k.runningProcs t) d.stack
  members : ∀ t p, p ∈ d.stack t ↔ ∃ i : Nat, i < MAX_DEVICES ∧ p = i ∧ k.termProcs i = t
  slots : ∀ i < MAX_DEVICES, SlotState (k.procs i) (k.termProcs i)
  count : k.processCount = (List.range MAX_DEVICES).countP fun i => k.procs i = 1
  pids : ∀ i : Nat, i < MAX_DEVICES → k.procs i = 1 → (k.pcbs i).pId = i

/-- The same for the stacks alone, whichever terminals are running and displayed. -/
structure Stacked (k : Kernel) (d : Desk (Fin 3) Int) : Prop where
  linked : Threaded (fun p => (k.pcbs p).parPId) (-1) (fun t : Fin 3 => k.runningProcs t) d.stack
  members : ∀ t p, p ∈ d.stack t ↔ ∃ i : Nat, i < MAX_DEVICES ∧ p = i ∧ k.termProcs i = t
  slots : ∀ i < MAX_DEVICES, SlotState (k.procs i) (k.termProcs i)
  count : k.processCount = (List.range MAX_DEVICES).countP fun i => k.procs i = 1
  pids : ∀ i : Nat, i < MAX_DEVICES → k.procs i = 1 → (k.pcbs i).pId = i

theorem Represents.stacked {k : Kernel} {d : Desk (Fin 3) Int} (h : Represents k d) :
    Stacked k d :=
  ⟨h.linked, h.members, h.slots, h.count, h.pids⟩

theorem Represents.focused {k : Kernel} {d : Desk (Fin 3) Int} (h : Represents k d) : Focused k :=
  ⟨h.running.trans h.display.symm, h.display ▸ d.shown.isLt⟩

theorem Stacked.represents {k : Kernel} {d : Desk (Fin 3) Int} (h : Stacked k d)
    (hrun : k.runningTerminal = d.shown) (hfocus : k.runningTerminal = k.displayTerminal) :
    Represents k d :=
  ⟨hrun, hfocus.symm.trans hrun, h.linked, h.members, h.slots, h.count, h.pids⟩

/-! ## Moves of the kernel -/

-- A new terminal may be shown on the way.
theorem Stacked.look {k k' : Kernel} {d : Desk (Fin 3) Int} (h : Stacked k d)
    (hsame : SameProcesses k k') (t : Fin 3) : Stacked k' { d with shown := t } where
  linked := by
    simp only [hsame.parPId, hsame.runningProcs]
    exact h.linked
  members := by
    rw [hsame.termProcs]
    exact h.members
  slots := by
    rw [hsame.procs, hsame.termProcs]
    exact h.slots
  count := by
    rw [hsame.processCount, hsame.procs]
    exact h.count
  pids := by
    simp only [hsame.procs, hsame.pId]
    exact h.pids

theorem Stacked.congr {k k' : Kernel} {d : Desk (Fin 3) Int} (h : Stacked k d)
    (hsame : SameProcesses k k') : Stacked k' d :=
  h.look hsame d.shown

-- `running_procs` restricted to the three terminals, after a store at the shown one.
theorem tops_update (f : Nat → Int) (t : Fin 3) (p : Int) :
    (fun u : Fin 3 => Function.update f t p u) = Function.update (fun u : Fin 3 => f u) t p :=
  Function.update_comp_eq_of_injective f Fin.val_injective t p

theorem parents_update (pcbs : Int → Pcb) (p : Int) (pcb : Pcb) :
    (fun q => (Function.update pcbs p pcb q).parPId) =
      Function.update (fun q => (pcbs q).parPId) p pcb.parPId :=
  Function.comp_update Pcb.parPId pcbs p pcb

theorem countP_range_flip {n i : Nat} (hi : i < n) {p q : Nat → Bool} (hp : p i = true)
    (hq : q i = false) (hsame : ∀ j, j ≠ i → p j = q j) :
    (List.range n).countP p = (List.range n).countP q + 1 := by
  induction n with
  | zero => omega
  | succ n ih =>
    rw [List.range_succ, List.countP_append, List.countP_append]
    by_cases he : i = n
    · have hrest : (List.range n).countP p = (List.range n).countP q := by
        apply List.countP_congr
        intro j hj
        rw [hsame j (fun hji => by have := List.mem_range.mp hj; omega)]
      rw [hrest, ← he]
      simp [hp, hq]
    · rw [ih (by omega)]
      simp only [List.countP_singleton, hsame n (Ne.symm he)]
      omega

-- Six entries cannot make the 32-bit counter wrap.
theorem count_up {procs : Nat → Int} {i : Nat} (hi : i < MAX_DEVICES) (hfree : procs i = 0) :
    ((List.range MAX_DEVICES).countP (fun j => decide (procs j = 1)) + 1) % 2 ^ 32 =
      (List.range MAX_DEVICES).countP fun j => decide (Function.update procs i 1 j = 1) := by
  have hflip := countP_range_flip hi (p := fun j => decide (Function.update procs i 1 j = 1))
    (q := fun j => decide (procs j = 1)) (by simp) (by simp [hfree])
    (fun j hj => by simp only [Function.update_of_ne hj])
  have hbound := List.countP_le_length (p := fun j => decide (Function.update procs i 1 j = 1))
    (l := List.range MAX_DEVICES)
  have hsix : MAX_DEVICES = 6 := rfl
  rw [List.length_range] at hbound
  omega

theorem count_down {procs : Nat → Int} {i : Nat} (hi : i < MAX_DEVICES) (hlive : procs i = 1) :
    ((List.range MAX_DEVICES).countP (fun j => decide (procs j = 1)) + 2 ^ 32 - 1) % 2 ^ 32 =
      (List.range MAX_DEVICES).countP fun j => decide (Function.update procs i 0 j = 1) := by
  have hflip := countP_range_flip hi (p := fun j => decide (procs j = 1))
    (q := fun j => decide (Function.update procs i 0 j = 1)) (by simp [hlive]) (by simp)
    (fun j hj => by simp only [Function.update_of_ne hj])
  have hbound := List.countP_le_length (p := fun j => decide (procs j = 1))
    (l := List.range MAX_DEVICES)
  have hsix : MAX_DEVICES = 6 := rfl
  rw [List.length_range] at hbound
  omega

theorem slotState_update {procs termProcs : Nat → Int} {i j : Nat} {proc termProc : Int}
    (hnew : SlotState proc termProc) (hold : SlotState (procs j) (termProcs j)) :
    SlotState (Function.update procs i proc j) (Function.update termProcs i termProc j) := by
  by_cases he : j = i
  · subst he
    rw [Function.update_self, Function.update_self]
    exact hnew
  · rw [Function.update_of_ne he, Function.update_of_ne he]
    exact hold

theorem Stacked.fresh {k : Kernel} {d : Desk (Fin 3) Int} (h : Stacked k d) {i : Nat}
    (hi : i < MAX_DEVICES) (hfree : k.procs i = 0) (t : Fin 3) : (i : Int) ∉ d.stack t := by
  intro hmem
  rcases (h.members t i).mp hmem with ⟨j, -, hij, hterm⟩
  rw [← Int.ofNat.inj hij] at hterm
  rcases h.slots i hi with ⟨hone, -⟩ | ⟨-, hnone⟩ <;> omega

/-- Entering a free process number in the tables, with a control block whose parent is the
process that was foremost, pushes it. -/
theorem Stacked.push {k : Kernel} {d : Desk (Fin 3) Int} (h : Stacked k d)
    (hrun : k.runningTerminal = d.shown) {i : Nat} (hi : i < MAX_DEVICES) (hfree : k.procs i = 0)
    {pcb : Pcb} (hpid : pcb.pId = i) (hpar : pcb.parPId = k.current) :
    Stacked ((k.takePid i).setPcb i pcb) (d.push i) where
  linked := by
    change Threaded (fun q => (Function.update k.pcbs i pcb q).parPId) (-1)
      (fun u : Fin 3 => Function.update k.runningProcs k.runningTerminal i u) _
    rw [parents_update, hpar, Kernel.current, hrun, tops_update]
    exact h.linked.push d.shown (h.fresh hi hfree) (by omega)
  members t p := by
    change _ ↔ ∃ j : Nat, j < MAX_DEVICES ∧ p = j ∧
      Function.update k.termProcs i k.runningTerminal j = t
    rw [Desk.mem_push, h.members, hrun]
    constructor
    · rintro (⟨j, hj, hp, hterm⟩ | ⟨ht, hp⟩)
      · have hne : j ≠ i := by
          intro he
          exact h.fresh hi hfree t ((h.members t i).mpr ⟨i, hi, rfl, he ▸ hterm⟩)
        exact ⟨j, hj, hp, by rw [Function.update_of_ne hne, hterm]⟩
      · exact ⟨i, hi, hp, by rw [Function.update_self, ht]⟩
    · rintro ⟨j, hj, hp, hterm⟩
      by_cases he : j = i
      · subst he
        rw [Function.update_self] at hterm
        exact .inr ⟨Fin.ext (by omega), hp⟩
      · rw [Function.update_of_ne he] at hterm
        exact .inl ⟨j, hj, hp, hterm⟩
  slots j hj := slotState_update (.inl ⟨rfl, d.shown, congrArg Nat.cast hrun⟩) (h.slots j hj)
  count := by
    change (k.processCount + 1) % 2 ^ 32 = _
    rw [h.count]
    exact count_up hi hfree
  pids j hj hone := by
    change Function.update k.procs i 1 j = 1 at hone
    change (Function.update k.pcbs (i : Int) pcb (j : Int)).pId = j
    by_cases he : j = i
    · subst he
      rw [Function.update_self]
      exact hpid
    · have hne : (j : Int) ≠ i := by omega
      rw [Function.update_of_ne he] at hone
      rw [Function.update_of_ne hne]
      exact h.pids j hj hone

/-- The foremost process of a terminal is live, runs there, and its block carries its number. -/
theorem Stacked.foremost {k : Kernel} {d : Desk (Fin 3) Int} (h : Stacked k d) {t : Fin 3}
    (hlive : 0 ≤ k.runningProcs t) :
    ∃ i : Nat, i < MAX_DEVICES ∧ k.runningProcs t = i ∧ (k.pcbs i).pId = i ∧ k.procs i = 1 ∧
      k.termProcs i = t ∧ ∃ rest, d.stack t = (i : Int) :: rest := by
  rcases (h.linked t).exists_cons (show k.runningProcs t ≠ -1 by omega) with ⟨rest, hstack⟩
  have hmem : k.runningProcs t ∈ d.stack t := hstack ▸ List.mem_cons_self
  rcases (h.members t (k.runningProcs t)).mp hmem with ⟨i, hi, hpi, hterm⟩
  have hone : k.procs i = 1 := by
    rcases h.slots i hi with ⟨hone, -⟩ | ⟨-, hnone⟩
    · exact hone
    · omega
  exact ⟨i, hi, hpi, h.pids i hi hone, hone, hterm, rest, hpi ▸ hstack⟩

theorem Stacked.stack_of_empty {k : Kernel} {d : Desk (Fin 3) Int} (h : Stacked k d) {t : Fin 3}
    (hempty : k.runningProcs t < 0) : d.stack t = [] := by
  cases hstack : d.stack t with
  | nil => rfl
  | cons p rest =>
    have hvisits := h.linked t
    rw [hstack] at hvisits
    have htop : k.runningProcs t = p := hvisits.cons_inv.1
    have hmem : k.runningProcs t ∈ d.stack t := by
      rw [hstack, htop]
      exact List.mem_cons_self
    rcases (h.members t _).mp hmem with ⟨i, -, hi, -⟩
    omega

theorem Represents.current_live {k : Kernel} {d : Desk (Fin 3) Int} (h : Represents k d)
    (hcur : 0 ≤ k.current) :
    ∃ i : Nat, i < MAX_DEVICES ∧ k.current = i ∧ (k.pcbs i).pId = i ∧ k.procs i = 1 ∧
      ∃ rest, d.stack d.shown = (i : Int) :: rest := by
  unfold Kernel.current at hcur ⊢
  rw [h.running] at hcur ⊢
  rcases h.stacked.foremost hcur with ⟨i, hi, hpi, hpid, hone, -, hstack⟩
  exact ⟨i, hi, hpi, hpid, hone, hstack⟩

/-- With the running terminal on the screen, leaving a process makes its parent the current one. -/
theorem Stacked.current_deleteProcess {k : Kernel} {d : Desk (Fin 3) Int} (h : Stacked k d)
    (hrun : k.runningTerminal = d.shown) (hfocus : k.runningTerminal = k.displayTerminal)
    (hcur : 0 ≤ k.current) :
    (k.deleteProcess (k.pcbs k.current).pId).current = (k.pcbs k.current).parPId := by
  have hlive : 0 ≤ k.runningProcs d.shown := hrun ▸ hcur
  rcases h.foremost hlive with ⟨i, hi, hci, hpid, -⟩
  have hsix : MAX_DEVICES = 6 := rfl
  have hcuri : k.current = i := by
    rw [Kernel.current, hrun, hci]
  rw [hcuri, hpid, Kernel.deleteProcess, if_neg (by omega)]
  show Function.update k.runningProcs k.displayTerminal _ k.runningTerminal = _
  rw [hfocus, Function.update_self]

theorem Stacked.current_finish {k : Kernel} {d : Desk (Fin 3) Int} (h : Stacked k d) (img : Image)
    (hrun : k.runningTerminal = d.shown) (hfocus : k.runningTerminal = k.displayTerminal)
    (hcur : 0 ≤ k.current) (pid : Int) :
    (((k.mapUser img pid).setEsp0 pid).deleteProcess (k.pcbs k.current).pId).current =
      (k.pcbs k.current).parPId := by
  have henter := sameTables_enter img k pid
  have hleft := (h.congr henter.toSameProcesses).current_deleteProcess (henter.running.trans hrun)
    (by rw [henter.running, henter.display, hfocus]) (by rw [henter.current]; exact hcur)
  rw [henter.current, henter.pId, henter.parPId] at hleft
  exact hleft

/-- Deleting the foremost process of the shown terminal pops it. -/
theorem Stacked.pop {k : Kernel} {d : Desk (Fin 3) Int} (h : Stacked k d) (hok : d.Ok)
    (hrun : k.runningTerminal = d.shown) (hdisp : k.displayTerminal = d.shown)
    (hcur : 0 ≤ k.current) : Stacked (k.deleteProcess (k.pcbs k.current).pId) d.pop := by
  unfold Kernel.current at hcur ⊢
  rw [hrun] at hcur ⊢
  rcases h.foremost hcur with ⟨i, hi, hci, hpid, hlive, -, rest, hstack⟩
  have hsix : MAX_DEVICES = 6 := rfl
  rw [hci, hpid, Kernel.deleteProcess, if_neg (by omega), Int.toNat_natCast]
  refine ⟨?_, ?_, ?_, ?_, ?_⟩
  · change Threaded (fun q => (k.pcbs q).parPId) (-1)
      (fun u : Fin 3 => Function.update k.runningProcs k.displayTerminal (k.pcbs i).parPId u)
      (Function.update d.stack d.shown (d.stack d.shown).tail)
    rw [hdisp, tops_update, hstack]
    exact h.linked.pop hstack
  · intro t p
    change _ ↔ ∃ j : Nat, j < MAX_DEVICES ∧ p = j ∧ Function.update k.termProcs i (-1) j = t
    rw [hok.mem_pop hstack, h.members]
    constructor
    · rintro ⟨⟨j, hj, hp, hterm⟩, hne⟩
      have hji : j ≠ i := by omega
      exact ⟨j, hj, hp, by rw [Function.update_of_ne hji, hterm]⟩
    · rintro ⟨j, hj, hp, hterm⟩
      have hji : j ≠ i := by
        intro he
        rw [he, Function.update_self] at hterm
        omega
      rw [Function.update_of_ne hji] at hterm
      exact ⟨⟨j, hj, hp, hterm⟩, by omega⟩
  · intro j hj
    exact slotState_update (.inr ⟨rfl, rfl⟩) (h.slots j hj)
  · change (k.processCount + 2 ^ 32 - 1) % 2 ^ 32 = _
    rw [h.count]
    exact count_down hi hlive
  · intro j hj hone
    change Function.update k.procs i 0 j = 1 at hone
    have hji : j ≠ i := by
      intro he
      rw [he, Function.update_self] at hone
      omega
    rw [Function.update_of_ne hji] at hone
    exact h.pids j hj hone

/-! ## Runs -/

theorem Stacked.processMove {img : Image} {k k' : Kernel} {d : Desk (Fin 3) Int}
    (h : Stacked k d) (hok : d.Ok) (hrun : k.runningTerminal = d.shown)
    (hm : ProcessMove img k k') :
    ∃ d', ReflTransGen Desk.Move d d' ∧ Stacked k' d' ∧ k'.runningTerminal = d'.shown := by
  have hterm := hm.terminals.1.trans hrun
  cases hm with
  | quiet hquiet => exact ⟨d, .refl, h.congr hquiet.toSameProcesses, hterm⟩
  | start i hroom hfree fr args =>
    have hi := freePid_eq_some hfree
    have hpush : Stacked ((k.takePid i).setPcb i
        ((k.takePid i).newPcb img fr args i k.current)) (d.push i) :=
      h.push hrun hi.1 hi.2 rfl rfl
    have henter := sameTables_enter img ((k.takePid i).setPcb i
      ((k.takePid i).newPcb img fr args i k.current)) i
    have hquiet := quiet_startProcess img (k.takePid i) fr args i k.current
    exact ⟨d.push i, .single (.push d i (h.fresh hi.1 hi.2)),
      (hpush.congr henter.toSameProcesses).congr hquiet.toSameProcesses, hterm⟩
  | finish parent hfocus hcur hpar hparent =>
    have henter := sameTables_enter img k (k.pcbs parent).pId
    have hpop := (h.congr henter.toSameProcesses).pop hok (henter.running.trans hrun)
      ((henter.display.trans hfocus.symm).trans hrun) (henter.current ▸ hcur)
    rw [henter.current, henter.pId] at hpop
    exact ⟨d.pop, .single (.pop d), hpop, hterm⟩
  | finishLast hfocus hcur hlast =>
    exact ⟨d.pop, .single (.pop d), h.pop hok hrun (hfocus.symm.trans hrun) hcur, hterm⟩

theorem Stacked.switchMove {img : Image} {timer : Bool} {k k' : Kernel} {d : Desk (Fin 3) Int}
    (h : Stacked k d) (hm : SwitchMove img timer k k') :
    ∃ d', ReflTransGen Desk.Move d d' ∧ Stacked k' d' ∧
      (k'.runningTerminal = k.runningTerminal ∧ d'.shown = d.shown ∨
        k'.runningTerminal = d'.shown) := by
  cases hm with
  | display t => exact ⟨d, .refl, h.congr (sameProcesses_onTerm k _), .inl ⟨rfl, rfl⟩⟩
  | idle t =>
    exact ⟨{ d with shown := t }, .single (.look d t), h.look (sameProcesses_idleTerminal k t) t,
      .inr rfl⟩
  | task t hfocus r =>
    exact ⟨{ d with shown := t }, .single (.look d t),
      h.look (sameProcesses_switchTask img k t (k.runningProcs t) r) t, .inr rfl⟩

/-- The kernel refines the desk, move by move. -/
theorem Stacked.moves {img : Image} {timer : Bool} {k k' : Kernel} {d : Desk (Fin 3) Int}
    (h : Stacked k d) (hok : d.Ok) (hrun : k.runningTerminal = d.shown)
    (hm : ReflTransGen (KernelMove img timer) k k') :
    ∃ d', d'.Ok ∧ Stacked k' d' ∧ k'.runningTerminal = d'.shown := by
  induction hm with
  | refl => exact ⟨d, hok, h, hrun⟩
  | tail _ hmove ih =>
    rcases ih with ⟨d₁, hok₁, h₁, hrun₁⟩
    rcases hmove with hproc | hswitch
    · rcases h₁.processMove hok₁ hrun₁ hproc with ⟨d', hmoves, hstack, hrun'⟩
      exact ⟨d', hok₁.moves hmoves, hstack, hrun'⟩
    · rcases h₁.switchMove hswitch with ⟨d', hmoves, hstack, ⟨hsame, hshown⟩ | hrun'⟩
      · exact ⟨d', hok₁.moves hmoves, hstack, by rw [hsame, hrun₁, hshown]⟩
      · exact ⟨d', hok₁.moves hmoves, hstack, hrun'⟩

theorem Represents.step {img : Image} {k k' : Kernel} {e : Event} {d : Desk (Fin 3) Int}
    (h : Represents k d) (hok : d.Ok) (hstep : kernelStep img k e = some k') :
    ∃ d', d'.Ok ∧ Represents k' d' := by
  rcases kernelStep_moves h.focused hstep with ⟨hmoves, hfocus⟩
  rcases h.stacked.moves hok h.running hmoves with ⟨d', hok', hstack, hrun⟩
  exact ⟨d', hok', hstack.represents hrun hfocus.running⟩

def emptyDesk : Desk (Fin 3) Int := ⟨⟨0, by decide⟩, fun _ => []⟩

theorem emptyDesk_ok : emptyDesk.Ok :=
  ⟨fun _ => List.nodup_nil, fun _ _ _ hp => absurd hp List.not_mem_nil⟩

/-- No process anywhere; the first `n` terminals know that already. -/
structure NoProcess (n : Nat) (k : Kernel) : Prop where
  procs : ∀ i, k.procs i = 0
  termProcs : ∀ i < MAX_DEVICES, k.termProcs i = -1
  runningProcs : ∀ t < n, k.runningProcs t = -1
  count : k.processCount = 0
  running : k.runningTerminal = 0
  display : k.displayTerminal = 0

theorem NoProcess.initTerminal {n : Nat} {k : Kernel} (h : NoProcess n k) (img : Image) :
    NoProcess (n + 1) (k.initTerminal img n) := by
  have hsame : SameTables { k with runningProcs := Function.update k.runningProcs n (-1) }
      (k.initTerminal img n) :=
    (sameTables_mapVP img _ _ _ _).trans
      ⟨sameProcesses_onTerm _ _, rfl, Term.onScreen_displayTerminal ..⟩
  refine ⟨?_, ?_, ?_, hsame.processCount.trans h.count, hsame.running.trans h.running,
    hsame.display.trans h.display⟩
  · rw [hsame.procs]
    exact h.procs
  · rw [hsame.termProcs]
    exact h.termProcs
  · intro t ht
    rw [hsame.runningProcs]
    by_cases he : t = n
    · rw [he]
      exact Function.update_self ..
    · change Function.update k.runningProcs n (-1) t = -1
      rw [Function.update_of_ne he]
      exact h.runningProcs t (by omega)

theorem NoProcess.represents {k : Kernel} (h : NoProcess 3 k) : Represents k emptyDesk where
  running := h.running
  display := h.display
  linked t := by
    change Visits _ _ (k.runningProcs t) []
    rw [h.runningProcs t t.isLt]
    exact .done
  members t p := by
    change p ∈ [] ↔ _
    constructor
    · intro hp
      exact absurd hp List.not_mem_nil
    · rintro ⟨i, hi, -, hterm⟩
      rw [h.termProcs i hi] at hterm
      omega
  slots i hi := .inr ⟨h.procs i, h.termProcs i hi⟩
  count := by
    rw [h.count, eq_comm, List.countP_eq_zero]
    intro i _
    simp [h.procs i]
  pids i _ hone := by
    rw [h.procs i] at hone
    omega

theorem represents_schedInit (img : Image) (dev : Devices) (pcbs : Int → Pcb) (paging : Paging)
    (esp0 : BitVec 32) : Represents ((bootKernel dev pcbs paging esp0).schedInit img) emptyDesk := by
  unfold Kernel.schedInit
  simp only
  have hstart : NoProcess 0 { (bootKernel dev pcbs paging esp0).onTerm
      (fun s => { s with displayTerminal := 0 }) with
      runningTerminal := 0
      termProcs := fun i => if i < MAX_DEVICES then -1 else 0 } :=
    ⟨fun _ => rfl, fun _ hi => if_pos hi, fun _ ht => absurd ht (Nat.not_lt_zero _), rfl, rfl, rfl⟩
  exact (((hstart.initTerminal img).initTerminal img).initTerminal img).represents

theorem Represents.processForest {k : Kernel} {d : Desk (Fin 3) Int} (h : Represents k d)
    (hok : d.Ok) : ProcessForest k where
  slots i hi := by
    rcases h.slots i hi with ⟨hone, t, ht⟩ | ⟨hzero, hnone⟩
    · have hterm : ∃ u < MAX_TERMINAL_NUM, k.termProcs i = u := ⟨t, t.isLt, ht⟩
      exact ⟨iff_of_true hone hterm, fun hno => absurd hterm hno⟩
    · have hterm : ¬∃ u < MAX_TERMINAL_NUM, k.termProcs i = u := by
        rintro ⟨u, -, hu⟩
        omega
      exact ⟨iff_of_false (by omega) hterm, fun _ => hnone⟩
  count := h.count
  chains t ht := by
    refine ⟨d.stack ⟨t, ht⟩, h.linked ⟨t, ht⟩, hok.nodup ⟨t, ht⟩, ?_⟩
    intro p
    rw [h.members]
    constructor
    · rintro ⟨i, hi, hp, hterm⟩
      refine ⟨i, hi, hp, ?_, hterm⟩
      rcases h.slots i hi with ⟨hone, -⟩ | ⟨-, hnone⟩
      · exact hone
      · rw [hnone] at hterm
        exact absurd hterm (by omega)
    · rintro ⟨i, hi, hp, -, hterm⟩
      exact ⟨i, hi, hp, hterm⟩

/-- Every run of the kernel is a run of the desk. -/
theorem run_represents {img : Image} {dev : Devices} {pcbs : Int → Pcb} {paging : Paging}
    {esp0 : BitVec 32} {es : List Event} {k : Kernel}
    (hrun : run (kernelStep img) ((bootKernel dev pcbs paging esp0).schedInit img) es = some k) :
    ∃ d : Desk (Fin 3) Int, d.Ok ∧ Represents k d := by
  have hstep : ∀ k e k', (∃ d : Desk (Fin 3) Int, d.Ok ∧ Represents k d) → True →
      kernelStep img k e = some k' → ∃ d : Desk (Fin 3) Int, d.Ok ∧ Represents k' d := by
    rintro k e k' ⟨d, hok, hrep⟩ - he
    exact hrep.step hok he
  exact run_invariant hstep
    ⟨emptyDesk, emptyDesk_ok, represents_schedInit img dev pcbs paging esp0⟩
    (along_of_forall fun _ _ => trivial) hrun

/-- From `sched_init` on, the process tables form one forest after any sequence of events. -/
theorem process_forest (img : Image) (dev : Devices) (pcbs : Int → Pcb) (paging : Paging)
    (esp0 : BitVec 32) (es : List Event) (k : Kernel)
    (hrun : run (kernelStep img) ((bootKernel dev pcbs paging esp0).schedInit img) es = some k) :
    ProcessForest k := by
  rcases run_represents hrun with ⟨d, hok, hrep⟩
  exact hrep.processForest hok

/-! ## A session -/

/-- An image whose only file is a `shell` that consists of the ELF magic. -/
def shellFs : FileSys where
  bootBlock := ⟨1, 1, 1, fun _ => ⟨shellName, 2, 0, fun _ => 0⟩⟩
  inodes _ := ⟨4, fun _ => 0⟩
  blocks _ := storeBytes [0x7F, 0x45, 0x4C, 0x46] fun _ => 0

def shellImage : Image := ⟨sampleLayout, shellFs, fun _ => 0, 0x403000⟩

def zeroFrame : ExecFrame :=
  ⟨fun _ => 0, fun _ => 0, fun _ => 0, fun _ => 0, fun _ => 0, fun _ => 0, ⟨0, 0⟩⟩

def zeroPcb : Pcb := ⟨fun _ => ⟨0, 0, 0, 0, fun _ => 0⟩, fun _ => 0, 0, 0, 0, 0⟩

def freshKernel : Kernel :=
  (bootKernel idleDevices (fun _ => zeroPcb) (initPaging 0x403000 0 0) 0).schedInit shellImage

-- A shell in a shell on the first terminal, Alt+F2, and the end of the new terminal's only shell.
def sessionEvents : List Event :=
  [.execute (some shellName) zeroFrame, .execute (some shellName) zeroFrame,
    .key 0x38 ⟨0, 0⟩ ⟨0, 0⟩ zeroFrame, .key 0x3C ⟨0, 0⟩ ⟨0, 0⟩ zeroFrame, .halt zeroFrame]

theorem process_forest_session :
    ∃ k, run (kernelStep shellImage) freshKernel sessionEvents = some k ∧
    (k.processCount = 3 ∧ k.runningProcs 0 = 1 ∧ k.runningProcs 1 = 2) ∧ ProcessForest k := by
  have hend : ((run (kernelStep shellImage) freshKernel sessionEvents).map fun k =>
      (k.processCount, k.runningProcs 0, k.runningProcs 1)) = some (3, 1, 2) := by
    decide +kernel
  rcases Option.map_eq_some_iff.mp hend with ⟨k, hk, htables⟩
  simp only [Prod.mk.injEq] at htables
  exact ⟨k, hk, htables, process_forest shellImage idleDevices (fun _ => zeroPcb)
    (initPaging 0x403000 0 0) 0 sessionEvents k hk⟩

end Kernel391
