import Kernel391.ProcessForest

/-!
# What `halt` does to descriptors

`halt` takes the child out of the process tables first and only then closes the child's files
through `close`, which by that time acts on the parent.  So the descriptors it closes are the
parent's, and the parent keeps its table exactly when no descriptor is open in both processes.
-/

namespace Kernel391

open Machine

/-- The current process is `child`, started by `parent`, on the displayed terminal. -/
structure RunsUnder (k : Kernel) (child parent : Int) : Prop where
  displayed : k.runningTerminal = k.displayTerminal
  current : k.current = child
  nonneg : 0 ≤ child
  lt : child < MAX_DEVICES
  pId : (k.pcbs child).pId = child
  parPId : (k.pcbs child).parPId = parent
  parent_nonneg : 0 ≤ parent
  parent_ne : parent ≠ child

/-- In a reachable state the two processes are always different, and the child's block carries
its number. -/
theorem Represents.runsUnder {k : Kernel} {d : Desk (Fin 3) Int} (h : Represents k d) (hok : d.Ok)
    (hcur : 0 ≤ k.current) (hpar : 0 ≤ (k.pcbs k.current).parPId) :
    RunsUnder k k.current (k.pcbs k.current).parPId := by
  rcases h.current_live hcur with ⟨i, hi, hci, hpid, -, rest, hstack⟩
  have hsix : MAX_DEVICES = 6 := rfl
  refine ⟨h.running.trans h.display.symm, rfl, hcur, by omega, ?_, rfl, hpar, ?_⟩
  · rw [hci]
    exact hpid
  · -- the parent heads the rest of the stack, which does not hold the child again
    intro he
    have hvisits := h.linked d.shown
    rw [hstack] at hvisits
    have hrest := hvisits.cons_inv.2.2
    rw [← hci, he] at hrest
    rcases hrest.exists_cons (by omega) with ⟨tail, htail⟩
    have hnodup := hok.nodup d.shown
    rw [hstack, htail, ← hci] at hnodup
    exact (List.nodup_cons.mp hnodup).1 List.mem_cons_self

/-- `halt` completes, leaves every descriptor of the parent as it was, and closes the child's. -/
def HaltFrame (img : Image) (fr : ExecFrame) (k : Kernel) (child parent : Int) : Prop :=
  ∃ k', k.halt img fr = some k' ∧
    (∀ i < FILE_ARRAY_LEN, (k'.pcbs parent).fileArray i = (k.pcbs parent).fileArray i) ∧
    ∀ i < FILE_ARRAY_LEN, ((k'.pcbs child).fileArray i).flags = 0

/-- A descriptor that `close` accepts and that is open in both processes. -/
def OpenInBoth (k : Kernel) (child parent : Int) (i : Nat) : Prop :=
  2 ≤ i ∧ i < FILE_ARRAY_LEN ∧ ((k.pcbs child).fileArray i).flags = 1 ∧
    ((k.pcbs parent).fileArray i).flags ≠ 0

/-! ## `close` -/

theorem sysClose_refused {lay : FopsLayout} {i : Nat} {pcb : Pcb}
    (h : ¬(2 ≤ i ∧ i < FILE_ARRAY_LEN ∧ (pcb.fileArray i).flags ≠ 0)) :
    sysClose lay i pcb = some (-1, pcb) := by
  unfold sysClose
  apply if_pos
  rw [Int.toNat_natCast]
  have hmin : MIN_FD = 2 := rfl
  have hmax : MAX_FD = 7 := rfl
  have hlen : FILE_ARRAY_LEN = 8 := rfl
  by_cases hflags : (pcb.fileArray i).flags = 0
  · exact .inr (.inr hflags)
  · have hrange : i < 2 ∨ 7 < i := by
      by_contra hin
      exact h ⟨by omega, by omega, hflags⟩
    omega

theorem sysClose_keeps_closed {lay : FopsLayout} {fd : Int} {pcb : Pcb} {r : Int × Pcb}
    (h : sysClose lay fd pcb = some r) {j : Nat} (hj : (pcb.fileArray j).flags = 0) :
    (r.2.fileArray j).flags = 0 := by
  rcases sysClose_eq_some h with heq | ⟨-, heq⟩
  · rw [heq]
    exact hj
  · rw [heq, Pcb.setFd_fileArray]
    split
    · rfl
    · exact hj

theorem sysClose_closes {lay : FopsLayout} {i : Nat} {pcb : Pcb} {r : Int × Pcb}
    (hlo : 2 ≤ i) (hhi : i < FILE_ARRAY_LEN) (h : sysClose lay i pcb = some r) :
    (r.2.fileArray i).flags = 0 := by
  by_cases hflags : (pcb.fileArray i).flags = 0
  · exact sysClose_keeps_closed h hflags
  · have hmin : MIN_FD = 2 := rfl
    have hmax : MAX_FD = 7 := rfl
    have hlen : FILE_ARRAY_LEN = 8 := rfl
    unfold sysClose at h
    rw [Int.toNat_natCast, if_neg] at h
    · rcases Option.map_eq_some_iff.mp h with ⟨d, -, rfl⟩
      -- from 2 on, every driver's `close` succeeds
      have hclose : d.close i = 0 := by
        cases d with
        | terminal => exact if_neg (by omega)
        | _ => rfl
      rw [if_neg (not_not.mpr hclose), Pcb.setFd_fileArray, if_pos rfl]
      rfl
    · rintro (hlt | hgt | hzero)
      · omega
      · omega
      · exact hflags hzero

/-! ## The loop -/

section

variable {img : Image} {child parent : Int} {k k' : Kernel}

-- The child's record after its iteration.
def clearedFd (f : FdT) : FdT := { f with fops := 0, flags := 0 }

theorem closeSlot_eq (hcur : k.current = parent) (i : Nat) :
    k.closeSlot img child i =
      (if ((k.pcbs child).fileArray i).flags = 1 then
        (sysClose img.lay i (k.pcbs parent)).map fun r => k.setPcb parent r.2 else some k).map
      fun k => k.setPcb child ((k.pcbs child).setFd i (clearedFd ((k.pcbs child).fileArray i))) := by
  rw [← hcur]
  rfl

/-- One iteration, seen from the two blocks. -/
theorem closeSlot_spec (hcur : k.current = parent) (hne : parent ≠ child) {i : Nat}
    (h : k.closeSlot img child i = some k') :
    (k'.pcbs child).fileArray =
        ((k.pcbs child).setFd i (clearedFd ((k.pcbs child).fileArray i))).fileArray ∧
      ((((k.pcbs child).fileArray i).flags = 1 ∧
          ∃ r, sysClose img.lay i (k.pcbs parent) = some r ∧ k'.pcbs parent = r.2) ∨
        (((k.pcbs child).fileArray i).flags ≠ 1 ∧ k'.pcbs parent = k.pcbs parent)) := by
  rw [closeSlot_eq hcur] at h
  rcases Option.map_eq_some_iff.mp h with ⟨k₁, hclose, rfl⟩
  have hparent : ((k₁.setPcb child ((k₁.pcbs child).setFd i
      (clearedFd ((k₁.pcbs child).fileArray i)))).pcbs parent) = k₁.pcbs parent :=
    Function.update_of_ne hne ..
  have hchild : ((k₁.setPcb child ((k₁.pcbs child).setFd i
      (clearedFd ((k₁.pcbs child).fileArray i)))).pcbs child) =
        (k₁.pcbs child).setFd i (clearedFd ((k₁.pcbs child).fileArray i)) :=
    Function.update_self ..
  rw [hparent, hchild]
  by_cases hflags : ((k.pcbs child).fileArray i).flags = 1
  · rw [if_pos hflags] at hclose
    rcases Option.map_eq_some_iff.mp hclose with ⟨r, hr, rfl⟩
    have hsame : (k.setPcb parent r.2).pcbs child = k.pcbs child :=
      Function.update_of_ne (Ne.symm hne) ..
    rw [hsame]
    exact ⟨rfl, .inl ⟨hflags, r, hr, Function.update_self ..⟩⟩
  · rw [if_neg hflags] at hclose
    rw [← Option.some.inj hclose]
    exact ⟨rfl, .inr ⟨hflags, rfl⟩⟩

theorem closeSlot_of_not_both (img : Image) (hcur : k.current = parent) {i : Nat}
    (hi : i < FILE_ARRAY_LEN)
    (h : ¬OpenInBoth k child parent i) : ∃ k', k.closeSlot img child i = some k' := by
  rw [closeSlot_eq hcur]
  by_cases hflags : ((k.pcbs child).fileArray i).flags = 1
  · rw [if_pos hflags, sysClose_refused fun hopen => h ⟨hopen.1, hi, hflags, hopen.2.2⟩]
    exact ⟨_, rfl⟩
  · rw [if_neg hflags]
    exact ⟨_, rfl⟩

/-- Once closed, a descriptor of the parent stays closed. -/
theorem closeAll_keeps_closed {slots : List Nat} (hcur : k.current = parent) (hne : parent ≠ child)
    (h : k.closeAll img child slots = some k') {j : Nat}
    (hj : ((k.pcbs parent).fileArray j).flags = 0) : ((k'.pcbs parent).fileArray j).flags = 0 := by
  induction slots generalizing k with
  | nil =>
    rw [← Option.some.inj h]
    exact hj
  | cons i slots ih =>
    rcases Option.bind_eq_some_iff.mp h with ⟨k₁, hslot, hrest⟩
    apply ih ((quiet_closeSlot hslot).current.trans hcur) hrest
    rcases (closeSlot_spec hcur hne hslot).2 with ⟨-, r, hr, heq⟩ | ⟨-, heq⟩
    · rw [heq]
      exact sysClose_keeps_closed hr hj
    · rw [heq]
      exact hj

/-- Whatever the child had open, the loop closes in the parent. -/
theorem closeAll_closes {slots : List Nat} (hcur : k.current = parent) (hne : parent ≠ child)
    (h : k.closeAll img child slots = some k') {j : Nat} (hj : j ∈ slots) (hlo : 2 ≤ j)
    (hhi : j < FILE_ARRAY_LEN) (hopen : ((k.pcbs child).fileArray j).flags = 1) :
    ((k'.pcbs parent).fileArray j).flags = 0 := by
  induction slots generalizing k with
  | nil => exact absurd hj List.not_mem_nil
  | cons i slots ih =>
    rcases Option.bind_eq_some_iff.mp h with ⟨k₁, hslot, hrest⟩
    have hcur' := (quiet_closeSlot hslot).current.trans hcur
    rcases closeSlot_spec hcur hne hslot with ⟨hchild, hparent⟩
    by_cases he : j = i
    · subst he
      apply closeAll_keeps_closed hcur' hne hrest
      rcases hparent with ⟨-, r, hr, heq⟩ | ⟨hclosed, -⟩
      · rw [heq]
        exact sysClose_closes hlo hhi hr
      · exact absurd hopen hclosed
    · apply ih hcur' hrest ((List.mem_cons.mp hj).resolve_left he)
      rw [hchild, Pcb.setFd_fileArray, if_neg he]
      exact hopen

/-- With no descriptor open in both processes the loop clears the child and spares the parent. -/
theorem closeAll_of_none_both (img : Image) {slots : List Nat} (hcur : k.current = parent)
    (hne : parent ≠ child)
    (hslots : ∀ i ∈ slots, i < FILE_ARRAY_LEN) (h : ∀ i ∈ slots, ¬OpenInBoth k child parent i) :
    ∃ k', k.closeAll img child slots = some k' ∧ k'.pcbs parent = k.pcbs parent ∧
      ∀ j, j ∈ slots ∨ ((k.pcbs child).fileArray j).flags = 0 →
        ((k'.pcbs child).fileArray j).flags = 0 := by
  induction slots generalizing k with
  | nil => exact ⟨k, rfl, rfl, fun j hj => hj.resolve_left List.not_mem_nil⟩
  | cons i slots ih =>
    have hi := h i List.mem_cons_self
    rcases closeSlot_of_not_both img hcur (hslots i List.mem_cons_self) hi with ⟨k₁, hslot⟩
    rcases closeSlot_spec hcur hne hslot with ⟨hchild, hparent⟩
    have hspared : k₁.pcbs parent = k.pcbs parent := by
      rcases hparent with ⟨hflags, r, hr, heq⟩ | ⟨-, heq⟩
      · rw [sysClose_refused fun hopen => hi ⟨hopen.1, hopen.2.1, hflags, hopen.2.2⟩] at hr
        rw [heq, ← Option.some.inj hr]
      · exact heq
    have hflags : ∀ j, ((k₁.pcbs child).fileArray j).flags =
        if j = i then 0 else ((k.pcbs child).fileArray j).flags := by
      intro j
      rw [hchild, Pcb.setFd_fileArray]
      split <;> rfl
    have hrest : ∀ j ∈ slots, ¬OpenInBoth k₁ child parent j := by
      intro j hj hboth
      apply h j (List.mem_cons_of_mem i hj)
      have hopen := hboth.2.2.1
      rw [hflags] at hopen
      split at hopen
      · exact absurd hopen (by decide)
      · exact ⟨hboth.1, hboth.2.1, hopen, hspared ▸ hboth.2.2.2⟩
    obtain ⟨k', hall, hsame, hclosed⟩ := ih ((quiet_closeSlot hslot).current.trans hcur)
      (fun j hj => hslots j (List.mem_cons_of_mem i hj)) hrest
    refine ⟨k', Option.bind_eq_some_iff.mpr ⟨k₁, hslot, hall⟩, hsame.trans hspared, ?_⟩
    intro j hj
    apply hclosed
    rw [hflags]
    by_cases he : j = i
    · exact .inr (if_pos he)
    · rw [if_neg he]
      exact hj.imp_left fun hmem => (List.mem_cons.mp hmem).resolve_left he

end

/-! ## `halt` -/

-- The state in which the loop starts: the child is gone from the tables.
def Kernel.orphaned (img : Image) (child parent : Int) (k : Kernel) : Kernel :=
  ((k.mapUser img (k.pcbs parent).pId).setEsp0 (k.pcbs parent).pId).deleteProcess child

theorem halt_eq {k : Kernel} {child parent : Int} (h : RunsUnder k child parent) (img : Image)
    (fr : ExecFrame) :
    k.halt img fr =
      ((k.orphaned img child parent).closeAll img child (List.range FILE_ARRAY_LEN)).map fun k =>
        ((k.unmapVideo img).onTerm (Term.putc 0x0A)).execRet img fr := by
  have hneg := h.nonneg
  have hpar := h.parent_nonneg
  unfold Kernel.halt
  simp only [h.current, h.parPId, h.pId]
  rw [if_neg (by omega), if_pos hpar]
  rfl

theorem orphaned_spec {k : Kernel} {child parent : Int} (h : RunsUnder k child parent)
    (img : Image) : (k.orphaned img child parent).pcbs = k.pcbs ∧
      (k.orphaned img child parent).current = parent ∧
      (k.orphaned img child parent).runningTerminal =
        (k.orphaned img child parent).displayTerminal := by
  have hneg := h.nonneg
  have hlt := h.lt
  have henter := sameTables_enter img k (k.pcbs parent).pId
  have hpcbs : ((k.mapUser img (k.pcbs parent).pId).setEsp0 (k.pcbs parent).pId).pcbs = k.pcbs := rfl
  have hterm := henter.running.trans (h.displayed.trans henter.display.symm)
  unfold Kernel.orphaned
  generalize (k.mapUser img (k.pcbs parent).pId).setEsp0 (k.pcbs parent).pId = k₀
    at henter hpcbs hterm
  rw [Kernel.deleteProcess, if_neg (by omega)]
  refine ⟨hpcbs, ?_, hterm⟩
  change Function.update k₀.runningProcs k₀.displayTerminal (k₀.pcbs child).parPId
    k₀.runningTerminal = parent
  rw [hterm, Function.update_self, hpcbs]
  exact h.parPId

-- The parent is foremost again, so nothing is restarted.
theorem pcbs_afterLoop {k : Kernel} (hterm : k.runningTerminal = k.displayTerminal)
    (hcur : 0 ≤ k.current) (img : Image) (fr : ExecFrame) :
    (((k.unmapVideo img).onTerm (Term.putc 0x0A)).execRet img fr).pcbs = k.pcbs := by
  have hunmap := quiet_unmapVideo img k
  have hput : Quiet img (k.unmapVideo img) ((k.unmapVideo img).onTerm (Term.putc 0x0A)) :=
    quiet_onTerm img _ (sameView_putc 0x0A _)
  have hsame := hunmap.trans hput
  have hpcbs : ((k.unmapVideo img).onTerm (Term.putc 0x0A)).pcbs = k.pcbs := by
    unfold Kernel.unmapVideo
    split <;> rfl
  generalize (k.unmapVideo img).onTerm (Term.putc 0x0A) = k₁ at hsame hpcbs
  have hnonneg : ¬k₁.runningProcs k₁.displayTerminal < 0 := by
    rw [hsame.runningProcs, hsame.display, ← hterm]
    exact Int.not_lt.mpr hcur
  rw [Kernel.execRet, if_neg hnonneg]
  exact hpcbs

/-- `halt` leaves the parent's descriptors alone, and closes the child's, exactly when no
descriptor that `close` accepts is open in both. -/
theorem halt_frame_iff (img : Image) (fr : ExecFrame) (k : Kernel) (child parent : Int)
    (h : RunsUnder k child parent) :
    HaltFrame img fr k child parent ↔ ∀ i, ¬OpenInBoth k child parent i := by
  rcases orphaned_spec h img with ⟨hpcbs, hcur, hterm⟩
  have hafter : ∀ k₁, (k.orphaned img child parent).closeAll img child
      (List.range FILE_ARRAY_LEN) = some k₁ →
      (((k₁.unmapVideo img).onTerm (Term.putc 0x0A)).execRet img fr).pcbs = k₁.pcbs := by
    intro k₁ hall
    have hsame := quiet_closeAll hall
    apply pcbs_afterLoop
    · rw [hsame.running, hsame.display, hterm]
    · rw [hsame.current, hcur]
      exact h.parent_nonneg
  unfold HaltFrame
  rw [halt_eq h]
  constructor
  · rintro ⟨k', hhalt, hparent, -⟩ i ⟨hlo, hhi, hopen, hboth⟩
    rcases Option.map_eq_some_iff.mp hhalt with ⟨k₁, hall, rfl⟩
    rw [hafter k₁ hall] at hparent
    apply hboth
    rw [← hparent i hhi]
    rw [← hpcbs] at hopen
    exact closeAll_closes hcur h.parent_ne hall (List.mem_range.mpr hhi) hlo hhi hopen
  · intro hnone
    have hloop : ∀ i ∈ List.range FILE_ARRAY_LEN,
        ¬OpenInBoth (k.orphaned img child parent) child parent i := by
      intro i _
      unfold OpenInBoth
      rw [hpcbs]
      exact hnone i
    obtain ⟨k₁, hall, hsame, hclosed⟩ := closeAll_of_none_both img hcur h.parent_ne
      (fun i hi => List.mem_range.mp hi) hloop
    refine ⟨_, by rw [hall]; rfl, ?_, ?_⟩
    · intro i _
      rw [hafter k₁ hall, hsame, hpcbs]
    · intro i hi
      rw [hafter k₁ hall]
      exact hclosed i (.inl (List.mem_range.mpr hi))

/-! ## A shell started from a shell -/

-- `parentOpens` tells whether the first shell opens a file before it starts the second.
def nestedShells (parentOpens : Bool) : List Event :=
  [.execute (some shellName) zeroFrame] ++
    (if parentOpens then [.open (some shellName)] else []) ++
    [.execute (some shellName) zeroFrame, .open (some shellName)]

theorem nestedShells_runsUnder {parentOpens : Bool} {k : Kernel}
    (hrun : run (kernelStep shellImage) freshKernel (nestedShells parentOpens) = some k)
    (hcur : k.current = 1) (hpar : (k.pcbs 1).parPId = 0) : RunsUnder k 1 0 := by
  rcases run_represents hrun with ⟨d, hok, hrep⟩
  have hunder := hrep.runsUnder hok (by omega) (by rw [hcur, hpar])
  rw [hcur, hpar] at hunder
  exact hunder

theorem halt_frame_idle_parent : ∃ k,
    run (kernelStep shellImage) freshKernel (nestedShells false) = some k ∧ RunsUnder k 1 0 ∧
      ((k.pcbs 1).fileArray 2).flags = 1 ∧ HaltFrame shellImage zeroFrame k 1 0 := by
  have hend : ((run (kernelStep shellImage) freshKernel (nestedShells false)).map fun k =>
      (k.current, (k.pcbs 1).parPId, ((k.pcbs 1).fileArray 2).flags,
        (List.range' 2 6).map fun i => ((k.pcbs 0).fileArray i).flags)) =
      some (1, 0, 1, [0, 0, 0, 0, 0, 0]) := by
    decide +kernel
  rcases Option.map_eq_some_iff.mp hend with ⟨k, hk, hvalues⟩
  simp only [Prod.mk.injEq] at hvalues
  rcases hvalues with ⟨hcur, hpar, hopen, hflags⟩
  have hunder := nestedShells_runsUnder hk hcur hpar
  refine ⟨k, hk, hunder, hopen, (halt_frame_iff shellImage zeroFrame k 1 0 hunder).mpr ?_⟩
  rintro i ⟨hlo, hhi, -, hboth⟩
  have hmem : ((k.pcbs 0).fileArray i).flags ∈
      (List.range' 2 6).map fun i => ((k.pcbs 0).fileArray i).flags :=
    List.mem_map_of_mem (List.mem_range'_1.mpr ⟨hlo, hhi⟩)
  rw [hflags] at hmem
  simp only [List.mem_cons, List.not_mem_nil, or_false, or_self] at hmem
  exact hboth hmem

/-- Both shells have the file open as descriptor 2; the end of the second closes the first's. -/
theorem halt_closes_parent_file : ∃ k,
    run (kernelStep shellImage) freshKernel (nestedShells true) = some k ∧ RunsUnder k 1 0 ∧
      ¬HaltFrame shellImage zeroFrame k 1 0 := by
  have hend : ((run (kernelStep shellImage) freshKernel (nestedShells true)).map fun k =>
      (k.current, (k.pcbs 1).parPId, ((k.pcbs 0).fileArray 2).flags,
        (k.halt shellImage zeroFrame).map fun k' => ((k'.pcbs 0).fileArray 2).flags)) =
      some (1, 0, 1, some 0) := by
    decide +kernel
  rcases Option.map_eq_some_iff.mp hend with ⟨k, hk, hvalues⟩
  simp only [Prod.mk.injEq] at hvalues
  rcases hvalues with ⟨hcur, hpar, hbefore, hafter⟩
  refine ⟨k, hk, nestedShells_runsUnder hk hcur hpar, ?_⟩
  rintro ⟨k', hhalt, hparent, -⟩
  rw [hhalt, Option.map_some, hparent 2 (by decide), hbefore] at hafter
  exact absurd hafter (by decide)

end Kernel391
