import Kernel391.ShellSlots

/-!
# The address space of the running process

The running process sees its own program page at 128MB and writes to the screen that is shown.
The page is mapped by `execute`, `halt` and `switch_running_terminal`, each on some of its paths;
that it belongs to the running process is kept by every move of the kernel.
-/

namespace Kernel391

open Machine Relation

/-- The 4MB at 128MB are the physical memory of process `pid`. -/
def UserPage (pageTableAddr : BitVec 32) (pid : Int) (s : Paging) : Prop :=
  ∀ other a, USER_PROCESS_START_VIRTUAL.toNat ≤ a.toNat →
    a.toNat < USER_PROCESS_START_VIRTUAL.toNat + 2 ^ 22 →
      translate pageTableAddr other s a =
        some ⟨BitVec.ofInt 32 (USER_PROCESS_START_PHYSICAL + pid * USER_PROCESS_SIZE) +
          (a - USER_PROCESS_START_VIRTUAL), true, true⟩

/-- What a running process relies on. -/
structure Coherent (img : Image) (k : Kernel) : Prop where
  focused : k.runningTerminal = k.displayTerminal
  pcb : (k.pcbs k.current).pId = k.current
  page : UserPage img.pageTableAddr k.current k.paging
  video : k.dev.term.screen.videoMem = VIDEO.toNat

/-- The part of it that the moves of the kernel keep on their own. -/
structure Mapped (img : Image) (k : Kernel) : Prop where
  paging : PagingInv img.pageTableAddr k.paging
  page : 0 ≤ k.current → UserPage img.pageTableAddr k.current k.paging
  video : k.dev.term.screen.videoMem = VIDEO.toNat

/-! ## The program page -/

theorem userPage_accepted : ∀ i < MAX_DEVICES,
    mapRefuses USER_PROCESS_START_VIRTUAL
        (BitVec.ofInt 32 (USER_PROCESS_START_PHYSICAL + (i : Int) * USER_PROCESS_SIZE)) 1 = false ∧
      BitVec.ofInt 32 (USER_PROCESS_START_PHYSICAL + (i : Int) * USER_PROCESS_SIZE) ≠ 0 ∧
      (BitVec.ofInt 32 (USER_PROCESS_START_PHYSICAL + (i : Int) * USER_PROCESS_SIZE)).toNat %
        2 ^ 22 = 0 := by
  decide

/-- Once the page of a process is mapped it is there, in any state of the tables. -/
theorem userPage_mapUser (img : Image) (k : Kernel) {i : Nat} (hi : i < MAX_DEVICES) :
    UserPage img.pageTableAddr i (k.mapUser img i).paging := by
  rcases userPage_accepted i hi with ⟨hok, hne, hpa⟩
  rw [mapUser_paging]
  exact translate_mapVP_big hok hne (by decide) hpa

theorem mapUser_page {img : Image} {k : Kernel} (inv : PagingInv img.pageTableAddr k.paging)
    {i : Nat} (hi : i < MAX_DEVICES) :
    PagingInv img.pageTableAddr (k.mapUser img i).paging ∧
      UserPage img.pageTableAddr i (k.mapUser img i).paging := by
  rcases userPage_accepted i hi with ⟨hok, -, -⟩
  refine ⟨?_, userPage_mapUser img k hi⟩
  rw [mapUser_paging]
  exact mapVP_big_inv inv hok (by decide)

theorem UserPage.congr {pageTableAddr : BitVec 32} {pid : Int} {s s' : Paging}
    (inv : PagingInv pageTableAddr s) (h : UserPage pageTableAddr pid s)
    (hkeep : KeepsHigh pageTableAddr s s') : UserPage pageTableAddr pid s' := by
  intro other a hlo hhi
  have hstart : USER_PROCESS_START_VIRTUAL.toNat = 2 ^ 27 := by decide
  rw [(hkeep inv).2 other a (by omega)]
  exact h other a hlo hhi

/-! ## Moves -/

section

variable {img : Image} {k k' : Kernel} {d : Desk (Fin 3) Int}

theorem Mapped.quiet (h : Mapped img k) (hquiet : Quiet img k k') : Mapped img k' where
  paging := (hquiet.paging h.paging).1
  page hcur := by
    rw [hquiet.current] at hcur ⊢
    exact (h.page hcur).congr h.paging hquiet.paging
  video := hquiet.videoMem.trans h.video

/-- Mapping the page of the process that is to run next. -/
theorem Mapped.of_mapUser (h : Mapped img k) {i : Nat} (hi : i < MAX_DEVICES)
    (hpaging : k'.paging = (k.mapUser img i).paging) (hcur : k'.current = i)
    (hvideo : k'.dev.term.screen.videoMem = VIDEO.toNat) : Mapped img k' := by
  have hpage := mapUser_page h.paging hi
  rw [← hpaging] at hpage
  refine ⟨hpage.1, fun _ => ?_, hvideo⟩
  rw [hcur]
  exact hpage.2

theorem Mapped.start (h : Mapped img k) {i : Nat} (hi : i < MAX_DEVICES) (fr : ExecFrame)
    (args : CStr) : Mapped img ((k.takePid i).startProcess img fr args i k.current) := by
  have hquiet := quiet_startProcess img (k.takePid i) fr args i k.current
  have henter : Mapped img ((((k.takePid i).setPcb i
      ((k.takePid i).newPcb img fr args i k.current)).mapUser img i).setEsp0 i) := by
    apply h.of_mapUser hi
    · rw [setEsp0_paging]
      exact mapUser_congr img i rfl
    · exact Function.update_self ..
    · exact h.video
  exact henter.quiet hquiet

theorem Mapped.finish (h : Mapped img k) (hbooked : Booked k d)
    (hfocus : k.runningTerminal = k.displayTerminal) (hcur : 0 ≤ k.current) {parent : Int}
    (hpar : (k.pcbs k.current).parPId = parent) (hparent : 0 ≤ parent) :
    Mapped img (((k.mapUser img (k.pcbs parent).pId).setEsp0
      (k.pcbs parent).pId).deleteProcess (k.pcbs k.current).pId) := by
  rcases hbooked.finish hfocus hcur hpar hparent with ⟨i, hi, hnumber, hleft⟩
  rcases deleteProcess_frame ((k.mapUser img (k.pcbs parent).pId).setEsp0 (k.pcbs parent).pId)
    (k.pcbs k.current).pId with ⟨-, hdev, hpaging, -⟩
  apply h.of_mapUser hi
  · rw [hpaging, setEsp0_paging, hnumber]
  · exact hleft
  · rw [hdev]
    exact h.video

theorem Mapped.move (h : Mapped img k) (hbooked : Booked k d) (hm : KernelMove img false k k') :
    Mapped img k' := by
  rcases hm with hm | hm
  · cases hm with
    | quiet hquiet => exact h.quiet hquiet
    | start i hroom hfree fr args => exact h.start (freePid_eq_some hfree).1 fr args
    | finish parent hfocus hcur hpar hparent => exact h.finish hbooked hfocus hcur hpar hparent
    | finishLast hfocus hcur hlast =>
      -- nothing is left on the terminal
      rcases deleteProcess_frame k (k.pcbs k.current).pId with ⟨-, hdev, hpaging, -⟩
      have hleft := hbooked.toStacked.current_deleteProcess hbooked.running hfocus hcur
      refine ⟨hpaging ▸ h.paging, fun hlive => ?_, ?_⟩
      · omega
      · rw [hdev]
        exact h.video
  · cases hm with
    | display t =>
      exact ⟨h.paging, h.page, (switchDisplayTerminal_videoMem t k.dev.term).trans h.video⟩
    | idle t hfocus hempty =>
      have hshown : (t : Nat) = k.displayTerminal := by simpa using hfocus
      refine ⟨h.paging, fun hlive => absurd hempty (Int.not_lt.mpr hlive), ?_⟩
      show k.videoAddr t = VIDEO.toNat
      rw [Kernel.videoAddr, if_pos (congrArg Nat.cast hshown)]
    | task t hfocus r hnext hcur =>
      have hshown : (t : Nat) = k.displayTerminal := by simpa using hfocus
      rcases hbooked.toStacked.foremost hnext with ⟨i, hi, htop, -, -, hterm, -⟩
      rw [htop]
      apply h.of_mapUser hi
      · rw [switchTask_paging]
      · exact htop
      · rw [switchTask_videoMem, Int.toNat_natCast, hterm, Kernel.videoAddr,
          if_pos (congrArg Nat.cast hshown)]

end

/-! ## Every reachable state -/

-- `sched_init` maps the saved pages one by one, below the program pages.
theorem initTerminal_machine {img : Image} {k : Kernel}
    (h : PagingInv img.pageTableAddr k.paging ∧ k.dev.term.screen.videoMem = VIDEO.toNat) (t : Nat) :
    PagingInv img.pageTableAddr (k.initTerminal img t).paging ∧
      (k.initTerminal img t).dev.term.screen.videoMem = VIDEO.toNat := by
  have hpaging : (k.initTerminal img t).paging = (mapVP img.pageTableAddr
      (BitVec.ofInt 32 (getTermVidAddr t)) (BitVec.ofInt 32 (getTermVidAddr t)) 0 1 1 k.paging).2 := by
    simp only [Kernel.initTerminal, Kernel.onTerm, Kernel.mapVP]
  have hvideo : (k.initTerminal img t).dev.term.screen.videoMem =
      k.dev.term.screen.videoMem := by
    simp only [Kernel.initTerminal, Kernel.onTerm, Kernel.mapVP, Term.onScreen]
  rw [hpaging, hvideo]
  exact ⟨(keepsHigh_mapVP _ _ _ _ _ _ h.1).1, h.2⟩

theorem mapped_schedInit (img : Image) {dev : Devices}
    (hvideo : dev.term.screen.videoMem = VIDEO.toNat) (pcbs : Int → Pcb)
    (junkPde junkPte esp0 : BitVec 32) :
    Mapped img ((bootKernel dev pcbs (initPaging img.pageTableAddr junkPde junkPte)
      esp0).schedInit img) := by
  have hempty := current_schedInit img dev pcbs (initPaging img.pageTableAddr junkPde junkPte) esp0
  have hinit := (@refines_init img.pageTableAddr (fun _ _ => 0) junkPde junkPte).inv
  have hmachine : PagingInv img.pageTableAddr ((bootKernel dev pcbs
      (initPaging img.pageTableAddr junkPde junkPte) esp0).schedInit img).paging ∧
      ((bootKernel dev pcbs (initPaging img.pageTableAddr junkPde junkPte)
        esp0).schedInit img).dev.term.screen.videoMem = VIDEO.toNat := by
    unfold Kernel.schedInit
    exact initTerminal_machine (initTerminal_machine (initTerminal_machine ⟨hinit, hvideo⟩ 0) 1) 2
  exact ⟨hmachine.1, fun hlive => by omega, hmachine.2⟩

theorem Mapped.moves {img : Image} {k k' : Kernel} {d : Desk (Fin 3) Int} (h : Mapped img k)
    (hbooked : Booked k d) (hm : ReflTransGen (KernelMove img false) k k') :
    Mapped img k' ∧ ∃ d', Booked k' d' := by
  induction hm with
  | refl => exact ⟨h, d, hbooked⟩
  | tail _ hmove ih =>
    rcases ih with ⟨h₁, d₁, hbooked₁⟩
    exact ⟨h₁.move hbooked₁ hmove, hbooked₁.moves (.single hmove)⟩

/-- From boot on, with `video_mem` where its initialiser puts it, the address space is that of the
running process after any sequence of events. -/
theorem address_space_coherent (img : Image) (dev : Devices)
    (hvideo : dev.term.screen.videoMem = VIDEO.toNat) (pcbs : Int → Pcb)
    (junkPde junkPte esp0 : BitVec 32) (es : List Event) (k : Kernel)
    (hrun : run (kernelStep img) ((bootKernel dev pcbs (initPaging img.pageTableAddr junkPde junkPte)
      esp0).schedInit img) es = some k) (hcur : 0 ≤ k.current) : Coherent img k := by
  have hstep : ∀ k e k', (Mapped img k ∧ (∃ d, Booked k d) ∧ Focused k) → True →
      kernelStep img k e = some k' → Mapped img k' ∧ (∃ d, Booked k' d) ∧ Focused k' := by
    rintro k e k' ⟨hmapped, ⟨d, hbooked⟩, hfocus⟩ - he
    rcases kernelStep_moves hfocus he with ⟨hmoves, hfocus'⟩
    rcases hmapped.moves hbooked hmoves with ⟨hmapped', hbooked'⟩
    exact ⟨hmapped', hbooked', hfocus'⟩
  have hboot := booked_schedInit img dev pcbs (initPaging img.pageTableAddr junkPde junkPte) esp0
  have hfocus := (represents_schedInit img dev pcbs
    (initPaging img.pageTableAddr junkPde junkPte) esp0).focused
  have hmapped := mapped_schedInit img hvideo pcbs junkPde junkPte esp0
  rcases run_invariant hstep ⟨hmapped, ⟨emptyDesk, hboot⟩, hfocus⟩
    (along_of_forall fun _ _ => trivial) hrun with ⟨hend, ⟨d, hbooked⟩, hfocused⟩
  have hlive : 0 ≤ k.runningProcs d.shown := hbooked.running ▸ hcur
  rcases hbooked.toStacked.foremost hlive with ⟨i, -, htop, hpid, -⟩
  have hcuri : k.current = i := by
    rw [Kernel.current, hbooked.running, htop]
  refine ⟨hfocused.running, ?_, hend.page hcur, hend.video⟩
  rw [hcuri]
  exact hpid

-- Process 2, the new terminal's shell after a restart, sees physical 16MB at 128MB.
theorem address_space_coherent_session :
    ∃ k, run (kernelStep shellImage) freshKernel sessionEvents = some k ∧ k.current = 2 ∧
      Coherent shellImage k := by
  have hend : ((run (kernelStep shellImage) freshKernel sessionEvents).map Kernel.current) =
      some 2 := by
    decide +kernel
  rcases Option.map_eq_some_iff.mp hend with ⟨k, hk, hcur⟩
  exact ⟨k, hk, hcur, address_space_coherent shellImage idleDevices (by decide) (fun _ => zeroPcb)
    0 0 0 sessionEvents k hk (by omega)⟩

end Kernel391
