import Kernel391.UserPages

/-!
# Whose page `vidmap` maps

The page at `USER_VIDMAP` is one entry of the one page table, and `vidmap_called` is a global that
is never cleared: `execute` leaves the page to the new process, `halt` takes it from whoever has
it, and a process without a parent leaves it behind.  The state below carries, beside the kernel's
own, the processes that have called `vidmap`.
-/

namespace Kernel391

open Machine

/-- The calls by which a process comes, goes and asks for the page. -/
inductive ProcessCall where
  | execute (allArguments : Option CStr) (fr : ExecFrame)
  | halt (fr : ExecFrame)
  | vidmap (screenStart : BitVec 32)

structure VidmapState where
  kernel : Kernel
  called : Int → Bool

/-- The pointers that `vidmap` refuses. -/
def VidmapRefuses (screenStart : BitVec 32) : Prop :=
  screenStart = 0 ∨ screenStart < USER_PROCESS_START_VIRTUAL + USER_PROCESS_IMAGE_OFFSET ∨
    USER_PROCESS_START_VIRTUAL + 0x400000 ≤ screenStart

instance (screenStart : BitVec 32) : Decidable (VidmapRefuses screenStart) :=
  inferInstanceAs (Decidable (_ ∨ _))

def ExecOutcome.isEntered : ExecOutcome → Bool
  | .entered _ => true
  | .returned _ => false

-- A new process has not called `vidmap`, and one that has gone no longer counts.
def vidmapStep (img : Image) (v : VidmapState) : ProcessCall → Option VidmapState
  | .execute allArguments fr =>
      let r := v.kernel.execute img fr allArguments
      some ⟨r.2,
        match r.1 with
        | .entered pid => Function.update v.called pid false
        | .returned _ => v.called⟩
  | .halt fr =>
      (v.kernel.halt img fr).map fun k => ⟨k, Function.update v.called v.kernel.current false⟩
  | .vidmap screenStart =>
      if v.kernel.current < 0 then none
      else
        some ⟨v.kernel.vidmap img screenStart,
          if VidmapRefuses screenStart then v.called
          else Function.update v.called v.kernel.current true⟩

/-- The page leads to the screen. -/
def VidmapMapped (img : Image) (s : Paging) : Prop :=
  ∀ other a, InVidmapPage a →
    translate img.pageTableAddr other s a = some ⟨VIDEO + (a - USER_VIDMAP), true, true⟩

/-- The page is not present. -/
def VidmapAbsent (img : Image) (s : Paging) : Prop :=
  ∀ other a, InVidmapPage a → translate img.pageTableAddr other s a = none

/-- A running process has the page exactly if it has called `vidmap`. -/
structure VidmapSound (img : Image) (v : VidmapState) : Prop where
  mapped : 0 ≤ v.kernel.current → v.called v.kernel.current = true →
    VidmapMapped img v.kernel.paging
  absent : 0 ≤ v.kernel.current → v.called v.kernel.current = false →
    VidmapAbsent img v.kernel.paging

/-- No process starts another one, and none without a parent halts, after it has called `vidmap`. -/
def VidmapFits (img : Image) (v : VidmapState) : ProcessCall → Prop
  | .execute allArguments fr => (v.kernel.execute img fr allArguments).1.isEntered = true →
      v.called v.kernel.current = false
  | .halt _ => v.called v.kernel.current = true → 0 ≤ (v.kernel.pcbs v.kernel.current).parPId
  | .vidmap _ => True

instance (img : Image) (v : VidmapState) : (c : ProcessCall) → Decidable (VidmapFits img v c)
  | .execute .. => inferInstanceAs (Decidable (_ → _))
  | .halt _ => inferInstanceAs (Decidable (_ → _))
  | .vidmap _ => inferInstanceAs (Decidable True)

/-! ## One call -/

/-- Only the running process has called `vidmap`. -/
structure VidmapInv (img : Image) (v : VidmapState) : Prop where
  paging : PagingInv img.pageTableAddr v.kernel.paging
  owner : ∀ p, v.called p = true → p = v.kernel.current
  mapped : v.called v.kernel.current = true →
    VidmapMapped img v.kernel.paging ∧ v.kernel.vidmapCalled = true
  absent : v.called v.kernel.current = false → VidmapAbsent img v.kernel.paging

theorem VidmapInv.sound {img : Image} {v : VidmapState} (h : VidmapInv img v) : VidmapSound img v :=
  ⟨fun _ hcalled => (h.mapped hcalled).1, fun _ hcalled => h.absent hcalled⟩

theorem VidmapAbsent.remap {img : Image} {k k' : Kernel} (h : VidmapAbsent img k.paging)
    (inv : PagingInv img.pageTableAddr k.paging) (hremap : UserRemap img k k') :
    PagingInv img.pageTableAddr k'.paging ∧ VidmapAbsent img k'.paging := by
  have hapart : ∀ a, InVidmapPage a → ¬InUserPage a := by
    intro a hvid huser
    have hlow : USER_VIDMAP.toNat + 2 ^ 12 ≤ USER_PROCESS_START_VIRTUAL.toNat := by decide
    have hlt := hvid.2
    have hle := huser.1
    omega
  have hkeep := hremap.keepsOn hapart inv
  refine ⟨hkeep.1, fun other a ha => ?_⟩
  rw [hkeep.2 other a ha]
  exact h other a ha

/-- Nobody has called `vidmap`, and the page is not there. -/
theorem VidmapInv.of_none {img : Image} {v : VidmapState}
    (hpage : PagingInv img.pageTableAddr v.kernel.paging ∧ VidmapAbsent img v.kernel.paging)
    (hnone : ∀ p, v.called p = false) : VidmapInv img v := by
  refine ⟨hpage.1, ?_, ?_, fun _ => hpage.2⟩
  · intro p hp
    rw [hnone p] at hp
    cases hp
  · intro hp
    rw [hnone] at hp
    cases hp

theorem VidmapInv.others {img : Image} {v : VidmapState} (h : VidmapInv img v) {p : Int}
    (hp : p ≠ v.kernel.current) : v.called p = false := by
  cases hcalled : v.called p with
  | false => rfl
  | true => exact absurd (h.owner p hcalled) hp

theorem VidmapInv.execute {img : Image} {v v' : VidmapState} {allArguments : Option CStr}
    {fr : ExecFrame} (h : VidmapInv img v) (hfits : VidmapFits img v (.execute allArguments fr))
    (hstep : vidmapStep img v (.execute allArguments fr) = some v') : VidmapInv img v' := by
  have hremap := @remap_execute img v.kernel fr allArguments
  have hv' := (Option.some.inj hstep).symm
  rcases hexec : v.kernel.execute img fr allArguments with ⟨value | pid, k'⟩
  · rw [hexec] at hv'
    rcases execute_returned hexec with ⟨text, rfl⟩
    rw [hv']
    exact ⟨h.paging, h.owner, h.mapped, h.absent⟩
  · have hidle : v.called v.kernel.current = false := by
      apply hfits
      rw [hexec]
      rfl
    rw [hexec] at hv' hremap
    rw [hv']
    apply VidmapInv.of_none
    · exact (h.absent hidle).remap h.paging hremap
    · intro p
      show Function.update v.called pid false p = false
      by_cases hp : p = pid
      · rw [hp, Function.update_self]
      · rw [Function.update_of_ne hp]
        by_cases hcur : p = v.kernel.current
        · rw [hcur, hidle]
        · exact h.others hcur

/-- What `halt` leaves of the page before it goes to `exec_ret`. -/
theorem VidmapInv.unmapped {img : Image} {v : VidmapState} {k₂ : Kernel} (h : VidmapInv img v)
    (hleft : UserRemap img v.kernel k₂) :
    PagingInv img.pageTableAddr (k₂.unmapVideo img).paging ∧
      VidmapAbsent img (k₂.unmapVideo img).paging := by
  have hinv : PagingInv img.pageTableAddr k₂.paging :=
    (hleft.keepsOn (P := fun _ => False) (fun _ hfalse => hfalse.elim) h.paging).1
  unfold Kernel.unmapVideo
  split
  · exact translate_unmap img k₂ hinv
  · next hflag =>
    have hidle : v.called v.kernel.current = false := by
      cases hcalled : v.called v.kernel.current with
      | false => rfl
      | true =>
        rw [hleft.called, (h.mapped hcalled).2] at hflag
        exact absurd rfl hflag
    exact (h.absent hidle).remap h.paging hleft

theorem VidmapInv.halt {img : Image} {v v' : VidmapState} {fr : ExecFrame} (h : VidmapInv img v)
    (hfits : VidmapFits img v (.halt fr)) (hstep : vidmapStep img v (.halt fr) = some v') :
    VidmapInv img v' := by
  rcases Option.map_eq_some_iff.mp hstep with ⟨k', hhalt, rfl⟩
  apply VidmapInv.of_none
  · rcases halt_maps hhalt with ⟨-, k₁, hret, ⟨-, k₂, hleft, hunmap⟩ | ⟨hlast, hsame⟩⟩
    · have hpage := h.unmapped hleft
      rw [← hunmap.paging] at hpage
      exact hpage.2.remap hpage.1 hret
    · have hidle : v.called v.kernel.current = false := by
        cases hcalled : v.called v.kernel.current with
        | false => rfl
        | true => exact absurd (hfits hcalled) (Int.not_le.mpr hlast)
      exact (h.absent hidle).remap h.paging (hsame.remap hret)
  · intro p
    show Function.update v.called v.kernel.current false p = false
    by_cases hp : p = v.kernel.current
    · rw [hp, Function.update_self]
    · rw [Function.update_of_ne hp]
      exact h.others hp

theorem VidmapInv.vidmap {img : Image} {v v' : VidmapState} {screenStart : BitVec 32}
    (h : VidmapInv img v) (hstep : vidmapStep img v (.vidmap screenStart) = some v') :
    VidmapInv img v' := by
  unfold vidmapStep at hstep
  dsimp only at hstep
  split at hstep
  · cases hstep
  · rw [← Option.some.inj hstep]
    by_cases hrefuse : VidmapRefuses screenStart
    · have hkernel : v.kernel.vidmap img screenStart = v.kernel := if_pos hrefuse
      rw [hkernel, if_pos hrefuse]
      exact h
    · have hkernel : v.kernel.vidmap img screenStart =
          { v.kernel with vidmapCalled := true }.mapVP img USER_VIDMAP VIDEO 0 := if_neg hrefuse
      have hpage := translate_vidmap img { v.kernel with vidmapCalled := true } h.paging
      rw [hkernel, if_neg hrefuse]
      refine ⟨hpage.1, ?_, fun _ => ⟨hpage.2, rfl⟩, ?_⟩
      · intro p hp
        by_contra hcur
        have hne : p ≠ v.kernel.current := hcur
        have hother : Function.update v.called v.kernel.current true p = false := by
          rw [Function.update_of_ne hne]
          exact h.others hne
        exact absurd (hother.symm.trans hp) (by decide)
      · intro hcalled
        have hself : Function.update v.called v.kernel.current true v.kernel.current = true :=
          Function.update_self ..
        exact absurd (hself.symm.trans hcalled) (by decide)

/-! ## Runs -/

theorem vidmapStep_inv (img : Image) (v : VidmapState) (c : ProcessCall) (v' : VidmapState)
    (h : VidmapInv img v) (hfits : VidmapFits img v c) (hstep : vidmapStep img v c = some v') :
    VidmapInv img v' := by
  cases c with
  | execute allArguments fr => exact h.execute hfits hstep
  | halt fr => exact h.halt hfits hstep
  | vidmap screenStart => exact h.vidmap hstep

theorem vidmap_not_saved (a : BitVec 32) (ha : InVidmapPage a) (t : Nat) (ht : t < MAX_TERMINAL_NUM) :
    ¬(savedCall t).Covers a := by
  intro hcov
  have hlt := (covers_savedCall ht hcov).2
  have hge := ha.1
  omega

theorem vidmapAbsent_schedInit (img : Image) (dev : Devices) (pcbs : Int → Pcb)
    (junkPde junkPte esp0 : BitVec 32) :
    PagingInv img.pageTableAddr ((bootKernel dev pcbs
        (initPaging img.pageTableAddr junkPde junkPte) esp0).schedInit img).paging ∧
      VidmapAbsent img ((bootKernel dev pcbs
        (initPaging img.pageTableAddr junkPde junkPte) esp0).schedInit img).paging := by
  have hmaps := translate_boot img dev pcbs junkPde junkPte esp0
  refine ⟨hmaps.1, fun other a ha => ?_⟩
  have hge : 0xF8000 ≤ a.toNat := ha.1
  have hlt : a.toNat < 0xF8000 + 2 ^ 12 := ha.2
  have hvideo : ¬(⟨VIDEO, VIDEO, 0, 1, 1⟩ : MapCall).Covers a := by
    intro hcov
    have hhi : a.toNat < 0xB8000 + 2 ^ 12 := hcov.2
    omega
  have hkernel : ¬(⟨KERNEL_MEMORY_ADDR, KERNEL_MEMORY_ADDR, 1, 1, 1⟩ : MapCall).Covers a := by
    intro hcov
    have hlo : 0x400000 ≤ a.toNat := hcov.1
    omega
  rw [hmaps.2 other a (vidmap_not_saved a ha), initMap, AddrMap.install, if_neg hvideo,
    AddrMap.install, if_neg hkernel]

/-- In every run that keeps to the condition, the running process has the page at `USER_VIDMAP`
exactly if it has called `vidmap`. -/
theorem vidmap_belongs (img : Image) (dev : Devices) (pcbs : Int → Pcb)
    (junkPde junkPte esp0 : BitVec 32) {calls : List ProcessCall} {v : VidmapState}
    (hfits : Along (vidmapStep img) (VidmapFits img)
      ⟨(bootKernel dev pcbs (initPaging img.pageTableAddr junkPde junkPte) esp0).schedInit img,
        fun _ => false⟩ calls)
    (hrun : run (vidmapStep img)
      ⟨(bootKernel dev pcbs (initPaging img.pageTableAddr junkPde junkPte) esp0).schedInit img,
        fun _ => false⟩ calls = some v) : VidmapSound img v := by
  have hboot := vidmapAbsent_schedInit img dev pcbs junkPde junkPte esp0
  exact (run_invariant (vidmapStep_inv img) (.of_none hboot fun _ => rfl) hfits hrun).sound

-- The start of the program image, a pointer that `vidmap` accepts.
def imageStart : BitVec 32 := 0x8048000

def freshVidmap : VidmapState := ⟨freshKernel, fun _ => false⟩

-- A shell starts a second one, which calls `vidmap` and halts.
theorem vidmap_belongs_child :
    ∃ v, run (vidmapStep shellImage) freshVidmap [.execute (some shellName) zeroFrame,
        .execute (some shellName) zeroFrame, .vidmap imageStart, .halt zeroFrame] = some v ∧
      v.kernel.current = 0 ∧ VidmapAbsent shellImage v.kernel.paging := by
  have hend : ((run (vidmapStep shellImage) freshVidmap [.execute (some shellName) zeroFrame,
      .execute (some shellName) zeroFrame, .vidmap imageStart, .halt zeroFrame]).map
        fun v => (v.kernel.current, v.called 0)) = some (0, false) := by
    decide +kernel
  rcases Option.map_eq_some_iff.mp hend with ⟨v, hrun, hv⟩
  simp only [Prod.mk.injEq] at hv
  have hsound : VidmapSound shellImage v := @vidmap_belongs shellImage idleDevices
    (fun _ => zeroPcb) 0 0 0 _ v (by decide +kernel) hrun
  refine ⟨v, hrun, hv.1, hsound.absent (by omega) ?_⟩
  rw [hv.1, hv.2]

-- The second shell has not called `vidmap`, but finds the page; when it halts the first one has
-- lost it.
theorem vidmap_inherited :
    (∃ v, run (vidmapStep shellImage) freshVidmap [.execute (some shellName) zeroFrame,
        .vidmap imageStart, .execute (some shellName) zeroFrame] = some v ∧
      0 ≤ v.kernel.current ∧ v.called v.kernel.current = false ∧
      ¬VidmapAbsent shellImage v.kernel.paging) ∧
    ∃ v, run (vidmapStep shellImage) freshVidmap [.execute (some shellName) zeroFrame,
        .vidmap imageStart, .execute (some shellName) zeroFrame, .halt zeroFrame] = some v ∧
      0 ≤ v.kernel.current ∧ v.called v.kernel.current = true ∧
      ¬VidmapMapped shellImage v.kernel.paging := by
  have hpage : InVidmapPage USER_VIDMAP := ⟨Nat.le_refl _, by decide⟩
  constructor
  · have hend : ((run (vidmapStep shellImage) freshVidmap [.execute (some shellName) zeroFrame,
        .vidmap imageStart, .execute (some shellName) zeroFrame]).map fun v =>
          (v.kernel.current, v.called v.kernel.current,
            translate 0x403000 (fun _ _ => 0) v.kernel.paging USER_VIDMAP)) =
        some (1, false, some ⟨VIDEO, true, true⟩) := by
      decide +kernel
    rcases Option.map_eq_some_iff.mp hend with ⟨v, hrun, hv⟩
    simp only [Prod.mk.injEq] at hv
    refine ⟨v, hrun, by omega, hv.2.1, fun habsent => ?_⟩
    have hnone := habsent (fun _ _ => 0) USER_VIDMAP hpage
    exact absurd (hv.2.2.symm.trans hnone) (by decide)
  · have hend : ((run (vidmapStep shellImage) freshVidmap [.execute (some shellName) zeroFrame,
        .vidmap imageStart, .execute (some shellName) zeroFrame, .halt zeroFrame]).map fun v =>
          (v.kernel.current, v.called v.kernel.current,
            translate 0x403000 (fun _ _ => 0) v.kernel.paging USER_VIDMAP)) =
        some (0, true, none) := by
      decide +kernel
    rcases Option.map_eq_some_iff.mp hend with ⟨v, hrun, hv⟩
    simp only [Prod.mk.injEq] at hv
    refine ⟨v, hrun, by omega, hv.2.1, fun hmapped => ?_⟩
    have hsome := hmapped (fun _ _ => 0) USER_VIDMAP hpage
    exact absurd (hv.2.2.symm.trans hsome) (by decide)

end Kernel391
