import Kernel391.Vidmap

/-!
# What user mode can reach

Every call of `map_v_p` in the kernel passes 1 for `user_supervisor`, the one for the kernel's own
page in `init_paging` included, and no later call names that page again.
-/

namespace Kernel391

open Machine

/-- The calls that change mappings. -/
inductive MapEvent where
  | call (c : ProcessCall)
  | switch (next : Nat) (r : Regs)

def mapStep (img : Image) (k : Kernel) : MapEvent → Option Kernel
  | .call (.execute allArguments fr) => some (k.execute img fr allArguments).2
  | .call (.halt fr) => k.halt img fr
  | .call (.vidmap screenStart) => some (k.vidmap img screenStart)
  | .switch next r => (k.switchRunningTerminal img next r).map Prod.snd

/-- User mode reaches its program page and the page of `vidmap`, at most. -/
def UserConfined (img : Image) (k : Kernel) : Prop :=
  ∀ other a m, translate img.pageTableAddr other k.paging a = some m → m.user = true →
    InUserPage a ∨ InVidmapPage a

def InKernelPage (a : BitVec 32) : Prop :=
  KERNEL_MEMORY_ADDR.toNat ≤ a.toNat ∧ a.toNat < KERNEL_MEMORY_ADDR.toNat + 2 ^ 22

theorem InKernelPage.not_user {a : BitVec 32} (h : InKernelPage a) : ¬InUserPage a := by
  intro huser
  have hlt : a.toNat < 0x400000 + 2 ^ 22 := h.2
  have hge : 0x8000000 ≤ a.toNat := huser.1
  omega

theorem InKernelPage.not_vidmap {a : BitVec 32} (h : InKernelPage a) : ¬InVidmapPage a := by
  intro hvid
  have hge : 0x400000 ≤ a.toNat := h.1
  have hlt : a.toNat < 0xF8000 + 2 ^ 12 := hvid.2
  omega

/-- No call after boot changes the mapping of the kernel's page. -/
theorem mapStep_keepsKernel {img : Image} {k k' : Kernel} {e : MapEvent}
    (h : mapStep img k e = some k') :
    KeepsOn img.pageTableAddr InKernelPage k.paging k'.paging := by
  have huser : ∀ a, InKernelPage a → ¬InUserPage a := fun _ ha => ha.not_user
  have hvidmap : ∀ a, InKernelPage a → ¬InVidmapPage a := fun _ ha => ha.not_vidmap
  rcases e with (⟨allArguments, fr⟩ | fr | screenStart) | ⟨next, r⟩
  · rw [← Option.some.inj h]
    exact (remap_execute fr allArguments).keepsOn huser
  · rcases halt_maps h with ⟨-, k₁, hret, ⟨-, k₂, hleft, hunmap⟩ | ⟨-, hsame⟩⟩
    · have hvideo : KeepsOn img.pageTableAddr InKernelPage k₂.paging (k₂.unmapVideo img).paging := by
        unfold Kernel.unmapVideo
        split
        · exact keepsOn_mapVidmap img k₂ hvidmap 0
        · exact .refl _ _ _
      rw [← hunmap.paging] at hvideo
      exact ((hleft.keepsOn huser).trans hvideo).trans (hret.keepsOn huser)
    · exact (hsame.remap hret).keepsOn huser
  · rw [← Option.some.inj h]
    unfold Kernel.vidmap
    split
    · exact .refl _ _ _
    · exact keepsOn_mapVidmap img { k with vidmapCalled := true } hvidmap VIDEO
  · rcases Option.map_eq_some_iff.mp h with ⟨s, hswitch, rfl⟩
    exact (remap_switchRunningTerminal hswitch).keepsOn huser

/-- The kernel's page leads to itself, with all rights for user mode. -/
def KernelPageOpen (img : Image) (k : Kernel) : Prop :=
  PagingInv img.pageTableAddr k.paging ∧ ∀ other a, InKernelPage a →
    translate img.pageTableAddr other k.paging a = some ⟨a, true, true⟩

theorem KernelPageOpen.keeps {img : Image} {k k' : Kernel} (h : KernelPageOpen img k)
    (hkeep : KeepsOn img.pageTableAddr InKernelPage k.paging k'.paging) : KernelPageOpen img k' := by
  have hmaps := hkeep h.1
  refine ⟨hmaps.1, fun other a ha => ?_⟩
  rw [hmaps.2 other a ha]
  exact h.2 other a ha

theorem KernelPageOpen.not_confined {img : Image} {k : Kernel} (h : KernelPageOpen img k) :
    ¬UserConfined img k := by
  intro hconfined
  have hin : InKernelPage KERNEL_MEMORY_ADDR := ⟨Nat.le_refl _, by decide⟩
  have hopen := h.2 (fun _ _ => 0) KERNEL_MEMORY_ADDR hin
  rcases hconfined _ _ _ hopen rfl with huser | hvid
  · exact hin.not_user huser
  · exact hin.not_vidmap hvid

theorem kernelPageOpen_schedInit (img : Image) (dev : Devices) (pcbs : Int → Pcb)
    (junkPde junkPte esp0 : BitVec 32) :
    KernelPageOpen img ((bootKernel dev pcbs (initPaging img.pageTableAddr junkPde junkPte)
      esp0).schedInit img) := by
  have hsaved : ∀ a, InKernelPage a → ∀ t < MAX_TERMINAL_NUM, ¬(savedCall t).Covers a := by
    intro a ha t ht hcov
    have hlt : a.toNat < 0xF8000 := (covers_savedCall ht hcov).2
    have hge : 0x400000 ≤ a.toNat := ha.1
    omega
  have hmaps := translate_boot img dev pcbs junkPde junkPte esp0
  refine ⟨hmaps.1, fun other a ha => ?_⟩
  have hvideo : ¬(⟨VIDEO, VIDEO, 0, 1, 1⟩ : MapCall).Covers a := by
    intro hcov
    have hlt : a.toNat < 0xB8000 + 2 ^ 12 := hcov.2
    have hge : 0x400000 ≤ a.toNat := ha.1
    omega
  have hkernel : (⟨KERNEL_MEMORY_ADDR, KERNEL_MEMORY_ADDR, 1, 1, 1⟩ : MapCall).Covers a := ha
  have hself : KERNEL_MEMORY_ADDR + (a - KERNEL_MEMORY_ADDR) = a := by
    rw [BitVec.add_comm, BitVec.sub_add_cancel]
  rw [hmaps.2 other a (hsaved a ha), initMap, AddrMap.install, if_neg hvideo, AddrMap.install, if_pos hkernel,
    if_neg (show ¬KERNEL_MEMORY_ADDR = 0 by decide), hself]
  rfl

/-- After boot and any sequence of calls, the kernel's page with all control blocks and the page
tables is open to user mode. -/
theorem kernel_page_exposed (img : Image) (dev : Devices) (pcbs : Int → Pcb)
    (junkPde junkPte esp0 : BitVec 32) {es : List MapEvent} {k : Kernel}
    (hrun : run (mapStep img) ((bootKernel dev pcbs (initPaging img.pageTableAddr junkPde junkPte)
      esp0).schedInit img) es = some k) :
    (∀ other a, InKernelPage a →
      translate img.pageTableAddr other k.paging a = some ⟨a, true, true⟩) ∧
    ¬UserConfined img k := by
  have hstep : ∀ k e k', KernelPageOpen img k → True → mapStep img k e = some k' →
      KernelPageOpen img k' := fun k e k' h _ he => h.keeps (mapStep_keepsKernel he)
  have hopen := run_invariant hstep (kernelPageOpen_schedInit img dev pcbs junkPde junkPte esp0)
    (along_of_forall fun _ _ => trivial) hrun
  exact ⟨hopen.2, hopen.not_confined⟩

theorem kernel_page_exposed_shell :
    ∃ k, run (mapStep shellImage) freshKernel [.call (.execute (some shellName) zeroFrame)] =
      some k ∧ ¬UserConfined shellImage k :=
  ⟨_, rfl, (@kernel_page_exposed shellImage idleDevices (fun _ => zeroPcb) 0 0 0
    [.call (.execute (some shellName) zeroFrame)] _ rfl).2⟩

-- The last control block starts at 8MB - 8KB.
theorem kernel_page_not_confined :
    translate 0x403000 (fun _ _ => 0) freshKernel.paging 0x7FE000 = some ⟨0x7FE000, true, true⟩ ∧
      ¬UserConfined shellImage freshKernel := by
  have hend : translate 0x403000 (fun _ _ => 0) freshKernel.paging 0x7FE000 =
      some ⟨0x7FE000, true, true⟩ := by
    decide +kernel
  refine ⟨hend, fun hconfined => ?_⟩
  rcases hconfined _ _ _ hend rfl with huser | hvid
  · exact absurd huser.1 (by decide)
  · exact absurd hvid.2 (by decide)

end Kernel391
