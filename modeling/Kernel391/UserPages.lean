import Kernel391.AddressSpace

/-!
# Which mappings the process calls change

After boot the page tables change in two places only: the program page at 128MB, which follows
the running process, and the page at `USER_VIDMAP`.  What follows is what `execute`, `halt`,
`vidmap` and `switch_running_terminal` do to each of them, in any state of the process tables.
-/

namespace Kernel391

open Machine

/-- Both states are well formed if the first is, and translate the addresses in `P` alike. -/
def KeepsOn (pageTableAddr : BitVec 32) (P : BitVec 32 → Prop) (s s' : Paging) : Prop :=
  PagingInv pageTableAddr s → PagingInv pageTableAddr s' ∧
    ∀ other a, P a → translate pageTableAddr other s' a = translate pageTableAddr other s a

def InUserPage (a : BitVec 32) : Prop :=
  USER_PROCESS_START_VIRTUAL.toNat ≤ a.toNat ∧
    a.toNat < USER_PROCESS_START_VIRTUAL.toNat + 2 ^ 22

def InVidmapPage (a : BitVec 32) : Prop :=
  USER_VIDMAP.toNat ≤ a.toNat ∧ a.toNat < USER_VIDMAP.toNat + 2 ^ 12

section

variable {pageTableAddr : BitVec 32} {P : BitVec 32 → Prop} {s s' s'' : Paging}

theorem KeepsOn.refl (pageTableAddr : BitVec 32) (P : BitVec 32 → Prop) (s : Paging) :
    KeepsOn pageTableAddr P s s :=
  fun inv => ⟨inv, fun _ _ _ => rfl⟩

theorem KeepsOn.trans (h : KeepsOn pageTableAddr P s s') (h' : KeepsOn pageTableAddr P s' s'') :
    KeepsOn pageTableAddr P s s'' := by
  intro inv
  have hfirst := h inv
  have hsecond := h' hfirst.1
  exact ⟨hsecond.1, fun other a ha => (hsecond.2 other a ha).trans (hfirst.2 other a ha)⟩

/-- The translation after one call with aligned addresses. -/
theorem translate_exec (inv : PagingInv pageTableAddr s) {c : MapCall} (hal : c.Aligned) :
    PagingInv pageTableAddr (c.exec pageTableAddr s).2 ∧
      ∀ other a, translate pageTableAddr other (c.exec pageTableAddr s).2 a =
        (AddrMap.record (translate pageTableAddr other s) c (c.exec pageTableAddr s).1) a := by
  have hexec : ∀ other, Refines pageTableAddr other (c.exec pageTableAddr s).2
      (AddrMap.record (translate pageTableAddr other s) c (c.exec pageTableAddr s).1) := by
    intro other
    exact Refines.exec ⟨inv, fun _ => rfl⟩ hal
  exact ⟨(hexec fun _ _ => 0).inv, fun other => (hexec other).agree⟩

/-- A call leaves every address alone that its page does not cover. -/
theorem keepsOn_exec {c : MapCall} (hal : c.Aligned) (hP : ∀ a, P a → ¬c.Covers a) (s : Paging) :
    KeepsOn pageTableAddr P s (c.exec pageTableAddr s).2 := by
  intro inv
  have hexec := translate_exec inv hal
  refine ⟨hexec.1, fun other a ha => ?_⟩
  rw [hexec.2, AddrMap.record]
  split
  · rw [AddrMap.install, if_neg (hP a ha)]
  · rfl

end

/-! ## The two pages -/

section

variable (img : Image) (k : Kernel)

/-- The call that maps the program page of a process. -/
def userCall (pid : Int) : MapCall :=
  ⟨USER_PROCESS_START_VIRTUAL, BitVec.ofInt 32 (USER_PROCESS_START_PHYSICAL + pid * USER_PROCESS_SIZE),
    1, 1, 1⟩

/-- The calls of `vidmap` and of `halt` on the page of video memory. -/
def vidmapCall (physicalAddr : BitVec 32) : MapCall := ⟨USER_VIDMAP, physicalAddr, 0, 1, 1⟩

theorem userCall_aligned (pid : Int) : (userCall pid).Aligned := by
  intro _
  refine ⟨show USER_PROCESS_START_VIRTUAL.toNat % 2 ^ 22 = 0 by decide, ?_⟩
  show (BitVec.ofInt 32 (0x800000 + pid * 0x400000)).toNat % 2 ^ 22 = 0
  rw [BitVec.toNat_ofInt]
  omega

theorem vidmapCall_aligned (physicalAddr : BitVec 32) : (vidmapCall physicalAddr).Aligned :=
  fun h => absurd h (show ¬(0 : BitVec 32) = 1 by decide)

theorem mapUser_exec (pid : Int) :
    (k.mapUser img pid).paging = ((userCall pid).exec img.pageTableAddr k.paging).2 := by
  rw [mapUser_paging, MapCall.exec, userCall]

theorem mapVidmap_exec (physicalAddr : BitVec 32) :
    (k.mapVP img USER_VIDMAP physicalAddr 0).paging =
      ((vidmapCall physicalAddr).exec img.pageTableAddr k.paging).2 := by
  simp only [Kernel.mapVP, MapCall.exec, vidmapCall]

theorem covers_userCall (pid : Int) (a : BitVec 32) : (userCall pid).Covers a ↔ InUserPage a :=
  Iff.rfl

theorem covers_vidmapCall (physicalAddr a : BitVec 32) :
    (vidmapCall physicalAddr).Covers a ↔ InVidmapPage a :=
  Iff.rfl

theorem keepsOn_mapUser {P : BitVec 32 → Prop} (hP : ∀ a, P a → ¬InUserPage a) (pid : Int) :
    KeepsOn img.pageTableAddr P k.paging (k.mapUser img pid).paging := by
  rw [mapUser_exec]
  exact keepsOn_exec (userCall_aligned pid) (fun a ha hcov => hP a ha ((covers_userCall pid a).mp hcov))
    k.paging

theorem keepsOn_mapVidmap {P : BitVec 32 → Prop} (hP : ∀ a, P a → ¬InVidmapPage a)
    (physicalAddr : BitVec 32) :
    KeepsOn img.pageTableAddr P k.paging (k.mapVP img USER_VIDMAP physicalAddr 0).paging := by
  rw [mapVidmap_exec]
  exact keepsOn_exec (vidmapCall_aligned physicalAddr)
    (fun a ha hcov => hP a ha ((covers_vidmapCall physicalAddr a).mp hcov)) k.paging

/-- The page of video memory, once mapped. -/
theorem translate_vidmap (inv : PagingInv img.pageTableAddr k.paging) :
    PagingInv img.pageTableAddr (k.mapVP img USER_VIDMAP VIDEO 0).paging ∧
      ∀ other a, InVidmapPage a →
        translate img.pageTableAddr other (k.mapVP img USER_VIDMAP VIDEO 0).paging a =
          some ⟨VIDEO + (a - USER_VIDMAP), true, true⟩ := by
  have hexec := translate_exec inv (vidmapCall_aligned VIDEO)
  have hret : ((vidmapCall VIDEO).exec img.pageTableAddr k.paging).1 = 0 := rfl
  rw [mapVidmap_exec]
  refine ⟨hexec.1, fun other a ha => ?_⟩
  rw [hexec.2, AddrMap.record, if_pos hret, AddrMap.install,
    if_pos ((covers_vidmapCall VIDEO a).mpr ha), if_neg (by decide)]
  rfl

/-- The page of video memory, once unmapped. -/
theorem translate_unmap (inv : PagingInv img.pageTableAddr k.paging) :
    PagingInv img.pageTableAddr (k.mapVP img USER_VIDMAP 0 0).paging ∧
      ∀ other a, InVidmapPage a →
        translate img.pageTableAddr other (k.mapVP img USER_VIDMAP 0 0).paging a = none := by
  have hexec := translate_exec inv (vidmapCall_aligned 0)
  have hret : ((vidmapCall 0).exec img.pageTableAddr k.paging).1 = 0 := rfl
  rw [mapVidmap_exec]
  refine ⟨hexec.1, fun other a ha => ?_⟩
  rw [hexec.2, AddrMap.record, if_pos hret, AddrMap.install,
    if_pos ((covers_vidmapCall 0 a).mpr ha)]
  exact if_pos rfl

end

/-! ## The calls -/

/-- Neither the page tables nor `vidmap_called` changed. -/
structure SameMaps (k k' : Kernel) : Prop where
  paging : k'.paging = k.paging
  called : k'.vidmapCalled = k.vidmapCalled

/-- At most the program page changed. -/
structure UserRemap (img : Image) (k k' : Kernel) : Prop where
  paging : k'.paging = k.paging ∨ ∃ pid, k'.paging = (k.mapUser img pid).paging
  called : k'.vidmapCalled = k.vidmapCalled

theorem SameMaps.trans {k k' k'' : Kernel} (h : SameMaps k k') (h' : SameMaps k' k'') :
    SameMaps k k'' :=
  ⟨h'.paging.trans h.paging, h'.called.trans h.called⟩

section

variable {img : Image} {k k' k'' : Kernel}

theorem UserRemap.of_same (h : SameMaps k k') : UserRemap img k k' := ⟨.inl h.paging, h.called⟩

theorem UserRemap.same (h : UserRemap img k k') (h' : SameMaps k' k'') : UserRemap img k k'' := by
  refine ⟨?_, h'.called.trans h.called⟩
  rw [h'.paging]
  exact h.paging

theorem SameMaps.remap (h : SameMaps k k') (h' : UserRemap img k' k'') : UserRemap img k k'' := by
  refine ⟨?_, h'.called.trans h.called⟩
  rcases h'.paging with hsame | ⟨pid, hpage⟩
  · exact .inl (hsame.trans h.paging)
  · exact .inr ⟨pid, hpage.trans (mapUser_congr img pid h.paging)⟩

theorem UserRemap.keepsOn (h : UserRemap img k k') {P : BitVec 32 → Prop}
    (hP : ∀ a, P a → ¬InUserPage a) : KeepsOn img.pageTableAddr P k.paging k'.paging := by
  rcases h.paging with hsame | ⟨pid, hpage⟩
  · rw [hsame]
    exact .refl _ P _
  · rw [hpage]
    exact keepsOn_mapUser img k hP pid

theorem sameMaps_onTerm (f : Term → Term) : SameMaps k (k.onTerm f) := ⟨rfl, rfl⟩

theorem sameMaps_printf (text : List UInt8) : SameMaps k (k.printf text) := sameMaps_onTerm _

theorem sameMaps_deleteProcess (pid : Int) : SameMaps k (k.deleteProcess pid) := by
  refine ⟨(deleteProcess_frame k pid).2.2.1, ?_⟩
  unfold Kernel.deleteProcess
  split <;> rfl

theorem sameMaps_closeAll {child : Int} {slots : List Nat}
    (h : k.closeAll img child slots = some k') : SameMaps k k' := by
  induction slots generalizing k with
  | nil =>
    rw [← Option.some.inj h]
    exact ⟨rfl, rfl⟩
  | cons i slots ih =>
    rcases Option.bind_eq_some_iff.mp h with ⟨k₁, hslot, hrest⟩
    have hfirst : SameMaps k k₁ := by
      unfold Kernel.closeSlot at hslot
      rcases Option.map_eq_some_iff.mp hslot with ⟨k₂, hclose, rfl⟩
      split at hclose
      · rcases Option.map_eq_some_iff.mp hclose with ⟨r, -, rfl⟩
        exact ⟨rfl, rfl⟩
      · rw [← Option.some.inj hclose]
        exact ⟨rfl, rfl⟩
    exact hfirst.trans (ih hrest)

theorem remap_startProcess (fr : ExecFrame) (args : CStr) (pid parent : Int) :
    UserRemap img k (k.startProcess img fr args pid parent) := by
  have hpage : ((k.setPcb pid (k.newPcb img fr args pid parent)).mapUser img pid).paging =
      (k.mapUser img pid).paging := mapUser_congr img pid rfl
  unfold Kernel.startProcess
  dsimp only
  split <;> exact ⟨.inr ⟨pid, hpage⟩, rfl⟩

theorem remap_execute (fr : ExecFrame) (allArguments : Option CStr) :
    UserRemap img k (k.execute img fr allArguments).2 := by
  rcases h : k.execute img fr allArguments with ⟨value | pid, k'⟩
  · rcases execute_returned h with ⟨text, rfl⟩
    exact .of_same (sameMaps_printf text)
  · rcases execute_entered h with ⟨i, executable, -, -, -, -, -, rfl⟩
    have htake : SameMaps k (k.takePid i) := ⟨rfl, rfl⟩
    exact htake.remap (remap_startProcess fr _ i k.current)

theorem remap_execRet (fr : ExecFrame) : UserRemap img k (k.execRet img fr) := by
  unfold Kernel.execRet
  split
  · exact (sameMaps_printf restartText).remap (remap_execute fr (some shellName))
  · exact .of_same ⟨rfl, rfl⟩

/-- `halt` maps the parent's page, unmaps the video page if `vidmap_called` is set, and may restart
the shell; for a process without a parent only the last of these is left. -/
theorem halt_maps {fr : ExecFrame} (h : k.halt img fr = some k') :
    0 ≤ k.current ∧ ∃ k₁, UserRemap img k₁ k' ∧
      ((0 ≤ (k.pcbs k.current).parPId ∧ ∃ k₂, UserRemap img k k₂ ∧ SameMaps (k₂.unmapVideo img) k₁) ∨
        ((k.pcbs k.current).parPId < 0 ∧ SameMaps k k₁)) := by
  obtain ⟨hcur, ⟨hpar, k₂, hclose, rfl⟩ | ⟨hlast, rfl⟩⟩ := halt_eq_some h
  · have henter : UserRemap img k ((k.mapUser img (k.pcbs (k.pcbs k.current).parPId).pId).setEsp0
        (k.pcbs (k.pcbs k.current).parPId).pId) :=
      ⟨.inr ⟨_, setEsp0_paging _ _⟩, rfl⟩
    have hleft := (henter.same (sameMaps_deleteProcess (k.pcbs k.current).pId)).same
      (sameMaps_closeAll hclose)
    exact ⟨hcur, _, remap_execRet fr, .inl ⟨hpar, k₂, hleft, sameMaps_onTerm _⟩⟩
  · exact ⟨hcur, _, remap_execRet fr, .inr ⟨hlast, sameMaps_deleteProcess _⟩⟩

theorem remap_switchRunningTerminal {next : Nat} {r : Regs} {s : Bool × Kernel}
    (h : k.switchRunningTerminal img next r = some s) : UserRemap img k s.2 := by
  rcases switchRunningTerminal_cases h with ⟨-, rfl⟩ | ⟨-, -, rfl⟩
  · exact .of_same ⟨rfl, rfl⟩
  · exact ⟨.inr ⟨_, switchTask_paging img k next _ r⟩, rfl⟩

end

/-! ## Boot -/

/-- The call of `sched_init` for the saved screen of a terminal. -/
def savedCall (t : Nat) : MapCall :=
  ⟨BitVec.ofInt 32 (getTermVidAddr t), BitVec.ofInt 32 (getTermVidAddr t), 0, 1, 1⟩

-- The saved screens lie between the screen and the page of `vidmap`.
theorem savedCall_pages : ∀ t < MAX_TERMINAL_NUM,
    VIDEO.toNat + 2 ^ 12 ≤ (savedCall t).virtualAddr.toNat ∧
      (savedCall t).virtualAddr.toNat + 2 ^ 12 ≤ USER_VIDMAP.toNat := by
  decide

theorem covers_savedCall {t : Nat} (ht : t < MAX_TERMINAL_NUM) {a : BitVec 32}
    (h : (savedCall t).Covers a) :
    VIDEO.toNat + 2 ^ 12 ≤ a.toNat ∧ a.toNat < USER_VIDMAP.toNat := by
  have hpage := savedCall_pages t ht
  have hlo : (savedCall t).virtualAddr.toNat ≤ a.toNat := h.1
  have hhi : a.toNat < (savedCall t).virtualAddr.toNat + 2 ^ 12 := h.2
  omega

theorem keepsOn_schedInit (img : Image) (k : Kernel) {P : BitVec 32 → Prop}
    (hP : ∀ a, P a → ∀ t < MAX_TERMINAL_NUM, ¬(savedCall t).Covers a) :
    KeepsOn img.pageTableAddr P k.paging (k.schedInit img).paging := by
  have hpage : ∀ (k : Kernel) (t : Nat), t < MAX_TERMINAL_NUM →
      KeepsOn img.pageTableAddr P k.paging (k.initTerminal img t).paging := by
    intro k t ht
    have hpaging : (k.initTerminal img t).paging =
        ((savedCall t).exec img.pageTableAddr k.paging).2 := by
      simp only [Kernel.initTerminal, Kernel.onTerm, Kernel.mapVP, MapCall.exec, savedCall]
    rw [hpaging]
    apply keepsOn_exec
    · exact fun hmode => absurd hmode (show ¬(0 : BitVec 32) = 1 by decide)
    · exact fun a ha => hP a ha t ht
  have hloop : ∀ (k : Kernel) (s : Paging), k.paging = s → KeepsOn img.pageTableAddr P s
      ((List.range MAX_TERMINAL_NUM).foldl (Kernel.initTerminal img) k).paging := by
    intro k s hs
    rw [← hs]
    exact ((hpage k 0 (by decide)).trans (hpage _ 1 (by decide))).trans (hpage _ 2 (by decide))
  unfold Kernel.schedInit
  exact hloop _ _ rfl

/-- Away from the saved screens, boot leaves what `init_paging` has mapped. -/
theorem translate_boot (img : Image) (dev : Devices) (pcbs : Int → Pcb)
    (junkPde junkPte esp0 : BitVec 32) :
    PagingInv img.pageTableAddr ((bootKernel dev pcbs
        (initPaging img.pageTableAddr junkPde junkPte) esp0).schedInit img).paging ∧
      ∀ other a, (∀ t < MAX_TERMINAL_NUM, ¬(savedCall t).Covers a) →
        translate img.pageTableAddr other ((bootKernel dev pcbs
          (initPaging img.pageTableAddr junkPde junkPte) esp0).schedInit img).paging a =
        initMap a := by
  have hinit : ∀ other, Refines img.pageTableAddr other (bootKernel dev pcbs
      (initPaging img.pageTableAddr junkPde junkPte) esp0).paging initMap :=
    fun _ => refines_init junkPde junkPte
  have hmaps := keepsOn_schedInit img
    (bootKernel dev pcbs (initPaging img.pageTableAddr junkPde junkPte) esp0)
    (fun a (ha : ∀ t < MAX_TERMINAL_NUM, ¬(savedCall t).Covers a) => ha) (hinit fun _ _ => 0).inv
  exact ⟨hmaps.1, fun other a ha => (hmaps.2 other a ha).trans ((hinit other).agree a)⟩

end Kernel391
