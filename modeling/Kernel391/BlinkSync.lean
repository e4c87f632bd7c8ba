import Kernel391.BlinkPhase
import Kernel391.Lib.Run

/-!
# Synchronisation and what the page shows

`mp1_ioctl_sync` copies the clock of one entry to another and shows a character for it: always
the one of the dark phase, since the `cmovl` after its `testb` never moves.  So the page agrees
with the entries for as long as clocks are copied in the dark phase, and no longer.
-/

namespace Kernel391

open Machine

/-- One call as a step of the state. -/
def blinkStep (s : Fish) (call : BlinkCall) : Option Fish := (call.perform s).map Prod.snd

/-- The page shows for each structure of the list the character that its status asks for. -/
def Fish.PageRight (s : Fish) : Prop :=
  ∃ path, s.Lists path ∧ ∀ p ∈ path,
    s.vmem (s.blinkArray p).toBlinkEntry.offset = (s.blinkArray p).toBlinkEntry.shown

/-- A call that adds an entry only where there is none, and not at location zero. -/
def BlinkCall.Fresh (t : BlinkTable) : BlinkCall → Prop
  | .add arg => arg.location ≠ 0 ∧ ∀ e ∈ t.entries, e.location ≠ arg.location
  | _ => True

/-- A synchronisation with an entry that is dark, or of one whose characters are the same. -/
def BlinkCall.Dark (t : BlinkTable) : BlinkCall → Prop
  | .sync arg => ∀ source e, t.lookup ((arg >>> 16).setWidth 16) = some source →
      t.lookup (arg.setWidth 16) = some e → source.status &&& 1 = 0 ∨ e.onChar = e.offChar
  | _ => True

namespace BlinkTable

variable {t : BlinkTable}

def Distinct (t : BlinkTable) : Prop := (t.entries.map BlinkEntry.location).Nodup

def Right (t : BlinkTable) : Prop := ∀ e ∈ t.entries, t.screen e.offset = e.shown

theorem Distinct.filter_eq (h : t.Distinct) {e : BlinkEntry} (he : e ∈ t.entries) :
    t.entries.filter (fun d => d.location = e.location) = [e] := by
  unfold Distinct at h
  generalize t.entries = es at h he ⊢
  induction es with
  | nil => simp at he
  | cons d es ih =>
    rw [List.map_cons, List.nodup_cons] at h
    by_cases hloc : d.location = e.location
    · have hrest : es.filter (fun d => d.location = e.location) = [] := by
        rw [List.filter_eq_nil_iff]
        intro d' hd' heq
        exact h.1 (List.mem_map.mpr ⟨d', hd', (of_decide_eq_true heq).trans hloc.symm⟩)
      rw [List.filter_cons_of_pos (by simpa using hloc), hrest]
      rcases List.mem_cons.mp he with rfl | he
      · rfl
      · exact absurd (List.mem_map.mpr ⟨e, he, hloc.symm⟩) h.1
    · rw [List.filter_cons_of_neg (by simpa using hloc)]
      rcases List.mem_cons.mp he with rfl | he
      · exact absurd rfl hloc
      · exact ih h.2 he

theorem Distinct.offset_ne {d e : BlinkEntry} (h : d.location ≠ e.location) :
    d.offset ≠ e.offset := fun heq => h (offset_inj heq)

theorem tick_right (hd : t.Distinct) (h : t.Right) : t.tick.Distinct ∧ t.tick.Right := by
  constructor
  · have hmap : t.tick.entries.map BlinkEntry.location = t.entries.map BlinkEntry.location := by
      show (t.entries.map BlinkEntry.tick).map BlinkEntry.location = _
      rw [List.map_map]
      apply List.map_congr_left
      intro e _
      exact e.tick_location
    unfold Distinct
    rw [hmap]
    exact hd
  · intro d hd'
    obtain ⟨e, he, rfl⟩ := List.mem_map.mp hd'
    show t.entries.foldl BlinkEntry.tickScreen t.screen (e.tick.location.toNat * 2) = _
    rw [e.tick_location, foldl_tickScreen rfl, hd.filter_eq he]
    exact BlinkEntry.tickScreen_shown (h e he)

theorem add_right {arg : BlinkEntry} (hd : t.Distinct) (h : t.Right)
    (hnew : ∀ e ∈ t.entries, e.location ≠ arg.location) :
    (t.add arg).2.Distinct ∧ (t.add arg).2.Right := by
  unfold add
  split
  · exact ⟨hd, h⟩
  · constructor
    · unfold Distinct
      rw [List.map_cons, List.nodup_cons]
      refine ⟨?_, hd⟩
      intro hmem
      obtain ⟨e, he, hloc⟩ := List.mem_map.mp hmem
      exact hnew e he hloc
    · intro e he
      rcases List.mem_cons.mp he with rfl | he
      · have hshown : arg.started.shown = arg.onChar :=
          if_neg (show ¬(1 : BitVec 16) &&& 1 = 0 by decide)
        rw [hshown]
        exact Function.update_self arg.offset arg.onChar t.screen
      · have hne : e.offset ≠ arg.offset := Distinct.offset_ne (hnew e he)
        show Function.update t.screen arg.offset arg.onChar e.offset = _
        rw [Function.update_of_ne hne, h e he]

theorem remove_right (loc : BitVec 16) (hd : t.Distinct) (h : t.Right) :
    (t.remove loc).2.Distinct ∧ (t.remove loc).2.Right := by
  unfold remove
  split
  · exact ⟨hd, h⟩
  · have hsub : (t.entries.eraseP fun e => e.location = loc).Sublist t.entries :=
      List.eraseP_sublist
    exact ⟨List.Nodup.sublist (hsub.map BlinkEntry.location) hd,
      fun e he => h e (hsub.subset he)⟩

theorem lookup_split {loc : BitVec 16} {e : BlinkEntry} (h : t.lookup loc = some e) :
    e.location = loc ∧ ∃ before after, t.entries = before ++ e :: after ∧
      ∀ d ∈ before, ¬d.location = loc := by
  unfold lookup at h
  obtain ⟨hloc, before, after, hentries, hbefore⟩ := List.find?_eq_some_iff_append.mp h
  exact ⟨by simpa using hloc, before, after, hentries, fun d hd => by simpa using hbefore d hd⟩

/-- The copied clock is right with the dark character in the dark phase only. -/
theorem sync_right {src dst : BitVec 16} {source e : BlinkEntry} (hd : t.Distinct) (h : t.Right)
    (hsrc : t.lookup src = some source) (hdst : t.lookup dst = some e) :
    (t.sync src dst).2.Distinct ∧
      ((t.sync src dst).2.Right ↔ source.status &&& 1 = 0 ∨ e.onChar = e.offChar) := by
  obtain ⟨hloc, before, after, hentries, hbefore⟩ := lookup_split hdst
  rw [sync_eq hsrc hdst]
  have hmodified : modifyAt dst source.synced t.entries = before ++ source.synced e :: after := by
    rw [hentries, modifyAt_append hbefore hloc]
  have hlocations : (t.entries.map BlinkEntry.location).Nodup := hd
  rw [hentries, List.map_append, List.map_cons] at hlocations
  have hfresh := List.nodup_middle.mp hlocations
  rw [List.nodup_cons, List.mem_append, not_or] at hfresh
  have hothers : ∀ d ∈ before ++ after, d.offset ≠ e.offset := by
    intro d hmem
    apply Distinct.offset_ne
    intro heq
    rcases List.mem_append.mp hmem with hmem | hmem
    · exact hfresh.1.1 (List.mem_map.mpr ⟨d, hmem, heq⟩)
    · exact hfresh.1.2 (List.mem_map.mpr ⟨d, hmem, heq⟩)
  have hshown : (source.synced e).shown = if source.status &&& 1 = 0 then e.offChar else e.onChar :=
    rfl
  constructor
  · unfold Distinct
    dsimp only
    rw [hmodified, List.map_append, List.map_cons]
    exact hlocations
  · unfold Right
    dsimp only
    rw [hmodified]
    constructor
    · intro hright
      have he := hright (source.synced e) (by simp)
      change Function.update t.screen e.offset e.offChar e.offset = _ at he
      rw [Function.update_self, hshown] at he
      by_cases hdark : source.status &&& 1 = 0
      · exact .inl hdark
      · rw [if_neg hdark] at he
        exact .inr he.symm
    · intro hdark d hmem
      by_cases hd' : d = source.synced e
      · subst hd'
        show Function.update t.screen e.offset e.offChar e.offset = _
        rw [Function.update_self, hshown]
        rcases hdark with hdark | hdark
        · rw [if_pos hdark]
        · rw [hdark, ite_self]
      · have hold : d ∈ before ++ after := by
          rw [List.mem_append, List.mem_cons] at hmem
          rw [List.mem_append]
          tauto
        rw [Function.update_of_ne (hothers d hold)]
        apply h
        rw [hentries]
        rw [List.mem_append] at hold
        rw [List.mem_append, List.mem_cons]
        tauto

/-- What one call does to a page that is right. -/
theorem step_right {call : BlinkCall} (hd : t.Distinct) (h : t.Right) (hfresh : call.Fresh t) :
    (t.step call).2.Distinct ∧ ((t.step call).2.Right ↔ call.Dark t) := by
  cases call with
  | tasklet => exact ⟨(tick_right hd h).1, iff_of_true (tick_right hd h).2 trivial⟩
  | add arg =>
    have hadd := add_right hd h hfresh.2
    exact ⟨hadd.1, iff_of_true hadd.2 trivial⟩
  | remove arg =>
    have hremove := remove_right (arg.setWidth 16) hd h
    exact ⟨hremove.1, iff_of_true hremove.2 trivial⟩
  | find arg =>
    rw [t.step_find arg]
    exact ⟨hd, iff_of_true h trivial⟩
  | sync arg =>
    show (t.sync _ _).2.Distinct ∧ ((t.sync _ _).2.Right ↔ _)
    unfold BlinkCall.Dark
    cases hsrc : t.lookup ((arg >>> 16).setWidth 16) with
    | none =>
      rw [sync_absent (.inl hsrc)]
      exact ⟨hd, iff_of_true h fun _ _ hs _ => nomatch hsrc.symm.trans hs⟩
    | some source =>
      cases hdst : t.lookup (arg.setWidth 16) with
      | none =>
        rw [sync_absent (.inr hdst)]
        exact ⟨hd, iff_of_true h fun _ _ _ he => nomatch hdst.symm.trans he⟩
      | some e =>
        have hsync := sync_right hd h hsrc hdst
        refine ⟨hsync.1, hsync.2.trans ⟨?_, fun hall => hall source e hsrc hdst⟩⟩
        intro hdark _ _ hs he
        cases hsrc.symm.trans hs
        cases hdst.symm.trans he
        exact hdark

end BlinkTable

/-! ## Runs -/

namespace Fish

variable {s : Fish} {t : BlinkTable}

theorem Holds.unique {t' : BlinkTable} (h : s.Holds t) (h' : s.Holds t') : t = t' := by
  obtain ⟨path, hlists, rfl⟩ := h
  obtain ⟨path', hlists', rfl⟩ := h'
  rw [hlists.linked.visits.unique hlists'.linked.visits]

theorem Holds.pageRight_iff (h : s.Holds t) : s.PageRight ↔ t.Right := by
  obtain ⟨path, hlists, rfl⟩ := h
  unfold BlinkTable.Right entries
  rw [List.forall_mem_map]
  constructor
  · rintro ⟨path', hlists', hright⟩
    rw [hlists.linked.visits.unique hlists'.linked.visits]
    exact hright
  · exact fun hright => ⟨path, hlists, hright⟩

end Fish

theorem BlinkCall.Fresh.proper {t : BlinkTable} {call : BlinkCall} (h : call.Fresh t) :
    call.Proper := by
  cases call with
  | add arg => exact h.1
  | tasklet | remove | find | sync => trivial

/-- Calls that are fresh for the entries of the state. -/
def FreshIn (s : Fish) (call : BlinkCall) : Prop := ∀ t, s.Holds t → call.Fresh t

def DarkIn (s : Fish) (call : BlinkCall) : Prop := ∀ t, s.Holds t → call.Dark t

def RightAfter (s : Fish) (call : BlinkCall) : Prop :=
  ∀ s', blinkStep s call = some s' → s'.PageRight

/-- The entries are at places of their own, and the page is right. -/
def Fish.Shows (s : Fish) : Prop := ∃ t, s.Holds t ∧ t.Distinct ∧ t.Right

theorem blinkStep_holds {s : Fish} {t : BlinkTable} {call : BlinkCall} (h : s.Holds t)
    (hfresh : call.Fresh t) : ∃ s', blinkStep s call = some s' ∧ s'.Holds (t.step call).2 := by
  obtain ⟨r, s', hperform, -, hs'⟩ := BlinkCall.perform_refines hfresh.proper h
  exact ⟨s', by rw [blinkStep, hperform]; rfl, hs'⟩

theorem rightAfter_iff {s : Fish} {call : BlinkCall} (h : s.Shows) (hfresh : FreshIn s call) :
    RightAfter s call ↔ DarkIn s call := by
  obtain ⟨t, ht, hdistinct, hright⟩ := h
  obtain ⟨s', hs', ht'⟩ := blinkStep_holds ht (hfresh t ht)
  have hafter : RightAfter s call ↔ s'.PageRight := by
    unfold RightAfter
    rw [hs']
    exact ⟨fun h => h s' rfl, fun h _ he => Option.some.inj he ▸ h⟩
  have hdark : DarkIn s call ↔ call.Dark t :=
    ⟨fun h => h t ht, fun h _ h' => ht.unique h' ▸ h⟩
  rw [hafter, hdark, ht'.pageRight_iff]
  exact (BlinkTable.step_right hdistinct hright (hfresh t ht)).2

theorem Fish.Shows.step {s s' : Fish} {call : BlinkCall} (h : s.Shows) (hfresh : FreshIn s call)
    (hdark : DarkIn s call) (hs' : blinkStep s call = some s') : s'.Shows := by
  obtain ⟨t, ht, hdistinct, hright⟩ := h
  obtain ⟨s'', hs'', ht'⟩ := blinkStep_holds ht (hfresh t ht)
  have hstep := BlinkTable.step_right hdistinct hright (hfresh t ht)
  rw [Option.some.inj (hs'.symm.trans hs'')]
  exact ⟨_, ht', hstep.1, hstep.2.mpr (hdark t ht)⟩

/-- While entries are added at free places other than location zero, the page shows after every call
what the entries say exactly when clocks are copied from dark entries only, or to entries with one
character. -/
theorem page_right_iff_dark (vmem : Nat → UInt8) {calls : List BlinkCall}
    (hfresh : Along blinkStep FreshIn (clearedFish vmem) calls) :
    Along blinkStep RightAfter (clearedFish vmem) calls ↔
      Along blinkStep DarkIn (clearedFish vmem) calls := by
  have hcleared : (clearedFish vmem).Shows :=
    ⟨_, clearedFish_holds vmem, List.nodup_nil, fun e he => nomatch he⟩
  have hboth := @along_iff_of_invariant _ _ blinkStep Fish.Shows
    (fun s call => FreshIn s call ∧ DarkIn s call)
    (fun s call => FreshIn s call ∧ RightAfter s call)
    (fun s call s' hs hok hstep => hs.step hok.1 hok.2 hstep)
    (fun s call hs => and_congr_right fun hf => rightAfter_iff hs hf) _ calls hcleared
  rw [along_and, along_and] at hboth
  exact ⟨fun h => (hboth.mp ⟨hfresh, h⟩).2, fun h => (hboth.mpr ⟨hfresh, h⟩).2⟩

/-- A letter that is synchronised with itself as soon as it has been added goes dark too early. -/
theorem page_right_iff_dark_letter :
    ¬Along blinkStep RightAfter (clearedFish fun _ => 0)
      [.add letterBlink, .sync (540#32 <<< 16 ||| 540#32)] := by
  have hletter : (BlinkCall.add letterBlink).Fresh ⟨[], fun _ => 0⟩ :=
    ⟨by decide, fun e he => nomatch he⟩
  have hfresh : Along blinkStep FreshIn (clearedFish fun _ => 0)
      [.add letterBlink, .sync (540#32 <<< 16 ||| 540#32)] :=
    ⟨fun t ht => ht.unique (clearedFish_holds _) ▸ hletter,
      fun _ _ => ⟨fun _ _ => trivial, fun _ _ => trivial⟩⟩
  rw [page_right_iff_dark _ hfresh]
  intro hdark
  obtain ⟨s', hs', ht'⟩ := blinkStep_holds (clearedFish_holds fun _ => 0) hletter
  have hbright := (hdark.2 s' hs').1 _ ht' letterBlink.started letterBlink.started rfl rfl
  revert hbright
  decide

end Kernel391
