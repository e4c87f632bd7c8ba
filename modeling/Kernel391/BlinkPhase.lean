import Kernel391.BlinkTable
import Mathlib.Algebra.Ring.Nat

/-!
# What a blinking character shows

An entry that is left alone shows its characters in turn, each for as many ticks as its length
says, whatever happens to the other entries.  The countdown is compared as a signed number, so
this holds for lengths up to `0x8000` only.
-/

namespace Kernel391

open Machine

/-- Lengths that the signed comparison of the countdown can count. -/
structure BlinkEntry.Countable (e : BlinkEntry) : Prop where
  on_pos : 0 < e.onLength.toNat
  on_le : e.onLength.toNat ≤ 0x8000
  off_pos : 0 < e.offLength.toNat
  off_le : e.offLength.toNat ≤ 0x8000

namespace BlinkEntry

def period (e : BlinkEntry) : Nat := e.onLength.toNat + e.offLength.toNat

/-- The clock of an entry `n` ticks after it has been started. -/
structure AtPhase (e : BlinkEntry) (n : Nat) : Prop where
  on : n % e.period < e.onLength.toNat →
    ¬e.status &&& 1 = 0 ∧ e.countdown.toNat + n % e.period = e.onLength.toNat
  off : e.onLength.toNat ≤ n % e.period →
    e.status &&& 1 = 0 ∧ e.countdown.toNat + n % e.period = e.period

variable {e : BlinkEntry} {n : Nat}

theorem started_atPhase (he : e.Countable) : e.started.AtPhase 0 where
  on _ := by
    rw [Nat.zero_mod]
    exact ⟨show ¬(1 : BitVec 16) &&& 1 = 0 by decide, rfl⟩
  off h := by
    rw [Nat.zero_mod] at h
    exact absurd h (Nat.not_le.mpr he.on_pos)

theorem toNat_pred {c : BitVec 16} (h : 0 < c.toNat) : (c - 1).toNat = c.toNat - 1 := by
  rw [BitVec.toNat_sub]
  have hlt := c.isLt
  simp only [BitVec.reduceToNat]
  omega

theorem due_iff (hpos : 0 < e.countdown.toNat) (hle : e.countdown.toNat ≤ 0x8000) :
    e.Due ↔ e.countdown.toNat = 1 := by
  have hpred := toNat_pred hpos
  have hint : (e.countdown - 1).toInt = ((e.countdown.toNat - 1 : Nat) : Int) := by
    rw [BitVec.toInt_eq_toNat_of_lt (by omega), hpred]
  unfold Due
  rw [BitVec.slt_iff_toInt_lt, hint, show (0 : BitVec 16).toInt = 0 by decide]
  omega

theorem succ_mod {m : Nat} (hm : 0 < m) :
    (n + 1) % m = if n % m + 1 = m then 0 else n % m + 1 := by
  have hlt := Nat.mod_lt n hm
  rw [← Nat.mod_add_mod]
  split
  · rename_i hlast
    rw [hlast, Nat.mod_self]
  · exact Nat.mod_eq_of_lt (by omega)

theorem tick_lengths (e : BlinkEntry) :
    e.tick.onLength = e.onLength ∧ e.tick.offLength = e.offLength := by
  unfold tick
  split <;> exact ⟨rfl, rfl⟩

theorem tick_of_due (h : e.Due) : e.tick = e.toggled := if_pos h

theorem tick_of_not_due (h : ¬e.Due) : e.tick = { e with countdown := e.countdown - 1 } := if_neg h

theorem toggled_status (e : BlinkEntry) : e.toggled.status &&& 1 = 0 ↔ ¬e.status &&& 1 = 0 :=
  xor_one_and_one_iff e.status

/-- One more tick moves the clock on by one. -/
theorem AtPhase.tick (he : e.Countable) (h : e.AtPhase n) : e.tick.AtPhase (n + 1) := by
  obtain ⟨hon, honle, hoff, hoffle⟩ := he
  have hperiod : e.period = e.onLength.toNat + e.offLength.toNat := rfl
  have hlt := Nat.mod_lt n (show 0 < e.period by omega)
  have hnext := @succ_mod n e.period (by omega)
  have hsame : e.tick.period = e.period := by
    unfold period
    rw [(tick_lengths e).1, (tick_lengths e).2]
  rcases Nat.lt_or_ge (n % e.period) e.onLength.toNat with hr | hr
  · obtain ⟨hstatus, hcount⟩ := h.on hr
    have hdue := @due_iff e (by omega) (by omega)
    rw [if_neg (by omega)] at hnext
    by_cases hlast : e.countdown.toNat = 1
    · -- the last tick with the first character
      have hdark : e.toggled.countdown = e.offLength := if_neg hstatus
      constructor <;> rw [hsame, hnext, (tick_lengths e).1, tick_of_due (hdue.mpr hlast)]
      · omega
      · rw [toggled_status, hdark]
        exact fun _ => ⟨hstatus, by omega⟩
    · have hpred := @toNat_pred e.countdown (by omega)
      constructor <;>
        rw [hsame, hnext, (tick_lengths e).1, tick_of_not_due (fun h => hlast (hdue.mp h))]
      · exact fun _ => ⟨hstatus, by dsimp only; omega⟩
      · omega
  · obtain ⟨hstatus, hcount⟩ := h.off hr
    have hdue := @due_iff e (by omega) (by omega)
    by_cases hlast : e.countdown.toNat = 1
    · -- the last tick of the period
      have hbright : e.toggled.countdown = e.onLength := if_pos hstatus
      rw [if_pos (by omega)] at hnext
      constructor <;> rw [hsame, hnext, (tick_lengths e).1, tick_of_due (hdue.mpr hlast)]
      · rw [toggled_status, hbright]
        exact fun _ => ⟨fun h => h hstatus, by omega⟩
      · omega
    · have hpred := @toNat_pred e.countdown (by omega)
      rw [if_neg (by omega)] at hnext
      constructor <;>
        rw [hsame, hnext, (tick_lengths e).1, tick_of_not_due (fun h => hlast (hdue.mp h))]
      · omega
      · exact fun _ => ⟨hstatus, by dsimp only; omega⟩

theorem AtPhase.shown_eq (h : e.AtPhase n) :
    e.shown = if n % e.period < e.onLength.toNat then e.onChar else e.offChar := by
  unfold shown
  split
  · rename_i hoff
    rw [if_neg fun hr => (h.on hr).1 hoff]
  · rename_i hon
    rw [if_pos (Nat.lt_of_not_le fun hr => hon (h.off hr).1)]

/-- A tick leaves the right character on the page. -/
theorem tickScreen_shown {screen : Nat → UInt8} (h : screen e.offset = e.shown) :
    e.tickScreen screen e.offset = e.tick.shown := by
  unfold tickScreen
  by_cases hdue : e.Due
  · rw [if_pos hdue, tick_of_due hdue, Function.update_self]
  · rw [if_neg hdue, tick_of_not_due hdue]
    exact h

end BlinkEntry

/-! ## The other entries -/

theorem offset_inj {loc loc' : BitVec 16} (h : loc.toNat * 2 = loc'.toNat * 2) : loc = loc' :=
  BitVec.eq_of_toNat_eq (by omega)

/-- At the place of a location the page depends on the entries at the location only. -/
theorem foldl_tickScreen {loc : BitVec 16} {es : List BlinkEntry} {v v' : Nat → UInt8}
    (h : v (loc.toNat * 2) = v' (loc.toNat * 2)) :
    es.foldl BlinkEntry.tickScreen v (loc.toNat * 2) =
      (es.filter fun e => e.location = loc).foldl BlinkEntry.tickScreen v' (loc.toNat * 2) := by
  induction es generalizing v v' with
  | nil => exact h
  | cons e es ih =>
    by_cases he : e.location = loc
    · rw [List.filter_cons_of_pos (by simpa using he)]
      apply ih
      unfold BlinkEntry.tickScreen
      split
      · subst he
        show Function.update v e.offset _ e.offset = Function.update v' e.offset _ e.offset
        rw [Function.update_self, Function.update_self]
      · exact h
    · have hne : loc.toNat * 2 ≠ e.offset := fun heq => he (offset_inj heq.symm)
      rw [List.filter_cons_of_neg (by simpa using he)]
      apply ih
      unfold BlinkEntry.tickScreen
      split
      · rw [Function.update_of_ne hne, h]
      · exact h

theorem filter_map_tick (loc : BitVec 16) (es : List BlinkEntry) :
    (es.map BlinkEntry.tick).filter (fun e => e.location = loc) =
      (es.filter fun e => e.location = loc).map BlinkEntry.tick := by
  rw [List.filter_map]
  congr 1
  apply List.filter_congr
  intro e _
  simp only [Function.comp_apply, BlinkEntry.tick_location]

theorem filter_eraseP {loc loc' : BitVec 16} (h : loc' ≠ loc) (es : List BlinkEntry) :
    (es.eraseP fun e => e.location = loc').filter (fun e => e.location = loc) =
      es.filter fun e => e.location = loc := by
  induction es with
  | nil => rfl
  | cons e es ih =>
    by_cases he : e.location = loc'
    · have hne : ¬e.location = loc := fun heq => h (he.symm.trans heq)
      rw [List.eraseP_cons_of_pos (by simpa using he),
        List.filter_cons_of_neg (by simpa using hne)]
    · rw [List.eraseP_cons_of_neg (by simpa using he), List.filter_cons, ih, List.filter_cons]

theorem filter_modifyAt {loc loc' : BitVec 16} (h : loc' ≠ loc) {f : BlinkEntry → BlinkEntry}
    (hf : ∀ e, (f e).location = e.location) (es : List BlinkEntry) :
    (modifyAt loc' f es).filter (fun e => e.location = loc) =
      es.filter fun e => e.location = loc := by
  induction es with
  | nil => rfl
  | cons e es ih =>
    unfold modifyAt
    split
    · rename_i he
      have hne : ¬e.location = loc := fun heq => h (he.symm.trans heq)
      rw [List.filter_cons_of_neg (by simpa [hf] using hne),
        List.filter_cons_of_neg (by simpa using hne)]
    · rw [List.filter_cons, ih, List.filter_cons]

/-- The only entry at its location is a started `base` after `n` ticks, and it is what the page
shows there. -/
def BlinkTable.Blinks (t : BlinkTable) (base : BlinkEntry) (n : Nat) : Prop :=
  ∃ e : BlinkEntry, (∃ c st, e = { base with countdown := c, status := st }) ∧
    t.entries.filter (fun d => d.location = base.location) = [e] ∧ e.AtPhase n ∧
    t.screen base.offset = e.shown

/-- A call that is not about a location. -/
def BlinkCall.Leaves (loc : BitVec 16) : BlinkCall → Prop
  | .add arg => arg.location ≠ loc
  | .remove arg => arg.setWidth 16 ≠ loc
  | .sync arg => arg.setWidth 16 ≠ loc
  | _ => True

def BlinkCall.ticks : BlinkCall → Nat
  | .tasklet => 1
  | _ => 0

namespace BlinkTable

variable {t : BlinkTable} {base : BlinkEntry} {n : Nat}

theorem Blinks.tick (hbase : base.Countable) (h : t.Blinks base n) : t.tick.Blinks base (n + 1) := by
  obtain ⟨e, ⟨c, st, he⟩, hfilter, hphase, hscreen⟩ := h
  have hcountable : e.Countable := by
    rw [he]
    exact ⟨hbase.on_pos, hbase.on_le, hbase.off_pos, hbase.off_le⟩
  have hoffset : base.offset = e.offset := by
    rw [he]
    rfl
  refine ⟨e.tick, ?_, ?_, hphase.tick hcountable, ?_⟩
  · rw [he]
    unfold BlinkEntry.tick
    split <;> exact ⟨_, _, rfl⟩
  · show (t.entries.map BlinkEntry.tick).filter _ = _
    rw [filter_map_tick, hfilter]
    rfl
  · show t.entries.foldl BlinkEntry.tickScreen t.screen (base.location.toNat * 2) = _
    rw [foldl_tickScreen rfl, hfilter]
    show e.tickScreen t.screen base.offset = _
    rw [hoffset] at hscreen ⊢
    exact BlinkEntry.tickScreen_shown hscreen

/-- A call that leaves the entries at the location and the page there as they are. -/
theorem Blinks.congr {t' : BlinkTable} (h : t.Blinks base n)
    (hentries : t'.entries.filter (fun d => d.location = base.location) =
      t.entries.filter fun d => d.location = base.location)
    (hscreen : t'.screen base.offset = t.screen base.offset) : t'.Blinks base n := by
  obtain ⟨e, he, hfilter, hphase, hshown⟩ := h
  exact ⟨e, he, hentries.trans hfilter, hphase, hscreen.trans hshown⟩

theorem Blinks.step {call : BlinkCall} (hbase : base.Countable) (hcall : call.Leaves base.location)
    (h : t.Blinks base n) : (t.step call).2.Blinks base (n + call.ticks) := by
  cases call with
  | tasklet => exact h.tick hbase
  | add arg =>
    show (t.add arg.toBlinkEntry).2.Blinks base n
    unfold BlinkTable.add
    split
    · exact h
    · apply h.congr
      · have hne : ¬arg.toBlinkEntry.started.location = base.location := hcall
        exact List.filter_cons_of_neg (by simpa using hne)
      · exact Function.update_of_ne (fun heq => hcall (offset_inj heq.symm)) _ _
  | remove arg =>
    show (t.remove (arg.setWidth 16)).2.Blinks base n
    unfold BlinkTable.remove
    split
    · exact h
    · exact h.congr (filter_eraseP hcall t.entries) rfl
  | find arg =>
    rw [t.step_find arg]
    exact h
  | sync arg =>
    show (t.sync _ (arg.setWidth 16)).2.Blinks base n
    unfold BlinkTable.sync
    split
    · rename_i source e _ he
      have hloc : e.location = arg.setWidth 16 := by simpa using List.find?_some he
      apply h.congr
      · exact @filter_modifyAt base.location _ hcall source.synced (fun _ => rfl) t.entries
      · apply Function.update_of_ne
        intro heq
        exact hcall (hloc.symm.trans (offset_inj heq.symm))
    · exact h

theorem Blinks.steps {calls : List BlinkCall} (hbase : base.Countable)
    (hcalls : ∀ call ∈ calls, call.Leaves base.location) (h : t.Blinks base n) :
    (t.steps calls).2.Blinks base (n + (calls.map BlinkCall.ticks).sum) := by
  induction calls generalizing t n with
  | nil => exact h
  | cons call calls ih =>
    rw [List.forall_mem_cons] at hcalls
    rw [List.map_cons, List.sum_cons, ← Nat.add_assoc]
    exact ih hcalls.2 (h.step hbase hcalls.1)

end BlinkTable

/-- However the other entries are added, removed, synchronised and looked for, none of them at
location zero, a character added at a free location is shown for the ticks of its length, and the
other character for the ticks of the other length, again and again. -/
theorem blink_phase {s : Fish} {t : BlinkTable} (h : s.Holds t)
    (hroom : t.entries.length < BLINK_COUNT) {arg : BlinkStruct} (hzero : arg.location ≠ 0)
    (hscreen : arg.location.toNat < BLINK_COUNT)
    (hnew : ∀ e ∈ t.entries, e.location ≠ arg.location) (harg : arg.toBlinkEntry.Countable)
    {calls : List BlinkCall}
    (hcalls : ∀ call ∈ calls, call.Proper ∧ call.Leaves arg.location) :
    Ends (BlinkCall.performAll (.add arg :: calls)) s fun _ s' =>
      s'.vmem (arg.location.toNat * 2) =
        if (calls.map BlinkCall.ticks).sum % (arg.onLength.toNat + arg.offLength.toNat) <
          arg.onLength.toNat then arg.onChar else arg.offChar := by
  have hproper : ∀ call ∈ BlinkCall.add arg :: calls, call.Proper :=
    List.forall_mem_cons.mpr ⟨hzero, fun call hcall => (hcalls call hcall).1⟩
  have hadd : t.add arg.toBlinkEntry = (0, ⟨arg.toBlinkEntry.started :: t.entries,
      Function.update t.screen arg.toBlinkEntry.offset arg.onChar⟩) := if_neg (by omega)
  have hstart : (t.step (.add arg)).2.Blinks arg.toBlinkEntry 0 := by
    show (t.add arg.toBlinkEntry).2.Blinks arg.toBlinkEntry 0
    rw [hadd]
    refine ⟨arg.toBlinkEntry.started, ⟨_, _, rfl⟩, ?_, BlinkEntry.started_atPhase harg, ?_⟩
    · have hself : arg.toBlinkEntry.started.location = arg.location := rfl
      rw [List.filter_cons_of_pos (by simpa using hself), List.filter_eq_nil_iff.mpr]
      simpa using hnew
    · have hshown : arg.toBlinkEntry.started.shown = arg.onChar :=
        if_neg (show ¬(1 : BitVec 16) &&& 1 = 0 by decide)
      rw [hshown]
      exact Function.update_self arg.toBlinkEntry.offset arg.onChar t.screen
  have hblinks := hstart.steps harg fun call hcall => (hcalls call hcall).2
  refine (BlinkCall.performAll_refines hproper h).mono ?_
  rintro _ s' ⟨-, path, -, htable⟩
  obtain ⟨e, ⟨c, st, rfl⟩, -, hphase, hshown⟩ := hblinks
  have hvmem : s'.vmem = (t.steps (.add arg :: calls)).2.screen := by rw [htable]
  rw [hvmem]
  rw [Nat.zero_add] at hphase
  exact hshown.trans hphase.shown_eq

/-- After a hundred ticks the letter of `main` is dark for the eighth time. -/
theorem blink_phase_letter :
    Ends (BlinkCall.performAll (.add letterBlink :: List.replicate 100 .tasklet))
      (clearedFish fun _ => 0) fun _ s' => s'.vmem 1080 = 0x4D := by
  refine (blink_phase (clearedFish_holds _) (by decide) (by decide) (by decide) (by simp)
    ⟨by decide, by decide, by decide, by decide⟩ ?_).mono ?_
  · intro call hcall
    rw [List.eq_of_mem_replicate hcall]
    exact ⟨trivial, trivial⟩
  · intro _ s' hs'
    rw [List.map_replicate, List.sum_replicate] at hs'
    exact hs'

end Kernel391
