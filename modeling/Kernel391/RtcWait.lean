import Kernel391.RtcRate

/-!
# Waiting for a tick

`rtc_read` polls a flag that the handler sets, and clears it.  The flag stays set when nobody is
waiting, so a call that finds it set does not wait.  Any number of readers take their steps one at
a time here, with interrupts and calls of `rtc_open` and `rtc_write` between any two of them.
-/

namespace Kernel391

open Machine

/-- Where a reader is: outside `rtc_read`, in its loop, past the loop, past the store. -/
inductive TickPhase where
  | outside
  | polling
  | clearing
  | returning
deriving DecidableEq

/-- A completed call, by the number of signals there had been when it began and when it
returned. -/
structure RtcCall where
  start : Nat
  stop : Nat
deriving DecidableEq

/-- The driver and its readers.  `signals` counts the calls of the handler that set the flag, and
`started` is that count when a reader's call began. -/
structure RtcReaders where
  rtc : Rtc
  phase : Nat → TickPhase
  signals : Nat
  started : Nat → Nat
  calls : Nat → List RtcCall

inductive WaitEvent where
  | interrupt
  | open
  | write (buf : Option (BitVec 32)) (nbytes : Int)
  | enter (p : Nat)
  | poll (p : Nat)
  | clear (p : Nat)
  | leave (p : Nat)
deriving DecidableEq

def RtcReaders.setPhase (s : RtcReaders) (p : Nat) (ph : TickPhase) : RtcReaders :=
  { s with phase := Function.update s.phase p ph }

def waitStep (s : RtcReaders) : WaitEvent → Option RtcReaders
  | .interrupt => (rtcHandler s.rtc).map fun r =>
      { s with rtc := r, signals := if setsFlag s.rtc then s.signals + 1 else s.signals }
  | .open => some { s with rtc := rtcOpen s.rtc }
  | .write buf nbytes => some { s with rtc := (rtcWrite buf nbytes s.rtc).2 }
  | .enter p =>
      if s.phase p = .outside then
        some { s.setPhase p .polling with started := Function.update s.started p s.signals }
      else none
  | .poll p =>
      if s.phase p = .polling then
        some (if s.rtc.irFlag = 0 then s else s.setPhase p .clearing)
      else none
  | .clear p =>
      if s.phase p = .clearing then
        some { s.setPhase p .returning with rtc := { s.rtc with irFlag := 0 } }
      else none
  | .leave p =>
      if s.phase p = .returning then
        some { s.setPhase p .outside with
          calls := Function.update s.calls p (s.calls p ++ [⟨s.started p, s.signals⟩]) }
      else none

/-- Each call has seen a signal since it began, and `m + 1` calls in a row have seen that many
since the first of them began. -/
structure WaitsForTicks (calls : List RtcCall) : Prop where
  each : ∀ c ∈ calls, c.start < c.stop
  many : ∀ i m first last, calls[i]? = some first → calls[i + m]? = some last →
    first.start + (m + 1) ≤ last.stop

/-- No tick is left over when a call begins. -/
def StartsClear (s : RtcReaders) : WaitEvent → Prop
  | .enter _ => s.rtc.irFlag = 0
  | _ => True

instance (s : RtcReaders) : (e : WaitEvent) → Decidable (StartsClear s e)
  | .enter _ => inferInstanceAs (Decidable (_ = _))
  | .interrupt | .open | .write _ _ | .poll _ | .clear _ | .leave _ => isTrue trivial

-- A round of the loop that ends it, and the store behind it, are `rtc_read` as one step.
theorem rtcRead_eq_steps {s : RtcReaders} {p : Nat} (h : s.phase p = .polling) :
    (run waitStep s [.poll p, .clear p]).map RtcReaders.rtc = rtcRead s.rtc := by
  unfold rtcRead
  by_cases hflag : s.rtc.irFlag = 0
  · simp [run, waitStep, h, hflag]
  · simp [run, waitStep, h, hflag, RtcReaders.setPhase]

/-! ## What a reader relies on -/

/-- Past its loop a reader has seen a signal since its call began, and so it has in the loop if the
flag is set. -/
structure ReaderOk (ph : TickPhase) (flag : Int) (signals started : Nat)
    (calls : List RtcCall) : Prop where
  begun : ph ≠ .outside → started ≤ signals
  polling : ph = .polling → flag ≠ 0 → started < signals
  passed : ph = .clearing ∨ ph = .returning → started < signals
  each : ∀ c ∈ calls, c.start < c.stop
  ended : ∀ c ∈ calls, c.stop ≤ signals
  earlier : ph ≠ .outside → ∀ c ∈ calls, c.stop ≤ started
  order : calls.Pairwise fun a b => a.stop ≤ b.start

namespace ReaderOk

variable {ph : TickPhase} {flag : Int} {signals started : Nat} {calls : List RtcCall}

theorem signal (h : ReaderOk ph flag signals started calls) :
    ReaderOk ph 1 (signals + 1) started calls where
  begun hin := Nat.le_succ_of_le (h.begun hin)
  polling hp _ := Nat.lt_succ_of_le (h.begun (by rw [hp]; decide))
  passed hp := Nat.lt_succ_of_lt (h.passed hp)
  each := h.each
  ended c hc := Nat.le_succ_of_le (h.ended c hc)
  earlier := h.earlier
  order := h.order

theorem cleared (h : ReaderOk ph flag signals started calls) :
    ReaderOk ph 0 signals started calls where
  begun := h.begun
  polling _ hne := absurd rfl hne
  passed := h.passed
  each := h.each
  ended := h.ended
  earlier := h.earlier
  order := h.order

theorem entered (h : ReaderOk .outside 0 signals started calls) :
    ReaderOk .polling 0 signals signals calls where
  begun _ := Nat.le_refl _
  polling _ hne := absurd rfl hne
  passed hp := by simp at hp
  each := h.each
  ended := h.ended
  earlier _ := h.ended
  order := h.order

theorem polled (h : ReaderOk .polling flag signals started calls) (hflag : flag ≠ 0) :
    ReaderOk .clearing flag signals started calls where
  begun _ := h.begun (by decide)
  polling hp _ := by cases hp
  passed _ := h.polling rfl hflag
  each := h.each
  ended := h.ended
  earlier _ := h.earlier (by decide)
  order := h.order

theorem stored (h : ReaderOk .clearing flag signals started calls) :
    ReaderOk .returning 0 signals started calls where
  begun _ := h.begun (by decide)
  polling hp _ := by cases hp
  passed _ := h.passed (.inl rfl)
  each := h.each
  ended := h.ended
  earlier _ := h.earlier (by decide)
  order := h.order

theorem left (h : ReaderOk .returning flag signals started calls) :
    ReaderOk .outside flag signals started (calls ++ [⟨started, signals⟩]) where
  begun hin := absurd rfl hin
  polling hp _ := by cases hp
  passed hp := by simp at hp
  each c hc := by
    obtain hold | hnew := List.mem_append.mp hc
    · exact h.each c hold
    · rw [List.mem_singleton.mp hnew]
      exact h.passed (.inr rfl)
  ended c hc := by
    obtain hold | hnew := List.mem_append.mp hc
    · exact h.ended c hold
    · rw [List.mem_singleton.mp hnew]
  earlier hin := absurd rfl hin
  order := by
    rw [List.pairwise_append]
    refine ⟨h.order, List.pairwise_singleton _ _, ?_⟩
    intro a ha b hb
    rw [List.mem_singleton.mp hb]
    exact h.earlier (by decide) a ha

/-- Calls that do not overlap have each had a signal of their own. -/
theorem waitsForTicks (h : ReaderOk ph flag signals started calls) : WaitsForTicks calls := by
  refine ⟨h.each, ?_⟩
  intro i m
  induction m with
  | zero =>
    intro first last hfirst hlast
    rw [Nat.add_zero, hfirst] at hlast
    cases hlast
    exact h.each first (List.mem_of_getElem? hfirst)
  | succ m ih =>
    intro first last hfirst hlast
    obtain ⟨hlt, hget⟩ := List.getElem?_eq_some_iff.mp hlast
    have hprev : calls[i + m]? = some (calls[i + m]) := List.getElem?_eq_getElem (by omega)
    have hstep := ih first _ hfirst hprev
    have hnext := List.pairwise_iff_getElem.mp h.order (i + m) (i + (m + 1)) (by omega) hlt
      (by omega)
    have hown := h.each last (List.mem_of_getElem? hlast)
    rw [hget] at hnext
    omega

end ReaderOk

/-! ## Runs -/

def ReadersOk (s : RtcReaders) : Prop :=
  ∀ p, ReaderOk (s.phase p) s.rtc.irFlag s.signals (s.started p) (s.calls p)

-- The handler either signals, or leaves the flag as it was.
theorem rtcHandler_flag {r r' : Rtc} (h : rtcHandler r = some r') :
    setsFlag r = true ∧ r'.irFlag = 1 ∨ setsFlag r = false ∧ r'.irFlag = r.irFlag := by
  rw [rtcHandler_eq_some h]
  cases setsFlag r with
  | true => exact .inl ⟨rfl, rfl⟩
  | false => exact .inr ⟨rfl, rfl⟩

theorem rtcOpen_irFlag (r : Rtc) : (rtcOpen r).irFlag = r.irFlag :=
  (rtcWrite_frame (some DEF_FREQ) 4 r).1

-- A step of one reader leaves the others as they are; at most it clears the flag.
theorem ReadersOk.of_reader {s s' : RtcReaders} {p : Nat} (h : ReadersOk s)
    (hown : ReaderOk (s'.phase p) s'.rtc.irFlag s'.signals (s'.started p) (s'.calls p))
    (hother : ∀ q, q ≠ p →
      s'.phase q = s.phase q ∧ s'.started q = s.started q ∧ s'.calls q = s.calls q)
    (hsignals : s'.signals = s.signals)
    (hflag : s'.rtc.irFlag = s.rtc.irFlag ∨ s'.rtc.irFlag = 0) : ReadersOk s' := by
  intro q
  by_cases hq : q = p
  · rw [hq]
    exact hown
  · obtain ⟨hphase, hstarted, hcalls⟩ := hother q hq
    rw [hphase, hstarted, hcalls, hsignals]
    obtain hsame | hzero := hflag
    · rw [hsame]
      exact h q
    · rw [hzero]
      exact (h q).cleared

theorem ReadersOk.step {s s' : RtcReaders} {e : WaitEvent} (h : ReadersOk s)
    (hclear : StartsClear s e) (hstep : waitStep s e = some s') : ReadersOk s' := by
  cases e with
  | interrupt =>
    obtain ⟨r, hr, rfl⟩ := Option.map_eq_some_iff.mp hstep
    intro q
    obtain ⟨hsets, hflag⟩ | ⟨hsets, hflag⟩ := rtcHandler_flag hr
    · simp only [hsets, hflag, if_true]
      exact (h q).signal
    · simp only [hsets, hflag, Bool.false_eq_true, if_false]
      exact h q
  | «open» =>
    cases hstep
    intro q
    show ReaderOk _ (rtcOpen s.rtc).irFlag _ _ _
    rw [rtcOpen_irFlag]
    exact h q
  | write buf nbytes =>
    cases hstep
    intro q
    show ReaderOk _ (rtcWrite buf nbytes s.rtc).2.irFlag _ _ _
    rw [(rtcWrite_frame buf nbytes s.rtc).1]
    exact h q
  | enter p =>
    obtain ⟨hout, hs⟩ := Option.ite_none_right_eq_some.mp hstep
    cases hs
    have hp := h p
    have hzero : s.rtc.irFlag = 0 := hclear
    rw [hout, hzero] at hp
    refine h.of_reader (p := p) ?_ ?_ rfl (.inl rfl)
    · simpa [RtcReaders.setPhase, hzero] using hp.entered
    · intro q hq
      simp [RtcReaders.setPhase, hq]
  | poll p =>
    obtain ⟨hpoll, hs⟩ := Option.ite_none_right_eq_some.mp hstep
    cases hs
    split
    case isTrue hzero => exact h
    case isFalse hflag =>
      have hp := h p
      rw [hpoll] at hp
      refine h.of_reader (p := p) ?_ ?_ rfl (.inl rfl)
      · simpa [RtcReaders.setPhase] using hp.polled hflag
      · intro q hq
        simp [RtcReaders.setPhase, hq]
  | clear p =>
    obtain ⟨hphase, hs⟩ := Option.ite_none_right_eq_some.mp hstep
    cases hs
    have hp := h p
    rw [hphase] at hp
    refine h.of_reader (p := p) ?_ ?_ rfl (.inr rfl)
    · simpa [RtcReaders.setPhase] using hp.stored
    · intro q hq
      simp [RtcReaders.setPhase, hq]
  | leave p =>
    obtain ⟨hphase, hs⟩ := Option.ite_none_right_eq_some.mp hstep
    cases hs
    have hp := h p
    rw [hphase] at hp
    refine h.of_reader (p := p) ?_ ?_ rfl (.inl rfl)
    · simpa [RtcReaders.setPhase] using hp.left
    · intro q hq
      simp [RtcReaders.setPhase, hq]

/-- Nobody is in `rtc_read` yet. -/
def atRest (r : Rtc) : RtcReaders := ⟨r, fun _ => .outside, 0, fun _ => 0, fun _ => []⟩

theorem readersOk_atRest (r : Rtc) : ReadersOk (atRest r) := by
  intro p
  constructor <;> simp [atRest]

/-- In every interleaving in which the flag is down whenever a call begins, each call waits for a
tick of its own, and so do the calls of each reader one after the other. -/
theorem rtc_read_waits (r : Rtc) (es : List WaitEvent) (s : RtcReaders)
    (hclear : Along waitStep StartsClear (atRest r) es)
    (hrun : run waitStep (atRest r) es = some s) (p : Nat) : WaitsForTicks (s.calls p) := by
  have hinv : ReadersOk s :=
    run_invariant (fun _ _ _ h hok hstep => h.step hok hstep) (readersOk_atRest r) hclear hrun
  exact (hinv p).waitsForTicks

/-- A tick that is left over lets a call through at once, whatever the state. -/
theorem stale_tick_returns {s : RtcReaders} {p : Nat} (hout : s.phase p = .outside)
    (hflag : s.rtc.irFlag ≠ 0) :
    ∃ s', run waitStep s [.enter p, .poll p, .clear p, .leave p] = some s' ∧
      s'.calls p = s.calls p ++ [⟨s.signals, s.signals⟩] ∧ ¬WaitsForTicks (s'.calls p) := by
  have hrun : ∃ s', run waitStep s [.enter p, .poll p, .clear p, .leave p] = some s' ∧
      s'.calls p = s.calls p ++ [⟨s.signals, s.signals⟩] := by
    simp [run, waitStep, RtcReaders.setPhase, hout, hflag]
  obtain ⟨s', hs', hcalls⟩ := hrun
  refine ⟨s', hs', hcalls, ?_⟩
  intro hwaits
  have hlast := hwaits.each ⟨s.signals, s.signals⟩ (by simp [hcalls])
  exact absurd hlast (Nat.lt_irrefl _)

/-- At 1024 Hz: two calls, each begun with the flag down. -/
theorem rtc_read_waits_twice :
    ∃ s, run waitStep (atRest ⟨0, 0, 1024⟩)
        [.enter 0, .poll 0, .interrupt, .poll 0, .clear 0, .leave 0,
          .enter 0, .interrupt, .poll 0, .clear 0, .leave 0] = some s ∧
      s.calls 0 = [⟨0, 1⟩, ⟨1, 2⟩] ∧ WaitsForTicks (s.calls 0) := by
  have hcalls : (run waitStep (atRest ⟨0, 0, 1024⟩)
      [.enter 0, .poll 0, .interrupt, .poll 0, .clear 0, .leave 0,
        .enter 0, .interrupt, .poll 0, .clear 0, .leave 0]).map (fun s => s.calls 0) =
      some [⟨0, 1⟩, ⟨1, 2⟩] := by decide
  obtain ⟨s, hs, hlog⟩ := Option.map_eq_some_iff.mp hcalls
  exact ⟨s, hs, hlog, rtc_read_waits ⟨0, 0, 1024⟩ _ s (by decide) hs 0⟩

/-- The tick comes before the call: from `rtc_init` on, a program sets 1024 Hz, and its read
returns although no tick has come since it began. -/
theorem rtc_read_does_not_wait :
    ∃ s, run waitStep (atRest (rtcInit ⟨0, 0, 0⟩))
        [.write (some 1024) 4, .interrupt, .enter 0, .poll 0, .clear 0, .leave 0] = some s ∧
      s.calls 0 = [⟨1, 1⟩] ∧ ¬WaitsForTicks (s.calls 0) := by
  have hcalls : (run waitStep (atRest (rtcInit ⟨0, 0, 0⟩))
      [.write (some 1024) 4, .interrupt, .enter 0, .poll 0, .clear 0, .leave 0]).map
        (fun s => s.calls 0) = some [⟨1, 1⟩] := by decide
  obtain ⟨s, hs, hlog⟩ := Option.map_eq_some_iff.mp hcalls
  refine ⟨s, hs, hlog, ?_⟩
  intro hwaits
  have hcall := hwaits.each ⟨1, 1⟩ (by simp [hlog])
  exact absurd hcall (Nat.lt_irrefl 1)

end Kernel391
