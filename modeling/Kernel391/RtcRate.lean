import Kernel391.Rtc
import Kernel391.Lib.Divider

/-!
# The virtual rate

`rtc_handler` keeps its count modulo 1024 and signals where the count is a multiple of
`1024 / virtual_freq`.  That divides 1024, so taking the remainder hides no signal and adds none.
-/

namespace Kernel391

open Machine Divider

/-- A call of the handler sets the flag: it leaves it set when it finds it cleared.  By
`rtcHandler_eq_some` the flag after the call itself is 1 if so, and is left as it was otherwise. -/
def setsFlag (r : Rtc) : Bool :=
  match rtcHandler { r with irFlag := 0 } with
  | none => false
  | some r' => r'.irFlag ≠ 0

/-- The driver, with a note for each call of the handler whether it set the flag. -/
structure Ticking where
  rtc : Rtc
  calls : List Bool

/-- Interrupts, and the end of `rtc_read`, which clears the flag. -/
inductive TickEvent where
  | interrupt
  | clear
deriving DecidableEq

def tickStep (s : Ticking) : TickEvent → Option Ticking
  | .interrupt => (rtcHandler s.rtc).map fun r => ⟨r, s.calls ++ [setsFlag s.rtc]⟩
  | .clear => some { s with rtc := { s.rtc with irFlag := 0 } }

/-! ## One call -/

-- A call counts, and may set the flag.
theorem rtcHandler_eq_some {r r' : Rtc} (h : rtcHandler r = some r') :
    r' = { r with
      clk := Int.tmod (r.clk + 1) MAX_FREQ
      irFlag := if setsFlag r then 1 else r.irFlag } := by
  unfold rtcHandler at h
  unfold setsFlag rtcHandler
  dsimp only at h ⊢
  split at h
  case isTrue hzero =>
    rw [if_pos hzero, ← Option.some.inj h]
    simp
  case isFalse hzero =>
    split at h
    case isTrue hdiv => cases h
    case isFalse hdiv =>
      rw [if_neg hzero, if_neg hdiv]
      split at h
      case isTrue hsignal =>
        rw [if_pos hsignal, ← Option.some.inj h]
        simp
      case isFalse hsignal =>
        rw [if_neg hsignal, ← Option.some.inj h]
        simp

/-- The driver at one of the rates `2 ^ k`, after `n` calls that started at the count `c`. -/
structure AtRate (k c n : Nat) (r : Rtc) : Prop where
  freq : r.virtualFreq = BitVec.ofNat 32 (2 ^ k)
  clk : r.clk = ((c + n) % 1024 : Nat)

theorem tickDivisor_pow {k : Nat} (hlo : 1 ≤ k) (hhi : k ≤ 10) :
    tickDivisor (BitVec.ofNat 32 (2 ^ k)) = (1024 / 2 ^ k : Nat) ∧ 0 < 1024 / 2 ^ k ∧
      1024 / 2 ^ k ∣ 1024 ∧ BitVec.ofNat 32 (2 ^ k) ≠ 0 := by
  interval_cases k <;> decide

theorem next_clk (n : Nat) :
    Int.tmod ((n % 1024 : Nat) + 1) MAX_FREQ = ((n + 1) % 1024 : Nat) := by
  have hcast : ((n % 1024 : Nat) : Int) + 1 = (n % 1024 + 1 : Nat) := by simp
  rw [hcast]
  show Int.tmod _ ((1024 : Nat) : Int) = _
  rw [← Int.ofNat_tmod, Nat.mod_add_mod]

-- The handler, whatever the flag was.
theorem AtRate.handler {k c n : Nat} (hlo : 1 ≤ k) (hhi : k ≤ 10) {r : Rtc} (h : AtRate k c n r) :
    rtcHandler r = some { r with
      clk := ((c + n + 1) % 1024 : Nat)
      irFlag := if 1024 / 2 ^ k ∣ c + n + 1 then 1 else r.irFlag } := by
  obtain ⟨hdiv, hpos, hdvd, hne⟩ := tickDivisor_pow hlo hhi
  have hcount : Int.tmod ((c + n + 1) % 1024 : Nat) (1024 / 2 ^ k : Nat) = 0 ↔
      1024 / 2 ^ k ∣ c + n + 1 := by
    rw [← Int.ofNat_tmod, Nat.mod_mod_of_dvd _ hdvd]
    exact Int.natCast_eq_zero.trans (Nat.dvd_iff_mod_eq_zero).symm
  have hdne : ((1024 / 2 ^ k : Nat) : Int) ≠ 0 := by omega
  unfold rtcHandler
  simp only [h.freq, h.clk, next_clk, hdiv, hne, hdne, if_false]
  by_cases hsignal : 1024 / 2 ^ k ∣ c + n + 1
  · rw [if_pos (hcount.mpr hsignal), if_pos hsignal]
  · rw [if_neg (mt hcount.mp hsignal), if_neg hsignal]

theorem AtRate.setsFlag {k c n : Nat} (hlo : 1 ≤ k) (hhi : k ≤ 10) {r : Rtc}
    (h : AtRate k c n r) : Kernel391.setsFlag r = decide (1024 / 2 ^ k ∣ c + n + 1) := by
  have hcleared : AtRate k c n { r with irFlag := 0 } := ⟨h.freq, h.clk⟩
  unfold Kernel391.setsFlag
  rw [hcleared.handler hlo hhi]
  by_cases hsignal : 1024 / 2 ^ k ∣ c + n + 1
  · simp [hsignal]
  · simp [hsignal]

/-! ## Whole runs -/

/-- The count and the calls so far are those of a divider. -/
structure Divides (k c : Nat) (s : Ticking) : Prop where
  rate : AtRate k c s.calls.length s.rtc
  calls : s.calls = pulses (1024 / 2 ^ k) c s.calls.length

theorem Divides.step {k c : Nat} (hlo : 1 ≤ k) (hhi : k ≤ 10) {s : Ticking} (h : Divides k c s)
    (e : TickEvent) : ∃ s', tickStep s e = some s' ∧ Divides k c s' ∧
      s'.calls.length = s.calls.length + [e].count .interrupt := by
  cases e with
  | interrupt =>
    have hlen : (s.calls ++ [setsFlag s.rtc]).length = s.calls.length + 1 := by simp
    refine ⟨_, by rw [tickStep, h.rate.handler hlo hhi, Option.map_some], ⟨?_, ?_⟩, hlen⟩
    · rw [hlen]
      exact ⟨h.rate.freq, rfl⟩
    · rw [hlen, pulses_succ, ← h.calls, h.rate.setsFlag hlo hhi]
  | clear => exact ⟨_, rfl, ⟨⟨h.rate.freq, h.rate.clk⟩, h.calls⟩, rfl⟩

theorem Divides.run {k c : Nat} (hlo : 1 ≤ k) (hhi : k ≤ 10) (es : List TickEvent) :
    ∀ s, Divides k c s → ∃ s', Machine.run tickStep s es = some s' ∧ Divides k c s' ∧
      s'.calls.length = s.calls.length + es.count .interrupt := by
  induction es with
  | nil => exact fun s h => ⟨s, rfl, h, rfl⟩
  | cons e es ih =>
    intro s h
    obtain ⟨t, ht, hdiv, hlen⟩ := h.step hlo hhi e
    obtain ⟨u, hu, hfinal, hcount⟩ := ih t hdiv
    have hcons : (e :: es).count .interrupt = [e].count .interrupt + es.count .interrupt := by
      rw [← List.count_append, List.singleton_append]
    exact ⟨u, run_cons_eq_some.mpr ⟨t, ht, hu⟩, hfinal, by omega⟩

/-- At the rate `2 ^ k` the calls that set the flag are `1024 / 2 ^ k` apart, and their number is
that of the multiples passed; the count stays below 1024. -/
theorem virtual_rate (r : Rtc) (k c : Nat) (hlo : 1 ≤ k) (hhi : k ≤ 10)
    (hfreq : r.virtualFreq = BitVec.ofNat 32 (2 ^ k)) (hclk : r.clk = c) (hc : c < 1024)
    (es : List TickEvent) :
    ∃ s, Machine.run tickStep ⟨r, []⟩ es = some s ∧ s.calls.length = es.count .interrupt ∧
      s.calls.count true =
        (c + es.count .interrupt) / (1024 / 2 ^ k) - c / (1024 / 2 ^ k) ∧
      (∀ i j, Consecutive s.calls i j → j - i = 1024 / 2 ^ k) ∧
      0 ≤ s.rtc.clk ∧ s.rtc.clk < 1024 := by
  have hstart : Divides k c ⟨r, []⟩ := by
    refine ⟨⟨hfreq, ?_⟩, rfl⟩
    rw [hclk]
    show (c : Int) = ((c % 1024 : Nat) : Int)
    omega
  obtain ⟨s, hs, hdiv, hlen⟩ := Divides.run hlo hhi es _ hstart
  rw [List.length_nil, Nat.zero_add] at hlen
  have hcalls := hdiv.calls
  rw [hlen] at hcalls
  refine ⟨s, hs, hlen, ?_, ?_, ?_, ?_⟩
  · rw [hcalls, count_pulses]
  · intro i j hij
    rw [hcalls] at hij
    exact pulses_spacing (tickDivisor_pow hlo hhi).2.1 hij
  · rw [hdiv.rate.clk]
    omega
  · rw [hdiv.rate.clk]
    omega

/-- Two of three calls at 512 Hz, with a read in between. -/
theorem virtual_rate_512 :
    ∃ s, Machine.run tickStep ⟨⟨0, 1023, 512⟩, []⟩
        [.interrupt, .clear, .interrupt, .interrupt] = some s ∧
      s.calls.count true = 2 ∧ s.rtc.clk < 1024 := by
  obtain ⟨s, hs, -, hcount, -, -, hclk⟩ := virtual_rate ⟨0, 1023, 512⟩ 9 1023 (by decide)
    (by decide) rfl rfl (by decide) [.interrupt, .clear, .interrupt, .interrupt]
  exact ⟨s, hs, hcount, hclk⟩

end Kernel391
