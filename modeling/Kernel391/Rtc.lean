import Kernel391.Lib.Run
import Mathlib.Tactic.IntervalCases

/-!
# The real time clock driver (`rtc.c`)

The device ticks at `MAX_FREQ` and the driver divides that rate down to `virtual_freq`.  Port
traffic and the end-of-interrupt signal have no effect on the driver's variables and are not
modelled.
-/

namespace Kernel391

open Machine

def MAX_FREQ : Int := 1024

def DEF_FREQ : BitVec 32 := 2

/-- The driver's globals.  `virtual_freq` is an `int32_t` that user space can set to any bit
pattern `rtc_write` lets through, so it keeps its 32-bit representation. -/
structure Rtc where
  irFlag : Int
  clk : Int
  virtualFreq : BitVec 32
deriving DecidableEq

/-- `rtc_write`: `buf = none` is the NULL pointer, `some f` a pointer to the word `f`. -/
def rtcWrite (buf : Option (BitVec 32)) (nbytes : Int) (r : Rtc) : Int × Rtc :=
  match buf with
  | none => (-1, r)
  | some frequency =>
      if nbytes ≠ 4 then (-1, r)
      else if (1024 : BitVec 32).slt frequency then (-1, r)
      else if frequency = 1 then (-1, r)
      else if frequency &&& (frequency - 1) ≠ 0 then (-1, r)
      else (nbytes, { r with virtualFreq := frequency })

def rtcOpen (r : Rtc) : Rtc :=
  { (rtcWrite (some DEF_FREQ) 4 r).2 with clk := 0 }

def rtcInit (r : Rtc) : Rtc := rtcOpen r

/-- The divisor of the test in `rtc_handler`; C division truncates. -/
def tickDivisor (f : BitVec 32) : Int := Int.tdiv MAX_FREQ f.toInt

/-- `rtc_handler`; `none` is the divide error raised by a zero divisor. -/
def rtcHandler (r : Rtc) : Option Rtc :=
  let clk := Int.tmod (r.clk + 1) MAX_FREQ
  if r.virtualFreq = 0 then some { r with clk := clk }
  else if tickDivisor r.virtualFreq = 0 then none
  else if Int.tmod clk (tickDivisor r.virtualFreq) = 0 then
    some { r with clk := clk, irFlag := 1 }
  else some { r with clk := clk }

/-- `rtc_read` from its polling loop on; `none` while no tick is pending. -/
def rtcRead (r : Rtc) : Option Rtc := if r.irFlag = 0 then none else some { r with irFlag := 0 }

inductive RtcEvent where
  | open
  | write (buf : Option (BitVec 32)) (nbytes : Int)
  | interrupt
deriving DecidableEq

def rtcStep (r : Rtc) : RtcEvent → Option Rtc
  | .open => some (rtcOpen r)
  | .write buf nbytes => some (rtcWrite buf nbytes r).2
  | .interrupt => rtcHandler r

/-! ## The accepted frequencies -/

/-- The rates the driver is meant to serve: off, or a power of two from 2 to 1024 Hz. -/
def FreqOk (f : BitVec 32) : Prop := f = 0 ∨ ∃ k, 1 ≤ k ∧ k ≤ 10 ∧ f = BitVec.ofNat 32 (2 ^ k)

/-- `n & (n - 1)` clears the lowest set bit, so it vanishes only at zero and the powers of two. -/
theorem and_pred_eq_zero_iff (f : BitVec 32) :
    f &&& (f - 1) = 0 ↔ f = 0 ∨ ∃ k, k < 32 ∧ f = BitVec.ofNat 32 (2 ^ k) := by
  by_cases hz : f = 0
  · subst hz; simp
  have hn : f.toNat ≠ 0 := fun h => hz (BitVec.eq_of_toNat_eq (by simpa using h))
  have hpred : (f - 1).toNat = f.toNat - 1 := by
    have := f.isLt
    rw [BitVec.toNat_sub]
    change (2 ^ 32 - 1 + f.toNat) % 2 ^ 32 = f.toNat - 1
    omega
  have hand : f &&& (f - 1) = 0 ↔ f.toNat &&& (f.toNat - 1) = 0 := by
    rw [← BitVec.toNat_inj, BitVec.toNat_and, hpred]; rfl
  rw [hand, Nat.and_sub_one_eq_zero_iff_isPowerOfTwo hn]
  simp only [hz, false_or]
  constructor
  · rintro ⟨k, hk⟩
    have hlt : 2 ^ k < 2 ^ 32 := hk ▸ f.isLt
    have hk32 : k < 32 := (Nat.pow_lt_pow_iff_right (by decide)).mp hlt
    refine ⟨k, hk32, BitVec.eq_of_toNat_eq ?_⟩
    rw [BitVec.toNat_ofNat, Nat.mod_eq_of_lt hlt, hk]
  · rintro ⟨k, hk, rfl⟩
    refine ⟨k, ?_⟩
    rw [BitVec.toNat_ofNat, Nat.mod_eq_of_lt (Nat.pow_lt_pow_right (by decide) hk)]

/-- The single-bit words, as the two signed tests of `rtc_write` see them. -/
theorem singleBit_tests : ∀ k, k < 32 →
    ((1024 : BitVec 32).slt (BitVec.ofNat 32 (2 ^ k)) = false ∧ BitVec.ofNat 32 (2 ^ k) ≠ 1 ↔
      (1 ≤ k ∧ k ≤ 10) ∨ k = 31) := by
  decide

/-- The filter of `rtc_write` lets through one value that is not a served rate: the sign bit
alone, which is below 1024 as a signed number and has a single bit set. -/
theorem filter_iff (f : BitVec 32) :
    ((1024 : BitVec 32).slt f = false ∧ f ≠ 1 ∧ f &&& (f - 1) = 0) ↔
      FreqOk f ∨ f = 0x80000000 := by
  rw [and_pred_eq_zero_iff]
  constructor
  · rintro ⟨hslt, hone, rfl | ⟨k, hk, rfl⟩⟩
    · exact .inl (.inl rfl)
    · rcases (singleBit_tests k hk).mp ⟨hslt, hone⟩ with ⟨hlo, hhi⟩ | rfl
      · exact .inl (.inr ⟨k, hlo, hhi, rfl⟩)
      · exact .inr rfl
  · rintro ((rfl | ⟨k, hlo, hhi, rfl⟩) | rfl)
    · decide
    · rcases (singleBit_tests k (by omega)).mpr (.inl ⟨hlo, hhi⟩) with ⟨hslt, hone⟩
      exact ⟨hslt, hone, .inr ⟨k, by omega, rfl⟩⟩
    · exact ⟨by decide, by decide, .inr ⟨31, by decide, rfl⟩⟩

theorem freqOk_ne_min {f : BitVec 32} (h : FreqOk f) : f ≠ 0x80000000 := by
  rcases h with rfl | ⟨k, hlo, hhi, rfl⟩
  · decide
  · interval_cases k <;> decide

theorem tickDivisor_pos {f : BitVec 32} (h : FreqOk f) (hne : f ≠ 0) : 1 ≤ tickDivisor f := by
  rcases h with rfl | ⟨k, hlo, hhi, rfl⟩
  · exact absurd rfl hne
  · interval_cases k <;> decide

/-! ## One call -/

/-- What `rtc_write` does, in terms of its filter. -/
theorem rtcWrite_eq (buf : Option (BitVec 32)) (nbytes : Int) (r : Rtc) :
    (∃ f, buf = some f ∧ nbytes = 4 ∧ (FreqOk f ∨ f = 0x80000000) ∧
        rtcWrite buf nbytes r = (nbytes, { r with virtualFreq := f })) ∨
      ((¬∃ f, buf = some f ∧ nbytes = 4 ∧ (FreqOk f ∨ f = 0x80000000)) ∧
        rtcWrite buf nbytes r = (-1, r)) := by
  cases buf with
  | none => exact .inr ⟨by simp, rfl⟩
  | some f =>
    by_cases hn : nbytes = 4
    · by_cases hf : (1024 : BitVec 32).slt f = false ∧ f ≠ 1 ∧ f &&& (f - 1) = 0
      · refine .inl ⟨f, rfl, hn, (filter_iff f).mp hf, ?_⟩
        rcases hf with ⟨hslt, hone, hbit⟩
        simp only [rtcWrite, hn, hslt, hone, hbit, ne_eq, not_true_eq_false, if_false,
          Bool.false_eq_true]
      · refine .inr ⟨?_, ?_⟩
        · rintro ⟨f', hf', -, hok⟩
          cases hf'
          exact hf ((filter_iff f).mpr hok)
        · simp only [rtcWrite, hn]
          grind
    · refine .inr ⟨fun ⟨_, _, h4, _⟩ => hn h4, ?_⟩
      simp [rtcWrite, hn]

theorem rtcWrite_frame (buf : Option (BitVec 32)) (nbytes : Int) (r : Rtc) :
    (rtcWrite buf nbytes r).2.irFlag = r.irFlag ∧ (rtcWrite buf nbytes r).2.clk = r.clk := by
  rcases rtcWrite_eq buf nbytes r with ⟨f, -, -, -, hw⟩ | ⟨-, hw⟩
  · rw [hw]
    exact ⟨rfl, rfl⟩
  · rw [hw]
    exact ⟨rfl, rfl⟩

/-- The contract of `rtc_write`: exactly the served rates, passed as a 4-byte value, are
accepted; any other call fails and keeps the rate. -/
def RtcWriteSpec (buf : Option (BitVec 32)) (nbytes : Int) (r : Rtc) : Prop :=
  (∀ f, buf = some f → nbytes = 4 → FreqOk f →
    rtcWrite buf nbytes r = (nbytes, { r with virtualFreq := f })) ∧
  ((¬∃ f, buf = some f ∧ nbytes = 4 ∧ FreqOk f) →
    (rtcWrite buf nbytes r).1 = -1 ∧ (rtcWrite buf nbytes r).2.virtualFreq = r.virtualFreq)

/-- The rate is a served one, so the handler's divisor is positive. -/
def RtcSafe (r : Rtc) : Prop :=
  FreqOk r.virtualFreq ∧ (r.virtualFreq ≠ 0 → 1 ≤ tickDivisor r.virtualFreq)

theorem rtcSafe_of_freqOk {r : Rtc} (h : FreqOk r.virtualFreq) : RtcSafe r :=
  ⟨h, tickDivisor_pos h⟩

theorem freqOk_def : FreqOk DEF_FREQ := .inr ⟨1, by decide, by decide, rfl⟩

theorem rtcOpen_virtualFreq (r : Rtc) : (rtcOpen r).virtualFreq = DEF_FREQ := rfl

theorem rtcHandler_of_safe {r : Rtc} (h : RtcSafe r) :
    ∃ r', rtcHandler r = some r' ∧ r'.virtualFreq = r.virtualFreq := by
  unfold rtcHandler
  by_cases hz : r.virtualFreq = 0
  · simp [hz]
  · have hd : tickDivisor r.virtualFreq ≠ 0 := by have := h.2 hz; omega
    simp only [hz, hd, if_false]
    split <;> exact ⟨_, rfl, rfl⟩

/-- The write that user space must not make. -/
def RtcEvent.NotMinWrite (e : RtcEvent) : Prop := e ≠ .write (some 0x80000000) 4

/-- The contract of `rtc_write`, for the event at hand. -/
def RtcEvent.Contract (r : Rtc) : RtcEvent → Prop
  | .write buf nbytes => RtcWriteSpec buf nbytes r
  | _ => True

theorem contract_iff (r : Rtc) (e : RtcEvent) : e.Contract r ↔ e.NotMinWrite := by
  cases e with
  | «open» => simp [RtcEvent.Contract, RtcEvent.NotMinWrite]
  | interrupt => simp [RtcEvent.Contract, RtcEvent.NotMinWrite]
  | write buf nbytes =>
    change RtcWriteSpec buf nbytes r ↔ RtcEvent.write buf nbytes ≠ .write (some 0x80000000) 4
    unfold RtcWriteSpec
    rcases rtcWrite_eq buf nbytes r with ⟨f, rfl, rfl, hf, hw⟩ | ⟨hno, hw⟩
    · rw [hw]
      constructor
      · rintro ⟨-, hrej⟩ he
        cases he
        have hbad := hrej fun ⟨f, he, _, hok⟩ => freqOk_ne_min hok (Option.some.inj he).symm
        exact absurd hbad.1 (show ¬(4 : Int) = -1 by decide)
      · intro hne
        have hok : FreqOk f := hf.resolve_right fun h => hne (h ▸ rfl)
        refine ⟨fun f' he _ _ => by cases he; rfl, fun hnot => ?_⟩
        exact absurd ⟨f, rfl, rfl, hok⟩ hnot
    · rw [hw]
      constructor
      · rintro - he
        cases he
        exact hno ⟨_, rfl, rfl, .inr rfl⟩
      · intro _
        refine ⟨fun f hb h4 hok => absurd ⟨f, hb, h4, .inl hok⟩ hno, fun _ => ⟨rfl, rfl⟩⟩

/-- A step of the driver from a safe state completes and stays safe, unless it is the one write
the filter misses. -/
theorem rtcStep_safe {r : Rtc} {e : RtcEvent} (hr : RtcSafe r) (he : e.NotMinWrite) :
    ∃ r', rtcStep r e = some r' ∧ RtcSafe r' := by
  cases e with
  | «open» => exact ⟨_, rfl, rtcSafe_of_freqOk (rtcOpen_virtualFreq r ▸ freqOk_def)⟩
  | interrupt =>
    rcases rtcHandler_of_safe hr with ⟨r', hr', hf⟩
    exact ⟨r', hr', rtcSafe_of_freqOk (hf ▸ hr.1)⟩
  | write buf nbytes =>
    refine ⟨_, rfl, ?_⟩
    rcases rtcWrite_eq buf nbytes r with ⟨f, rfl, rfl, hf, hw⟩ | ⟨-, hw⟩
    · rw [hw]
      exact rtcSafe_of_freqOk (hf.resolve_right fun h => he (h ▸ rfl))
    · rw [hw]
      exact hr

/-! ## Whole runs -/

/-- A run is sound when every state met is safe, every write honours its contract and no
interrupt raises a divide error. -/
def RtcRunSound (r : Rtc) (es : List RtcEvent) : Prop :=
  Along rtcStep (fun r e => RtcSafe r ∧ e.Contract r ∧ (rtcStep r e).isSome) r es ∧
    ∃ r', run rtcStep r es = some r' ∧ RtcSafe r'

/-- From `rtc_init` on, a run is sound exactly when nobody writes the frequency whose only set
bit is the sign bit. -/
theorem rtc_run_sound_iff (r : Rtc) (es : List RtcEvent) :
    RtcRunSound (rtcInit r) es ↔ ∀ e ∈ es, e ≠ .write (some 0x80000000) 4 := by
  have hinit : RtcSafe (rtcInit r) := rtcSafe_of_freqOk (rtcOpen_virtualFreq r ▸ freqOk_def)
  generalize rtcInit r = s at hinit
  constructor
  · rintro ⟨halong, -⟩
    clear hinit
    induction es generalizing s with
    | nil => simp
    | cons e es ih =>
      rcases halong with ⟨⟨-, hc, hsome⟩, hrest⟩
      rcases Option.isSome_iff_exists.mp hsome with ⟨s', hs'⟩
      intro e' he'
      rcases List.mem_cons.mp he' with rfl | he'
      · exact (contract_iff s e').mp hc
      · exact ih s' (hrest s' hs') e' he'
  · intro hes
    have hok : Along rtcStep (fun _ e => RtcEvent.NotMinWrite e) s es := along_of_forall hes
    have hstep : ∀ r e r', RtcSafe r → RtcEvent.NotMinWrite e → rtcStep r e = some r' →
        RtcSafe r' := by
      intro r e r' hr he hr'
      rcases rtcStep_safe hr he with ⟨t, ht, hsafe⟩
      exact Option.some.inj (ht.symm.trans hr') ▸ hsafe
    have hsound : ∀ r e, RtcSafe r → RtcEvent.NotMinWrite e →
        RtcSafe r ∧ e.Contract r ∧ (rtcStep r e).isSome := by
      intro r e hr he
      rcases rtcStep_safe hr he with ⟨t, ht, -⟩
      exact ⟨hr, (contract_iff r e).mpr he, Option.isSome_iff_exists.mpr ⟨t, ht⟩⟩
    exact ⟨along_of_invariant hstep hsound hinit hok,
      run_total (fun _ _ hr he => rtcStep_safe hr he) hinit hok⟩

/-- Writing that frequency is accepted, and the next interrupt divides by zero. -/
theorem rtc_min_write_faults :
    ¬RtcRunSound (rtcInit ⟨0, 0, 0⟩) [.write (some 0x80000000) 4, .interrupt] ∧
      (rtcWrite (some 0x80000000) 4 (rtcInit ⟨0, 0, 0⟩)).1 = 4 ∧
      run rtcStep (rtcInit ⟨0, 0, 0⟩) [.write (some 0x80000000) 4, .interrupt] = none := by
  have hfault :
      run rtcStep (rtcInit ⟨0, 0, 0⟩) [.write (some 0x80000000) 4, .interrupt] = none := by decide
  refine ⟨?_, by decide, hfault⟩
  rintro ⟨-, r', hr', -⟩
  rw [hfault] at hr'
  cases hr'

end Kernel391
