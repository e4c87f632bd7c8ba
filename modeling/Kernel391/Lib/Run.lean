import Mathlib.Tactic.Common

/-!
# Runs of event-driven machines

A machine is a partial step function: `step s e = none` when the event has no completed
transition from `s`.  `run` feeds a list of events, `Along` states a property of every
(state, event) pair met on the way, and the two invariant rules turn a one-step lemma into a
statement about whole runs.
-/

namespace Machine

variable {σ ε : Type} {step : σ → ε → Option σ}

/-- The state after all events, if every one of them completes. -/
def run (step : σ → ε → Option σ) : σ → List ε → Option σ
  | s, [] => some s
  | s, e :: es => (step s e).bind fun s' => run step s' es

/-- `P` holds of each event together with the state it arrives in. -/
def Along (step : σ → ε → Option σ) (P : σ → ε → Prop) : σ → List ε → Prop
  | _, [] => True
  | s, e :: es => P s e ∧ ∀ s', step s e = some s' → Along step P s' es

instance Along.decidable {P : σ → ε → Prop} [∀ s e, Decidable (P s e)] :
    (s : σ) → (es : List ε) → Decidable (Along step P s es)
  | _, [] => isTrue trivial
  | s, e :: es =>
      match h : step s e with
      | none => decidable_of_iff (P s e) ⟨fun hp => ⟨hp, fun _ ht => nomatch h.symm.trans ht⟩, And.left⟩
      | some t =>
          have := Along.decidable (P := P) t es
          decidable_of_iff (P s e ∧ Along step P t es)
            ⟨fun hp => ⟨hp.1, fun _ ht => Option.some.inj (h.symm.trans ht) ▸ hp.2⟩,
              fun hp => ⟨hp.1, hp.2 t h⟩⟩

@[simp] theorem run_nil (s : σ) : run step s [] = some s := rfl

theorem run_cons (s : σ) (e : ε) (es : List ε) :
    run step s (e :: es) = (step s e).bind fun s' => run step s' es := rfl

theorem run_cons_eq_some {s s'' : σ} {e : ε} {es : List ε} :
    run step s (e :: es) = some s'' ↔ ∃ s', step s e = some s' ∧ run step s' es = some s'' := by
  rw [run_cons, Option.bind_eq_some_iff]

theorem along_snoc {P : σ → ε → Prop} {s : σ} {es : List ε} {e : ε} :
    Along step P s (es ++ [e]) ↔ Along step P s es ∧ ∀ s', run step s es = some s' → P s' e := by
  induction es generalizing s with
  | nil => simp [Along]
  | cons e' es ih =>
    simp only [List.cons_append, Along, ih, run_cons_eq_some]
    grind

/-- A one-step invariant, kept under the condition `Ok`, holds at the end of every run whose
steps all meet the condition. -/
theorem run_invariant {Inv : σ → Prop} {Ok : σ → ε → Prop}
    (hstep : ∀ s e s', Inv s → Ok s e → step s e = some s' → Inv s')
    {s s' : σ} {es : List ε} (hs : Inv s) (hok : Along step Ok s es)
    (hrun : run step s es = some s') : Inv s' := by
  induction es generalizing s with
  | nil => exact Option.some.inj hrun ▸ hs
  | cons e es ih =>
    rcases run_cons_eq_some.mp hrun with ⟨t, ht, hrun⟩
    exact ih (hstep s e t hs hok.1 ht) (hok.2 t ht) hrun

/-- The same invariant gives every consequence `P` of it along the run. -/
theorem along_of_invariant {Inv : σ → Prop} {Ok P : σ → ε → Prop}
    (hstep : ∀ s e s', Inv s → Ok s e → step s e = some s' → Inv s')
    (hP : ∀ s e, Inv s → Ok s e → P s e)
    {s : σ} {es : List ε} (hs : Inv s) (hok : Along step Ok s es) : Along step P s es := by
  induction es generalizing s with
  | nil => trivial
  | cons e es ih =>
    exact ⟨hP s e hs hok.1, fun t ht => ih (hstep s e t hs hok.1 ht) (hok.2 t ht)⟩

/-- When, in invariant states, the condition on a step is exactly what the property asks of it,
the two hold along the same runs. -/
theorem along_iff_of_invariant {Inv : σ → Prop} {Ok P : σ → ε → Prop}
    (hstep : ∀ s e s', Inv s → Ok s e → step s e = some s' → Inv s')
    (hiff : ∀ s e, Inv s → (P s e ↔ Ok s e)) {s : σ} {es : List ε} (hs : Inv s) :
    Along step P s es ↔ Along step Ok s es := by
  induction es generalizing s with
  | nil => exact Iff.rfl
  | cons e es ih =>
    have hhead := hiff s e hs
    constructor
    · intro h
      have hok := hhead.mp h.1
      exact ⟨hok, fun t ht => (ih (hstep s e t hs hok ht)).mp (h.2 t ht)⟩
    · intro h
      exact ⟨hhead.mpr h.1, fun t ht => (ih (hstep s e t hs h.1 ht)).mpr (h.2 t ht)⟩

/-- If moreover every such step completes, then the whole run does. -/
theorem run_total {Inv : σ → Prop} {Ok : σ → ε → Prop}
    (hstep : ∀ s e, Inv s → Ok s e → ∃ s', step s e = some s' ∧ Inv s')
    {s : σ} {es : List ε} (hs : Inv s) (hok : Along step Ok s es) :
    ∃ s', run step s es = some s' ∧ Inv s' := by
  induction es generalizing s with
  | nil => exact ⟨s, rfl, hs⟩
  | cons e es ih =>
    rcases hstep s e hs hok.1 with ⟨t, ht, hinv⟩
    rcases ih hinv (hok.2 t ht) with ⟨u, hu, hfinal⟩
    exact ⟨u, run_cons_eq_some.mpr ⟨t, ht, hu⟩, hfinal⟩

/-- Where every such step completes, a condition on the events alone that holds along the run
holds of all of them. -/
theorem forall_of_along {Inv : σ → Prop} {Ok : ε → Prop}
    (hstep : ∀ s e, Inv s → Ok e → ∃ s', step s e = some s' ∧ Inv s')
    {s : σ} {es : List ε} (hs : Inv s) (h : Along step (fun _ e => Ok e) s es) :
    ∀ e ∈ es, Ok e := by
  induction es generalizing s with
  | nil => simp
  | cons e es ih =>
    obtain ⟨t, ht, hinv⟩ := hstep s e hs h.1
    rw [List.forall_mem_cons]
    exact ⟨h.1, ih hinv (h.2 t ht)⟩

/-- A condition on the events alone holds along every run. -/
theorem along_of_forall {Ok : ε → Prop} {s : σ} {es : List ε} (h : ∀ e ∈ es, Ok e) :
    Along step (fun _ e => Ok e) s es := by
  induction es generalizing s with
  | nil => trivial
  | cons e es ih =>
    exact ⟨h e List.mem_cons_self, fun _ _ => ih fun e' he' => h e' (List.mem_cons_of_mem e he')⟩

theorem along_and {P Q : σ → ε → Prop} {s : σ} {es : List ε} :
    Along step (fun s e => P s e ∧ Q s e) s es ↔ Along step P s es ∧ Along step Q s es := by
  induction es generalizing s with
  | nil => exact ⟨fun _ => ⟨trivial, trivial⟩, fun _ => trivial⟩
  | cons e es ih =>
    simp only [Along, ih]
    exact ⟨fun h => ⟨⟨h.1.1, fun t ht => (h.2 t ht).1⟩, h.1.2, fun t ht => (h.2 t ht).2⟩,
      fun h => ⟨⟨h.1.1, h.2.1⟩, fun t ht => ⟨h.1.2 t ht, h.2.2 t ht⟩⟩⟩

end Machine
