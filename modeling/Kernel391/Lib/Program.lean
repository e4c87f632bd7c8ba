import Mathlib.Tactic.Common

/-!
# Programs with a state that may fail

A program in `StateT σ Option` has no result when one of its steps has none: an access outside an
object, a call that never returns, a loop that has used up the iterations it was given.  `Ends` is
total correctness, so it also says that none of these happens.
-/

namespace Machine

variable {σ α β : Type}

abbrev Program (σ α : Type) := StateT σ Option α

/-- From `s` the program ends with a result and a state with property `Q`. -/
def Ends (c : Program σ α) (s : σ) (Q : α → σ → Prop) : Prop :=
  ∃ a s', c s = some (a, s') ∧ Q a s'

/-- If the program ends from `s` at all, then with a result and a state with property `Q`. -/
def IfEnds (c : Program σ α) (s : σ) (Q : α → σ → Prop) : Prop :=
  ∀ a s', c s = some (a, s') → Q a s'

/-- A program on a part of the state. -/
def Program.zoom {τ : Type} (get : σ → τ) (set : τ → σ → σ) (c : Program τ α) : Program σ α :=
  fun s => (c (get s)).map fun r => (r.1, set r.2 s)

namespace Ends

variable {c : Program σ α} {f : α → Program σ β} {s : σ} {Q : α → σ → Prop}

theorem mono {P : α → σ → Prop} (h : Ends c s P) (hPQ : ∀ a t, P a t → Q a t) : Ends c s Q := by
  obtain ⟨a, t, hrun, ht⟩ := h
  exact ⟨a, t, hrun, hPQ a t ht⟩

theorem pure {a : α} (h : Q a s) : Ends (Pure.pure a : Program σ α) s Q := ⟨a, s, rfl, h⟩

theorem bind {R : β → σ → Prop} (h : Ends c s fun a t => Ends (f a) t R) : Ends (c >>= f) s R := by
  obtain ⟨a, t, hrun, b, u, hrest, hR⟩ := h
  refine ⟨b, u, ?_, hR⟩
  show (c s).bind (fun p => f p.1 p.2) = some (b, u)
  rw [hrun]
  exact hrest

/-- The first part of a program ends where its specification says. -/
theorem bind_of {P : α → σ → Prop} {R : β → σ → Prop} (h : Ends c s P)
    (hrest : ∀ a t, P a t → Ends (f a) t R) : Ends (c >>= f) s R :=
  bind (h.mono hrest)

theorem lift {x : Option α} {a : α} (hx : x = some a) (h : Q a s) :
    Ends (StateT.lift x : Program σ α) s Q := by
  refine ⟨a, s, ?_, h⟩
  rw [hx]
  rfl

theorem zoom {τ : Type} {get : σ → τ} {set : τ → σ → σ} {c : Program τ α}
    (h : Ends c (get s) fun a t => Q a (set t s)) : Ends (c.zoom get set) s Q := by
  obtain ⟨a, t, hrun, ht⟩ := h
  refine ⟨a, set t s, ?_, ht⟩
  unfold Program.zoom
  rw [hrun]
  rfl

/-- A program whose rest has no result from wherever its first part ends. -/
theorem bind_eq_none {P : α → σ → Prop} (h : Ends c s P) (hrest : ∀ a t, P a t → f a t = none) :
    (c >>= f) s = none := by
  obtain ⟨a, t, hrun, ht⟩ := h
  show (c s).bind (fun p => f p.1 p.2) = none
  rw [hrun]
  exact hrest a t ht

/-- What holds of every end of a program holds where it ends. -/
theorem and_if {P : α → σ → Prop} (h : Ends c s P) (hif : IfEnds c s Q) :
    Ends c s fun a t => P a t ∧ Q a t := by
  obtain ⟨a, t, hrun, ht⟩ := h
  exact ⟨a, t, hrun, ht, hif a t hrun⟩

end Ends

theorem IfEnds.bind {c : Program σ α} {f : α → Program σ β} {s : σ} {R : β → σ → Prop}
    (h : IfEnds c s fun a t => IfEnds (f a) t R) : IfEnds (c >>= f) s R := by
  intro b u hrun
  obtain ⟨⟨a, t⟩, hfirst, hrest⟩ := Option.bind_eq_some_iff.mp hrun
  exact h a t hfirst b u hrest

theorem IfEnds.pure {a : α} {s : σ} {Q : α → σ → Prop} (h : Q a s) :
    IfEnds (Pure.pure a : Program σ α) s Q := by
  intro b t hrun
  obtain ⟨rfl, rfl⟩ := Prod.mk.inj (Option.some.inj hrun)
  exact h

end Machine
