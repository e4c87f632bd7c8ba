import Mathlib.Logic.Function.Basic
import Mathlib.Logic.Relation
import Mathlib.Data.List.Nodup
import Mathlib.Tactic.Tauto

/-!
# Stacks kept as linked chains

A family of stacks, one of them shown, in which elements are pushed and popped on the shown stack
only.  An implementation keeps the top of each stack in a table and the element below each one in
another; `Threaded` relates the two, and is kept by pushing a fresh element and by popping.
-/

namespace Machine

variable {ι α : Type}

/-- Following `next` from an element until `stop` meets the elements of the list, in order. -/
inductive Visits (next : α → α) (stop : α) : α → List α → Prop
  | done : Visits next stop stop []
  | step {a : α} {path : List α} (ha : a ≠ stop) (h : Visits next stop (next a) path) :
      Visits next stop a (a :: path)

theorem Visits.congr {next next' : α → α} {stop a : α} {path : List α}
    (h : Visits next stop a path) (heq : ∀ b ∈ path, next' b = next b) :
    Visits next' stop a path := by
  induction h with
  | done => exact .done
  | @step a path ha h ih =>
    apply Visits.step ha
    rw [heq a List.mem_cons_self]
    exact ih fun b hb => heq b (List.mem_cons_of_mem a hb)

theorem Visits.nil_inv {next : α → α} {stop a : α} (h : Visits next stop a []) : a = stop := by
  cases h
  rfl

theorem Visits.cons_inv {next : α → α} {stop a b : α} {path : List α}
    (h : Visits next stop a (b :: path)) : a = b ∧ b ≠ stop ∧ Visits next stop (next b) path := by
  cases h with
  | step ha h => exact ⟨rfl, ha, h⟩

theorem Visits.exists_cons {next : α → α} {stop a : α} {path : List α}
    (h : Visits next stop a path) (ha : a ≠ stop) : ∃ rest, path = a :: rest := by
  cases h with
  | done => exact absurd rfl ha
  | @step _ rest _ _ => exact ⟨rest, rfl⟩

/-- Every stack is the chain that starts at its top. -/
def Threaded (next : α → α) (stop : α) (top : ι → α) (stack : ι → List α) : Prop :=
  ∀ t, Visits next stop (top t) (stack t)

section

variable [DecidableEq ι] {next : α → α} {stop : α} {top : ι → α}
  {stack : ι → List α}

theorem Threaded.push [DecidableEq α] (h : Threaded next stop top stack) (t : ι) {p : α}
    (hp : ∀ u, p ∉ stack u)
    (hstop : p ≠ stop) :
    Threaded (Function.update next p (top t)) stop (Function.update top t p)
      (Function.update stack t (p :: stack t)) := by
  have hold : ∀ u, Visits (Function.update next p (top t)) stop (top u) (stack u) := by
    intro u
    apply (h u).congr
    intro b hb
    have hne : b ≠ p := fun he => hp u (he ▸ hb)
    rw [Function.update_of_ne hne]
  intro u
  by_cases hu : u = t
  · subst hu
    rw [Function.update_self, Function.update_self]
    apply Visits.step hstop
    rw [Function.update_self]
    exact hold u
  · rw [Function.update_of_ne hu, Function.update_of_ne hu]
    exact hold u

theorem Threaded.pop (h : Threaded next stop top stack) {t : ι} {p : α} {rest : List α}
    (ht : stack t = p :: rest) :
    Threaded next stop (Function.update top t (next p)) (Function.update stack t rest) := by
  intro u
  by_cases hu : u = t
  · subst hu
    rw [Function.update_self, Function.update_self]
    exact (Visits.cons_inv (ht ▸ h u)).2.2
  · rw [Function.update_of_ne hu, Function.update_of_ne hu]
    exact h u

end

/-- The stacks, and which of them is shown. -/
structure Desk (ι α : Type) where
  shown : ι
  stack : ι → List α

namespace Desk

variable [DecidableEq ι]

def push (p : α) (d : Desk ι α) : Desk ι α :=
  { d with stack := Function.update d.stack d.shown (p :: d.stack d.shown) }

def pop (d : Desk ι α) : Desk ι α :=
  { d with stack := Function.update d.stack d.shown (d.stack d.shown).tail }

inductive Move : Desk ι α → Desk ι α → Prop
  | push (d : Desk ι α) (p : α) (hp : ∀ t, p ∉ d.stack t) : Move d (d.push p)
  | pop (d : Desk ι α) : Move d d.pop
  | look (d : Desk ι α) (t : ι) : Move d { d with shown := t }

/-- No element is on two stacks or twice on one. -/
structure Ok (d : Desk ι α) : Prop where
  nodup : ∀ t, (d.stack t).Nodup
  disjoint : ∀ t u p, p ∈ d.stack t → p ∈ d.stack u → t = u

theorem mem_push {d : Desk ι α} {p q : α} {t : ι} :
    q ∈ (d.push p).stack t ↔ q ∈ d.stack t ∨ (t = d.shown ∧ q = p) := by
  change q ∈ Function.update d.stack d.shown (p :: d.stack d.shown) t ↔ _
  by_cases ht : t = d.shown
  · rw [ht, Function.update_self, List.mem_cons, or_comm]
    simp only [true_and]
  · rw [Function.update_of_ne ht]
    simp only [ht, false_and, or_false]

theorem mem_of_mem_pop {d : Desk ι α} {q : α} {t : ι} (h : q ∈ d.pop.stack t) :
    q ∈ d.stack t := by
  change q ∈ Function.update d.stack d.shown (d.stack d.shown).tail t at h
  by_cases ht : t = d.shown
  · rw [ht, Function.update_self] at h
    rw [ht]
    exact List.mem_of_mem_tail h
  · rw [Function.update_of_ne ht] at h
    exact h

theorem Ok.mem_pop {d : Desk ι α} (h : d.Ok) {p q : α} {rest : List α}
    (hshown : d.stack d.shown = p :: rest) {t : ι} :
    q ∈ d.pop.stack t ↔ q ∈ d.stack t ∧ q ≠ p := by
  change q ∈ Function.update d.stack d.shown (d.stack d.shown).tail t ↔ _
  have hp : p ∈ d.stack d.shown := hshown ▸ List.mem_cons_self
  by_cases ht : t = d.shown
  · have hnodup := h.nodup d.shown
    rw [hshown] at hnodup
    rw [ht, Function.update_self, hshown, List.tail_cons, List.mem_cons]
    have hrest : q ∈ rest → q ≠ p := fun hq he => (List.nodup_cons.mp hnodup).1 (he ▸ hq)
    tauto
  · rw [Function.update_of_ne ht]
    have hother : q ∈ d.stack t → q ≠ p := fun hq he => ht (h.disjoint t d.shown q hq (he ▸ hp))
    tauto

theorem Ok.push {d : Desk ι α} (h : d.Ok) {p : α} (hp : ∀ t, p ∉ d.stack t) : (d.push p).Ok where
  nodup t := by
    change (Function.update d.stack d.shown (p :: d.stack d.shown) t).Nodup
    by_cases ht : t = d.shown
    · rw [ht, Function.update_self]
      exact List.nodup_cons.mpr ⟨hp d.shown, h.nodup d.shown⟩
    · rw [Function.update_of_ne ht]
      exact h.nodup t
  disjoint t u q ht hu := by
    rcases mem_push.mp ht with ht | ⟨ht, hq⟩ <;> rcases mem_push.mp hu with hu | ⟨hu, hq'⟩
    · exact h.disjoint t u q ht hu
    · exact absurd (hq' ▸ ht) (hp t)
    · exact absurd (hq ▸ hu) (hp u)
    · rw [ht, hu]

theorem Ok.pop {d : Desk ι α} (h : d.Ok) : d.pop.Ok where
  nodup t := by
    change (Function.update d.stack d.shown (d.stack d.shown).tail t).Nodup
    by_cases ht : t = d.shown
    · rw [ht, Function.update_self]
      exact (h.nodup d.shown).sublist (List.tail_sublist _)
    · rw [Function.update_of_ne ht]
      exact h.nodup t
  disjoint t u q ht hu := h.disjoint t u q (mem_of_mem_pop ht) (mem_of_mem_pop hu)

theorem Move.ok {d d' : Desk ι α} (hm : Move d d') (h : d.Ok) : d'.Ok := by
  cases hm with
  | push p hp => exact h.push hp
  | pop => exact h.pop
  | look t => exact ⟨h.nodup, h.disjoint⟩

theorem Ok.moves {d d' : Desk ι α} (h : d.Ok) (hm : Relation.ReflTransGen Move d d') : d'.Ok := by
  induction hm with
  | refl => exact h
  | tail _ hmove ih => exact hmove.ok ih

end Desk

end Machine
