import Kernel391.Lib.LinkedStacks
import Mathlib.Data.Finset.Card

/-!
# Linked lists in a pool

A singly linked list whose nodes are taken from a finite pool.  `Linked` relates the links to the
nodes in their order; it is kept by linking a fresh node in front and by unlinking any node, and it
bounds the length of a walk along the list.
-/

namespace Machine

variable {α : Type} {pool : Finset α} {next : α → α} {stop head p q : α}
  {path before rest : List α}

/-- The chain from `head` meets the nodes of `path`, each of them once, and all in the pool. -/
structure Linked (pool : Finset α) (next : α → α) (stop head : α) (path : List α) : Prop where
  visits : Visits next stop head path
  nodup : path.Nodup
  inside : ∀ p ∈ path, p ∈ pool

theorem Visits.unique {path' : List α} (h : Visits next stop head path)
    (h' : Visits next stop head path') : path = path' := by
  induction h generalizing path' with
  | done =>
    cases h' with
    | done => rfl
    | step hne => exact absurd rfl hne
  | @step a path hne _ ih =>
    cases h' with
    | done => exact absurd rfl hne
    | step _ hrest => rw [ih hrest]

theorem Visits.unlink [DecidableEq α] (h : Visits next stop head (before ++ q :: p :: rest))
    (hnodup : (before ++ q :: p :: rest).Nodup) :
    Visits (Function.update next q (next p)) stop head (before ++ q :: rest) := by
  induction before generalizing head with
  | nil =>
    obtain ⟨rfl, hq, hnext⟩ := h.cons_inv
    have hfresh : head ∉ p :: rest := (List.nodup_cons.mp hnodup).1
    apply Visits.step hq
    rw [Function.update_self]
    apply hnext.cons_inv.2.2.congr
    intro b hb
    apply Function.update_of_ne
    exact fun he => hfresh (he ▸ List.mem_cons_of_mem p hb)
  | cons b before ih =>
    obtain ⟨rfl, hb, hnext⟩ := h.cons_inv
    have hfresh := (List.nodup_cons.mp hnodup).1
    have hne : head ≠ q := fun he => hfresh (he ▸ List.mem_append_right before List.mem_cons_self)
    apply Visits.step hb
    rw [Function.update_of_ne hne]
    exact ih hnext (List.nodup_cons.mp hnodup).2

namespace Linked

theorem length_le [DecidableEq α] (h : Linked pool next stop head path) : path.length ≤ pool.card := by
  rw [← List.toFinset_card_of_nodup h.nodup]
  exact Finset.card_le_card fun p hp => h.inside p (List.mem_toFinset.mp hp)

theorem congr {next' : α → α} (h : Linked pool next stop head path)
    (heq : ∀ b ∈ path, next' b = next b) : Linked pool next' stop head path :=
  ⟨h.visits.congr heq, h.nodup, h.inside⟩

theorem push [DecidableEq α] (h : Linked pool next stop head path) (hp : p ∉ path) (hpool : p ∈ pool)
    (hstop : p ≠ stop) : Linked pool (Function.update next p head) stop p (p :: path) where
  visits := by
    apply Visits.step hstop
    rw [Function.update_self]
    apply h.visits.congr
    intro b hb
    apply Function.update_of_ne
    exact fun he => hp (he ▸ hb)
  nodup := List.nodup_cons.mpr ⟨hp, h.nodup⟩
  inside b hb := by
    rcases List.mem_cons.mp hb with rfl | hb
    · exact hpool
    · exact h.inside b hb

theorem unlinkHead (h : Linked pool next stop head (p :: rest)) :
    Linked pool next stop (next p) rest where
  visits := h.visits.cons_inv.2.2
  nodup := (List.nodup_cons.mp h.nodup).2
  inside b hb := h.inside b (List.mem_cons_of_mem p hb)

theorem unlink [DecidableEq α] (h : Linked pool next stop head (before ++ q :: p :: rest)) :
    Linked pool (Function.update next q (next p)) stop head (before ++ q :: rest) where
  visits := h.visits.unlink h.nodup
  nodup := h.nodup.sublist ((List.sublist_cons_self p rest).cons_cons q |>.append_left before)
  inside b hb := by
    apply h.inside b
    rw [List.mem_append, List.mem_cons] at hb ⊢
    rw [List.mem_cons]
    tauto

end Linked

end Machine
