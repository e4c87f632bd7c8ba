import Mathlib.Tactic.Common

/-!
# A scrolling terminal

A grid of `rows` times `cols` cells with a cursor.  Characters fill cells from left to right and go
on in the next row; a row past the last one pushes the first one out.  Cells outside the grid are
not part of the picture: `SameGrid` compares two consoles on the grid.
-/

structure Console (α : Type) where
  cell : Nat → Nat → α
  row : Nat
  col : Nat

namespace Console

/-- What a console is fed. -/
inductive Input (α : Type) where
  | char (a : α)
  | newline

variable {α : Type} (rows cols : Nat) (blank : α)

/-- The start of the next row. -/
def newline (c : Console α) : Console α :=
  if c.row + 1 < rows then { c with row := c.row + 1, col := 0 }
  else
    { cell := fun r k => if r + 1 < rows then c.cell (r + 1) k else blank
      row := c.row
      col := 0 }

def setCell (a : α) (c : Console α) : Nat → Nat → α :=
  fun r k => if r = c.row ∧ k = c.col then a else c.cell r k

def put (a : α) (c : Console α) : Console α :=
  if c.col + 1 < cols then { c with cell := c.setCell a, col := c.col + 1 }
  else newline rows blank { c with cell := c.setCell a }

def step (c : Console α) : Input α → Console α
  | .char a => put rows cols blank a c
  | .newline => newline rows blank c

def feed (c : Console α) (inputs : List (Input α)) : Console α :=
  inputs.foldl (step rows cols blank) c

structure SameGrid (c c' : Console α) : Prop where
  cell : ∀ r < rows, ∀ k < cols, c.cell r k = c'.cell r k
  row : c.row = c'.row
  col : c.col = c'.col

variable {rows cols blank}

theorem SameGrid.refl (c : Console α) : SameGrid rows cols c c :=
  ⟨fun _ _ _ _ => rfl, rfl, rfl⟩

theorem SameGrid.trans {c₁ c₂ c₃ : Console α} (h : SameGrid rows cols c₁ c₂)
    (h' : SameGrid rows cols c₂ c₃) : SameGrid rows cols c₁ c₃ :=
  ⟨fun r hr k hk => (h.cell r hr k hk).trans (h'.cell r hr k hk), h.row.trans h'.row,
    h.col.trans h'.col⟩

theorem SameGrid.newline {c c' : Console α} (h : SameGrid rows cols c c') :
    SameGrid rows cols (newline rows blank c) (newline rows blank c') := by
  unfold Console.newline
  rw [h.row]
  split
  · exact ⟨h.cell, rfl, rfl⟩
  · refine ⟨fun r _ k hk => ?_, rfl, rfl⟩
    simp only
    split
    · rename_i hr
      exact h.cell (r + 1) hr k hk
    · rfl

theorem SameGrid.put {c c' : Console α} (h : SameGrid rows cols c c') (a : α) :
    SameGrid rows cols (put rows cols blank a c) (put rows cols blank a c') := by
  have hset : SameGrid rows cols { c with cell := c.setCell a } { c' with cell := c'.setCell a } := by
    refine ⟨fun r hr k hk => ?_, h.row, h.col⟩
    simp only [setCell, h.row, h.col, h.cell r hr k hk]
  unfold Console.put
  rw [h.col]
  split
  · exact ⟨hset.cell, h.row, rfl⟩
  · have hnew : SameGrid rows cols (Console.newline rows blank { c with cell := c.setCell a })
        (Console.newline rows blank { c' with cell := c'.setCell a }) := hset.newline
    rw [h.col] at hnew
    exact hnew

theorem SameGrid.step {c c' : Console α} (h : SameGrid rows cols c c') (i : Input α) :
    SameGrid rows cols (step rows cols blank c i) (step rows cols blank c' i) := by
  cases i with
  | char a => exact h.put a
  | newline => exact h.newline

theorem feed_cons (c : Console α) (i : Input α) (inputs : List (Input α)) :
    feed rows cols blank c (i :: inputs) = feed rows cols blank (step rows cols blank c i) inputs := rfl

theorem feed_append (c : Console α) (l l' : List (Input α)) :
    feed rows cols blank c (l ++ l') = feed rows cols blank (feed rows cols blank c l) l' :=
  List.foldl_append

end Console
