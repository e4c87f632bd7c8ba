import Mathlib.Data.List.TakeWhile
import Mathlib.Tactic.Common

/-!
# Words

The words of a list are its maximal runs of elements that are not separators, in order.  A scanner
that goes through the list once has, at any point, either a word under way or none; `wordsFrom`
is what is still to come from there on, with the rest of the current word in front.
-/

namespace Words

variable {α : Type} (sep : α → Bool)

/-- The list cut at the separators, without the empty pieces. -/
def words (l : List α) : List (List α) := (l.splitOnP sep).filter (!·.isEmpty)

/-- The rest of the current word and the words behind it. -/
def wordsFrom (inWord : Bool) (l : List α) : List (List α) :=
  if inWord then l.takeWhile (!sep ·) :: words sep (l.dropWhile (!sep ·)) else words sep l

variable {sep}

theorem words_sep {c : α} (hc : sep c = true) (l : List α) : words sep (c :: l) = words sep l := by
  simp [words, List.splitOnP_cons_eq_if_modifyHead, hc]

theorem splitOnP_run (l : List α) :
    l.splitOnP sep = l.takeWhile (!sep ·) :: ((l.dropWhile (!sep ·)).splitOnP sep).tail := by
  induction l with
  | nil => simp
  | cons c l ih =>
    by_cases hc : sep c = true
    · simp [List.splitOnP_cons_eq_if_modifyHead, hc]
    · rw [List.splitOnP_cons_eq_if_modifyHead, if_neg hc, ih]
      simp [hc]

theorem words_word {c : α} (hc : sep c = false) (l : List α) :
    words sep (c :: l) = (c :: l.takeWhile (!sep ·)) :: words sep (l.dropWhile (!sep ·)) := by
  have hrest : ∀ l : List α, (l.dropWhile (!sep ·)).splitOnP sep =
      [] :: ((l.dropWhile (!sep ·)).splitOnP sep).tail := by
    intro l
    have hstop : (l.dropWhile (!sep ·)).takeWhile (!sep ·) = [] := by
      rw [List.takeWhile_eq_nil_iff]
      intro hl
      exact List.dropWhile_get_zero_not _ l hl
    rw [splitOnP_run (l.dropWhile (!sep ·)), hstop]
    rfl
  unfold words
  rw [splitOnP_run (c :: l)]
  simp only [List.takeWhile_cons, List.dropWhile_cons, hc]
  rw [hrest l]
  simp

theorem ne_nil_of_mem_words {l w : List α} (h : w ∈ words sep l) : w ≠ [] := by
  have hw := (List.mem_filter.mp h).2
  simpa using hw

/-! ## The first word -/

theorem words_dropWhile (l : List α) : words sep (l.dropWhile sep) = words sep l := by
  induction l with
  | nil => rfl
  | cons c l ih =>
    by_cases hc : sep c = true
    · rw [List.dropWhile_cons_of_pos hc, words_sep hc, ih]
    · rw [List.dropWhile_cons_of_neg hc]

theorem head_of_dropWhile {l rest : List α} {c : α} (hl : l.dropWhile sep = c :: rest) :
    sep c = false := by
  have hstop := List.head?_dropWhile_not sep l
  rw [hl] at hstop
  simpa using hstop

theorem dropWhile_eq_nil {l : List α} (h : words sep l = []) : l.dropWhile sep = [] := by
  rw [← words_dropWhile] at h
  cases hl : l.dropWhile sep with
  | nil => rfl
  | cons c rest =>
    have hc := head_of_dropWhile hl
    rw [hl, words_word hc] at h
    cases h

variable (sep) in
/-- What follows the first word, without the separators between. -/
def afterWord (l : List α) : List α :=
  ((l.dropWhile sep).dropWhile (!sep ·)).dropWhile sep

/-- The first word and the text behind it. -/
theorem words_split {l w : List α} {ws : List (List α)} (h : words sep l = w :: ws) :
    w = (l.dropWhile sep).takeWhile (!sep ·) ∧
      words sep ((l.dropWhile sep).dropWhile (!sep ·)) = ws := by
  rw [← words_dropWhile] at h
  cases hl : l.dropWhile sep with
  | nil =>
    rw [hl] at h
    cases h
  | cons c rest =>
    have hc := head_of_dropWhile hl
    rw [hl, words_word hc] at h
    rw [List.takeWhile_cons_of_pos (by simp [hc]), List.dropWhile_cons_of_pos (by simp [hc])]
    exact ⟨(List.cons.inj h).1.symm, (List.cons.inj h).2⟩

theorem words_afterWord (l : List α) : words sep (afterWord sep l) = (words sep l).tail := by
  unfold afterWord
  rw [words_dropWhile]
  cases h : words sep l with
  | nil =>
    rw [dropWhile_eq_nil h]
    rfl
  | cons w ws => exact (words_split h).2

theorem afterWord_eq_nil {l : List α} (h : (words sep l).tail = []) : afterWord sep l = [] := by
  rw [← words_afterWord, afterWord, words_dropWhile] at h
  exact dropWhile_eq_nil h

theorem afterWord_suffix (l : List α) : afterWord sep l <:+ l :=
  (List.dropWhile_suffix _).trans ((List.dropWhile_suffix _).trans (List.dropWhile_suffix _))

theorem head?_afterWord (l : List α) : ∀ c ∈ (afterWord sep l).head?, sep c = false := by
  intro c hc
  rcases List.head?_eq_some_iff.mp hc with ⟨rest, hrest⟩
  exact head_of_dropWhile hrest

/-! ## The scanner's view -/

@[simp] theorem wordsFrom_false (l : List α) : wordsFrom sep false l = words sep l := rfl

theorem wordsFrom_nil (inWord : Bool) :
    wordsFrom sep inWord [] = if inWord then [[]] else [] := by
  cases inWord <;> rfl

/-- A separator ends the word under way. -/
theorem wordsFrom_sep {c : α} (hc : sep c = true) (inWord : Bool) (l : List α) :
    wordsFrom sep inWord (c :: l) = if inWord then [] :: words sep l else words sep l := by
  cases inWord with
  | false => exact words_sep hc l
  | true => simp [wordsFrom, hc, words_sep hc]

/-- Any other element goes on with the word under way, or begins one. -/
theorem wordsFrom_word {c : α} (hc : sep c = false) (inWord : Bool) (l : List α) :
    wordsFrom sep inWord (c :: l) =
      (c :: l.takeWhile (!sep ·)) :: words sep (l.dropWhile (!sep ·)) := by
  cases inWord with
  | false => exact words_word hc l
  | true => simp [wordsFrom, hc]

end Words
