import Kernel391.Lib.Lines
import Kernel391.UserPrograms

/-!
# `grep` (`syscalls/ece391grep.c`)

`do_one_file` reads a file through an array of 1025 bytes.  The lines that are complete are
searched in place, with the newline replaced by a terminator; what is left of a line at the end of
the array is moved down to its start, and the next read goes behind it.  Nothing tells a newline
that has just been read from one that an earlier read, or the stack before it, left behind the
last byte.
-/

namespace Kernel391

open Machine

def BUFSIZE : Nat := 1024

/-- The loop that looks for a newline, with `k` bytes left before `last`. -/
def findLineEnd (data : List UInt8) : Nat → Nat → Option Nat
  | 0, lineEnd => some lineEnd
  | k + 1, lineEnd => do
      let c ← data[lineEnd]?
      if c ≠ 0x0A then findLineEnd data k (lineEnd + 1) else return lineEnd

section

variable (os : Os) (s fname : List UInt8) (sLen : Nat)

def printLine (data : List UInt8) (lineStart : Nat) : User Unit := do
  ece391Fdputs os 1 fname 0
  ece391Fdputs os 1 (literal ":") 0
  ece391Fdputs os 1 data lineStart
  ece391Fdputs os 1 (literal "\n") 0

/-- The search in a line, with `k` bytes left before its end.  `s` is an array of `char`, which is
signed, and `data` one of `uint8_t`: they are compared as integers. -/
def searchLine (data : List UInt8) (lineStart : Nat) : Nat → Nat → User Unit
  | 0, _ => return
  | k + 1, check => do
      let c0 ← s[0]?
      let c ← data[check]?
      if c0.toBitVec.toInt = (c.toNat : Int) then
        let r ← ece391Strncmp (pointer data check) (pointer s 0) sLen
        if r = 0 then printLine os fname data lineStart
        else searchLine data lineStart k (check + 1)
      else searchLine data lineStart k (check + 1)

/-- The loop over the lines of the array: what becomes of the array and of `last`. -/
def linesLoop (cnt : Int) (last : Nat) : Nat → List UInt8 → Nat → User (List UInt8 × Nat)
  | 0, _, _ => failure
  | k + 1, data, lineStart => do
      let lineEnd ← findLineEnd data (last - lineStart) lineStart
      let c ← data[lineEnd]?
      -- the first statement of either branch
      let data ← storeAt lineEnd [0] data
      if c ≠ 0x0A ∧ cnt ≠ 0 ∧ lineStart ≠ 0 then
        let data ← ece391Strcpy 0 lineStart data
        return (data, last - lineStart)
      searchLine os s fname sLen data lineStart (lineEnd - lineStart) lineStart
      if lineEnd + 1 ≥ last then return (data, 0)
      linesLoop cnt last k data (lineEnd + 1)

/-- The loop over the reads. -/
def readsLoop (fd : Int) : Nat → List UInt8 → Nat → User Int
  | 0, _, _ => failure
  | k + 1, data, last => do
      let (cnt, stored) ← os.read fd ((BUFSIZE - last : Nat) : Int)
      let data ← storeAt last stored data
      if cnt = -1 then
        ece391Fdputs os 1 (literal "file read failed\n") 0
        return -1
      let last := last + cnt.toNat
      let (data, last) ← linesLoop os s fname sLen cnt last (last + 1) data 0
      if cnt = 0 then
        let r ← os.close fd
        if r = -1 then
          ece391Fdputs os 1 (literal "file close failed\n") 0
          return -1
        return 0
      readsLoop fd k data last

/-- `do_one_file`; `data` is its uninitialised array. -/
def doOneFile (k : Nat) (data : List UInt8) : User Int := do
  let sLen ← ece391Strlen (pointer s 0)
  let fd ← os.openFile fname
  if fd = -1 then
    ece391Fdputs os 1 (literal "file open failed\n") 0
    return -1
  readsLoop os s fname sLen fd k data 0

end

/-! ## Searching a line -/

theorem drop_succ_of_eq {data xs : List UInt8} {i : Nat} {c : UInt8} (h : data.drop i = c :: xs) :
    data[i]? = some c ∧ data.drop (i + 1) = xs := by
  constructor
  · rw [← Nat.add_zero i, ← List.getElem?_drop, h]
    rfl
  · rw [← List.drop_drop, h]
    rfl

/-- The end of a line whose newline lies before `last`. -/
theorem findLineEnd_line {data line rest : List UInt8} {start k : Nat}
    (h : data.drop start = line ++ 0x0A :: rest) (hline : 0x0A ∉ line) (hk : line.length < k) :
    findLineEnd data k start = some (start + line.length) := by
  induction line generalizing start k with
  | nil =>
    cases k with
    | zero => simp at hk
    | succ k => simp [findLineEnd, (drop_succ_of_eq h).1]
  | cons c line ih =>
    cases k with
    | zero => simp at hk
    | succ k =>
      obtain ⟨hc, hrest⟩ := drop_succ_of_eq h
      have hne : c ≠ 0x0A := fun he => hline (he ▸ List.mem_cons_self)
      have hnext := ih hrest (fun hmem => hline (List.mem_cons_of_mem c hmem))
        (show line.length < k by rw [List.length_cons] at hk; omega)
      simp only [findLineEnd, hc, Option.bind_eq_bind, Option.bind_some, if_pos hne, hnext,
        List.length_cons]
      congr 1
      omega

/-- Without a newline the search stops at `last`. -/
theorem findLineEnd_last {data t rest : List UInt8} {start : Nat} (h : data.drop start = t ++ rest)
    (ht : 0x0A ∉ t) : findLineEnd data t.length start = some (start + t.length) := by
  induction t generalizing start with
  | nil => rfl
  | cons c t ih =>
    obtain ⟨hc, hrest⟩ := drop_succ_of_eq h
    have hne : c ≠ 0x0A := fun he => ht (he ▸ List.mem_cons_self)
    have hnext := ih hrest fun hmem => ht (List.mem_cons_of_mem c hmem)
    simp only [findLineEnd, hc, Option.bind_eq_bind, Option.bind_some, if_pos hne, hnext,
      List.length_cons]
    congr 1
    omega

/-- A comparison with a whole pattern finds out whether the string begins with it. -/
theorem strncmpLoop_eq {s1 s2 : Pointer} {pat suf : List UInt8} {i : Nat} (hpat : pat ≠ [])
    (h0 : ∀ c ∈ pat, c ≠ 0) (hs1 : ∀ j ≤ suf.length, s1 (i + j) = (suf ++ [0])[j]?)
    (hs2 : ∀ j < pat.length, s2 (i + j) = pat[j]?) :
    ∃ r, strncmpLoop s1 s2 pat.length i = some r ∧ (r = 0 ↔ pat <+: suf) := by
  induction pat generalizing suf i with
  | nil => exact absurd rfl hpat
  | cons b pat ih =>
    have hb : b ≠ 0 := h0 b List.mem_cons_self
    have hb2 : s2 i = some b := hs2 0 (by simp)
    cases suf with
    | nil =>
      have hc1 : s1 i = some 0 := hs1 0 (Nat.le_refl 0)
      refine ⟨((0 : UInt8).toNat : Int) - b.toNat, ?_, ?_⟩
      · simp [strncmpLoop, hc1, hb2, Ne.symm hb]
      · have hpos : b.toNat ≠ 0 := fun h => hb (UInt8.toNat_inj.mp h)
        simp [hpos]
    | cons c suf =>
      have hc1 : s1 i = some c := hs1 0 (Nat.zero_le _)
      rw [List.cons_prefix_cons]
      by_cases hcb : c = b
      · subst hcb
        by_cases hlast : pat = []
        · subst hlast
          refine ⟨0, ?_, by simp⟩
          simp [strncmpLoop, hc1, hb2]
        · obtain ⟨r, hr, hiff⟩ := @ih suf (i + 1) hlast
            (fun c hc => h0 c (List.mem_cons_of_mem _ hc))
            (by
              intro j hj
              rw [Nat.add_assoc, Nat.add_comm 1 j, hs1 (j + 1) (by rw [List.length_cons]; omega)]
              rfl)
            (by
              intro j hj
              rw [Nat.add_assoc, Nat.add_comm 1 j, hs2 (j + 1) (by rw [List.length_cons]; omega)]
              rfl)
          refine ⟨r, ?_, by simpa using hiff⟩
          have hlen : pat.length ≠ 0 := fun h => hlast (List.length_eq_zero_iff.mp h)
          simp [strncmpLoop, hc1, hb2, hb, hlen, hr]
      · refine ⟨(c.toNat : Int) - b.toNat, ?_, ?_⟩
        · simp [strncmpLoop, hc1, hb2, hcb]
        · have hne : c.toNat ≠ b.toNat := fun h => hcb (UInt8.toNat_inj.mp h)
          constructor
          · intro h
            omega
          · rintro ⟨rfl, -⟩
            exact absurd rfl hcb

theorem ece391Strncmp_eq {data s pat suf rest after : List UInt8} {check : Nat} (hpat : pat ≠ [])
    (h0 : ∀ c ∈ pat, c ≠ 0) (hdata : data.drop check = suf ++ 0 :: rest) (hs : s = pat ++ after) :
    ∃ r, ece391Strncmp (pointer data check) (pointer s 0) pat.length = some r ∧
      (r = 0 ↔ pat <+: suf) := by
  unfold ece391Strncmp
  rw [if_neg (fun h => hpat (List.length_eq_zero_iff.mp h))]
  apply strncmpLoop_eq hpat h0
  · intro j hj
    unfold pointer
    rw [Nat.zero_add, ← List.getElem?_drop, hdata]
    grind
  · intro j hj
    unfold pointer
    rw [hs, Nat.zero_add, Nat.zero_add, List.getElem?_append_left hj]

/-- The first byte of a pattern can be found, which is so for ASCII: any other is negative. -/
def Findable (pat : List UInt8) : Prop := ∃ c ∈ pat.head?, c < 0x80

instance (pat : List UInt8) : Decidable (Findable pat) :=
  inferInstanceAs (Decidable (∃ c ∈ pat.head?, c < 0x80))

/-- What `grep` prints for a line. -/
def matchOutput (name pat line : List UInt8) : List UInt8 :=
  if Findable pat ∧ pat <:+: line then name ++ 0x3A :: (line ++ [0x0A]) else []

/-- A `char` equals a `uint8_t` when they are the same byte, and that is not negative. -/
theorem toInt_eq_toNat_iff (c0 c : UInt8) :
    c0.toBitVec.toInt = (c.toNat : Int) ↔ c0 < 0x80 ∧ c0 = c := by
  have hc0 := c0.toNat_lt
  have hc := c.toNat_lt
  have hint : c0.toBitVec.toInt = if c0.toNat < 128 then (c0.toNat : Int) else c0.toNat - 256 := by
    rw [BitVec.toInt_eq_toNat_cond]
    split <;> split <;> first | rfl | (rename_i h h'; simp only [UInt8.toNat_toBitVec] at h; omega)
  rw [hint, UInt8.lt_iff_toNat_lt, ← UInt8.toNat_inj]
  show _ ↔ c0.toNat < 128 ∧ _
  split <;> omega

/-- The arrays `s` and `fname` hold a pattern and the name of a file. -/
structure GrepStrings (s fname pat name : List UInt8) : Prop where
  pattern : ∃ rest, s = pat ++ 0 :: rest
  pattern_ne : pat ≠ []
  pattern_text : ∀ c ∈ pat, c ≠ 0
  pattern_length : pat.length < 2 ^ 32
  file : ∃ rest, fname = name ++ 0 :: rest
  name_text : ∀ c ∈ name, c ≠ 0
  name_length : name.length < 2 ^ 32

section Search

variable {os : Os} {p : Int} {files : Nat → FdT} {index : Nat} {w : World}
  {s fname pat name data line after : List UInt8} {lineStart : Nat}

theorem printLine_ends (hos : os.Undisturbed p) (hw : Running os p files index w)
    (hout : Stdout os.img.lay (files 1)) (hstr : GrepStrings s fname pat name)
    (hdata : data.drop lineStart = line ++ 0 :: after) (hline : ∀ c ∈ line, c ≠ 0)
    (hlen : line.length < 2 ^ 32) :
    Ends (printLine os fname data lineStart) w fun _ w' => Running os p files index w' ∧
      w'.written = Function.update w.written 1
        (w.written 1 ++ (name ++ 0x3A :: (line ++ [0x0A]))) := by
  obtain ⟨rest, hname⟩ := hstr.file
  unfold printLine
  refine Ends.bind_of (ece391Fdputs_ends hos hw hout (by rw [hname]; rfl) hstr.name_text
    hstr.name_length) ?_
  rintro - w₁ ⟨hw₁, hwritten₁⟩
  refine Ends.bind_of (fdputs_literal_ends hos hw₁ hout (by decide) (by decide)) ?_
  rintro - w₂ ⟨hw₂, hwritten₂⟩
  refine Ends.bind_of (ece391Fdputs_ends hos hw₂ hout hdata hline hlen) ?_
  rintro - w₃ ⟨hw₃, hwritten₃⟩
  refine (fdputs_literal_ends hos hw₃ hout (by decide) (by decide)).mono ?_
  rintro - w₄ ⟨hw₄, hwritten₄⟩
  refine ⟨hw₄, ?_⟩
  rw [hwritten₄, hwritten₃, hwritten₂, hwritten₁]
  rw [show message ":" = [0x3A] by decide, show message "\n" = [0x0A] by decide]
  simp only [Function.update_idem, Function.update_self, List.append_assoc,
    List.cons_append, List.nil_append]

/-- The line is printed once if the pattern occurs in what is left of it. -/
theorem searchLine_ends (hos : os.Undisturbed p) (hw : Running os p files index w)
    (hout : Stdout os.img.lay (files 1)) (hstr : GrepStrings s fname pat name)
    (hdata : data.drop lineStart = line ++ 0 :: after) (hline : ∀ c ∈ line, c ≠ 0)
    (hlen : line.length < 2 ^ 32) {suf : List UInt8} {check : Nat}
    (hcheck : data.drop check = suf ++ 0 :: after) :
    Ends (searchLine os s fname pat.length data lineStart suf.length check) w fun _ w' =>
      Running os p files index w' ∧ w'.written = Function.update w.written 1
        (w.written 1 ++
          if Findable pat ∧ pat <:+: suf then name ++ 0x3A :: (line ++ [0x0A]) else []) := by
  obtain ⟨patRest, hs⟩ := hstr.pattern
  obtain ⟨b, patTail, hcons⟩ := List.exists_cons_of_ne_nil hstr.pattern_ne
  have hfindable : Findable pat ↔ b < 0x80 := by
    rw [hcons]
    simp [Findable]
  induction suf generalizing check with
  | nil =>
    have hempty : ¬pat <:+: [] := fun h => hstr.pattern_ne (List.infix_nil.mp h)
    unfold searchLine
    refine Ends.pure ⟨hw, ?_⟩
    rw [if_neg fun h => hempty h.2, List.append_nil, Function.update_eq_self]
  | cons c suf ih =>
    obtain ⟨hc, hnext⟩ := @drop_succ_of_eq data (suf ++ 0 :: after) check c hcheck
    have hs0 : s[0]? = some b := by
      rw [hs, hcons]
      rfl
    have hoccurs : pat <:+: c :: suf ↔ pat <+: c :: suf ∨ pat <:+: suf := List.infix_cons_iff
    have hrest := ih hnext
    unfold searchLine
    refine Ends.bind (Ends.lift hs0 (Ends.bind (Ends.lift hc ?_)))
    by_cases hbc : b.toBitVec.toInt = (c.toNat : Int)
    · rw [if_pos hbc]
      obtain ⟨r, hr, hzero⟩ := ece391Strncmp_eq hstr.pattern_ne hstr.pattern_text hcheck hs
      refine Ends.bind (Ends.lift hr ?_)
      by_cases hmatch : pat <+: c :: suf
      · have hfirst := hfindable.mpr ((toInt_eq_toNat_iff b c).mp hbc).1
        rw [if_pos (hzero.mpr hmatch), if_pos ⟨hfirst, hoccurs.mpr (.inl hmatch)⟩]
        exact printLine_ends hos hw hout hstr hdata hline hlen
      · rw [if_neg fun h => hmatch (hzero.mp h)]
        simpa only [hoccurs, hmatch, false_or] using hrest
    · -- no match here, or one that the sign of the first byte hides
      have hmatch : ¬(Findable pat ∧ pat <+: c :: suf) := by
        rw [hfindable, hcons, List.cons_prefix_cons]
        exact fun h => hbc ((toInt_eq_toNat_iff b c).mpr ⟨h.1, h.2.1⟩)
      rw [if_neg hbc]
      simpa only [hoccurs, and_or_left, hmatch, false_or] using hrest

/-- The search of a whole line. -/
theorem searchLine_whole (hos : os.Undisturbed p) (hw : Running os p files index w)
    (hout : Stdout os.img.lay (files 1)) (hstr : GrepStrings s fname pat name)
    (hdata : data.drop lineStart = line ++ 0 :: after) (hline : ∀ c ∈ line, c ≠ 0)
    (hlen : line.length < 2 ^ 32) :
    Ends (searchLine os s fname pat.length data lineStart line.length lineStart) w fun _ w' =>
      Running os p files index w' ∧ w'.written = Function.update w.written 1
        (w.written 1 ++ matchOutput name pat line) :=
  searchLine_ends hos hw hout hstr hdata hline hlen hdata

end Search

/-! ## Moving a line down -/

theorem storeAt_one {buf : List UInt8} {i : Nat} (h : i < buf.length) (c : UInt8) :
    storeAt i [c] buf = some (buf.set i c) := by
  unfold storeAt
  rw [if_pos (show i + [c].length ≤ buf.length from h)]
  congr 1
  rw [List.set_eq_take_append_cons_drop, if_pos h, List.append_assoc]
  rfl

/-- `ece391_strcpy` moves a string towards the start of its array. -/
theorem strcpyLoop_eq {t rest : List UInt8} (ht : ∀ c ∈ t, c ≠ 0) {buf : List UInt8}
    {k dst src : Nat} (hk : t.length < k) (hsrc : buf.drop src = t ++ 0 :: rest)
    (hdst : dst ≤ src) :
    strcpyLoop k dst src buf =
      some (buf.take dst ++ t ++ 0 :: buf.drop (dst + t.length + 1)) := by
  have hlt : src < buf.length := by
    by_contra hge
    rw [List.drop_of_length_le (by omega)] at hsrc
    exact absurd hsrc.symm (by simp)
  induction t generalizing buf k dst src with
  | nil =>
    cases k with
    | zero => simp at hk
    | succ k =>
      have hc := (drop_succ_of_eq hsrc).1
      simp only [strcpyLoop, hc, Option.bind_eq_bind, Option.bind_some,
        storeAt_one (show dst < buf.length by omega)]
      simp [List.set_eq_take_append_cons_drop, show dst < buf.length by omega]
  | cons c t ih =>
    cases k with
    | zero => simp at hk
    | succ k =>
      obtain ⟨hc, hnext⟩ := drop_succ_of_eq hsrc
      have hne : c ≠ 0 := ht c List.mem_cons_self
      have hdrop : (buf.set dst c).drop (src + 1) = t ++ 0 :: rest := by
        rw [List.drop_set_of_lt (by omega)]
        exact hnext
      have hmoved := @ih (fun b hb => ht b (List.mem_cons_of_mem c hb)) (buf.set dst c) k (dst + 1)
        (src + 1) (by rw [List.length_cons] at hk; omega) hdrop (by omega) (by
          have := congrArg List.length hdrop
          rw [List.length_drop, List.length_append, List.length_cons] at this
          omega)
      simp only [strcpyLoop, hc, Option.bind_eq_bind, Option.bind_some,
        storeAt_one (show dst < buf.length by omega), if_neg hne, hmoved]
      have htake : (buf.set dst c).take (dst + 1) = buf.take dst ++ [c] := by
        rw [List.set_eq_take_append_cons_drop, if_pos (show dst < buf.length by omega),
          List.take_append, List.take_take, List.length_take,
          Nat.min_eq_left (show dst ≤ buf.length by omega),
          Nat.min_eq_right (show dst ≤ dst + 1 by omega), Nat.add_sub_cancel_left]
        rfl
      rw [htake, List.drop_set_of_lt (by omega), List.length_cons,
        show dst + 1 + t.length + 1 = dst + (t.length + 1) + 1 by omega]
      simp

/-! ## The lines of the array -/

/-- The array while `do_one_file` works on it: the byte behind the part that is read into is not a
newline. -/
structure DataArray (data : List UInt8) : Prop where
  length : data.length = BUFSIZE + 1
  guard : data[BUFSIZE]? ≠ some 0x0A

theorem DataArray.set_zero {data : List UInt8} (h : DataArray data) (i : Nat) :
    DataArray (data.set i 0) := by
  refine ⟨by rw [List.length_set, h.length], ?_⟩
  rw [List.getElem?_set]
  split
  · split
    · simp
    · simp
  · exact h.guard

section Lines

variable {os : Os} {p : Int} {files : Nat → FdT} {index : Nat} {w : World}
  {s fname pat name data t after rest : List UInt8} {lineStart last : Nat} {cnt : Int}

/-- What is known when the array holds `t` from the current line up to `last`, and `rest` is what
the file has behind it. -/
structure AtLine (data t after rest : List UInt8) (lineStart last : Nat) (cnt : Int) : Prop where
  array : DataArray data
  drop : data.drop lineStart = t ++ after
  last_eq : last = lineStart + t.length
  last_le : last ≤ BUFSIZE
  text : ∀ c ∈ t, c ≠ 0
  lines : LinesWithin 0x0A BUFSIZE (t ++ rest)
  -- a short read, and one that returns nothing, is at the end of the file
  short : last < BUFSIZE → rest = []
  ended : cnt = 0 → rest = []

/-- What the loop over the lines leaves: a piece of a line at the start of the array, and output
for what came before it. -/
structure LinesLeft (name pat t rest : List UInt8) (cnt : Int) (data : List UInt8) (last : Nat)
    (out : List UInt8) : Prop where
  array : DataArray data
  last_lt : last < BUFSIZE
  text : ∀ c ∈ data.take last, c ≠ 0
  lines : LinesWithin 0x0A BUFSIZE (data.take last ++ rest)
  ended : cnt = 0 → last = 0
  output : out ++ perLine 0x0A (matchOutput name pat) (data.take last ++ rest) =
    perLine 0x0A (matchOutput name pat) (t ++ rest)

theorem matchOutput_nil (hstr : GrepStrings s fname pat name) : matchOutput name pat [] = [] :=
  if_neg fun h => hstr.pattern_ne (List.infix_nil.mp h.2)

theorem drop_set_zero {line : List UInt8} {c : UInt8}
    (h : data.drop lineStart = line ++ c :: after) :
    (data.set (lineStart + line.length) 0).drop lineStart = line ++ 0 :: after := by
  rw [List.drop_set, if_neg (by omega), Nat.add_sub_cancel_left, h, List.set_append_right _ _
    (Nat.le_refl _), Nat.sub_self]
  rfl

theorem getElem?_of_drop {line : List UInt8} {c : UInt8}
    (h : data.drop lineStart = line ++ c :: after) :
    data[lineStart + line.length]? = some c ∧ lineStart + line.length < data.length := by
  have hget : data[lineStart + line.length]? = some c := by
    rw [← List.getElem?_drop, h, List.getElem?_append_right (Nat.le_refl _), Nat.sub_self]
    rfl
  exact ⟨hget, (List.getElem?_eq_some_iff.mp hget).1⟩

/-- The piece of a line at the end of the array is moved to its start. -/
theorem moveDown_eq {line : List UInt8} {c : UInt8}
    (h : data.drop lineStart = line ++ c :: after) (hline : ∀ c ∈ line, c ≠ 0)
    (hlen : line.length < 2 ^ 32) :
    ece391Strcpy 0 lineStart (data.set (lineStart + line.length) 0) =
      some (line ++ 0 :: (data.set (lineStart + line.length) 0).drop (line.length + 1)) := by
  unfold ece391Strcpy
  rw [strcpyLoop_eq hline hlen (drop_set_zero h) (Nat.zero_le _)]
  simp

theorem LinesLeft.empty (hdata : DataArray data) {out : List UInt8}
    (hlines : LinesWithin 0x0A BUFSIZE rest)
    (hout : out ++ perLine 0x0A (matchOutput name pat) rest =
      perLine 0x0A (matchOutput name pat) (t ++ rest)) :
    LinesLeft name pat t rest cnt data 0 out where
  array := hdata
  last_lt := by decide
  text := by simp
  lines := hlines
  ended := fun _ => rfl
  output := hout

/-- A line that ends in the array. -/
theorem AtLine.tail {line t' : List UInt8} (h : AtLine data t after rest lineStart last cnt)
    (ht : t = line ++ 0x0A :: t') (hline : 0x0A ∉ line) :
    AtLine (data.set (lineStart + line.length) 0) t' after rest (lineStart + line.length + 1) last
      cnt := by
  have hlast := h.last_eq
  rw [ht, List.length_append, List.length_cons] at hlast
  refine ⟨h.array.set_zero _, ?_, by omega, h.last_le, ?_, ?_, h.short, h.ended⟩
  · rw [List.drop_set_of_lt (by omega), show lineStart + line.length + 1 =
      lineStart + (line.length + 1) by omega, ← List.drop_drop, h.drop, ht]
    simp
  · intro c hc
    apply h.text
    rw [ht]
    exact List.mem_append_right _ (List.mem_cons_of_mem _ hc)
  · have hlines := h.lines
    rw [ht, List.append_assoc, List.cons_append] at hlines
    exact hlines.tail hline

/-- The piece of a line that has been moved down. -/
theorem AtLine.moved {c : UInt8} (h : AtLine data t (c :: after) rest lineStart last cnt)
    (hstart : lineStart ≠ 0) (hcnt : cnt ≠ 0) :
    LinesLeft name pat t rest cnt
      (t ++ 0 :: (data.set (lineStart + t.length) 0).drop (t.length + 1)) t.length [] := by
  have hsize : BUFSIZE = 1024 := rfl
  have hlast := h.last_eq
  have hbound := h.last_le
  have hset := h.array.set_zero (lineStart + t.length)
  generalize data.set (lineStart + t.length) 0 = data₁ at hset
  have hlength := hset.length
  have htake : (t ++ 0 :: data₁.drop (t.length + 1)).take t.length = t := List.take_left
  refine ⟨⟨?_, ?_⟩, by omega, ?_, ?_, fun h0 => absurd h0 hcnt, ?_⟩
  · rw [List.length_append, List.length_cons, List.length_drop]
    omega
  · have hsame : (t ++ 0 :: data₁.drop (t.length + 1))[BUFSIZE]? = data₁[BUFSIZE]? := by
      rw [List.getElem?_append_right (by omega), List.getElem?_cons, if_neg (by omega),
        List.getElem?_drop]
      congr 1
      omega
    rw [hsame]
    exact hset.guard
  · rw [htake]
    exact h.text
  · rw [htake]
    exact h.lines
  · rw [htake]
    rfl

theorem linesLoop_ends (hos : os.Undisturbed p) (hw : Running os p files index w)
    (hout : Stdout os.img.lay (files 1)) (hstr : GrepStrings s fname pat name)
    (h : AtLine data t after rest lineStart last cnt) {k : Nat} (hk : t.length < k) :
    Ends (linesLoop os s fname pat.length cnt last k data lineStart) w fun r w' =>
      Running os p files index w' ∧ ∃ out, LinesLeft name pat t rest cnt r.1 r.2 out ∧
        w'.written = Function.update w.written 1 (w.written 1 ++ out) := by
  have hsize : BUFSIZE = 1024 := rfl
  induction k generalizing data t after lineStart w with
  | zero => omega
  | succ k ih =>
    have hlast := h.last_eq
    have hbound := h.last_le
    have hcount : last - lineStart = t.length := by omega
    unfold linesLoop
    rw [hcount]
    by_cases hmem : 0x0A ∈ t
    · -- a line that ends in the array
      obtain ⟨line, t', rfl, hline⟩ := List.eq_append_cons_of_mem hmem
      rw [List.length_append, List.length_cons] at hlast hk
      have hdrop : data.drop lineStart = line ++ 0x0A :: (t' ++ after) := by
        rw [h.drop, List.append_assoc, List.cons_append]
      have hend := findLineEnd_line (k := (line ++ 0x0A :: t').length) hdrop hline
        (by rw [List.length_append, List.length_cons]; omega)
      obtain ⟨hget, hlt⟩ := getElem?_of_drop hdrop
      have htext : ∀ c ∈ line, c ≠ 0 := fun c hc => h.text c (List.mem_append_left _ hc)
      have htail := h.tail rfl hline
      refine Ends.bind (Ends.lift hend (Ends.bind (Ends.lift hget (Ends.bind (Ends.lift
        (storeAt_one hlt 0) ?_)))))
      rw [if_neg (by simp), Nat.add_sub_cancel_left]
      refine Ends.bind_of (searchLine_whole hos hw hout hstr (drop_set_zero hdrop) htext (by omega))
        ?_
      rintro - w₁ ⟨hw₁, hwritten₁⟩
      have hsplit : perLine 0x0A (matchOutput name pat) ((line ++ 0x0A :: t') ++ rest) =
          matchOutput name pat line ++ perLine 0x0A (matchOutput name pat) (t' ++ rest) := by
        rw [List.append_assoc, List.cons_append, perLine_line hline]
      by_cases hdone : lineStart + line.length + 1 ≥ last
      · have hnil : t' = [] := List.length_eq_zero_iff.mp (by omega)
        rw [if_pos hdone]
        refine Ends.pure ⟨hw₁, matchOutput name pat line, ?_, hwritten₁⟩
        refine LinesLeft.empty htail.array ?_ ?_
        · simpa [hnil] using htail.lines
        · rw [hsplit, hnil, List.nil_append]
      · rw [if_neg hdone]
        refine (ih hw₁ htail (by omega)).mono ?_
        rintro ⟨data', last'⟩ w₂ ⟨hw₂, out, hleft, hwritten₂⟩
        refine ⟨hw₂, matchOutput name pat line ++ out, ?_, ?_⟩
        · refine ⟨hleft.array, hleft.last_lt, hleft.text, hleft.lines, hleft.ended, ?_⟩
          rw [List.append_assoc, hleft.output, hsplit]
        · rw [hwritten₂, hwritten₁, Function.update_idem, Function.update_self, List.append_assoc]
    · -- the array ends before the line does
      have hlength := congrArg List.length h.drop
      rw [List.length_drop, h.array.length, List.length_append] at hlength
      obtain ⟨c, after, rfl⟩ := List.exists_cons_of_length_pos (show 0 < after.length by omega)
      obtain ⟨hget, hlt⟩ := getElem?_of_drop h.drop
      refine Ends.bind (Ends.lift (findLineEnd_last h.drop hmem) (Ends.bind (Ends.lift hget
        (Ends.bind (Ends.lift (storeAt_one hlt 0) ?_)))))
      by_cases hmove : c ≠ 0x0A ∧ cnt ≠ 0 ∧ lineStart ≠ 0
      · rw [if_pos hmove]
        refine Ends.bind (Ends.lift (moveDown_eq h.drop h.text (by omega)) ?_)
        refine Ends.pure ⟨hw, [], ?_, ?_⟩
        · exact h.moved hmove.2.2 hmove.2.1
        · rw [List.append_nil, Function.update_eq_self]
      · -- it is searched as if it ended here, and here it does end
        have hends : rest = [] ∨ rest.head? = some 0x0A := by
          by_cases hcnt : cnt = 0
          · exact .inl (h.ended hcnt)
          by_cases hshort : last < BUFSIZE
          · exact .inl (h.short hshort)
          have hguard : c ≠ 0x0A := by
            intro hc
            apply h.array.guard
            rw [show BUFSIZE = lineStart + t.length by omega, hget, hc]
          have hstart : lineStart = 0 := by
            by_contra hne
            exact hmove ⟨hguard, hcnt, hne⟩
          exact h.lines.full hmem (by omega)
        rw [if_neg hmove, Nat.add_sub_cancel_left]
        refine Ends.bind_of (searchLine_whole hos hw hout hstr (drop_set_zero h.drop) h.text
          (by omega)) ?_
        rintro - w₁ ⟨hw₁, hwritten₁⟩
        rw [if_pos (by omega)]
        refine Ends.pure ⟨hw₁, matchOutput name pat t, ?_, hwritten₁⟩
        refine LinesLeft.empty (h.array.set_zero _) (h.lines.rest hmem hends) ?_
        rw [perLine_piece hmem (matchOutput_nil hstr) hends]

end Lines

/-! ## The reads of a file -/

section Reads

variable {os : Os} {p : Int} {files : Nat → FdT} {index : Nat} {w : World}
  {s fname pat name data file : List UInt8} {last pos fd : Nat} {S : Nat → (Nat → FdT) → Prop}

/-- The array after a read behind the piece of a line it held. -/
theorem DataArray.filled (hdata : DataArray data) {chunk : List UInt8} (hlast : last ≤ BUFSIZE)
    (hchunk : last + chunk.length ≤ BUFSIZE) :
    storeAt last chunk data =
        some (data.take last ++ chunk ++ data.drop (last + chunk.length)) ∧
      DataArray (data.take last ++ chunk ++ data.drop (last + chunk.length)) := by
  have hsize : BUFSIZE = 1024 := rfl
  have hlength := hdata.length
  refine ⟨if_pos (by omega), ?_, ?_⟩
  · rw [List.length_append, List.length_append, List.length_take, List.length_drop]
    omega
  · have hsame : (data.take last ++ chunk ++ data.drop (last + chunk.length))[BUFSIZE]? =
        data[BUFSIZE]? := by
      have hfront : (data.take last ++ chunk).length = last + chunk.length := by
        rw [List.length_append, List.length_take]
        omega
      rw [List.getElem?_append_right (by omega), hfront, List.getElem?_drop]
      congr 1
      omega
    rw [hsame]
    exact hdata.guard

theorem readsLoop_ends (hos : os.Undisturbed p) (hdel : FileDelivers os p fd file S)
    (hS : S pos files) (hw : Running os p files index w) (hout : Stdout os.img.lay (files 1))
    (hstr : GrepStrings s fname pat name) (hfd : 2 ≤ fd ∧ fd < 8) (hpos : pos ≤ file.length)
    (hfile : ∀ c ∈ file, c ≠ 0) (hdata : DataArray data) (hlast : last < BUFSIZE)
    (htext : ∀ c ∈ data.take last, c ≠ 0)
    (hlines : LinesWithin 0x0A BUFSIZE (data.take last ++ file.drop pos)) {k : Nat}
    (hk : file.length - pos < k) :
    Ends (readsLoop os s fname pat.length fd k data last) w fun r w' => r = 0 ∧
      w'.written = Function.update w.written 1 (w.written 1 ++
        perLine 0x0A (matchOutput name pat) (data.take last ++ file.drop pos)) ∧
      ∃ files', Running os p files' index w' ∧ (files' fd).flags = 0 ∧
        ∀ j, j ≠ fd → files' j = files j := by
  have hsize : BUFSIZE = 1024 := rfl
  induction k generalizing pos files data last w with
  | zero => omega
  | succ k ih =>
    have hread := hdel.read (BUFSIZE - last) hS hpos hw
    have hrest : file.drop (pos + ((file.drop pos).take (BUFSIZE - last)).length) =
        (file.drop pos).drop ((file.drop pos).take (BUFSIZE - last)).length := List.drop_drop.symm
    have hprefix := List.prefix_iff_eq_append.mp (List.take_prefix (BUFSIZE - last) (file.drop pos))
    have hchunkText : ∀ c ∈ (file.drop pos).take (BUFSIZE - last), c ≠ 0 := fun c hc =>
      hfile c (List.mem_of_mem_drop (List.mem_of_mem_take hc))
    have hlen : ((file.drop pos).take (BUFSIZE - last)).length =
        min (BUFSIZE - last) (file.length - pos) := by
      rw [List.length_take, List.length_drop]
    rw [← hrest] at hprefix
    generalize (file.drop pos).take (BUFSIZE - last) = chunk at *
    unfold readsLoop
    refine Ends.bind_of hread ?_
    rintro ⟨cnt, stored⟩ w₁ ⟨hr, hwritten₁, files₁, hS₁, hw₁, hother₁⟩
    obtain ⟨rfl, rfl⟩ := Prod.mk.inj hr
    obtain ⟨hstore, hfilled⟩ := @DataArray.filled data last hdata stored (by omega) (by omega)
    refine Ends.bind (Ends.lift hstore ?_)
    rw [if_neg (by omega), Int.toNat_natCast]
    have htake : (data.take last).length = last := by
      rw [List.length_take, hdata.length]
      omega
    have hline : AtLine (data.take last ++ stored ++ data.drop (last + stored.length))
        (data.take last ++ stored) (data.drop (last + stored.length))
        (file.drop (pos + stored.length)) 0 (last + stored.length) stored.length := by
      refine ⟨hfilled, rfl, by rw [List.length_append, htake]; omega, by omega, ?_, ?_, ?_, ?_⟩
      · intro c hc
        rcases List.mem_append.mp hc with hc | hc
        · exact htext c hc
        · exact hchunkText c hc
      · rw [List.append_assoc, hprefix]
        exact hlines
      · intro hshort
        exact List.drop_of_length_le (by omega)
      · intro hzero
        exact List.drop_of_length_le (by omega)
    have hout₁ : Stdout os.img.lay (files₁ 1) := by
      rw [hother₁ 1 (by omega)]
      exact hout
    refine Ends.bind_of (linesLoop_ends hos hw₁ hout₁ hstr hline (by
      rw [List.length_append, htake]
      omega)) ?_
    rintro ⟨data₂, last₂⟩ w₂ ⟨hw₂, out, hleft, hwritten₂⟩
    have houtput := hleft.output
    rw [List.append_assoc, hprefix] at houtput
    dsimp only at houtput ⊢
    by_cases hend : stored.length = 0
    · -- nothing was read, so nothing is left over
      have hzero : last₂ = 0 := hleft.ended (by omega)
      obtain ⟨d, hfops⟩ := hdel.fops hS₁
      rw [if_pos (by omega)]
      refine Ends.bind_of (os.close_ends hos hw₂ hfd hfops (hdel.flags hS₁)) ?_
      rintro r w₃ ⟨rfl, hw₃, hwritten₃⟩
      rw [if_neg (by omega)]
      refine Ends.pure ⟨rfl, ?_, _, hw₃, ?_, ?_⟩
      · rw [hzero, List.take_zero, List.nil_append, List.drop_of_length_le (by omega),
          perLine_last List.not_mem_nil, matchOutput_nil hstr, List.append_nil] at houtput
        rw [hwritten₃, hwritten₂, hwritten₁, houtput]
      · rw [Function.update_self]
        rfl
      · intro j hj
        rw [Function.update_of_ne hj, hother₁ j hj]
    · rw [if_neg (by omega)]
      refine (ih hS₁ hw₂ hout₁ (by omega) hleft.array hleft.last_lt hleft.text hleft.lines
        (by omega)).mono ?_
      rintro r w₃ ⟨hr, hwritten₃, files₃, hw₃, hclosed, hother₃⟩
      refine ⟨hr, ?_, files₃, hw₃, hclosed, fun j hj => (hother₃ j hj).trans (hother₁ j hj)⟩
      rw [hwritten₃, hwritten₂, hwritten₁, Function.update_idem, Function.update_self,
        List.append_assoc, houtput]

/-- All that matters of the file is what its descriptor delivers. -/
theorem doOneFile_ends_of_reads {dentry : Dentry} {k : Nat} {Q : Int → World → Prop}
    (hos : os.Undisturbed p) (hticks : os.ClockTicks) (hw : Running os p files index w)
    (hstr : GrepStrings s fname pat name) (hname : name.length ≤ 32) (hfree : FirstFree files fd)
    (hfound : (readDentryByName os.img.fs.bootBlock (some (cstring fname))).found = some dentry)
    (hread : Readable os.img.fs dentry)
    (hreads : ∀ S files₁ w₁, FileDelivers os p fd (deliveredBy os.img.fs dentry) S → S 0 files₁ →
      Running os p files₁ index w₁ → w₁.written = w.written → (∀ j, j < fd → files₁ j = files j) →
      Ends (readsLoop os s fname pat.length fd k data 0) w₁ Q) :
    Ends (doOneFile os s fname k data) w Q := by
  obtain ⟨patRest, hs⟩ := hstr.pattern
  obtain ⟨nameRest, hfname⟩ := hstr.file
  have hcstr : IsCStr (cstring fname) name.length := by
    rw [hfname]
    exact isCStr_cstring hstr.name_text
  unfold doOneFile
  refine Ends.bind (Ends.lift (@ece391Strlen_eq s pat patRest 0 hs hstr.pattern_text
    hstr.pattern_length) ?_)
  refine Ends.bind_of (os.open_readable hos (fun _ => hticks) hw hfree hcstr hname hfound hread) ?_
  rintro r w₁ ⟨rfl, hwritten₁, S, files₁, hdel, hS, hw₁, hbefore⟩
  rw [if_neg (by omega)]
  exact hreads S files₁ w₁ hdel hS hw₁ hwritten₁ hbefore

/-- A file that `grep` searches correctly: text with short lines. -/
structure Searchable (fs : FileSys) (dentry : Dentry) : Prop extends Readable fs dentry where
  text : ∀ c ∈ deliveredBy fs dentry, c ≠ 0
  lines : LinesWithin 0x0A BUFSIZE (deliveredBy fs dentry)

/-- `do_one_file` prints the lines of a file that contain the pattern, and closes the file. -/
theorem doOneFile_ends {dentry : Dentry} {k : Nat} (hos : os.Undisturbed p)
    (hticks : os.ClockTicks) (hw : Running os p files index w)
    (hout : Stdout os.img.lay (files 1)) (hstr : GrepStrings s fname pat name)
    (hname : name.length ≤ 32) (hfree : FirstFree files fd)
    (hfound : (readDentryByName os.img.fs.bootBlock (some (cstring fname))).found = some dentry)
    (hsearch : Searchable os.img.fs dentry) (hdata : DataArray data)
    (hk : (deliveredBy os.img.fs dentry).length < k) :
    Ends (doOneFile os s fname k data) w fun r w' => r = 0 ∧
      w'.written = Function.update w.written 1 (w.written 1 ++
        perLine 0x0A (matchOutput name pat) (deliveredBy os.img.fs dentry)) ∧
      ∃ files', Running os p files' index w' ∧ (files' fd).flags = 0 ∧
        ∀ j, j < fd → files' j = files j := by
  refine doOneFile_ends_of_reads hos hticks hw hstr hname hfree hfound hsearch.toReadable ?_
  intro S files₁ w₁ hdel hS hw₁ hwritten₁ hbefore
  obtain ⟨-, hlo, hhi, -⟩ := hfree
  have hout₁ : Stdout os.img.lay (files₁ 1) := by
    rw [hbefore 1 (by omega)]
    exact hout
  refine Ends.mono (readsLoop_ends hos hdel hS hw₁ hout₁ hstr ⟨hlo, hhi⟩ (Nat.zero_le _)
    hsearch.text hdata (by decide) (by simp) (by simpa using hsearch.lines) (by omega)) ?_
  rintro r w₂ ⟨hr, hwritten₂, files₂, hw₂, hclosed, hother⟩
  refine ⟨hr, ?_, files₂, hw₂, hclosed, fun j hj => (hother j (by omega)).trans (hbefore j hj)⟩
  rw [hwritten₂, hwritten₁, List.take_zero, List.nil_append, List.drop_zero]

end Reads

/-! ## All files -/

/-- The loop of `main`, with `k` iterations left; `stack` is what the array of `do_one_file` holds
when it is called, and `m` bounds its reads of a file. -/
def grepLoop (os : Os) (search : List UInt8) (stack : Nat → List UInt8) (m : Nat) (fd : Int) :
    Nat → List UInt8 → User Int
  | 0, _ => failure
  | k + 1, buf => do
      let (cnt, stored) ← os.read fd 32
      let buf ← storeAt 0 stored buf
      if cnt = 0 then return 0
      if cnt = -1 then
        ece391Fdputs os 1 (literal "directory entry read failed\n") 0
        return 3
      let c ← buf[0]?
      if c = 0x2E then grepLoop os search stack m fd k buf
      else
        let buf ← storeAt cnt.toNat [0] buf
        let r ← doOneFile os search buf m (stack k)
        if r ≠ 0 then return 3
        grepLoop os search stack m fd k buf

/-- `main` of `grep`, with its uninitialised arrays of 33 and 1024 bytes. -/
def grep (os : Os) (stack : Nat → List UInt8) (m k : Nat) (buf search : List UInt8) :
    User Int := do
  let (r, search) ← os.getargs search 1024
  if r ≠ 0 then
    ece391Fdputs os 1 (literal "could not read argument\n") 0
    return 3
  let fd ← os.openFile (literal ".")
  if fd = -1 then
    ece391Fdputs os 1 (literal "directory open failed\n") 0
    return 2
  grepLoop os search stack m fd k buf

/-- The name of a directory entry. -/
def entryName (fs : FileSys) (i : Nat) : List UInt8 := (nameField fs i).takeWhile (· ≠ 0)

-- the file that is opened for a directory entry
def entryFile (fs : FileSys) (i : Nat) : Option Dentry :=
  (readDentryByName fs.bootBlock (some (cstring (nameField fs i ++ [0])))).found

-- entries with such a name are left out
def Dotted (fs : FileSys) (i : Nat) : Prop := (fs.bootBlock.dentries i).name 0 = 0x2E

instance (fs : FileSys) (i : Nat) : Decidable (Dotted fs i) :=
  inferInstanceAs (Decidable (_ = _))

/-- The lines that contain the pattern, of the file behind a directory entry. -/
def entryMatches (fs : FileSys) (pat : List UInt8) (i : Nat) : List UInt8 :=
  if Dotted fs i then []
  else perLine 0x0A (matchOutput (entryName fs i) pat) ((entryFile fs i).elim [] (deliveredBy fs))

/-- The lines of all files from entry `i` on. -/
def grepText (fs : FileSys) (pat : List UInt8) (i : Nat) : List UInt8 :=
  entriesFrom fs (entryMatches fs pat) i

section Grep

variable {os : Os} {p : Int} {files : Nat → FdT} {index : Nat} {w : World}
  {search pat buf : List UInt8} {stack : Nat → List UInt8} {m k : Nat}

theorem length_nameField (fs : FileSys) (i : Nat) : (nameField fs i).length = 32 := by
  rw [nameField, List.length_map, List.length_range]

/-- The name in its array. -/
theorem entryName_eq (fs : FileSys) (i : Nat) :
    (∃ rest, nameField fs i ++ [0] = entryName fs i ++ 0 :: rest) ∧
      (∀ c ∈ entryName fs i, c ≠ 0) ∧ (entryName fs i).length ≤ 32 := by
  refine ⟨?_, ?_, ?_⟩
  · have hsplit : entryName fs i ++ (nameField fs i).dropWhile (· ≠ 0) = nameField fs i :=
      List.takeWhile_append_dropWhile
    cases hdrop : (nameField fs i).dropWhile (· ≠ 0) with
    | nil =>
      rw [hdrop, List.append_nil] at hsplit
      exact ⟨[], by rw [hsplit]⟩
    | cons c rest =>
      have hc : c = 0 := by
        have hhead := List.head?_dropWhile_not (fun c : UInt8 => decide (c ≠ 0)) (nameField fs i)
        rw [hdrop] at hhead
        simpa using hhead
      rw [hdrop, hc] at hsplit
      exact ⟨rest ++ [0], by rw [← hsplit, List.append_assoc, List.cons_append]⟩
  · intro c hc
    have hpred := List.mem_takeWhile_imp hc
    simpa using hpred
  · exact (List.takeWhile_prefix _).length_le.trans (length_nameField fs i).le

/-- Every file that is not left out can be searched. -/
def AllSearchable (fs : FileSys) (m : Nat) : Prop :=
  ∀ i < fs.bootBlock.dentryCount.toNat, ¬Dotted fs i → ∃ dentry, entryFile fs i = some dentry ∧
    Searchable fs dentry ∧ (deliveredBy fs dentry).length < m

/-- The descriptors of `grep` between two files: the terminal, the directory, and slot 3 free. -/
structure GrepFiles (lay : FopsLayout) (files : Nat → FdT) : Prop where
  stdout : Stdout lay (files 1)
  dir : DirSlot lay (files 2)
  free : (files 3).flags = 0

theorem grepLoop_ends {rest : List UInt8} (hos : os.Undisturbed p) (hsole : os.SoleReader)
    (hticks : os.ClockTicks) (hw : Running os p files index w) (hfiles : GrepFiles os.img.lay files)
    (hall : AllSearchable os.img.fs m) (hsearch : search = pat ++ 0 :: rest) (hpat : pat ≠ [])
    (hpat0 : ∀ c ∈ pat, c ≠ 0) (hpatlen : pat.length < 2 ^ 32) (hstack : ∀ n, DataArray (stack n))
    (hbuf : buf.length = 33) (hk : os.img.fs.bootBlock.dentryCount.toNat - index < k) :
    Ends (grepLoop os search stack m 2 k buf) w fun r w' => r = 0 ∧ w'.kernel.dev.drIndex = 0 ∧
      w'.written = Function.update w.written 1 (w.written 1 ++ grepText os.img.fs pat index) := by
  induction k generalizing files index w buf with
  | zero => omega
  | succ k ih =>
    unfold grepLoop
    refine Ends.bind_of (@Os.readDir_ends os p files index w 2 hos hsole hw (by omega)
      hfiles.dir) ?_
    rintro ⟨cnt, stored⟩ w₁ ⟨hwritten₁, hread⟩
    by_cases hend : index < os.img.fs.bootBlock.dentryCount.toNat
    · rw [if_pos hend] at hread
      obtain ⟨hr, hw₁⟩ := hread
      obtain ⟨rfl, rfl⟩ := Prod.mk.inj hr
      have hlength := length_nameField os.img.fs index
      obtain ⟨c, hbuf₁⟩ : ∃ c, buf.drop 32 = [c] := by
        rw [← List.length_eq_one_iff, List.length_drop, hbuf]
      have hstored := @storeAt_zero (nameField os.img.fs index) buf (by omega)
      rw [hlength, hbuf₁] at hstored
      refine Ends.bind (Ends.lift hstored ?_)
      rw [if_neg (by omega), if_neg (by omega)]
      refine Ends.bind (Ends.lift (a := (os.img.fs.bootBlock.dentries index).name 0) rfl ?_)
      rw [show grepText os.img.fs pat index = entryMatches os.img.fs pat index ++
        grepText os.img.fs pat (index + 1) from entriesFrom_of_lt hend]
      by_cases hdot : Dotted os.img.fs index
      · rw [if_pos (show (os.img.fs.bootBlock.dentries index).name 0 = 0x2E from hdot)]
        refine Ends.mono (ih hw₁ hfiles (by rw [List.length_append, hlength]; rfl) (by omega)) ?_
        rintro r w₂ ⟨hr, hindex, hwritten₂⟩
        refine ⟨hr, hindex, ?_⟩
        rw [hwritten₂, hwritten₁, entryMatches, if_pos hdot, List.nil_append]
      · rw [if_neg (show ¬(os.img.fs.bootBlock.dentries index).name 0 = 0x2E from hdot)]
        have hstored₂ : storeAt (Int.toNat 32) [0] (nameField os.img.fs index ++ [c]) =
            some (nameField os.img.fs index ++ [0]) := by
          rw [show Int.toNat 32 = (nameField os.img.fs index).length by rw [hlength]; rfl,
            storeAt_one (by simp)]
          simp
        refine Ends.bind (Ends.lift hstored₂ ?_)
        obtain ⟨dentry, hfound, hdentry, hm⟩ := hall index hend hdot
        obtain ⟨hname, hname0, hnamelen⟩ := entryName_eq os.img.fs index
        have hstr : GrepStrings search (nameField os.img.fs index ++ [0]) pat
            (entryName os.img.fs index) :=
          ⟨⟨rest, hsearch⟩, hpat, hpat0, hpatlen, hname, hname0, by omega⟩
        have hfree : FirstFree files 3 := by
          refine ⟨hfiles.free, by omega, by omega, ?_⟩
          intro j hlo hhi
          rw [show j = 2 by omega]
          exact hfiles.dir.flags
        refine Ends.bind_of (doOneFile_ends hos hticks hw₁ hfiles.stdout hstr hnamelen hfree hfound
          hdentry (hstack k) hm) ?_
        rintro r w₂ ⟨rfl, hwritten₂, files₂, hw₂, hclosed, hother⟩
        rw [if_neg (by simp)]
        have hfiles₂ : GrepFiles os.img.lay files₂ :=
          ⟨hother 1 (by omega) ▸ hfiles.stdout, hother 2 (by omega) ▸ hfiles.dir, hclosed⟩
        refine Ends.mono (ih hw₂ hfiles₂ (by rw [List.length_append, hlength]; rfl) (by omega)) ?_
        rintro r w₃ ⟨hr, hindex, hwritten₃⟩
        refine ⟨hr, hindex, ?_⟩
        rw [hwritten₃, hwritten₂, hwritten₁, Function.update_idem, Function.update_self,
          List.append_assoc, entryMatches, if_neg hdot, hfound]
        rfl
    · rw [if_neg hend] at hread
      obtain ⟨hr, hw₁⟩ := hread
      obtain ⟨rfl, rfl⟩ := Prod.mk.inj hr
      refine Ends.bind (Ends.lift (storeAt_zero (by simp)) ?_)
      rw [if_pos rfl]
      refine Ends.pure ⟨rfl, hw₁.index hsole, ?_⟩
      rw [grepText, entriesFrom_of_le (by omega), List.append_nil, Function.update_eq_self,
        hwritten₁]

/-- `grep` prints, file by file and line by line, exactly the lines that contain its argument; for
an argument that does not begin with an ASCII character it prints none. -/
theorem grep_prints {dot : Dentry} {old : CStr} (hos : os.Undisturbed p) (hsole : os.SoleReader)
    (hticks : os.ClockTicks) (hw : Running os p files w.kernel.dev.drIndex w)
    (hout : Stdout os.img.lay (files 1)) (hfree : ∀ j, 2 ≤ j → j < 8 → (files j).flags = 0)
    (hpat : pat ≠ []) (hpat0 : ∀ c ∈ pat, c ≠ 0) (hpatlen : pat.length ≤ 127)
    (hargs : (w.kernel.pcbs p).argBuffer = storeBytes (pat ++ [0]) old)
    (hdot : (readDentryByName os.img.fs.bootBlock (some (cstring (literal ".")))).found = some dot)
    (htype : dot.fileType = 1) (hall : AllSearchable os.img.fs m)
    (hstack : ∀ n, DataArray (stack n)) (hbuf : buf.length = 33) (hsearch : search.length = 1024)
    (hk : os.img.fs.bootBlock.dentryCount.toNat < k) :
    Ends (grep os stack m k buf search) w fun r w' => r = 0 ∧ w'.kernel.dev.drIndex = 0 ∧
      w'.written = Function.update w.written 1
        (w.written 1 ++ grepText os.img.fs pat w.kernel.dev.drIndex) := by
  have hdrv : driverOfType dot.fileType = some .dir := by
    rw [htype]
    rfl
  have hname : IsCStr (cstring (literal ".")) 1 :=
    @isCStr_cstring (message ".") [] (List.forall_mem_ne'.mpr (by decide))
  have hfirst : FirstFree files 2 :=
    ⟨hfree 2 (by omega) (by omega), by omega, by omega, fun j _ _ => by omega⟩
  unfold grep
  refine Ends.bind_of (os.getargs_ends (n := 1024) hos hw hpat0 hpatlen hargs hsearch.symm) ?_
  rintro ⟨r, search₁⟩ w₁ ⟨hr, hw₁, hwritten₁⟩
  rw [if_pos ⟨hpat, by omega⟩] at hr
  obtain ⟨rfl, rfl⟩ := Prod.mk.inj hr
  dsimp only
  rw [if_neg (by simp)]
  refine Ends.bind_of (os.open_ends hos hw₁ hfirst hname (by omega) hdot hdrv) ?_
  rintro r w₂ ⟨rfl, hwritten₂, pcb, hpcb, hw₂⟩
  rw [if_neg (by omega)]
  have hopened : ∀ j, (openedPcb os.img.lay pokeName 2 .dir (cstring (literal ".")) dot
      pcb).fileArray j = if j = 2 then openedFd os.img.lay .dir dot (pcb.fileArray 2)
        else files j := by
    intro j
    rw [← hpcb]
    rfl
  have hfiles : GrepFiles os.img.lay (openedPcb os.img.lay pokeName 2 .dir (cstring (literal "."))
      dot pcb).fileArray := by
    constructor
    · rw [hopened, if_neg (by omega)]
      exact hout
    · rw [hopened, if_pos rfl]
      exact ⟨rfl, show (1 : BitVec 32) ≠ 0 by decide⟩
    · rw [hopened, if_neg (by omega)]
      exact hfree 3 (by omega) (by omega)
  refine Ends.mono (grepLoop_ends hos hsole hticks hw₂ hfiles hall rfl hpat hpat0 (by omega) hstack
    hbuf (by omega)) ?_
  rintro r w₃ ⟨hr, hindex, hwritten₃⟩
  refine ⟨hr, hindex, ?_⟩
  rw [hwritten₃, hwritten₂, hwritten₁]

end Grep

-- A directory with itself, the clock and a file of two lines.
def twoLinesFs : FileSys where
  bootBlock := ⟨3, 3, 1, fun
    | 0 => ⟨nameBytes ['.'], 1, 0, fun _ => 0⟩
    | 1 => ⟨nameBytes ['r', 't', 'c'], 0, 0, fun _ => 0⟩
    | _ => ⟨nameBytes ['f'], 2, 2, fun _ => 0⟩⟩
  inodes _ := ⟨5, fun _ => 0⟩
  blocks _ p := (message "ab\nc\n").getD p 0

theorem twoLinesFs_searchable : AllSearchable twoLinesFs 6 := by
  intro i hi hdot
  have hcount : twoLinesFs.bootBlock.dentryCount.toNat = 3 := rfl
  have hcases : i = 1 ∨ i = 2 := by
    rcases (show i = 0 ∨ i = 1 ∨ i = 2 by omega) with rfl | h
    · exact absurd rfl hdot
    · exact h
  rcases hcases with rfl | rfl
  · exact ⟨twoLinesFs.bootBlock.dentries 1, rfl, ⟨⟨.inl rfl, by decide⟩,
      List.forall_mem_ne'.mpr (by decide), by
      intro line hline
      revert line
      decide⟩, by decide⟩
  · exact ⟨twoLinesFs.bootBlock.dentries 2, rfl, ⟨⟨.inr rfl, by decide⟩,
      List.forall_mem_ne'.mpr (by decide +kernel), by
      intro line hline
      revert line
      decide +kernel⟩, by decide +kernel⟩

theorem grep_prints_line :
    ∃ w', grep (pendingOs twoLinesFs) (fun _ => List.replicate 1025 0xCC) 6 4
        (List.replicate 33 0xCC) (List.replicate 1024 0xCC) (startedWorld (message "b")) =
          some (0, w') ∧ w'.written 1 = message "f:ab\n" := by
  have hstack : DataArray (List.replicate 1025 0xCC) := by
    refine ⟨List.length_replicate, ?_⟩
    rw [List.getElem?_replicate, if_pos (by decide)]
    decide
  have hgrep := @grep_prints (pendingOs twoLinesFs) 0 _ (startedWorld (message "b"))
    (List.replicate 1024 0xCC) (message "b") (List.replicate 33 0xCC)
    (fun _ => List.replicate 1025 0xCC) 6 4 _ (fun _ => 0) (pendingOs_undisturbed _ 0)
    (fun _ _ => rfl) (pendingOs_ticks _)
    ⟨rfl, rfl, fun _ => rfl⟩ ⟨rfl, by decide⟩ (by
      intro j hlo hhi
      interval_cases j <;> rfl) (by decide) (List.forall_mem_ne'.mpr (by decide)) (by decide) rfl
    rfl rfl twoLinesFs_searchable (fun _ => hstack) List.length_replicate
    List.length_replicate (by decide)
  obtain ⟨r, w', hrun, hr, -, hwritten⟩ := hgrep
  refine ⟨w', ?_, ?_⟩
  · rw [hrun, hr]
  · rw [hwritten, Function.update_self]
    decide +kernel

end Kernel391
