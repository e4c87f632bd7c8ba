import Kernel391.CommandLine
import Kernel391.Lib.Words
import Mathlib.Data.List.GetD

/-!
# The argument scanners and the words of a string

`get_argument_count`, `get_argument_length` and `get_argument` go through the string with the same
two variables, and each finds the words of the text before the terminator.  `get_next_arguments`
has no such variables and no test for the terminator either; it is modelled again with every
subscript it reads.
-/

namespace Kernel391

open Words

def isSpace (c : UInt8) : Bool := c = SPACE

/-- The bytes of a string of length `n`. -/
def text (s : CStr) (n : Nat) : List UInt8 := (List.range n).map s

/-- The words of a string of length `n`. -/
def arguments (s : CStr) (n : Nat) : List (List UInt8) := words isSpace (text s n)

theorem stringBytes_eq {s : CStr} {n : Nat} (hs : IsCStr s n) (hn : n ≤ 1000000) :
    stringBytes s = text s n := by
  rw [stringBytes, stringLength_eq hs hn, Int.toNat_natCast, text]

theorem mem_text {s : CStr} {n : Nat} (hs : IsCStr s n) {c : UInt8} (hc : c ∈ text s n) : c ≠ 0 := by
  rcases List.mem_map.mp hc with ⟨j, hj, rfl⟩
  exact hs.2 j (List.mem_range.mp hj)

theorem isSpace_eq_false {c : UInt8} : isSpace c = false ↔ c ≠ SPACE := decide_eq_false_iff_not

/-! ## The buffer of `get_argument` -/

/-- The loop of `get_argument`, with `j` bytes in the buffer. -/
def argStoreLoop (index : Nat) : ArgScan → List UInt8 → Nat → CStr → Nat × CStr
  | _, [], j, buf => (j, buf)
  | st, c :: cs, j, buf =>
      let st := st.step c
      let r :=
        if c ≠ SPACE ∧ st.argIndex = index ∧ c ≠ 0 then (j + 1, Function.update buf j c)
        else (j, buf)
      if st.argIndex > index then r else argStoreLoop index st cs r.1 r.2

/-- `get_argument` with its buffer: the result and the buffer afterwards. -/
def getArgumentInto (s : CStr) (index : Nat) (buf : CStr) : Int × CStr :=
  if getArgumentCount s ≤ 0 ∨ getArgumentCount s ≤ index then (-1, buf)
  else
    let r := argStoreLoop index ⟨false, 0⟩ (stringBytes s) 0 buf
    (r.1, r.2)

theorem argStoreLoop_eq (index : Nat) (st : ArgScan) (cs : List UInt8) (j : Nat) (buf : CStr) :
    argStoreLoop index st cs j buf = (j + (argBytesLoop index st cs).length,
      storeFrom j (argBytesLoop index st cs) buf) := by
  induction cs generalizing st j buf with
  | nil => simp [argStoreLoop, argBytesLoop]
  | cons c cs ih =>
    simp only [argStoreLoop, argBytesLoop]
    generalize st.step c = st'
    by_cases hhere : c ≠ SPACE ∧ st'.argIndex = index ∧ c ≠ 0
    · by_cases hstop : st'.argIndex > index
      · simp [if_pos hhere, if_pos hstop, storeFrom_cons]
      · simp [if_pos hhere, if_neg hstop, ih, storeFrom_cons]
        omega
    · by_cases hstop : st'.argIndex > index
      · simp [if_neg hhere, if_pos hstop]
      · simp [if_neg hhere, if_neg hstop, ih]

/-- `get_argument` stores what it finds from the start of the buffer on, and returns its length. -/
theorem getArgumentInto_eq (s : CStr) (index : Nat) (buf : CStr) :
    getArgumentInto s index buf =
      match getArgument s index with
      | none => (-1, buf)
      | some bytes => ((bytes.length : Int), storeBytes bytes buf) := by
  unfold getArgumentInto getArgument
  split
  · rfl
  · simp only [argStoreLoop_eq, storeFrom_zero, Nat.zero_add]

/-! ## The scanners -/

/-- The words still to come for a scanner that has left `st.argIndex` of them behind. -/
def ArgScan.rest (st : ArgScan) (cs : List UInt8) : List (List UInt8) :=
  wordsFrom isSpace st.inArg cs

/-- One step of the scanners: a space behind a word leaves it behind; any other byte belongs to
the first of the words still to come. -/
theorem ArgScan.step_space (st : ArgScan) (cs : List UInt8) :
    if st.inArg then st.rest (SPACE :: cs) = [] :: (st.step SPACE).rest cs ∧
        (st.step SPACE).argIndex = st.argIndex + 1
      else st.rest (SPACE :: cs) = (st.step SPACE).rest cs ∧
        (st.step SPACE).argIndex = st.argIndex := by
  have hspace : isSpace SPACE = true := rfl
  rcases st with ⟨inArg, k⟩
  cases inArg <;> simp [ArgScan.rest, ArgScan.step, wordsFrom_sep hspace]

theorem ArgScan.step_other (st : ArgScan) {c : UInt8} (hc : c ≠ SPACE) (cs : List UInt8) :
    ∃ w ws, st.rest (c :: cs) = (c :: w) :: ws ∧ (st.step c).rest cs = w :: ws ∧
      (st.step c).argIndex = st.argIndex ∧ (st.step c).inArg = true := by
  have hword := isSpace_eq_false.mpr hc
  rcases st with ⟨inArg, k⟩
  refine ⟨_, _, wordsFrom_word hword inArg cs, ?_⟩
  cases inArg <;> simp [ArgScan.rest, ArgScan.step, wordsFrom, hc]

-- What the three loops have in common: the words they count are those still to come.
theorem argCount_eq (st : ArgScan) (cs : List UInt8) :
    (if (cs.foldl ArgScan.step st).inArg then (cs.foldl ArgScan.step st).argIndex + 1
      else (cs.foldl ArgScan.step st).argIndex) = st.argIndex + (st.rest cs).length := by
  induction cs generalizing st with
  | nil =>
    rcases st with ⟨inArg, k⟩
    cases inArg <;> rfl
  | cons c cs ih =>
    rw [List.foldl_cons, ih]
    by_cases hc : c = SPACE
    · subst hc
      have hstep := st.step_space cs
      split at hstep
      · rw [hstep.1, hstep.2, List.length_cons]
        omega
      · rw [hstep.1, hstep.2]
    · rcases st.step_other hc cs with ⟨w, ws, hrest, hnext, hindex, -⟩
      rw [hrest, hnext, hindex]
      rfl

/-- The loop of `get_argument` collects the word with the wanted number. -/
theorem argBytesLoop_eq {index : Nat} (st : ArgScan) {cs : List UInt8} (hcs : ∀ c ∈ cs, c ≠ 0)
    (hindex : st.argIndex ≤ index) :
    argBytesLoop index st cs = (st.rest cs).getD (index - st.argIndex) [] := by
  induction cs generalizing st with
  | nil =>
    rcases st with ⟨inArg, k⟩
    cases inArg with
    | false => rfl
    | true =>
      cases index - k <;> simp [argBytesLoop, ArgScan.rest, wordsFrom_nil]
  | cons c cs ih =>
    have htail : ∀ c ∈ cs, c ≠ 0 := fun d hd => hcs d (List.mem_cons_of_mem c hd)
    simp only [argBytesLoop]
    by_cases hc : c = SPACE
    · subst hc
      have hstep := st.step_space cs
      have hspace : ¬(SPACE ≠ SPACE ∧ (st.step SPACE).argIndex = index ∧ SPACE ≠ 0) :=
        fun h => h.1 rfl
      simp only [if_neg hspace, List.nil_append]
      split at hstep
      · rw [hstep.1]
        by_cases hlast : st.argIndex = index
        · rw [if_pos (by omega), hlast, Nat.sub_self]
          rfl
        · rw [if_neg (by omega), ih _ htail (by omega), hstep.2,
            show index - st.argIndex = index - (st.argIndex + 1) + 1 by omega, List.getD_cons_succ]
      · rw [if_neg (by omega), ih _ htail (by omega), hstep.1, hstep.2]
    · rcases st.step_other hc cs with ⟨w, ws, hrest, hnext, hsame, -⟩
      have hnul := hcs c List.mem_cons_self
      rw [if_neg (by omega), ih _ htail (by omega), hsame, hrest, hnext]
      by_cases hhere : st.argIndex = index
      · rw [if_pos ⟨hc, hhere, hnul⟩, hhere, Nat.sub_self]
        rfl
      · rw [if_neg (fun h => hhere h.2.1),
          show index - st.argIndex = index - (st.argIndex + 1) + 1 by omega, List.getD_cons_succ,
          List.getD_cons_succ, List.nil_append]

/-- `get_argument_length` counts the bytes that `get_argument` would store. -/
theorem argLengthLoop_eq (index : Nat) (st : ArgScan) {cs : List UInt8} (hcs : ∀ c ∈ cs, c ≠ 0) :
    argLengthLoop index st cs = (argBytesLoop index st cs).length := by
  induction cs generalizing st with
  | nil => rfl
  | cons c cs ih =>
    have htail : ∀ c ∈ cs, c ≠ 0 := fun d hd => hcs d (List.mem_cons_of_mem c hd)
    have hnul := hcs c List.mem_cons_self
    simp only [argLengthLoop, argBytesLoop, ih _ htail]
    by_cases hhere : c ≠ SPACE ∧ (st.step c).argIndex = index
    · have hkept : c ≠ SPACE ∧ (st.step c).argIndex = index ∧ c ≠ 0 := ⟨hhere.1, hhere.2, hnul⟩
      rw [if_pos hhere, if_pos hkept]
      split
      · rfl
      · simp [Nat.add_comm]
    · have hskipped : ¬(c ≠ SPACE ∧ (st.step c).argIndex = index ∧ c ≠ 0) :=
        fun h => hhere ⟨h.1, h.2.1⟩
      rw [if_neg hhere, if_neg hskipped]
      split <;> simp

section

variable {s : CStr} {n : Nat} (hs : IsCStr s n) (hn : n ≤ 1000000)

include hs hn

theorem getArgumentCount_eq : getArgumentCount s = (arguments s n).length := by
  have hlen := stringLength_eq hs hn
  have hcount := argCount_eq ⟨false, 0⟩ (text s n)
  have hcast := congrArg (fun m : Nat => (m : Int)) hcount
  unfold getArgumentCount
  rw [if_neg (by omega), stringBytes_eq hs hn]
  simpa [apply_ite (fun m : Nat => (m : Int)), ArgScan.rest, arguments] using hcast

theorem argBytesLoop_text (index : Nat) :
    argBytesLoop index ⟨false, 0⟩ (stringBytes s) = (arguments s n).getD index [] := by
  rw [stringBytes_eq hs hn, argBytesLoop_eq ⟨false, 0⟩ (fun _ hc => mem_text hs hc) (Nat.zero_le _)]
  rfl

theorem getArgument_eq (index : Nat) : getArgument s index = (arguments s n)[index]? := by
  unfold getArgument
  rw [getArgumentCount_eq hs hn, argBytesLoop_text hs hn]
  by_cases hindex : index < (arguments s n).length
  · rw [if_neg (by omega), List.getD_eq_getElem _ _ hindex, List.getElem?_eq_getElem hindex]
  · rw [if_pos (by omega), List.getElem?_eq_none (by omega)]

theorem getArgumentLength_eq (index : Nat) :
    getArgumentLength s index =
      match (arguments s n)[index]? with
      | none => -1
      | some word => (word.length : Int) := by
  have hloop : argLengthLoop index ⟨false, 0⟩ (stringBytes s) =
      ((arguments s n).getD index []).length := by
    rw [argLengthLoop_eq, argBytesLoop_text hs hn]
    intro c hc
    rw [stringBytes_eq hs hn] at hc
    exact mem_text hs hc
  unfold getArgumentLength
  rw [getArgumentCount_eq hs hn, hloop]
  by_cases hindex : index < (arguments s n).length
  · rw [if_neg (by omega), List.getD_eq_getElem _ _ hindex, List.getElem?_eq_getElem hindex]
    have hword := ne_nil_of_mem_words (List.getElem_mem hindex)
    exact if_neg (fun hzero => hword (List.length_eq_zero_iff.mp hzero))
  · rw [if_pos (by omega), List.getElem?_eq_none (by omega)]

end

/-- The three scanners find the words of the string: their number, the length of each, and each in
the buffer that `get_argument` is given. -/
theorem scanners_find_words {s : CStr} {n : Nat} (hs : IsCStr s n) (hn : n ≤ 1000000) :
    getArgumentCount s = (arguments s n).length ∧
    (∀ (i : Nat) (hi : i < (arguments s n).length) (buf : CStr),
      getArgumentLength s i = (arguments s n)[i].length ∧
      getArgumentInto s i buf =
        (((arguments s n)[i].length : Int), storeBytes (arguments s n)[i] buf)) ∧
    ∀ i, (arguments s n).length ≤ i → ∀ buf,
      getArgumentLength s i = -1 ∧ getArgumentInto s i buf = (-1, buf) := by
  refine ⟨getArgumentCount_eq hs hn, fun i hi buf => ?_, fun i hi buf => ?_⟩
  · rw [getArgumentInto_eq, getArgument_eq hs hn, getArgumentLength_eq hs hn,
      List.getElem?_eq_getElem hi]
    exact ⟨rfl, rfl⟩
  · rw [getArgumentInto_eq, getArgument_eq hs hn, getArgumentLength_eq hs hn,
      List.getElem?_eq_none hi]
    exact ⟨rfl, rfl⟩

-- " ls  a "
def spacedLine : CStr := storeBytes [0x20, 0x6C, 0x73, 0x20, 0x20, 0x61, 0x20] fun _ => 0

theorem isCStr_spacedLine : IsCStr spacedLine 7 := ⟨rfl, by decide⟩

theorem scanners_find_words_spaced :
    getArgumentCount spacedLine = 2 ∧
    getArgumentInto spacedLine 0 (fun _ => 0xFF) = (2, storeBytes [0x6C, 0x73] fun _ => 0xFF) ∧
    getArgumentLength spacedLine 2 = -1 := by
  have hwords := scanners_find_words isCStr_spacedLine (by decide)
  have hfirst := (hwords.2.1 0 (by decide) fun _ => 0xFF).2
  have hthird := (hwords.2.2 2 (by decide) fun _ => 0xFF).1
  exact ⟨hwords.1, hfirst, hthird⟩

/-! ## `get_next_arguments` with its reads -/

-- The subscripts `string_length` reads.
def stringLengthReads (s : CStr) : Nat → Nat → List Nat
  | 0, _ => []
  | fuel + 1, count =>
      if s count = 0 then [count]
      else if count + 1 > 1000000 then [count]
      else count :: stringLengthReads s fuel (count + 1)

-- The subscripts `get_argument_count` reads: those of `string_length`, and all up to the length.
def argumentCountReads (s : CStr) : List Nat :=
  stringLengthReads s 1000001 0 ++ List.range (stringLength (some s)).toNat

/-- `while (p(s[i])) i++` with the subscripts it reads; `none` if it is still going after `fuel`
tests. -/
def whileRun (p : UInt8 → Bool) (s : CStr) : Nat → Nat → Option (Nat × List Nat)
  | 0, _ => none
  | fuel + 1, i =>
      if p (s i) then (whileRun p s fuel (i + 1)).map fun r => (r.1, i :: r.2) else some (i, [i])

/-- The copying loop, which reads each byte twice. -/
def copyRun (s : CStr) : Nat → Nat → Nat → CStr → Option (Nat × CStr × List Nat)
  | 0, _, _, _ => none
  | fuel + 1, i, j, buf =>
      if s i = 0 then some (j, buf, [i])
      else
        (copyRun s fuel (i + 1) (j + 1) (Function.update buf j (s i))).map fun r =>
          (r.1, r.2.1, i :: i :: r.2.2)

/-- The result of `get_next_arguments`, its buffer and what it has read. -/
structure NextArguments where
  ret : Int
  buf : CStr
  reads : List Nat

/-- `get_next_arguments`, with at most `fuel` tests in each loop. -/
def getNextArgumentsRun (fuel : Nat) (s buf : CStr) : Option NextArguments :=
  if getArgumentCount s ≤ 0 then some ⟨-1, buf, argumentCountReads s⟩
  else if getArgumentCount s = 1 then
    some ⟨0, Function.update buf 0 0, argumentCountReads s⟩
  else do
    let gap ← whileRun (· = SPACE) s fuel 0
    let word ← whileRun (· ≠ SPACE) s fuel gap.1
    let next ← whileRun (· = SPACE) s fuel word.1
    let copy ← copyRun s fuel next.1 0 buf
    some ⟨copy.1, Function.update copy.2.1 copy.1 0,
      argumentCountReads s ++ gap.2 ++ word.2 ++ next.2 ++ copy.2.2⟩

section

variable {s : CStr} {n : Nat}

theorem length_text (s : CStr) (n : Nat) : (text s n).length = n := by
  rw [text, List.length_map, List.length_range]

theorem drop_text {i : Nat} (hi : i < n) :
    (text s n).drop i = s i :: (text s n).drop (i + 1) := by
  have hlen : i < (text s n).length := by
    rw [length_text]
    exact hi
  rw [List.drop_eq_getElem_cons hlen]
  simp [text]

theorem drop_text_end : (text s n).drop n = [] := by
  rw [List.drop_eq_nil_iff, length_text]

section

variable (hs : IsCStr s n)

include hs

/-- A skipping loop that the terminator or a byte of the text stops. -/
theorem whileRun_eq {p : UInt8 → Bool} {fuel i : Nat} (hi : i ≤ n) (hfuel : n < i + fuel)
    (hstop : p 0 = false ∨ ((text s n).drop i).dropWhile p ≠ []) :
    ∃ m reads, whileRun p s fuel i = some (m, reads) ∧ m ≤ n ∧
      (text s n).drop m = ((text s n).drop i).dropWhile p ∧ ∀ j ∈ reads, j ≤ n := by
  induction fuel generalizing i with
  | zero => omega
  | succ fuel ih =>
    unfold whileRun
    by_cases hlast : i = n
    · subst hlast
      rw [drop_text_end] at hstop ⊢
      have hnul : ¬p (s i) = true := by
        rcases hstop with hstop | hstop
        · rw [hs.1, hstop]
          decide
        · exact absurd rfl hstop
      rw [if_neg hnul]
      exact ⟨i, [i], rfl, hi, drop_text_end, by simp⟩
    · have hcons := @drop_text s n i (by omega)
      by_cases hp : p (s i) = true
      · rw [hcons, List.dropWhile_cons_of_pos hp] at hstop ⊢
        rcases ih (by omega) (by omega) hstop with ⟨m, reads, hrun, hm, hdrop, hreads⟩
        rw [if_pos hp, hrun]
        refine ⟨m, i :: reads, rfl, hm, hdrop, ?_⟩
        intro j hj
        rcases List.mem_cons.mp hj with rfl | hj
        · exact hi
        · exact hreads j hj
      · rw [if_neg hp]
        refine ⟨i, [i], rfl, hi, ?_, by simp [hi]⟩
        rw [hcons, List.dropWhile_cons_of_neg hp]

theorem copyRun_eq {fuel i j : Nat} {buf : CStr} (hi : i ≤ n) (hfuel : n < i + fuel) :
    ∃ reads, copyRun s fuel i j buf =
        some (j + ((text s n).drop i).length, storeFrom j ((text s n).drop i) buf, reads) ∧
      ∀ j ∈ reads, j ≤ n := by
  induction fuel generalizing i j buf with
  | zero => omega
  | succ fuel ih =>
    unfold copyRun
    by_cases hlast : i = n
    · subst hlast
      rw [if_pos hs.1, drop_text_end, storeFrom_nil]
      exact ⟨[i], rfl, by simp⟩
    · rcases @ih (i + 1) (j + 1) (Function.update buf j (s i)) (by omega) (by omega) with
        ⟨reads, hrun, hreads⟩
      have hcons := @drop_text s n i (by omega)
      rw [if_neg (hs.2 i (by omega)), hrun, hcons, storeFrom_cons, List.length_cons,
        Nat.add_right_comm]
      refine ⟨i :: i :: reads, rfl, ?_⟩
      intro k hk
      simp only [List.mem_cons] at hk
      rcases hk with rfl | rfl | hk
      · exact hi
      · exact hi
      · exact hreads k hk

theorem stringLengthReads_le {fuel count : Nat} (hcount : count ≤ n) :
    ∀ j ∈ stringLengthReads s fuel count, j ≤ n := by
  induction fuel generalizing count with
  | zero => simp [stringLengthReads]
  | succ fuel ih =>
    unfold stringLengthReads
    by_cases hz : s count = 0
    · simp [hz, hcount]
    · have hne : count ≠ n := fun h => hz (h ▸ hs.1)
      have hnext := @ih (count + 1) (by omega)
      rw [if_neg hz]
      split
      · simp [hcount]
      · intro j hj
        rcases List.mem_cons.mp hj with rfl | hj
        · exact hcount
        · exact hnext j hj

theorem argumentCountReads_le (hn : n ≤ 1000000) : ∀ j ∈ argumentCountReads s, j ≤ n := by
  intro j hj
  rcases List.mem_append.mp hj with hj | hj
  · exact stringLengthReads_le hs (Nat.zero_le n) j hj
  · rw [stringLength_eq hs hn, Int.toNat_natCast] at hj
    exact Nat.le_of_lt (List.mem_range.mp hj)

/-- With two words in the string, the three skipping loops stop at the second one. -/
theorem skipLoops_eq {fuel : Nat} (hfuel : n < fuel)
    (hwords : 2 ≤ (words isSpace (text s n)).length) :
    ∃ gap word next, whileRun (· = SPACE) s fuel 0 = some gap ∧
      whileRun (· ≠ SPACE) s fuel gap.1 = some word ∧
      whileRun (· = SPACE) s fuel word.1 = some next ∧
      next.1 ≤ n ∧ (text s n).drop next.1 = afterWord isSpace (text s n) ∧
      ∀ j ∈ gap.2 ++ word.2 ++ next.2, j ≤ n := by
  have hspace : (fun c => decide (c = SPACE)) = isSpace := rfl
  have hother : (fun c => decide (c ≠ SPACE)) = (!isSpace ·) := by
    funext c
    exact decide_not
  have hnonempty : ∀ l, words isSpace l ≠ [] → l ≠ [] := fun l hl he => hl (by rw [he]; rfl)
  obtain ⟨a, ra, hgap, ha, hafterGap, hra⟩ :=
    @whileRun_eq s n hs isSpace fuel 0 (Nat.zero_le n) (by omega) (.inl rfl)
  rw [List.drop_zero] at hafterGap
  -- behind the first word there is another one
  have hsecond : ((text s n).drop a).dropWhile (!isSpace ·) ≠ [] := by
    rw [hafterGap]
    apply hnonempty
    cases hsplit : words isSpace (text s n) with
    | nil =>
      rw [hsplit] at hwords
      cases hwords
    | cons w ws =>
      rw [(words_split hsplit).2]
      intro hnil
      rw [hsplit, hnil, List.length_singleton] at hwords
      omega
  obtain ⟨b, rb, hword, hb, hafterWord, hrb⟩ :=
    @whileRun_eq s n hs (!isSpace ·) fuel a ha (by omega) (.inr hsecond)
  obtain ⟨c, rc, hnext, hc, hafterNext, hrc⟩ :=
    @whileRun_eq s n hs isSpace fuel b hb (by omega) (.inl rfl)
  refine ⟨(a, ra), (b, rb), (c, rc), hgap, ?_, hnext, hc, ?_, ?_⟩
  · rw [hother]
    exact hword
  · rw [hafterNext, hafterWord, hafterGap, afterWord]
  · intro j hj
    simp only [List.mem_append] at hj
    rcases hj with (hj | hj) | hj
    · exact hra j hj
    · exact hrb j hj
    · exact hrc j hj

end

theorem scanWhile_of_whileRun {p : UInt8 → Bool} {s : CStr} {fuel i : Nat} {r : Nat × List Nat}
    (h : whileRun p s fuel i = some r) : scanWhile p s fuel i = r.1 := by
  induction fuel generalizing i r with
  | zero => cases h
  | succ fuel ih =>
    unfold whileRun at h
    unfold scanWhile
    split at h
    · next hp =>
      rcases Option.map_eq_some_iff.mp h with ⟨r', hrun, rfl⟩
      rw [if_pos hp, ih hrun]
    · next hp =>
      rw [if_neg hp, ← Option.some.inj h]

theorem drop_text_eq (s : CStr) (n i : Nat) :
    (text s n).drop i = (List.range (n - i)).map fun k => s (i + k) := by
  apply List.ext_getElem
  · simp [length_text]
  · intro k hk hk'
    simp [text]

theorem scanWhile_end (hs : IsCStr s n) {i : Nat} (hi : i ≤ n) :
    scanWhile (· ≠ 0) s (n + 1) i = n := by
  obtain ⟨m, reads, hrun, hm, hdrop, -⟩ :=
    @whileRun_eq s n hs (· ≠ 0) (n + 1) i hi (by omega) (.inl rfl)
  have hnil : ((text s n).drop i).dropWhile (· ≠ 0) = [] := by
    rw [List.dropWhile_eq_nil_iff]
    intro c hc
    exact decide_eq_true (mem_text hs (List.mem_of_mem_drop hc))
  rw [hnil, List.drop_eq_nil_iff, length_text] at hdrop
  rw [scanWhile_of_whileRun hrun]
  exact Nat.le_antisymm hm hdrop

/-- The text that `get_next_arguments` stores is what follows the first word. -/
theorem getNextArguments_eq (hs : IsCStr s n) (hn : n ≤ 1000000)
    (hword : words isSpace (text s n) ≠ []) :
    getNextArguments s = some (afterWord isSpace (text s n) ++ [0]) := by
  have hcount := getArgumentCount_eq hs hn
  have hpos := List.length_pos_iff.mpr hword
  unfold getNextArguments
  rw [hcount, arguments, if_neg (by omega)]
  by_cases hone : (words isSpace (text s n)).length = 1
  · have htail : (words isSpace (text s n)).tail = [] := by
      rw [← List.length_eq_zero_iff, List.length_tail]
      omega
    rw [if_pos (by omega), afterWord_eq_nil htail]
    rfl
  · rw [if_neg (by omega), stringLength_eq hs hn, Int.toNat_natCast]
    rcases skipLoops_eq hs (Nat.lt_succ_self n) (by omega) with
      ⟨gap, word, next, hgap, hskip, hnext, hle, htext, -⟩
    dsimp only
    rw [scanWhile_of_whileRun hgap, scanWhile_of_whileRun hskip, scanWhile_of_whileRun hnext,
      scanWhile_end hs hle, ← htext, drop_text_eq]

/-- With enough fuel `get_next_arguments` stores that text, without a look past the terminator. -/
theorem getNextArgumentsRun_eq (hs : IsCStr s n) (hn : n ≤ 1000000)
    (hword : words isSpace (text s n) ≠ []) {fuel : Nat} (hfuel : n < fuel) (buf : CStr) :
    ∃ reads, getNextArgumentsRun fuel s buf = some ⟨(afterWord isSpace (text s n)).length,
        storeBytes (afterWord isSpace (text s n) ++ [0]) buf, reads⟩ ∧ ∀ j ∈ reads, j ≤ n := by
  have hcount := getArgumentCount_eq hs hn
  have hpos := List.length_pos_iff.mpr hword
  have hcounted := argumentCountReads_le hs hn
  unfold getNextArgumentsRun
  rw [hcount, arguments, if_neg (by omega)]
  by_cases hone : (words isSpace (text s n)).length = 1
  · have htail : (words isSpace (text s n)).tail = [] := by
      rw [← List.length_eq_zero_iff, List.length_tail]
      omega
    rw [if_pos (by omega), afterWord_eq_nil htail, storeBytes_snoc]
    exact ⟨_, rfl, hcounted⟩
  · rw [if_neg (by omega)]
    rcases skipLoops_eq hs hfuel (by omega) with
      ⟨gap, word, next, hgap, hskip, hnext, hle, htext, hreads⟩
    rcases @copyRun_eq s n hs fuel next.1 0 buf hle (by omega) with ⟨copied, hcopy, hcopied⟩
    rw [htext, Nat.zero_add] at hcopy
    simp only [hgap, hskip, hnext, hcopy, Option.bind_eq_bind, Option.bind_some]
    rw [storeBytes_snoc, storeFrom_zero]
    refine ⟨_, rfl, ?_⟩
    intro j hj
    simp only [List.mem_append] at hj hreads
    rcases hj with ((((hj | hj) | hj) | hj) | hj)
    · exact hcounted j hj
    · exact hreads j (.inl (.inl hj))
    · exact hreads j (.inl (.inr hj))
    · exact hreads j (.inr hj)
    · exact hcopied j hj

theorem storeBytes_of_lt {l : List UInt8} {j : Nat} (hj : j < l.length) (c : UInt8) (buf : CStr) :
    storeBytes (l ++ [c]) buf j = l[j] := by
  rw [storeBytes, List.getD_append _ _ _ _ hj, List.getD_eq_getElem _ _ hj]

/-- A stored text is a string with just these bytes. -/
theorem isCStr_storeBytes {l : List UInt8} (hl : ∀ c ∈ l, c ≠ 0) (buf : CStr) :
    IsCStr (storeBytes (l ++ [0]) buf) l.length := by
  constructor
  · simp [storeBytes]
  · intro j hj
    rw [storeBytes_of_lt hj]
    exact hl _ (List.getElem_mem hj)

theorem text_storeBytes (l : List UInt8) (buf : CStr) :
    text (storeBytes (l ++ [0]) buf) l.length = l := by
  apply List.ext_getElem
  · exact length_text _ _
  · intro j hj hj'
    simp [text, storeBytes_of_lt hj']

/-- `get_next_arguments` always comes to an end, inside the string, and what it stores has all
words but the first. -/
theorem first_word_peeled (hs : IsCStr s n) (hn : n ≤ 1000000) (hcount : 1 ≤ getArgumentCount s)
    (buf : CStr) :
    ∃ r : List UInt8,
      (∀ fuel, n < fuel → ∃ reads, getNextArgumentsRun fuel s buf =
        some ⟨r.length, storeBytes (r ++ [0]) buf, reads⟩ ∧ ∀ j ∈ reads, j ≤ n) ∧
      IsCStr (storeBytes (r ++ [0]) buf) r.length ∧
      getArgumentCount (storeBytes (r ++ [0]) buf) = getArgumentCount s - 1 ∧
      (∀ i, getArgument (storeBytes (r ++ [0]) buf) i = getArgument s (i + 1)) ∧
      (2 ≤ getArgumentCount s → r <:+ text s n ∧ r.head? ≠ some SPACE) := by
  have hwords : words isSpace (text s n) ≠ [] := by
    rw [getArgumentCount_eq hs hn, arguments] at hcount
    exact List.length_pos_iff.mp (by omega)
  have hsuffix := @afterWord_suffix _ isSpace (text s n)
  have hlen : (afterWord isSpace (text s n)).length ≤ 1000000 := by
    have hle := hsuffix.length_le
    rw [length_text] at hle
    omega
  have hstr : IsCStr (storeBytes (afterWord isSpace (text s n) ++ [0]) buf) _ :=
    isCStr_storeBytes (fun c hc => mem_text hs (hsuffix.mem hc)) buf
  have htail : arguments (storeBytes (afterWord isSpace (text s n) ++ [0]) buf)
      (afterWord isSpace (text s n)).length = (arguments s n).tail := by
    rw [arguments, text_storeBytes, words_afterWord, arguments]
  refine ⟨afterWord isSpace (text s n), ?_, hstr, ?_, ?_, ?_⟩
  · intro fuel hfuel
    exact getNextArgumentsRun_eq hs hn hwords hfuel buf
  · rw [getArgumentCount_eq hstr hlen, getArgumentCount_eq hs hn, htail, List.length_tail]
    have hpos := List.length_pos_iff.mpr hwords
    rw [arguments]
    omega
  · intro i
    rw [getArgument_eq hstr hlen, getArgument_eq hs hn, htail, List.getElem?_tail]
  · intro _
    refine ⟨hsuffix, fun hhead => ?_⟩
    exact absurd (head?_afterWord (text s n) SPACE hhead) (by decide)

theorem first_word_peeled_spaced :
    ∃ r : List UInt8, (∃ reads, getNextArgumentsRun 8 spacedLine (fun _ => 0xFF) =
        some ⟨r.length, storeBytes (r ++ [0]) fun _ => 0xFF, reads⟩ ∧ ∀ j ∈ reads, j ≤ 7) ∧
      getArgument (storeBytes (r ++ [0]) fun _ => 0xFF) 0 = some [0x61] := by
  have hcount : 1 ≤ getArgumentCount spacedLine := by
    rw [getArgumentCount_eq isCStr_spacedLine (by decide)]
    decide
  obtain ⟨r, hrun, -, -, hwords, -⟩ :=
    first_word_peeled isCStr_spacedLine (by decide) hcount fun _ => 0xFF
  have hsecond : getArgument spacedLine 1 = some [0x61] := by
    rw [getArgument_eq isCStr_spacedLine (by decide)]
    decide
  exact ⟨r, hrun 8 (by decide), (hwords 0).trans hsecond⟩

end

end Kernel391
