import Kernel391.OpenFrame
import Kernel391.ProcessForest
import Kernel391.Tokenizer

/-!
# The buffers of `execute`

`execute` copies the command line into `all_arguments_copy`, its first word into `executable` and
the rest into the `arg_buffer` of the new control block.  None of the three copies knows how large
its buffer is.
-/

namespace Kernel391

open Words

/-- A store of `execute` into one of its three buffers, by subscript. -/
inductive BufferStore where
  | allArgumentsCopy (i : Int)
  | executable (i : Int)
  | argBuffer (i : Int)
deriving DecidableEq

-- `copy_string` into `all_arguments_copy`: the same loop, with the subscripts for a destination.
def copyStores (source : CStr) : List Int := copyString (fun i _ log => log ++ [i]) source []

/-- The stores of `execute` for a non-NULL command line. -/
def executeStores (img : Image) (fr : ExecFrame) (allArguments : CStr) (k : Kernel) :
    List BufferStore :=
  let args := copyArguments (some allArguments) fr.allArgumentsCopy
  let copied := (copyStores allArguments).map .allArgumentsCopy
  let commandLength := getArgumentLength args 0
  if commandLength < 0 then copied
  else
    let named := copied ++ [.executable commandLength] ++
      (List.range ((getArgument args 0).getD []).length).map fun i => .executable i
    match (k.execute img fr (some allArguments)).1 with
    | .returned _ => named
    | .entered _ =>
        named ++ (List.range ((getNextArguments args).getD []).length).map fun i => .argBuffer i

/-- The store keeps to the declared size of its array, `executable` having `commandLength + 1`
bytes. -/
def BufferStore.InBounds (commandLength : Int) : BufferStore → Prop
  | .allArgumentsCopy i => 0 ≤ i ∧ i < 128
  | .executable i => 0 ≤ i ∧ i < commandLength + 1
  | .argBuffer i => 0 ≤ i ∧ i < 128

/-! ## The copy of the command line -/

section

variable {s : CStr} {n : Nat} (hs : IsCStr s n) (hn : n ≤ 1000000)

include hs hn

theorem copyStores_eq : copyStores s = (List.range (n + 1)).map fun i : Nat => (i : Int) := by
  have hloop : ∀ m : Nat, (List.range m).foldl (fun log (i : Nat) => log ++ [(i : Int)]) [] =
      (List.range m).map fun i : Nat => (i : Int) := by
    intro m
    induction m with
    | zero => rfl
    | succ m ih => rw [List.range_succ, List.foldl_append, ih, List.map_append]; rfl
  rw [copyStores, copyString_counted hs hn, hloop]

/-- The copy of a string, wherever it goes. -/
theorem copyString_update (dest : Int → UInt8) :
    copyString (fun i b (m : Int → UInt8) => Function.update m i b) s dest =
      fun i : Int => if 0 ≤ i ∧ i ≤ n then s i.toNat else dest i := by
  have hloop : ∀ m : Nat, (List.range m).foldl
      (fun (d : Int → UInt8) (i : Nat) => Function.update d (i : Int) (s i)) dest =
        fun i : Int => if 0 ≤ i ∧ i < m then s i.toNat else dest i := by
    intro m
    induction m with
    | zero =>
      funext i
      rw [if_neg (by omega)]
      rfl
    | succ m ih =>
      rw [List.range_succ, List.foldl_append, ih]
      funext i
      rw [List.foldl_cons, List.foldl_nil]
      by_cases hi : i = m
      · rw [hi, Function.update_self, if_pos (by omega), Int.toNat_natCast]
      · rw [Function.update_of_ne hi]
        apply if_congr _ rfl rfl
        omega
  rw [copyString_counted hs hn, hloop]
  funext i
  apply if_congr _ rfl rfl
  omega

theorem copyArguments_apply (copy : Int → UInt8) {j : Nat} (hj : j ≤ n) :
    copyArguments (some s) copy j = s j := by
  simp only [copyArguments, copyString_update hs hn]
  rw [if_pos (by omega), Int.toNat_natCast]

theorem isCStr_copyArguments (copy : Int → UInt8) : IsCStr (copyArguments (some s) copy) n := by
  constructor
  · rw [copyArguments_apply hs hn copy (Nat.le_refl n)]
    exact hs.1
  · intro j hj
    rw [copyArguments_apply hs hn copy (Nat.le_of_lt hj)]
    exact hs.2 j hj

theorem text_copyArguments (copy : Int → UInt8) :
    text (copyArguments (some s) copy) n = text s n := by
  apply List.map_congr_left
  intro j hj
  exact copyArguments_apply hs hn copy (Nat.le_of_lt (List.mem_range.mp hj))

end

/-- A longer text than `string_length` counts makes `copy_string` store below its destination. -/
theorem copyStores_long {s : CStr} (hs : ∀ j, j ≤ 1000000 → s j ≠ 0) : copyStores s = [-1] := by
  simp only [copyStores, copyString, stringLength_long hs]
  rfl

/-! ## Every store -/

section

variable {s : CStr} {n : Nat} (hs : IsCStr s n) (hn : n ≤ 127)

include hs hn

/-- What `execute` finds in its copy of a command line that fits. -/
theorem arguments_copyArguments (copy : Int → UInt8) :
    arguments (copyArguments (some s) copy) n = arguments s n := by
  rw [arguments, text_copyArguments hs (by omega), arguments]

theorem executeStores_inBounds (img : Image) (fr : ExecFrame) (k : Kernel) :
    ∀ st ∈ executeStores img fr s k,
      st.InBounds (getArgumentLength (copyArguments (some s) fr.allArgumentsCopy) 0) := by
  have hargs := isCStr_copyArguments hs (by omega) fr.allArgumentsCopy
  have hwords := arguments_copyArguments hs hn fr.allArgumentsCopy
  have hlength := getArgumentLength_eq hargs (by omega) 0
  have hfirst := getArgument_eq hargs (by omega) 0
  rw [hwords] at hlength hfirst
  have hcopied : ∀ st ∈ (copyStores s).map BufferStore.allArgumentsCopy,
      st.InBounds (getArgumentLength (copyArguments (some s) fr.allArgumentsCopy) 0) := by
    rw [copyStores_eq hs (by omega)]
    intro st hst
    simp only [List.mem_map, List.mem_range] at hst
    obtain ⟨-, ⟨j, hj, rfl⟩, rfl⟩ := hst
    show (0 : Int) ≤ j ∧ (j : Int) < 128
    omega
  unfold executeStores
  dsimp only
  cases hword : (arguments s n)[0]? with
  | none =>
    rw [hword] at hlength
    rw [if_pos (by rw [hlength]; decide)]
    exact hcopied
  | some word =>
    rw [hword] at hlength hfirst
    rw [hlength] at hcopied
    rw [hlength, hfirst, Option.getD_some, if_neg (Int.not_lt.mpr (Int.natCast_nonneg _))]
    have hnamed : ∀ st ∈ (copyStores s).map BufferStore.allArgumentsCopy ++
        [.executable word.length] ++ (List.range word.length).map (fun i => .executable i),
        st.InBounds word.length := by
      intro st hst
      simp only [List.mem_append, List.mem_singleton] at hst
      rcases hst with (hst | rfl) | hst
      · exact hcopied st hst
      · show (0 : Int) ≤ word.length ∧ (word.length : Int) < word.length + 1
        omega
      · simp only [List.mem_map, List.mem_range] at hst
        obtain ⟨j, hj, rfl⟩ := hst
        show (0 : Int) ≤ j ∧ (j : Int) < word.length + 1
        omega
    split
    · exact hnamed
    · have hnonempty : words isSpace (text (copyArguments (some s) fr.allArgumentsCopy) n) ≠ [] := by
        intro hnil
        rw [← arguments, hwords] at hnil
        rw [hnil] at hword
        cases hword
      have hrest := getNextArguments_eq hargs (by omega) hnonempty
      have hshort : (afterWord isSpace (text (copyArguments (some s) fr.allArgumentsCopy) n)).length
          ≤ n := by
        have hle := (@afterWord_suffix _ isSpace
          (text (copyArguments (some s) fr.allArgumentsCopy) n)).length_le
        rw [length_text] at hle
        exact hle
      intro st hst
      rcases List.mem_append.mp hst with hst | hst
      · exact hnamed st hst
      · rw [hrest] at hst
        simp only [Option.getD_some, List.length_append, List.length_singleton, List.mem_map,
          List.mem_range] at hst
        obtain ⟨j, hj, rfl⟩ := hst
        show (0 : Int) ≤ j ∧ (j : Int) < 128
        omega

end

theorem mem_executeStores (img : Image) (fr : ExecFrame) (k : Kernel) {s : CStr} {i : Int}
    (hi : i ∈ copyStores s) : BufferStore.allArgumentsCopy i ∈ executeStores img fr s k := by
  have hcopied : BufferStore.allArgumentsCopy i ∈ (copyStores s).map .allArgumentsCopy :=
    List.mem_map.mpr ⟨i, hi, rfl⟩
  unfold executeStores
  dsimp only
  split
  · exact hcopied
  · split
    · exact List.mem_append_left _ (List.mem_append_left _ hcopied)
    · exact List.mem_append_left _ (List.mem_append_left _ (List.mem_append_left _ hcopied))

theorem mem_copyStores {s : CStr} {n i : Nat} (hs : IsCStr s n) (hn : n ≤ 1000000)
    (hi : i ≤ n) : (i : Int) ∈ copyStores s := by
  rw [copyStores_eq hs hn]
  exact List.mem_map.mpr ⟨i, List.mem_range.mpr (by omega), rfl⟩

/-- `execute` keeps to its buffers exactly for command lines that fit into the first of them: there
is no check of the length. -/
theorem execute_in_buffers_iff (img : Image) (fr : ExecFrame) (k : Kernel) {s : CStr} {n : Nat}
    (hs : IsCStr s n) :
    ((∀ st ∈ executeStores img fr s k,
        st.InBounds (getArgumentLength (copyArguments (some s) fr.allArgumentsCopy) 0)) ∧
      (127 < n → ∀ pid, (k.execute img fr (some s)).1 ≠ .entered pid)) ↔ n ≤ 127 := by
  constructor
  · intro hkept
    by_contra hlong
    have hout : ∃ i ∈ copyStores s, i < 0 ∨ 128 ≤ i := by
      by_cases hcounted : n ≤ 1000000
      · exact ⟨(128 : Nat), mem_copyStores hs hcounted (by omega), .inr (by decide)⟩
      · rw [copyStores_long fun j hj => hs.2 j (by omega)]
        exact ⟨-1, List.mem_singleton.mpr rfl, .inl (by decide)⟩
    obtain ⟨i, hi, hbad⟩ := hout
    have hin : 0 ≤ i ∧ i < 128 := hkept.1 _ (mem_executeStores img fr k hi)
    omega
  · intro hn
    refine ⟨executeStores_inBounds hs hn img fr k, ?_⟩
    intro hlong
    omega

theorem execute_in_buffers_shell :
    IsCStr shellName 5 ∧ ∀ st ∈ executeStores shellImage zeroFrame shellName freshKernel,
      st.InBounds
        (getArgumentLength (copyArguments (some shellName) zeroFrame.allArgumentsCopy) 0) := by
  have hname : IsCStr shellName 5 := ⟨rfl, by decide⟩
  refine ⟨hname, ?_⟩
  exact ((execute_in_buffers_iff shellImage zeroFrame freshKernel hname).mpr (by decide)).1

-- The terminator of 128 letters.
theorem execute_overruns_copy :
    IsCStr (letters 128) 128 ∧ ∃ st ∈ executeStores shellImage zeroFrame (letters 128) freshKernel,
      ¬st.InBounds
        (getArgumentLength (copyArguments (some (letters 128)) zeroFrame.allArgumentsCopy) 0) := by
  have hlast := mem_copyStores (isCStr_letters 128) (by decide) (Nat.le_refl 128)
  refine ⟨isCStr_letters 128, _, mem_executeStores shellImage zeroFrame freshKernel hlast, ?_⟩
  intro hin
  exact absurd hin.2 (by decide)

end Kernel391
