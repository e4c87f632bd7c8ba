import Kernel391.Filesys

/-!
# Command lines (`utils/arg_util.c`, `utils/file_util.c`)

The three scanners of `arg_util.c` share their treatment of spaces, so they share the state
`ArgScan`.  A function that fills a buffer returns the bytes it stores from the buffer's start
on, with `none` for the result `-1`.
-/

namespace Kernel391

def SPACE : UInt8 := 0x20

/-- `in_arg`, and the number of arguments already left behind. -/
structure ArgScan where
  inArg : Bool
  argIndex : Nat

def ArgScan.step (st : ArgScan) (c : UInt8) : ArgScan :=
  if c = SPACE ∧ st.inArg then ⟨false, st.argIndex + 1⟩
  else if c ≠ SPACE ∧ ¬st.inArg then { st with inArg := true }
  else st

-- The bytes before the terminator; empty when `string_length` fails.
def stringBytes (s : CStr) : List UInt8 := (List.range (stringLength (some s)).toNat).map s

def getArgumentCount (s : CStr) : Int :=
  if stringLength (some s) < 0 then -1
  else
    let st := (stringBytes s).foldl ArgScan.step ⟨false, 0⟩
    if st.inArg then st.argIndex + 1 else st.argIndex

-- The loop of `get_argument_length`, which stops behind the wanted argument.
def argLengthLoop (index : Nat) : ArgScan → List UInt8 → Nat
  | _, [] => 0
  | st, c :: cs =>
      let st := st.step c
      let here := if c ≠ SPACE ∧ st.argIndex = index then 1 else 0
      if st.argIndex > index then here else here + argLengthLoop index st cs

def getArgumentLength (s : CStr) (index : Nat) : Int :=
  if getArgumentCount s ≤ 0 ∨ getArgumentCount s ≤ index then -1
  else
    let argLength := argLengthLoop index ⟨false, 0⟩ (stringBytes s)
    if argLength = 0 then -1 else argLength

-- The loop of `get_argument`; it also skips NUL bytes.
def argBytesLoop (index : Nat) : ArgScan → List UInt8 → List UInt8
  | _, [] => []
  | st, c :: cs =>
      let st := st.step c
      let here := if c ≠ SPACE ∧ st.argIndex = index ∧ c ≠ 0 then [c] else []
      if st.argIndex > index then here else here ++ argBytesLoop index st cs

def getArgument (s : CStr) (index : Nat) : Option (List UInt8) :=
  if getArgumentCount s ≤ 0 ∨ getArgumentCount s ≤ index then none
  else some (argBytesLoop index ⟨false, 0⟩ (stringBytes s))

/-- `while (p(s[i])) i++`, for at most `fuel` iterations. -/
def scanWhile (p : UInt8 → Bool) (s : CStr) : Nat → Nat → Nat
  | 0, i => i
  | fuel + 1, i => if p (s i) then scanWhile p s fuel (i + 1) else i

/-- `get_next_arguments`.  With two words in the string each of its loops stops at or before the
terminator, so the length bounds their iterations. -/
def getNextArguments (s : CStr) : Option (List UInt8) :=
  if getArgumentCount s ≤ 0 then none
  else if getArgumentCount s = 1 then some [0]
  else
    let fuel := (stringLength (some s)).toNat + 1
    let i := scanWhile (· = SPACE) s fuel 0
    let i := scanWhile (· ≠ SPACE) s fuel i
    let i := scanWhile (· = SPACE) s fuel i
    let stop := scanWhile (· ≠ 0) s fuel i
    some ((List.range (stop - i)).map (fun k => s (i + k)) ++ [0])

-- "ELF"
def elfMagic : List UInt8 := [0x45, 0x4C, 0x46]

/-- `is_executable`.  `data` and `buf` are its two stack buffers before it sets any of them. -/
def isExecutable (fs : FileSys) (data buf exe : CStr) : Bool :=
  match readFileBytesByName fs exe 4 with
  | none => false
  | some stored =>
      let data := storeBytes stored fun i => if i = 4 then 0 else data i
      let buf :=
        match substring data 1 4 with
        | none => buf
        | some bytes => storeBytes bytes buf
      stringEqual buf elfMagic 0 ≠ 0

end Kernel391
