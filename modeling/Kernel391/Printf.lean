import Kernel391.CharUtil
import Mathlib.Data.List.GetD
import Mathlib.Data.Nat.Digits.Lemmas

/-!
# `printf` (`lib.c`)

`printf` reaches the screen through `putc` and `puts` alone, so what it does is the list of those
calls.  Each turn of its two loops looks at one byte of the format.
-/

namespace Kernel391

/-! ## Numbers as text -/

-- The swap loop, with one unit of fuel for each turn.
def strrevLoop : Nat → Nat → Nat → List UInt8 → List UInt8
  | 0, _, _, s => s
  | fuel + 1, beg, stop, s =>
      if beg < stop then
        strrevLoop fuel (beg + 1) (stop - 1) ((s.set stop (s.getD beg 0)).set beg (s.getD stop 0))
      else s

def strrev (s : List UInt8) : List UInt8 := strrevLoop s.length 0 (s.length - 1) s

def lookup : List UInt8 := "0123456789ABCDEFGHIJKLMNOPQRSTUVWXYZ".toList.map Char.toUInt8

-- The digits of a 32-bit value, lowest place first.
def itoaLoop (radix : Nat) : Nat → Nat → List UInt8
  | 0, _ => []
  | fuel + 1, newval =>
      if 0 < newval then lookup.getD (newval % radix) 0 :: itoaLoop radix fuel (newval / radix)
      else []

def itoa (value : UInt32) (radix : Nat) : List UInt8 :=
  if value = 0 then [0x30] else strrev (itoaLoop radix 32 value.toNat)

-- `%x` and `%#x`: the digits start at `conv_buf[8]`, and zeros fill up the eight places before.
def hexText (alternate : Bool) (value : UInt32) : List UInt8 :=
  let digits := itoa value 16
  if alternate then List.replicate (8 - digits.length) 0x30 ++ digits else digits

def signedText (value : UInt32) : List UInt8 :=
  if value.toInt32 < 0 then 0x2D :: itoa (-value) 10 else itoa value 10

section

variable {s : List UInt8}

theorem strrevLoop_length (fuel beg stop : Nat) :
    (strrevLoop fuel beg stop s).length = s.length := by
  induction fuel generalizing beg stop s with
  | zero => rfl
  | succ fuel ih =>
    rw [strrevLoop]
    split
    · rw [ih, List.length_set, List.length_set]
    · rfl

-- Outside the two ends nothing has been swapped yet or everything already has.
theorem strrevLoop_getD {fuel beg stop : Nat} (hfuel : stop ≤ beg + fuel) (hstop : stop < s.length)
    (i : Nat) : (strrevLoop fuel beg stop s).getD i 0 =
      if beg ≤ i ∧ i ≤ stop then s.getD (beg + stop - i) 0 else s.getD i 0 := by
  induction fuel generalizing beg stop s with
  | zero =>
    rw [strrevLoop]
    split
    · rw [show beg + stop - i = i by omega]
    · rfl
  | succ fuel ih =>
    rw [strrevLoop]
    by_cases hlt : beg < stop
    · have hlen : ((s.set stop (s.getD beg 0)).set beg (s.getD stop 0)).length = s.length := by
        rw [List.length_set, List.length_set]
      have hswap : ∀ j, ((s.set stop (s.getD beg 0)).set beg (s.getD stop 0)).getD j 0 =
          if j = beg then s.getD stop 0 else if j = stop then s.getD beg 0 else s.getD j 0 := by
        intro j
        simp only [List.getD_eq_getElem?_getD, List.getElem?_set, List.length_set]
        grind
      rw [if_pos hlt, ih (by omega) (by omega), hswap, hswap,
        show beg + 1 + (stop - 1) - i = beg + stop - i by omega]
      by_cases hbeg : i = beg
      · rw [if_neg (by omega), if_pos hbeg, if_pos (by omega), hbeg, Nat.add_sub_cancel_left]
      · by_cases hend : i = stop
        · rw [if_neg (by omega), if_neg hbeg, if_pos hend, if_pos (by omega), hend,
            Nat.add_sub_cancel]
        · by_cases hmid : beg ≤ i ∧ i ≤ stop
          · rw [if_pos (by omega), if_neg (by omega), if_neg (by omega), if_pos hmid]
          · rw [if_neg (by omega), if_neg hbeg, if_neg hend, if_neg hmid]
    · rw [if_neg hlt]
      split
      · rw [show beg + stop - i = i by omega]
      · rfl

theorem strrevLoop_eq_reverse {fuel : Nat} (hfuel : s.length ≤ fuel + 1) :
    strrevLoop fuel 0 (s.length - 1) s = s.reverse := by
  have hlen : (strrevLoop fuel 0 (s.length - 1) s).length = s.length := strrevLoop_length _ _ _
  apply List.ext_getElem
  · rw [hlen, List.length_reverse]
  · intro i hi hi'
    rw [hlen] at hi
    have hget := @strrevLoop_getD s fuel 0 (s.length - 1) (by omega) (by omega) i
    rw [if_pos (by omega), Nat.zero_add] at hget
    rw [List.getElem_reverse, ← List.getD_eq_getElem _ 0, ← List.getD_eq_getElem _ 0]
    exact hget

theorem strrev_eq_reverse (s : List UInt8) : strrev s = s.reverse :=
  strrevLoop_eq_reverse (Nat.le_succ _)

end

theorem itoaLoop_eq_digits {radix : Nat} (hradix : 1 < radix) {fuel newval : Nat}
    (h : newval < radix ^ fuel) :
    itoaLoop radix fuel newval = (Nat.digits radix newval).map fun d => lookup.getD d 0 := by
  induction fuel generalizing newval with
  | zero =>
    have hzero : newval = 0 := by
      rw [Nat.pow_zero] at h
      omega
    subst hzero
    rw [Nat.digits_zero]
    rfl
  | succ fuel ih =>
    rw [itoaLoop]
    by_cases hpos : 0 < newval
    · rw [Nat.pow_succ] at h
      rw [if_pos hpos, Nat.digits_def' hradix hpos, List.map_cons,
        ih ((Nat.div_lt_iff_lt_mul (by omega)).mpr h)]
    · have hzero : newval = 0 := by omega
      subst hzero
      rw [if_neg hpos, Nat.digits_zero]
      rfl

/-- `itoa` writes the digits of the number, highest place first. -/
theorem itoa_eq_digits {radix : Nat} (hradix : 1 < radix) {value : UInt32} (hvalue : value ≠ 0) :
    itoa value radix = (Nat.digits radix value.toNat).reverse.map fun d => lookup.getD d 0 := by
  have hlt : value.toNat < radix ^ 32 :=
    Nat.lt_of_lt_of_le value.toNat_lt (Nat.pow_le_pow_left hradix 32)
  rw [itoa, if_neg hvalue, itoaLoop_eq_digits hradix hlt, strrev_eq_reverse, List.map_reverse]

/-! ## The format -/

/-- A call that `printf` makes. -/
inductive Out where
  | putc (c : UInt8)
  | puts (str : List UInt8)
deriving DecidableEq

/-- Whether the byte under `buf` is text or comes after a `%`. -/
inductive FormatScan where
  | text
  | conversion (alternate : Bool)
deriving DecidableEq

/-- What the arguments are taken from: the words on the stack, and the strings that pointers among
them point to. -/
structure PrintfArgs where
  word : Nat → UInt32
  strAt : UInt32 → List UInt8

-- One byte of the format.  After a `%` the end of the string is a byte like any other.
def formatByte (args : PrintfArgs) (b : UInt8) (esp : Nat) :
    FormatScan → Option Out × FormatScan × Nat
  | .text =>
      if b = 0x25 then (none, .conversion false, esp) else (some (.putc b), .text, esp)
  | .conversion alternate =>
      if b = 0x25 then (some (.putc 0x25), .text, esp)
      else if b = 0x23 then (none, .conversion true, esp)
      else if b = 0x78 then (some (.puts (hexText alternate (args.word esp))), .text, esp + 1)
      else if b = 0x75 then (some (.puts (itoa (args.word esp) 10)), .text, esp + 1)
      else if b = 0x64 then (some (.puts (signedText (args.word esp))), .text, esp + 1)
      else if b = 0x63 then (some (.putc (args.word esp).toUInt8), .text, esp + 1)
      else if b = 0x73 then (some (.puts (args.strAt (args.word esp))), .text, esp + 1)
      else (none, .text, esp)

def printfLoop (format : CStr) (args : PrintfArgs) :
    Nat → Nat → FormatScan → Nat → Option (List Out × Nat)
  | 0, _, _, _ => none
  | fuel + 1, buf, scan, esp =>
      if scan = .text ∧ format buf = 0 then some ([], buf)
      else
        let (out, scan, esp) := formatByte args (format buf) esp scan
        (printfLoop format args fuel (buf + 1) scan esp).map fun r => (out.toList ++ r.1, r.2)

-- One turn, once the byte is known to be no end.
theorem printfLoop_step {format : CStr} {args : PrintfArgs} {buf esp esp' : Nat}
    {scan scan' : FormatScan} {out : Option Out} (hgo : ¬(scan = .text ∧ format buf = 0))
    (hbyte : formatByte args (format buf) esp scan = (out, scan', esp')) (fuel : Nat) :
    printfLoop format args (fuel + 1) buf scan esp =
      (printfLoop format args fuel (buf + 1) scan' esp').map fun r => (out.toList ++ r.1, r.2) := by
  rw [printfLoop, if_neg hgo, hbyte]

/-- The calls of `printf` and its return value; `none` if it looks at more than `fuel` bytes. -/
def printf (format : CStr) (args : PrintfArgs) (fuel : Nat) : Option (List Out × Nat) :=
  printfLoop format args fuel 0 .text 0

end Kernel391
