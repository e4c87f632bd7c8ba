import Kernel391.Printf
import Kernel391.Lib.Numeral

/-!
# Numbers in a buffer

`itoa` stores the digits from the lowest place upwards, counts them again and reverses them in
place; `%#x` lets it write eight places into `conv_buf` and fills up from the front.  The buffer
keeps a record of the places stored to.
-/

namespace Kernel391

open Numeral

/-- A buffer, and where it has been stored to. -/
structure Buffer where
  bytes : Memory
  stores : List Nat

def Buffer.store (i : Nat) (c : UInt8) (m : Buffer) : Buffer :=
  ⟨Function.update m.bytes i c, m.stores ++ [i]⟩

-- The loops have no bound of their own; `none` is more than `fuel` turns.
def strlenLoop (s : CStr) : Nat → Nat → Option Nat
  | 0, _ => none
  | fuel + 1, len => if s len = 0 then some len else strlenLoop s fuel (len + 1)

def strlen (fuel : Nat) (s : CStr) : Option Nat := strlenLoop s fuel 0

def swapLoop (s : Nat) : Nat → Nat → Nat → Buffer → Option Buffer
  | 0, _, _, _ => none
  | fuel + 1, beg, stop, m =>
      if beg < stop then
        swapLoop s fuel (beg + 1) (stop - 1)
          ((m.store (s + stop) (m.bytes (s + beg))).store (s + beg) (m.bytes (s + stop)))
      else some m

/-- `strrev` on the buffer; of the empty string nothing is swapped. -/
def strrevAt (fuel s : Nat) (m : Buffer) : Option Buffer :=
  (strlen fuel (stringAt m.bytes s)).bind fun len => swapLoop s fuel 0 (len - 1) m

def digitLoop (radix : Nat) : Nat → Nat → Nat → Buffer → Option (Nat × Buffer)
  | 0, _, _, _ => none
  | fuel + 1, newval, newbuf, m =>
      if 0 < newval then
        digitLoop radix fuel (newval / radix) (newbuf + 1)
          (m.store newbuf (lookup.getD (newval % radix) 0))
      else some (newbuf, m)

/-- `itoa` on the buffer. -/
def itoaAt (fuel : Nat) (value : UInt32) (buf radix : Nat) (m : Buffer) : Option Buffer :=
  if value = 0 then some ((m.store buf 0x30).store (buf + 1) 0)
  else (digitLoop radix fuel value.toNat buf m).bind fun r => strrevAt fuel buf (r.2.store r.1 0)

-- The characters `puts` sends to `putc`.
def putsLoop (s : CStr) : Nat → Nat → Option (List UInt8)
  | 0, _ => none
  | fuel + 1, index =>
      if s index = 0 then some [] else (putsLoop s fuel (index + 1)).map (s index :: ·)

/-- The case `'x'` of `printf`: what is printed and `conv_buf` afterwards. -/
def hexConversion (fuel : Nat) (alternate : Bool) (value : UInt32) (convBuf : Buffer) :
    Option (List UInt8 × Buffer) :=
  if alternate then
    (itoaAt fuel value 8 16 convBuf).bind fun m =>
      (strlen fuel (stringAt m.bytes 8)).bind fun startingIndex =>
        let m := (List.range' startingIndex (8 - startingIndex)).foldl
          (fun m i => m.store i 0x30) m
        (putsLoop (stringAt m.bytes startingIndex) fuel 0).map (·, m)
  else
    (itoaAt fuel value 0 16 convBuf).bind fun m =>
      (putsLoop (stringAt m.bytes 0) fuel 0).map (·, m)

/-! ## What the text has to be -/

/-- The digit a character stands for. -/
def digitOf (c : UInt8) : Option Nat :=
  if 0x30 ≤ c ∧ c ≤ 0x39 then some (c.toNat - 0x30)
  else if 0x41 ≤ c ∧ c ≤ 0x5A then some (c.toNat - 0x41 + 10)
  else none

/-- The text reads as a numeral of `n`. -/
def CanonicalText (radix n : Nat) (t : List UInt8) : Prop :=
  ∃ ds, t.mapM digitOf = some ds ∧ IsNumeral radix n ds

/-- Eight hexadecimal digits that denote `n`. -/
structure EightHexDigits (n : Nat) (t : List UInt8) : Prop where
  length : t.length = 8
  denotes : ∃ ds, t.mapM digitOf = some ds ∧ (∀ d ∈ ds, d < 16) ∧ Numeral.value 16 ds = n

-- The places stored to on the way from `m` to `m'` are from `lo` up to `hi`.
def StoresWithin (lo hi : Nat) (m m' : Buffer) : Prop :=
  ∃ new, m'.stores = m.stores ++ new ∧ ∀ j ∈ new, lo ≤ j ∧ j < hi

/-- All that has happened to the buffer is that `t` and a NUL have been stored at `s`. -/
structure StoresText (s : Nat) (t : List UInt8) (m m' : Buffer) : Prop where
  bytes : m'.bytes = storeFrom s (t ++ [0]) m.bytes
  stores : StoresWithin s (s + t.length + 1) m m'

/-! ## Stores -/

section

variable {lo hi : Nat} {m m' m'' : Buffer}

theorem StoresWithin.refl (lo hi : Nat) (m : Buffer) : StoresWithin lo hi m m :=
  ⟨[], (List.append_nil _).symm, by simp⟩

theorem StoresWithin.trans (h : StoresWithin lo hi m m') (h' : StoresWithin lo hi m' m'') :
    StoresWithin lo hi m m'' := by
  obtain ⟨new, heq, hin⟩ := h
  obtain ⟨new', heq', hin'⟩ := h'
  refine ⟨new ++ new', ?_, ?_⟩
  · rw [heq', heq, List.append_assoc]
  · intro j hj
    exact (List.mem_append.mp hj).elim (hin j) (hin' j)

theorem StoresWithin.mono (h : StoresWithin lo hi m m') {lo' hi' : Nat} (hlo : lo' ≤ lo)
    (hhi : hi ≤ hi') : StoresWithin lo' hi' m m' := by
  obtain ⟨new, heq, hin⟩ := h
  refine ⟨new, heq, ?_⟩
  intro j hj
  have hb := hin j hj
  omega

theorem storesWithin_store {i : Nat} (hlo : lo ≤ i) (hhi : i < hi) (c : UInt8) (m : Buffer) :
    StoresWithin lo hi m (m.store i c) := by
  refine ⟨[i], rfl, ?_⟩
  intro j hj
  rw [List.mem_singleton.mp hj]
  exact ⟨hlo, hhi⟩

end

theorem storeFrom_add (p : Nat) (l : List UInt8) (b : CStr) (i : Nat) :
    storeFrom p l b (p + i) = l.getD i (b (p + i)) := by
  rw [storeFrom, if_neg (by omega), Nat.add_sub_cancel_left]

theorem storeFrom_set (p : Nat) {l : List UInt8} {i : Nat} (hi : i < l.length) (c : UInt8)
    (b : CStr) : Function.update (storeFrom p l b) (p + i) c = storeFrom p (l.set i c) b := by
  funext a
  by_cases ha : a = p + i
  · rw [ha, Function.update_self, storeFrom_add, List.getD_eq_getElem?_getD,
      List.getElem?_set_self hi, Option.getD_some]
  · rw [Function.update_of_ne ha]
    unfold storeFrom
    by_cases hlt : a < p
    · rw [if_pos hlt, if_pos hlt]
    · rw [if_neg hlt, if_neg hlt, List.getD_eq_getElem?_getD, List.getD_eq_getElem?_getD,
        List.getElem?_set_ne (by omega)]

theorem storeFrom_append (p : Nat) (l l' : List UInt8) (b : CStr) :
    storeFrom p (l ++ l') b = storeFrom p l (storeFrom (p + l.length) l' b) := by
  funext a
  unfold storeFrom
  by_cases hlt : a < p
  · rw [if_pos hlt, if_pos hlt, if_pos (by omega)]
  · rw [if_neg hlt, if_neg hlt]
    by_cases hin : a - p < l.length
    · rw [List.getD_append _ _ _ _ hin, List.getD_eq_getElem _ _ hin, List.getD_eq_getElem _ _ hin]
    · rw [List.getD_append_right _ _ _ _ (by omega), List.getD_eq_default l _ (by omega),
        if_neg (by omega), Nat.sub_sub]

/-! ## Reading a text -/

-- The text and its NUL stand at `i`.
def HoldsText (s : CStr) (i : Nat) : List UInt8 → Prop
  | [] => s i = 0
  | c :: t => s i = c ∧ c ≠ 0 ∧ HoldsText s (i + 1) t

theorem holdsText_of_getD {s : CStr} : ∀ {t : List UInt8} {i : Nat}, 0 ∉ t →
    (∀ j, j ≤ t.length → s (i + j) = (t ++ [0]).getD j 0) → HoldsText s i t
  | [], i, _, h => h 0 (Nat.le_refl 0)
  | c :: t, i, hz, h => by
      rw [List.mem_cons, not_or] at hz
      refine ⟨h 0 (Nat.zero_le _), Ne.symm hz.1, holdsText_of_getD hz.2 ?_⟩
      intro j hj
      rw [Nat.add_right_comm, Nat.add_assoc]
      exact h (j + 1) (Nat.succ_le_succ hj)

theorem holdsText_stored {t : List UInt8} (hz : 0 ∉ t) (p : Nat) (b : CStr) :
    HoldsText (stringAt (storeFrom p (t ++ [0]) b) p) 0 t := by
  apply holdsText_of_getD hz
  intro j hj
  have hlt : j < (t ++ [0]).length := by
    rw [List.length_append, List.length_singleton]
    omega
  rw [Nat.zero_add, stringAt, storeFrom_add, List.getD_eq_getElem _ _ hlt,
    List.getD_eq_getElem _ _ hlt]

theorem strlenLoop_eq {s : CStr} : ∀ {t : List UInt8} {fuel i : Nat}, HoldsText s i t →
    t.length < fuel → strlenLoop s fuel i = some (i + t.length)
  | [], fuel + 1, i, h, _ => if_pos h
  | c :: t, fuel + 1, i, ⟨hc, hne, h⟩, hfuel => by
      rw [List.length_cons] at hfuel ⊢
      rw [strlenLoop, if_neg (by rw [hc]; exact hne), strlenLoop_eq h (by omega)]
      congr 1
      omega

theorem putsLoop_eq {s : CStr} : ∀ {t : List UInt8} {fuel i : Nat}, HoldsText s i t →
    t.length < fuel → putsLoop s fuel i = some t
  | [], fuel + 1, i, h, _ => if_pos h
  | c :: t, fuel + 1, i, ⟨hc, hne, h⟩, hfuel => by
      rw [List.length_cons] at hfuel
      rw [putsLoop, if_neg (by rw [hc]; exact hne), putsLoop_eq h (by omega), Option.map_some, hc]

/-! ## The two loops of `itoa` -/

-- The swaps in the buffer are those on the list of its characters.
theorem swapLoop_eq {s : Nat} {b : Memory} {fuel beg stop : Nat} {l : List UInt8} {m : Buffer}
    (hbytes : m.bytes = storeFrom s (l ++ [0]) b) (hfuel : stop ≤ beg + fuel)
    (hstop : stop < l.length) :
    ∃ m', swapLoop s (fuel + 1) beg stop m = some m' ∧
      m'.bytes = storeFrom s (strrevLoop fuel beg stop l ++ [0]) b ∧
      StoresWithin s (s + l.length) m m' := by
  induction fuel generalizing beg stop l m with
  | zero =>
    rw [swapLoop, if_neg (by omega)]
    exact ⟨m, rfl, hbytes, .refl _ _ m⟩
  | succ fuel ih =>
    rw [swapLoop, strrevLoop]
    by_cases hlt : beg < stop
    · rw [if_pos hlt, if_pos hlt]
      have hread : ∀ i, i < l.length → m.bytes (s + i) = l.getD i 0 := by
        intro i hi
        rw [hbytes, storeFrom_add, List.getD_append _ _ _ _ hi, List.getD_eq_getElem _ _ hi,
          List.getD_eq_getElem _ _ hi]
      have hset : ∀ (l' : List UInt8) (i : Nat) (c : UInt8), i < l'.length →
          Function.update (storeFrom s (l' ++ [0]) b) (s + i) c =
            storeFrom s (l'.set i c ++ [0]) b := by
        intro l' i c hi
        rw [storeFrom_set s (by rw [List.length_append]; omega), List.set_append_left _ _ hi]
      have hswapped : Function.update (Function.update m.bytes (s + stop) (m.bytes (s + beg)))
          (s + beg) (m.bytes (s + stop)) =
          storeFrom s ((l.set stop (l.getD beg 0)).set beg (l.getD stop 0) ++ [0]) b := by
        rw [hread beg (by omega), hread stop hstop, hbytes, hset l stop _ hstop,
          hset _ beg _ (by rw [List.length_set]; omega)]
      have hlen : ((l.set stop (l.getD beg 0)).set beg (l.getD stop 0)).length = l.length := by
        rw [List.length_set, List.length_set]
      obtain ⟨m', hm', hbytes', hstores⟩ := @ih (beg + 1) (stop - 1) _ ((m.store (s + stop)
        (m.bytes (s + beg))).store (s + beg) (m.bytes (s + stop))) hswapped (by omega)
        (by rw [hlen]; omega)
      rw [hlen] at hstores
      have hfirst := @storesWithin_store s (s + l.length) (s + stop) (by omega) (by omega)
        (m.bytes (s + beg)) m
      have hsecond := @storesWithin_store s (s + l.length) (s + beg) (by omega) (by omega)
        (m.bytes (s + stop)) (m.store (s + stop) (m.bytes (s + beg)))
      exact ⟨m', hm', hbytes', (hfirst.trans hsecond).trans hstores⟩
    · rw [if_neg hlt, if_neg hlt]
      exact ⟨m, rfl, hbytes, .refl _ _ m⟩

-- The digits of a number below `radix ^ k` take `k` turns at most.
theorem digitLoop_eq {radix : Nat} (hradix : 0 < radix) {k fuel newval newbuf : Nat} {m : Buffer}
    (hval : newval < radix ^ k) (hfuel : k ≤ fuel) :
    ∃ m', digitLoop radix (fuel + 1) newval newbuf m =
        some (newbuf + (itoaLoop radix k newval).length, m') ∧
      m'.bytes = storeFrom newbuf (itoaLoop radix k newval) m.bytes ∧
      StoresWithin newbuf (newbuf + (itoaLoop radix k newval).length) m m' := by
  induction k generalizing fuel newval newbuf m with
  | zero =>
    rw [Nat.pow_zero] at hval
    rw [digitLoop, if_neg (by omega), itoaLoop, storeFrom_nil]
    exact ⟨m, rfl, rfl, .refl _ _ m⟩
  | succ k ih =>
    rw [digitLoop, itoaLoop]
    by_cases hpos : 0 < newval
    · rw [if_pos hpos, if_pos hpos, List.length_cons, storeFrom_cons]
      obtain ⟨fuel, rfl⟩ := Nat.exists_eq_add_of_lt (show 0 < fuel by omega)
      rw [Nat.pow_succ] at hval
      obtain ⟨m', hm', hbytes, hstores⟩ := @ih (0 + fuel) (newval / radix) (newbuf + 1)
        (m.store newbuf (lookup.getD (newval % radix) 0))
        ((Nat.div_lt_iff_lt_mul hradix).mpr hval) (by omega)
      refine ⟨m', ?_, hbytes, ?_⟩
      · rw [hm', Nat.add_assoc, Nat.add_comm 1]
      · have hfirst := @storesWithin_store newbuf
          (newbuf + ((itoaLoop radix k (newval / radix)).length + 1)) newbuf (Nat.le_refl _)
          (by omega) (lookup.getD (newval % radix) 0) m
        exact hfirst.trans (hstores.mono (by omega) (by omega))
    · rw [if_neg hpos, if_neg hpos, storeFrom_nil]
      exact ⟨m, rfl, rfl, .refl _ _ m⟩

/-! ## Digits and characters -/

theorem digitOf_lookup : ∀ d, d < 36 → digitOf (lookup.getD d 0) = some d := by
  decide

theorem lookup_of_digitOf {c : UInt8} {d : Nat} (h : digitOf c = some d) :
    c = lookup.getD d 0 := by
  have hall : ∀ n, n < 256 → ∀ d ∈ digitOf (UInt8.ofNat n), UInt8.ofNat n = lookup.getD d 0 := by
    decide +kernel
  have hc := hall c.toNat c.toNat_lt
  rw [UInt8.ofNat_toNat] at hc
  exact hc d h

theorem lookup_ne_zero {d : Nat} (hd : d < 36) : lookup.getD d 0 ≠ 0 := by
  intro hz
  have hdigit := digitOf_lookup d hd
  rw [hz] at hdigit
  cases hdigit

theorem mapM_digitOf : ∀ {ds : List Nat}, (∀ d ∈ ds, d < 36) →
    (ds.map fun d => lookup.getD d 0).mapM digitOf = some ds
  | [], _ => rfl
  | d :: ds, h => by
      have hd := digitOf_lookup d (h d List.mem_cons_self)
      have hds := mapM_digitOf fun d' hd' => h d' (List.mem_cons_of_mem d hd')
      rw [List.map_cons, List.mapM_cons, hd, hds]
      rfl

theorem eq_map_of_mapM_digitOf : ∀ {t : List UInt8} {ds : List Nat}, t.mapM digitOf = some ds →
    t = ds.map fun d => lookup.getD d 0
  | [], ds, h => by
      cases h
      rfl
  | c :: t, ds, h => by
      rw [List.mapM_cons] at h
      obtain ⟨d, hd, hrest⟩ := Option.bind_eq_some_iff.mp h
      obtain ⟨ds', hds, hpure⟩ := Option.bind_eq_some_iff.mp hrest
      cases hpure
      rw [List.map_cons, ← lookup_of_digitOf hd, ← eq_map_of_mapM_digitOf hds]

section

variable {radix : Nat} (hlo : 2 ≤ radix)

include hlo

/-- `itoa` gives the characters of the numeral. -/
theorem itoa_eq_numeral (value : UInt32) :
    itoa value radix = (numeral radix value.toNat).map fun d => lookup.getD d 0 := by
  by_cases hzero : value = 0
  · rw [hzero]
    rfl
  · have hpos : value.toNat ≠ 0 := fun h => hzero (UInt32.toNat_inj.mp h)
    rw [itoa_eq_digits hlo hzero, numeral, if_neg hpos]

theorem length_itoa_le {value : UInt32} {k : Nat} (hk : 0 < k) (hvalue : value.toNat < radix ^ k) :
    (itoa value radix).length ≤ k := by
  rw [itoa_eq_numeral hlo, List.length_map]
  exact length_numeral_le hlo hk hvalue

theorem canonicalText_itoa (hhi : radix ≤ 36) (value : UInt32) :
    CanonicalText radix value.toNat (itoa value radix) := by
  have hnumeral := isNumeral_numeral hlo value.toNat
  rw [itoa_eq_numeral hlo]
  exact ⟨_, mapM_digitOf fun d hd => Nat.lt_of_lt_of_le (hnumeral.digits d hd) hhi, hnumeral⟩

/-- A number has one canonical text. -/
theorem CanonicalText.eq_itoa {value : UInt32} {t : List UInt8}
    (h : CanonicalText radix value.toNat t) : t = itoa value radix := by
  obtain ⟨ds, hds, hnumeral⟩ := h
  rw [eq_map_of_mapM_digitOf hds, hnumeral.eq_numeral hlo, itoa_eq_numeral hlo]

end

theorem zero_not_mem_itoa {radix : Nat} (hlo : 2 ≤ radix) (hhi : radix ≤ 36) (value : UInt32) :
    0 ∉ itoa value radix := by
  rw [itoa_eq_numeral hlo]
  intro hz
  obtain ⟨d, hd, hzero⟩ := List.mem_map.mp hz
  have hlt := (isNumeral_numeral hlo value.toNat).digits d hd
  exact lookup_ne_zero (by omega) hzero

/-! ## `itoa` -/

/-- `strrev` reverses the text where it stands. -/
theorem strrevAt_eq {fuel s : Nat} {b : Memory} {l : List UInt8} {m : Buffer} (hz : 0 ∉ l)
    (hbytes : m.bytes = storeFrom s (l ++ [0]) b) (hfuel : l.length ≤ fuel) (hne : l ≠ []) :
    ∃ m', strrevAt (fuel + 1) s m = some m' ∧ m'.bytes = storeFrom s (l.reverse ++ [0]) b ∧
      StoresWithin s (s + l.length) m m' := by
  have hpos : 0 < l.length := List.length_pos_of_ne_nil hne
  have hlen : strlen (fuel + 1) (stringAt m.bytes s) = some l.length := by
    rw [strlen, hbytes, strlenLoop_eq (holdsText_stored hz s b) (by omega), Nat.zero_add]
  obtain ⟨m', hm', hbytes', hstores⟩ := @swapLoop_eq s b fuel 0 (l.length - 1) l m hbytes (by omega)
    (by omega)
  rw [strrevLoop_eq_reverse (by omega)] at hbytes'
  refine ⟨m', ?_, hbytes', hstores⟩
  rw [strrevAt, hlen, Option.bind_some, hm']

theorem value_lt_pow {radix : Nat} (hlo : 2 ≤ radix) (value : UInt32) :
    value.toNat < radix ^ 32 :=
  Nat.lt_of_lt_of_le value.toNat_lt (Nat.pow_le_pow_left hlo 32)

/-- `itoa` stores its text and a NUL, and nothing else. -/
theorem itoaAt_eq {radix : Nat} (hlo : 2 ≤ radix) (hhi : radix ≤ 36) (value : UInt32) (buf : Nat)
    (m : Buffer) {fuel : Nat} (hfuel : 32 ≤ fuel) :
    ∃ m', itoaAt (fuel + 1) value buf radix m = some m' ∧
      StoresText buf (itoa value radix) m m' := by
  unfold itoaAt
  by_cases hzero : value = 0
  · rw [if_pos hzero, itoa, if_pos hzero]
    refine ⟨_, rfl, ?_, ?_⟩
    · rw [List.singleton_append, storeFrom_cons, storeFrom_cons, storeFrom_nil]
      rfl
    · exact (storesWithin_store (Nat.le_refl buf) (by simp) 0x30 m).trans
        (storesWithin_store (Nat.le_succ buf) (by simp) 0 _)
  · rw [if_neg hzero]
    have hlength := length_itoa_le hlo (show 0 < 32 by decide) (value_lt_pow hlo value)
    have hnonzero := zero_not_mem_itoa hlo hhi value
    have hnonempty : itoa value radix ≠ [] := by
      obtain ⟨ds, hds, hnumeral⟩ := canonicalText_itoa hlo hhi value
      intro hnil
      rw [hnil] at hds
      cases hds
      exact hnumeral.nonempty rfl
    obtain ⟨m₁, hm₁, hbytes₁, hstores₁⟩ := @digitLoop_eq radix (by omega) 32 fuel value.toNat buf m
      (value_lt_pow hlo value) hfuel
    rw [hm₁, Option.bind_some]
    -- the text is that list of digits the other way round
    have htext : itoa value radix = (itoaLoop radix 32 value.toNat).reverse := by
      rw [itoa, if_neg hzero, strrev_eq_reverse]
    generalize itoaLoop radix 32 value.toNat = l at hbytes₁ hstores₁ htext ⊢
    rw [htext] at hlength hnonzero hnonempty
    rw [List.length_reverse] at hlength
    rw [List.mem_reverse] at hnonzero
    have hterminated : (m₁.store (buf + l.length) 0).bytes = storeFrom buf (l ++ [0]) m.bytes := by
      rw [storeFrom_snoc, ← hbytes₁]
      rfl
    obtain ⟨m', hm', hbytes', hstores'⟩ := strrevAt_eq hnonzero hterminated
      (Nat.le_trans hlength hfuel) fun hnil => hnonempty (by rw [hnil]; rfl)
    refine ⟨m', hm', ?_, ?_⟩
    · rw [htext]
      exact hbytes'
    · rw [htext, List.length_reverse]
      have hdigits := @StoresWithin.mono _ _ _ _ hstores₁ buf (buf + l.length + 1) (Nat.le_refl _)
        (by omega)
      have hnul := @storesWithin_store buf (buf + l.length + 1) (buf + l.length) (by omega)
        (by omega) 0 m₁
      have hswaps := @StoresWithin.mono _ _ _ _ hstores' buf (buf + l.length + 1) (Nat.le_refl _)
        (by omega)
      exact (hdigits.trans hnul).trans hswaps

/-! ## `%x` and `%#x` -/

-- The zeros in front of the digits.
theorem fillLoop_eq (k start : Nat) (m : Buffer) :
    ((List.range' start k).foldl (fun m i => m.store i 0x30) m).bytes =
        storeFrom start (List.replicate k 0x30) m.bytes ∧
      StoresWithin start (start + k) m
        ((List.range' start k).foldl (fun m i => m.store i 0x30) m) := by
  induction k generalizing start m with
  | zero => exact ⟨(storeFrom_nil start m.bytes).symm, .refl _ _ m⟩
  | succ k ih =>
    obtain ⟨hbytes, hstores⟩ := ih (start + 1) (m.store start 0x30)
    rw [List.range'_succ, List.foldl_cons, List.replicate_succ, storeFrom_cons]
    refine ⟨hbytes, ?_⟩
    have hfirst := @storesWithin_store start (start + (k + 1)) start (Nat.le_refl _) (by omega)
      0x30 m
    exact hfirst.trans (hstores.mono (by omega) (by omega))

theorem zero_not_mem_hexText (alternate : Bool) (value : UInt32) :
    0 ∉ hexText alternate value := by
  have hdigits := zero_not_mem_itoa (show 2 ≤ 16 by decide) (by decide) value
  cases alternate with
  | false => exact hdigits
  | true =>
    intro hz
    obtain hfill | hmem := List.mem_append.mp hz
    · exact absurd (List.eq_of_mem_replicate hfill) (by decide)
    · exact hdigits hmem

theorem length_itoa_hex (value : UInt32) : (itoa value 16).length ≤ 8 :=
  length_itoa_le (by decide) (by decide) value.toNat_lt

theorem length_hexText (value : UInt32) : (hexText true value).length = 8 := by
  have hle := length_itoa_hex value
  show (List.replicate (8 - (itoa value 16).length) 0x30 ++ itoa value 16).length = 8
  rw [List.length_append, List.length_replicate]
  omega

-- What has been stored as a text is what `puts` prints.
theorem putsLoop_stored {t : List UInt8} (hz : 0 ∉ t) {fuel : Nat} (hfuel : t.length < fuel)
    {m : Buffer} {p : Nat} {b : Memory} (hbytes : m.bytes = storeFrom p (t ++ [0]) b) :
    putsLoop (stringAt m.bytes p) fuel 0 = some t := by
  rw [hbytes]
  exact putsLoop_eq (holdsText_stored hz p b) hfuel

/-- The conversion prints what the list of calls of `printf` says, and keeps to `conv_buf`. -/
theorem hexConversion_eq (alternate : Bool) (value : UInt32) (m : Buffer) {fuel : Nat}
    (hfuel : 32 ≤ fuel) :
    ∃ m', hexConversion (fuel + 1) alternate value m = some (hexText alternate value, m') ∧
      StoresWithin 0 64 m m' := by
  have hle := length_itoa_hex value
  have hz := zero_not_mem_itoa (show 2 ≤ 16 by decide) (by decide) value
  have hztext := zero_not_mem_hexText alternate value
  unfold hexConversion
  cases alternate with
  | false =>
    obtain ⟨m₁, hm₁, hstored⟩ := @itoaAt_eq 16 (by decide) (by decide) value 0 m fuel hfuel
    refine ⟨m₁, ?_, hstored.stores.mono (Nat.le_refl 0) (by omega)⟩
    rw [if_neg Bool.false_ne_true, hm₁, Option.bind_some,
      putsLoop_stored hz (by omega) hstored.bytes]
    rfl
  | true =>
    obtain ⟨m₁, hm₁, hstored⟩ := @itoaAt_eq 16 (by decide) (by decide) value 8 m fuel hfuel
    have hlen : strlen (fuel + 1) (stringAt m₁.bytes 8) = some (itoa value 16).length := by
      rw [strlen, hstored.bytes, strlenLoop_eq (holdsText_stored hz 8 m.bytes) (by omega),
        Nat.zero_add]
    obtain ⟨hfill, hstores⟩ := fillLoop_eq (8 - (itoa value 16).length) (itoa value 16).length m₁
    rw [if_pos rfl, hm₁, Option.bind_some, hlen, Option.bind_some]
    dsimp only
    generalize (List.range' (itoa value 16).length (8 - (itoa value 16).length)).foldl
      (fun m i => m.store i 0x30) m₁ = m₂ at hfill hstores ⊢
    -- the zeros end where the digits begin
    have hwhole : m₂.bytes =
        storeFrom (itoa value 16).length (hexText true value ++ [0]) m.bytes := by
      have hsplit := storeFrom_append (itoa value 16).length
        (List.replicate (8 - (itoa value 16).length) 0x30) (itoa value 16 ++ [0]) m.bytes
      rw [List.length_replicate, Nat.add_sub_cancel' hle, ← List.append_assoc] at hsplit
      rw [hfill, hstored.bytes, ← hsplit]
      rfl
    refine ⟨m₂, ?_, ?_⟩
    · rw [putsLoop_stored hztext (by rw [length_hexText]; omega) hwhole]
      rfl
    · exact (hstored.stores.mono (by omega) (by omega)).trans (hstores.mono (by omega) (by omega))

theorem eightHexDigits_hexText (value : UInt32) :
    EightHexDigits value.toNat (hexText true value) := by
  have hnumeral := isNumeral_numeral (show 1 < 16 by decide) value.toNat
  have htext : hexText true value = (List.replicate (8 - (itoa value 16).length) 0 ++
      numeral 16 value.toNat).map fun d => lookup.getD d 0 := by
    rw [List.map_append, List.map_replicate, ← itoa_eq_numeral (by decide)]
    rfl
  have hdigits : ∀ d ∈ List.replicate (8 - (itoa value 16).length) 0 ++ numeral 16 value.toNat,
      d < 16 := by
    intro d hd
    obtain hfill | hmem := List.mem_append.mp hd
    · rw [List.eq_of_mem_replicate hfill]
      decide
    · exact hnumeral.digits d hmem
  refine ⟨length_hexText value, _, ?_, hdigits, ?_⟩
  · rw [htext]
    exact mapM_digitOf fun d hd => Nat.lt_trans (hdigits d hd) (by decide)
  · rw [value_zeros, hnumeral.value]

/-- Wherever `%#x` stands in a format, the text of the next argument is printed. -/
theorem printfLoop_hex {format : CStr} {buf : Nat} (hpercent : format buf = 0x25)
    (hsharp : format (buf + 1) = 0x23) (hx : format (buf + 2) = 0x78) (args : PrintfArgs)
    (fuel esp : Nat) :
    printfLoop format args (fuel + 3) buf .text esp =
      (printfLoop format args fuel (buf + 3) .text (esp + 1)).map fun r =>
        (.puts (hexText true (args.word esp)) :: r.1, r.2) := by
  have hfirst := @printfLoop_step format args buf esp esp .text (.conversion false) none
    (fun h => absurd (hpercent.symm.trans h.2) (by decide)) (by rw [hpercent]; rfl) (fuel + 2)
  have hsecond := @printfLoop_step format args (buf + 1) esp esp (.conversion false)
    (.conversion true) none (fun h => by cases h.1) (by rw [hsharp]; rfl) (fuel + 1)
  have hthird := @printfLoop_step format args (buf + 2) esp (esp + 1) (.conversion true) .text
    (some (.puts (hexText true (args.word esp)))) (fun h => by cases h.1) (by rw [hx]; rfl) fuel
  rw [hfirst, hsecond, hthird, Option.map_map, Option.map_map]
  rfl

/-- Numbers are written as they should be: `itoa` stores the one canonical text of the value and a
NUL, 33 bytes at most, and `%#x` prints eight hexadecimal digits that denote it. -/
theorem number_formatting (value : UInt32) (radix : Nat) (hlo : 2 ≤ radix) (hhi : radix ≤ 36)
    (buf : Nat) (m : Buffer) (fuel : Nat) (hfuel : 33 ≤ fuel) :
    (∃ t m', itoaAt fuel value buf radix m = some m' ∧
      CanonicalText radix value.toNat t ∧ (∀ t', CanonicalText radix value.toNat t' → t' = t) ∧
      t.length + 1 ≤ 33 ∧ StoresText buf t m m') ∧
    (∃ t m', hexConversion fuel true value m = some (t, m') ∧ EightHexDigits value.toNat t ∧
      StoresWithin 0 64 m m' ∧
      ∀ (format : CStr) (pos : Nat) (args : PrintfArgs) (turns esp : Nat),
        format pos = 0x25 → format (pos + 1) = 0x23 → format (pos + 2) = 0x78 →
        args.word esp = value →
        printfLoop format args (turns + 3) pos .text esp =
          (printfLoop format args turns (pos + 3) .text (esp + 1)).map fun r =>
            (.puts t :: r.1, r.2)) := by
  obtain ⟨fuel, rfl⟩ : ∃ k, fuel = k + 1 := ⟨fuel - 1, by omega⟩
  obtain ⟨m₁, hm₁, hstored⟩ := @itoaAt_eq radix hlo hhi value buf m fuel (by omega)
  obtain ⟨m₂, hm₂, hwithin⟩ := @hexConversion_eq true value m fuel (by omega)
  constructor
  · refine ⟨itoa value radix, m₁, hm₁, canonicalText_itoa hlo hhi value,
      fun t' h => h.eq_itoa hlo, ?_, hstored⟩
    exact Nat.succ_le_succ (length_itoa_le hlo (by decide) (value_lt_pow hlo value))
  · refine ⟨hexText true value, m₂, hm₂, eightHexDigits_hexText value, hwithin, ?_⟩
    intro format pos args turns esp hpercent hsharp hx hword
    rw [printfLoop_hex hpercent hsharp hx, hword]

/-- The number 14: "112" to base 3, and "0000000E" from `%#x`. -/
theorem number_formatting_fourteen :
    (∃ m', itoaAt 33 14 0 3 ⟨fun _ => 0xFF, []⟩ = some m' ∧
      StoresText 0 [0x31, 0x31, 0x32] ⟨fun _ => 0xFF, []⟩ m') ∧
    ∃ m', hexConversion 33 true 14 ⟨fun _ => 0xFF, []⟩ =
      some ([0x30, 0x30, 0x30, 0x30, 0x30, 0x30, 0x30, 0x45], m') := by
  obtain ⟨⟨t, m', hm', -, honly, -, hstored⟩, t₂, m₂, hm₂, -⟩ :=
    number_formatting 14 3 (by decide) (by decide) 0 ⟨fun _ => 0xFF, []⟩ 33 (by decide)
  have hthree : CanonicalText 3 14 [0x31, 0x31, 0x32] :=
    ⟨[1, 1, 2], by decide, by decide, by decide, by decide, by decide⟩
  have hhex : (hexConversion 33 true 14 ⟨fun _ => 0xFF, []⟩).map Prod.fst =
      some [0x30, 0x30, 0x30, 0x30, 0x30, 0x30, 0x30, 0x45] := by
    decide +kernel
  rw [hm₂, Option.map_some, Option.some_inj] at hhex
  refine ⟨⟨m', hm', ?_⟩, m₂, ?_⟩
  · rw [honly _ hthree]
    exact hstored
  · rw [hm₂, ← hhex]

end Kernel391
