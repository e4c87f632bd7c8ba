import Kernel391.Lib.Assembly
import Kernel391.ScreenMemory
import Kernel391.Terminal

/-!
# The memory routines of `lib.c`

`memset`, `memset_word`, `memset_dword`, `memcpy` and `memmove` are inline assembly.  `memset` and
`memcpy` take single bytes up to an aligned address, whole words from there, and single bytes for
the rest; `memmove` copies bytes in the direction in which no source byte is overwritten too
early.  The listings follow the source line by line, and each routine is shown to do what the
plain byte operation on memory does.
-/

namespace Kernel391

open Machine

/-! ## Listings -/

inductive StringLabel where
  | top | aligned | bottom | done
deriving DecidableEq

-- `.memset_top`
def memsetHead : List (Line StringLabel) :=
  [.op (.testl (.reg .ecx) (.reg .ecx)),
    .jcc .z .done,
    .op (.testl (.imm 3) (.reg .edi)),
    .jcc .z .aligned,
    .op (.movb (.reg .eax) (.mem 0 .edi)),
    .op (.addl (.imm 1) (.reg .edi)),
    .op (.subl (.imm 1) (.reg .ecx)),
    .jmp .top]

-- `.memset_aligned`
def memsetWords : List (Line StringLabel) :=
  [.op (.movSegReg .ds .edx),
    .op (.movRegSeg .edx .es),
    .op (.movl (.reg .ecx) (.reg .edx)),
    .op (.shrl 2 (.reg .ecx)),
    .op (.andl (.imm 3) (.reg .edx)),
    .op .cld,
    .op (.rep .stosl)]

-- `.memset_bottom`
def memsetTail : List (Line StringLabel) :=
  [.op (.testl (.reg .edx) (.reg .edx)),
    .jcc .z .done,
    .op (.movb (.reg .eax) (.mem 0 .edi)),
    .op (.addl (.imm 1) (.reg .edi)),
    .op (.subl (.imm 1) (.reg .edx)),
    .jmp .bottom]

def memsetCode : List (Line StringLabel) :=
  .label .top :: memsetHead ++ .label .aligned :: memsetWords ++ .label .bottom :: memsetTail ++
    [.label .done]

-- `memset_word` and `memset_dword` differ in the string instruction.
def stosCode (op : StringOp) : List (Line StringLabel) :=
  [.op (.movSegReg .ds .edx),
    .op (.movRegSeg .edx .es),
    .op .cld,
    .op (.rep op)]

def memsetWordCode : List (Line StringLabel) := stosCode .stosw

def memsetDwordCode : List (Line StringLabel) := stosCode .stosl

-- `.memcpy_top`
def memcpyHead : List (Line StringLabel) :=
  [.op (.testl (.reg .ecx) (.reg .ecx)),
    .jcc .z .done,
    .op (.testl (.imm 3) (.reg .edi)),
    .jcc .z .aligned,
    .op (.movb (.mem 0 .esi) (.reg .eax)),
    .op (.movb (.reg .eax) (.mem 0 .edi)),
    .op (.addl (.imm 1) (.reg .edi)),
    .op (.addl (.imm 1) (.reg .esi)),
    .op (.subl (.imm 1) (.reg .ecx)),
    .jmp .top]

-- `.memcpy_aligned`
def memcpyWords : List (Line StringLabel) :=
  [.op (.movSegReg .ds .edx),
    .op (.movRegSeg .edx .es),
    .op (.movl (.reg .ecx) (.reg .edx)),
    .op (.shrl 2 (.reg .ecx)),
    .op (.andl (.imm 3) (.reg .edx)),
    .op .cld,
    .op (.rep .movsl)]

-- `.memcpy_bottom`
def memcpyTail : List (Line StringLabel) :=
  [.op (.testl (.reg .edx) (.reg .edx)),
    .jcc .z .done,
    .op (.movb (.mem 0 .esi) (.reg .eax)),
    .op (.movb (.reg .eax) (.mem 0 .edi)),
    .op (.addl (.imm 1) (.reg .edi)),
    .op (.addl (.imm 1) (.reg .esi)),
    .op (.subl (.imm 1) (.reg .edx)),
    .jmp .bottom]

def memcpyCode : List (Line StringLabel) :=
  .label .top :: memcpyHead ++ .label .aligned :: memcpyWords ++ .label .bottom :: memcpyTail ++
    [.label .done]

inductive MoveLabel where
  | go
deriving DecidableEq

def memmoveHead : List (Line MoveLabel) :=
  [.op (.movSegReg .ds .edx),
    .op (.movRegSeg .edx .es),
    .op .cld,
    .op (.cmpl (.reg .edi) (.reg .esi)),
    .jcc .ae .go,
    .op (.leal (-1) .esi .ecx .esi),
    .op (.leal (-1) .edi .ecx .edi),
    .op .std]

def memmoveCode : List (Line MoveLabel) := memmoveHead ++ [.label .go, .op (.rep .movsb)]

/-! ## Transfers in progress -/

/-- The first `i` bytes of a write from `a` on are in place and the next one goes to `edi`. -/
structure Writing (m : Ram) (a : BitVec 32) (f : Nat → UInt8) (i : Nat) (s : Cpu) : Prop where
  next : s.reg .edi = a + BitVec.ofNat 32 i
  mem : s.mem = m.storeBytes a i f

namespace Writing

variable {m : Ram} {a : BitVec 32} {f : Nat → UInt8} {i : Nat} {s t : Cpu}

theorem congr (h : Writing m a f i s) (hedi : t.reg .edi = s.reg .edi) (hmem : t.mem = s.mem) :
    Writing m a f i t :=
  ⟨hedi.trans h.next, hmem.trans h.mem⟩

theorem start (hedi : s.reg .edi = a) (hmem : s.mem = m) : Writing m a f 0 s :=
  ⟨by rw [hedi, show a + BitVec.ofNat 32 0 = a from BitVec.add_zero a],
    by rw [Ram.storeBytes_zero, hmem]⟩

/-- The next `w` bytes, however they are stored. -/
theorem store (h : Writing m a f i s) {w : Nat} {g : Nat → UInt8} (hiw : i + w ≤ 2 ^ 32)
    (hg : ∀ k < w, g k = f (i + k)) (hedi : t.reg .edi = s.reg .edi + BitVec.ofNat 32 w)
    (hmem : t.mem = s.mem.storeBytes (s.reg .edi) w g) : Writing m a f (i + w) t := by
  constructor
  · rw [hedi, h.next, BitVec.add_assoc, ← BitVec.ofNat_add]
  · rw [hmem, h.mem, h.next, Ram.storeBytes_storeBytes m a hiw]
    apply Ram.storeBytes_congr
    intro k hk
    split
    · rfl
    · rw [hg _ (by omega)]
      congr 1
      omega

/-- `rep stosw` and `rep stosl` going upwards. -/
theorem stos (h : Writing m a f i s) {op : StringOp} (hop : op.movesSource = false)
    (hdir : s.flag .direction = false) {k : Nat} (hk : i + op.width * k ≤ 2 ^ 32)
    (hf : ∀ n < k, ∀ j < op.width, Ram.byteOf (s.reg .eax) j = f (i + op.width * n + j)) :
    Writing m a f (i + op.width * k) (op.once^[k] s) ∧
      (op.once^[k] s).flag .direction = false ∧ (op.once^[k] s).reg .eax = s.reg .eax ∧
      (op.once^[k] s).reg .edx = s.reg .edx := by
  induction k with
  | zero => exact ⟨h, hdir, rfl, rfl⟩
  | succ k ih =>
    rw [Nat.mul_succ] at hk
    obtain ⟨hwrite, hd, heax, hedx⟩ := ih (by omega) fun n hn => hf n (by omega)
    rw [Function.iterate_succ_apply']
    generalize op.once^[k] s = u at hwrite hd heax hedx ⊢
    have honce : op.once u = (({ u with mem := op.transfer u }.set .edi
        (u.reg .edi + op.stride u)).set .ecx (u.reg .ecx - 1)) := by
      rw [StringOp.once, hop]
      rfl
    have hstore : op.transfer u = u.mem.storeBytes (u.reg .edi) op.width (Ram.byteOf (u.reg .eax)) := by
      cases op <;> first | rfl | cases hop
    rw [honce]
    refine ⟨?_, hd, heax, hedx⟩
    rw [Nat.mul_succ, ← Nat.add_assoc]
    apply hwrite.store (by omega) (fun j hj => heax ▸ hf k (Nat.lt_succ_self k) j hj) _ hstore
    show u.reg .edi + op.stride u = _
    rw [StringOp.stride, hd]
    rfl

end Writing

/-- A counter that has not run out. -/
theorem ofNat_succ_ne_zero {k : Nat} (hk : k + 1 < 2 ^ 32) : BitVec.ofNat 32 (k + 1) ≠ 0 := by
  intro h
  have htoNat := congrArg BitVec.toNat h
  rw [BitVec.toNat_ofNat, Nat.mod_eq_of_lt hk] at htoNat
  exact absurd htoNat (by simp)

theorem ofNat_succ_sub_one (k : Nat) : BitVec.ofNat 32 (k + 1) - 1#32 = BitVec.ofNat 32 k := by
  rw [BitVec.ofNat_add]
  exact BitVec.add_sub_cancel _ _

-- A count splits into whole words and a rest.
theorem ofNat_shiftRight_two {k : Nat} (hk : k < 2 ^ 32) :
    (BitVec.ofNat 32 k >>> 2).toNat = k / 4 := by
  rw [BitVec.toNat_ushiftRight, BitVec.toNat_ofNat, Nat.mod_eq_of_lt hk, Nat.shiftRight_eq_div_pow]

theorem ofNat_and_three (k : Nat) : BitVec.ofNat 32 k &&& 3 = BitVec.ofNat 32 (k % 4) := by
  apply BitVec.eq_of_toNat_eq
  rw [BitVec.toNat_and, BitVec.toNat_ofNat, BitVec.toNat_ofNat]
  show k % 2 ^ 32 &&& (2 ^ 2 - 1) = _
  rw [Nat.and_two_pow_sub_one_eq_mod]
  omega

/-! ## `memset` -/

/-- `memset` at work: `eax` holds the byte four times. -/
structure Filling (m : Ram) (a : BitVec 32) (b : UInt8) (i : Nat) (s : Cpu) : Prop
    extends Writing m a (fun _ => b) i s where
  bytes : ∀ j < 4, Ram.byteOf (s.reg .eax) j = b

namespace Filling

variable {m : Ram} {a : BitVec 32} {b : UInt8} {i : Nat} {s t : Cpu}

theorem congr (h : Filling m a b i s) (hedi : t.reg .edi = s.reg .edi)
    (heax : t.reg .eax = s.reg .eax) (hmem : t.mem = s.mem) : Filling m a b i t :=
  ⟨h.toWriting.congr hedi hmem, heax ▸ h.bytes⟩

theorem byte (h : Filling m a b i s) (hi : i + 1 ≤ 2 ^ 32) :
    Filling m a b (i + 1)
      ((Op.addl (.imm 1) (.reg .edi)).exec ((Op.movb (.reg .eax) (.mem 0 .edi)).exec s)) := by
  have hstore : s.mem.store8 (s.reg .edi + 0#32) (Ram.byteOf (s.reg .eax) 0) =
      s.mem.storeBytes (s.reg .edi) 1 fun _ => b := by
    rw [BitVec.add_zero, h.bytes 0 (by decide)]
    rfl
  exact ⟨h.toWriting.store hi (fun _ _ => rfl) rfl hstore, h.bytes⟩

theorem stosl (h : Filling m a b i s) (hdir : s.flag .direction = false) {k : Nat}
    (hk : i + 4 * k ≤ 2 ^ 32) :
    Filling m a b (i + 4 * k) (StringOp.stosl.once^[k] s) ∧
      (StringOp.stosl.once^[k] s).reg .edx = s.reg .edx := by
  have hrep := @Writing.stos _ _ _ _ _ h.toWriting .stosl rfl hdir k hk fun _ _ j hj => h.bytes j hj
  exact ⟨⟨hrep.1, hrep.2.2.1 ▸ h.bytes⟩, hrep.2.2.2⟩

end Filling

section

variable {env : Env} {m : Ram} {a : BitVec 32} {b : UInt8} {i : Nat} {s : Cpu}

theorem after_memset_top :
    after memsetCode .top = memsetHead ++ .label .aligned :: after memsetCode .aligned := rfl

theorem after_memset_aligned :
    after memsetCode .aligned = memsetWords ++ .label .bottom :: after memsetCode .bottom := rfl

theorem after_memset_bottom : after memsetCode .bottom = memsetTail ++ [.label .done] := rfl

theorem after_memset_done : after memsetCode .done = [] := rfl

theorem wp_memsetTail {k : Nat} (hik : i + k < 2 ^ 32) (h : Filling m a b i s)
    (hcount : s.reg .edx = BitVec.ofNat 32 k) :
    Wp env memsetCode (after memsetCode .bottom) s (Filling m a b (i + k)) := by
  induction k generalizing i s with
  | zero =>
    simp only [after_memset_bottom, memsetTail, List.cons_append, wp_op, wp_jcc, Cond.holds,
      Op.testl_zero, Operand.read, hcount]
    rw [if_pos (by decide), after_memset_done]
    exact wp_nil.mpr (h.congr (by simp) (by simp) (by simp))
  | succ k ih =>
    have hne : BitVec.ofNat 32 (k + 1) ≠ 0 := ofNat_succ_ne_zero (by omega)
    rw [after_memset_bottom]
    simp only [memsetTail, List.cons_append, wp_op, wp_jcc, wp_jmp, Cond.holds, Op.testl_zero,
      Operand.read, hcount, BitVec.and_self, beq_eq_false_iff_ne.mpr hne, Bool.false_eq_true,
      if_false]
    generalize hu : (Op.testl (.reg .edx) (.reg .edx)).exec s = u
    have hfill : Filling m a b i u := by
      rw [← hu]
      exact h.congr (by simp) (by simp) (by simp)
    have hedx : u.reg .edx = BitVec.ofNat 32 (k + 1) := hu ▸ hcount
    rw [show i + (k + 1) = i + 1 + k by omega]
    apply ih (by omega)
    · exact (hfill.byte (by omega)).congr (by simp) (by simp) (by simp)
    · simp [Operand.read, hedx, ofNat_succ_sub_one]

theorem wp_memsetWords {k : Nat} (hik : i + k < 2 ^ 32) (h : Filling m a b i s)
    (hcount : s.reg .ecx = BitVec.ofNat 32 k) :
    Wp env memsetCode (after memsetCode .aligned) s (Filling m a b (i + k)) := by
  rw [after_memset_aligned]
  simp only [memsetWords, List.cons_append, List.nil_append, wp_op, wp_label]
  -- the state in front of `rep stosl`
  generalize hu : (Op.cld.exec _ : Cpu) = u
  have hfill : Filling m a b i u := by
    rw [← hu]
    exact h.congr (by simp) (by simp) (by simp)
  have hdir : u.flag .direction = false := hu ▸ Op.cld_direction _
  have hecx : (u.reg .ecx).toNat = k / 4 := by
    rw [← hu, ← ofNat_shiftRight_two (show k < 2 ^ 32 by omega), ← hcount]
    rfl
  have hedx : u.reg .edx = BitVec.ofNat 32 (k % 4) := by
    rw [← hu, ← ofNat_and_three, ← hcount]
    rfl
  obtain ⟨hstored, hkeep⟩ := hfill.stosl hdir (k := k / 4) (by omega)
  have htail : Wp env memsetCode _ _ _ := wp_memsetTail (by omega) hstored (hkeep.trans hedx)
  rw [show i + 4 * (k / 4) + k % 4 = i + k by omega] at htail
  show Wp env memsetCode _ (StringOp.stosl.once^[(u.reg .ecx).toNat] u) _
  rw [hecx]
  exact htail

theorem wp_memsetHead {k : Nat} (hik : i + k < 2 ^ 32) (h : Filling m a b i s)
    (hcount : s.reg .ecx = BitVec.ofNat 32 k) :
    Wp env memsetCode (after memsetCode .top) s (Filling m a b (i + k)) := by
  induction k generalizing i s with
  | zero =>
    simp only [after_memset_top, memsetHead, List.cons_append, wp_op, wp_jcc, Cond.holds,
      Op.testl_zero, Operand.read, hcount]
    rw [if_pos (by decide), after_memset_done]
    exact wp_nil.mpr (h.congr (by simp) (by simp) (by simp))
  | succ k ih =>
    have hne : BitVec.ofNat 32 (k + 1) ≠ 0 := ofNat_succ_ne_zero (by omega)
    rw [after_memset_top]
    simp only [memsetHead, List.cons_append, wp_op, wp_jcc, wp_jmp, Cond.holds, Op.testl_zero,
      Operand.read, hcount, BitVec.and_self, beq_eq_false_iff_ne.mpr hne, Bool.false_eq_true,
      if_false]
    generalize hu : (Op.testl (.imm 3) (.reg .edi)).exec _ = u
    have hfill : Filling m a b i u := by
      rw [← hu]
      exact h.congr (by simp) (by simp) (by simp)
    have hecx : u.reg .ecx = BitVec.ofNat 32 (k + 1) := hu ▸ hcount
    split
    · exact wp_memsetWords hik hfill hecx
    · rw [show i + (k + 1) = i + 1 + k by omega]
      apply ih (by omega)
      · exact (hfill.byte (by omega)).congr (by simp) (by simp) (by simp)
      · simp [Operand.read, hecx, ofNat_succ_sub_one]

end

/-- The value `memset` loads into `eax`: the low byte of `c` four times. -/
def memsetPattern (c : BitVec 32) : BitVec 32 :=
  let c := c &&& 0xFF
  c <<< 24 ||| c <<< 16 ||| c <<< 8 ||| c

theorem byteOf_memsetPattern (c : BitVec 32) {j : Nat} (hj : j < 4) :
    Ram.byteOf (memsetPattern c) j = Ram.byteOf c 0 := by
  have hbits : (Ram.byteOf (memsetPattern c) j).toBitVec = (Ram.byteOf c 0).toBitVec := by
    apply BitVec.eq_of_getLsbD_eq
    intro i hi
    have hcases : j = 0 ∨ j = 1 ∨ j = 2 ∨ j = 3 := by omega
    have hmask : ∀ k, (0xFF : BitVec 32).getLsbD k = decide (k < 8) := by
      intro k
      have h : (0xFF : BitVec 32) = (BitVec.allOnes 8).setWidth 32 := by decide
      rw [h, BitVec.getLsbD_setWidth, BitVec.getLsbD_allOnes]
      grind
    simp only [Ram.byteOf, memsetPattern, BitVec.getLsbD_extractLsb', BitVec.getLsbD_or,
      BitVec.getLsbD_shiftLeft, BitVec.getLsbD_and, hmask]
    rcases hcases with rfl | rfl | rfl | rfl <;> grind
  exact UInt8.toBitVec_inj.mp hbits

/-- `memset` for every address, value and count. -/
theorem memset_wp {env : Env} {s : Cpu} {c : BitVec 32} (heax : s.reg .eax = memsetPattern c) :
    Wp env memsetCode memsetCode s fun t =>
      t.mem = s.mem.fill (s.reg .edi) (s.reg .ecx).toNat (Ram.byteOf c 0) := by
  have hlt := (s.reg .ecx).isLt
  have hstart : Filling s.mem (s.reg .edi) (Ram.byteOf c 0) 0 s :=
    ⟨Writing.start rfl rfl, fun j hj => heax ▸ byteOf_memsetPattern c hj⟩
  have hrun : Wp env memsetCode (after memsetCode .top) s _ :=
    wp_memsetHead (k := (s.reg .ecx).toNat) (by omega) hstart
      (by rw [BitVec.ofNat_toNat, BitVec.setWidth_eq])
  rw [Nat.zero_add] at hrun
  exact (wp_label _).mpr (hrun.mono fun t ht => ht.mem)

/-! ## `memset_word` and `memset_dword` -/

/-- The bytes of `c` over and over, `w` of them at a time. -/
def pattern (w : Nat) (c : BitVec 32) (k : Nat) : UInt8 := Ram.byteOf c (k % w)

theorem stosCode_wp {env : Env} {s : Cpu} {op : StringOp} (hop : op.movesSource = false)
    (hn : op.width * (s.reg .ecx).toNat ≤ 2 ^ 32) :
    Wp env (stosCode op) (stosCode op) s fun t =>
      t.mem = s.mem.storeBytes (s.reg .edi) (op.width * (s.reg .ecx).toNat)
        (pattern op.width (s.reg .eax)) := by
  simp only [stosCode, wp_op, wp_nil]
  generalize hu : (Op.cld.exec _ : Cpu) = u
  have hdir : u.flag .direction = false := hu ▸ Op.cld_direction _
  have hstart : Writing s.mem (s.reg .edi) (pattern op.width (s.reg .eax)) 0 u := by
    rw [← hu]
    exact Writing.start (by simp) (by simp)
  have hecx : u.reg .ecx = s.reg .ecx := by
    rw [← hu]
    simp
  have heax : u.reg .eax = s.reg .eax := by
    rw [← hu]
    simp
  have hrep := @Writing.stos _ _ _ _ _ hstart op hop hdir (s.reg .ecx).toNat (by omega) (by
    intro n _ j hj
    rw [heax, pattern, Nat.zero_add, Nat.mul_add_mod, Nat.mod_eq_of_lt hj])
  rw [Nat.zero_add] at hrep
  show (op.once^[(u.reg .ecx).toNat] u).mem = _
  rw [hecx]
  exact hrep.1.mem

/-! ## `memcpy` -/

/-- A copy at work: `i` bytes are in place, and the next one is read at `esi`. -/
structure Copying (m : Ram) (dst src : BitVec 32) (i : Nat) (s : Cpu) : Prop
    extends Writing m dst (fun k => m (src + BitVec.ofNat 32 k)) i s where
  source : s.reg .esi = src + BitVec.ofNat 32 i

namespace Copying

variable {m : Ram} {dst src : BitVec 32} {n i : Nat} {s t : Cpu}

theorem congr (h : Copying m dst src i s) (hedi : t.reg .edi = s.reg .edi)
    (hesi : t.reg .esi = s.reg .esi) (hmem : t.mem = s.mem) : Copying m dst src i t :=
  ⟨h.toWriting.congr hedi hmem, hesi.trans h.source⟩

/-- Bytes of the source that are still to be copied are as they were. -/
theorem read (h : Copying m dst src i s) (hasc : Ram.Ascending dst src n) (hn : n ≤ 2 ^ 32) {k : Nat}
    (hk : i + k < n) :
    s.mem (s.reg .esi + BitVec.ofNat 32 k) = m (src + BitVec.ofNat 32 (i + k)) := by
  rw [h.mem, h.source, BitVec.add_assoc, ← BitVec.ofNat_add]
  exact Ram.copy_apply_source hasc (Nat.le_add_right i k) hk hn m

theorem store (h : Copying m dst src i s) (hasc : Ram.Ascending dst src n) (hn : n ≤ 2 ^ 32) {w : Nat}
    (hiw : i + w ≤ n) (hedi : t.reg .edi = s.reg .edi + BitVec.ofNat 32 w)
    (hesi : t.reg .esi = s.reg .esi + BitVec.ofNat 32 w)
    (hmem : t.mem = s.mem.storeBytes (s.reg .edi) w
      fun k => s.mem (s.reg .esi + BitVec.ofNat 32 k)) :
    Copying m dst src (i + w) t := by
  constructor
  · exact h.toWriting.store (by omega) (fun k hk => h.read hasc hn (by omega)) hedi hmem
  · rw [hesi, h.source, BitVec.add_assoc, ← BitVec.ofNat_add]

theorem byteOf_lowByte_set (b : UInt8) (w : BitVec 32) :
    Ram.byteOf (Operand.lowByte.set b.toBitVec w) 0 = b := by
  apply UInt8.toBitVec_inj.mp
  exact Field.get_set Operand.lowByte b.toBitVec w

theorem byte (h : Copying m dst src i s) (hasc : Ram.Ascending dst src n) (hn : n ≤ 2 ^ 32)
    (hi : i < n) :
    Copying m dst src (i + 1)
      ((Op.addl (.imm 1) (.reg .esi)).exec ((Op.addl (.imm 1) (.reg .edi)).exec
        ((Op.movb (.reg .eax) (.mem 0 .edi)).exec ((Op.movb (.mem 0 .esi) (.reg .eax)).exec s)))) := by
  apply h.store hasc hn hi
  · simp [Operand.read]
  · simp [Operand.read]
  · simp only [Op.addl_mem, Op.movb_mem_mem, Op.movb_reg_mem, Op.movb_reg_reg, Operand.readByte,
      byteOf_lowByte_set, if_true]
    rw [if_neg (by decide)]
    show s.mem.storeBytes (s.reg .edi + 0#32) 1 (fun _ => s.mem (s.reg .esi + 0#32)) = _
    rw [BitVec.add_zero]
    apply Ram.storeBytes_congr
    intro k hk
    rw [show k = 0 by omega]

theorem transfer_eq {op : StringOp} (hop : op.movesSource = true) (s : Cpu) :
    op.transfer s =
      s.mem.storeBytes (s.reg .edi) op.width fun k => s.mem (s.reg .esi + BitVec.ofNat 32 k) := by
  cases op with
  | movsb =>
    show s.mem.store8 (s.reg .edi) (s.mem (s.reg .esi)) = _
    unfold Ram.store8
    apply Ram.storeBytes_congr
    intro k hk
    rw [show k = 0 by omega, show s.reg .esi + BitVec.ofNat 32 0 = _ from BitVec.add_zero _]
  | movsl => exact Ram.storeBytes_congr _ _ fun k hk => Ram.byteOf_load32 s.mem (s.reg .esi) hk
  | stosw => cases hop
  | stosl => cases hop

/-- `rep movsb` and `rep movsl` going upwards. -/
theorem movs (h : Copying m dst src i s) (hasc : Ram.Ascending dst src n) (hn : n ≤ 2 ^ 32)
    {op : StringOp} (hop : op.movesSource = true) (hdir : s.flag .direction = false) {k : Nat}
    (hk : i + op.width * k ≤ n) :
    Copying m dst src (i + op.width * k) (op.once^[k] s) ∧
      (op.once^[k] s).flag .direction = false ∧ (op.once^[k] s).reg .edx = s.reg .edx := by
  induction k with
  | zero => exact ⟨h, hdir, rfl⟩
  | succ k ih =>
    rw [Nat.mul_succ] at hk
    obtain ⟨hcopy, hd, hedx⟩ := ih (by omega)
    rw [Function.iterate_succ_apply']
    generalize op.once^[k] s = u at hcopy hd hedx ⊢
    have honce : op.once u = ((({ u with mem := op.transfer u }.set .esi
        (u.reg .esi + op.stride u)).set .edi (u.reg .edi + op.stride u)).set .ecx
          (u.reg .ecx - 1)) := by
      rw [StringOp.once, hop]
      rfl
    have hstride : op.stride u = BitVec.ofNat 32 op.width := by
      rw [StringOp.stride, hd]
      rfl
    rw [honce, hstride]
    refine ⟨?_, hd, hedx⟩
    rw [Nat.mul_succ, ← Nat.add_assoc]
    exact hcopy.store hasc hn (by omega) rfl rfl (transfer_eq hop u)

end Copying

section

variable {env : Env} {m : Ram} {dst src : BitVec 32} {n i : Nat} {s : Cpu}

theorem after_memcpy_top :
    after memcpyCode .top = memcpyHead ++ .label .aligned :: after memcpyCode .aligned := rfl

theorem after_memcpy_aligned :
    after memcpyCode .aligned = memcpyWords ++ .label .bottom :: after memcpyCode .bottom := rfl

theorem after_memcpy_bottom : after memcpyCode .bottom = memcpyTail ++ [.label .done] := rfl

theorem after_memcpy_done : after memcpyCode .done = [] := rfl

theorem wp_memcpyTail {k : Nat} (hasc : Ram.Ascending dst src n) (hn : n < 2 ^ 32)
    (hik : i + k = n) (h : Copying m dst src i s) (hcount : s.reg .edx = BitVec.ofNat 32 k) :
    Wp env memcpyCode (after memcpyCode .bottom) s (Copying m dst src n) := by
  induction k generalizing i s with
  | zero =>
    simp only [after_memcpy_bottom, memcpyTail, List.cons_append, wp_op, wp_jcc, Cond.holds,
      Op.testl_zero, Operand.read, hcount]
    rw [if_pos (by decide), after_memcpy_done, ← hik]
    exact wp_nil.mpr (h.congr (by simp) (by simp) (by simp))
  | succ k ih =>
    have hne : BitVec.ofNat 32 (k + 1) ≠ 0 := ofNat_succ_ne_zero (by omega)
    rw [after_memcpy_bottom]
    simp only [memcpyTail, List.cons_append, wp_op, wp_jcc, wp_jmp, Cond.holds, Op.testl_zero,
      Operand.read, hcount, BitVec.and_self, beq_eq_false_iff_ne.mpr hne, Bool.false_eq_true,
      if_false]
    generalize hu : (Op.testl (.reg .edx) (.reg .edx)).exec s = u
    have hcopy : Copying m dst src i u := by
      rw [← hu]
      exact h.congr (by simp) (by simp) (by simp)
    have hedx : u.reg .edx = BitVec.ofNat 32 (k + 1) := hu ▸ hcount
    apply ih (show i + 1 + k = n by omega)
    · exact (hcopy.byte hasc (by omega) (by omega)).congr (by simp) (by simp) (by simp)
    · simp [Operand.read, hedx, ofNat_succ_sub_one]

theorem wp_memcpyWords {k : Nat} (hasc : Ram.Ascending dst src n) (hn : n < 2 ^ 32)
    (hik : i + k = n) (h : Copying m dst src i s) (hcount : s.reg .ecx = BitVec.ofNat 32 k) :
    Wp env memcpyCode (after memcpyCode .aligned) s (Copying m dst src n) := by
  rw [after_memcpy_aligned]
  simp only [memcpyWords, List.cons_append, List.nil_append, wp_op, wp_label]
  -- the state in front of `rep movsl`
  generalize hu : (Op.cld.exec _ : Cpu) = u
  have hcopy : Copying m dst src i u := by
    rw [← hu]
    exact h.congr (by simp) (by simp) (by simp)
  have hdir : u.flag .direction = false := hu ▸ Op.cld_direction _
  have hecx : (u.reg .ecx).toNat = k / 4 := by
    rw [← hu, ← ofNat_shiftRight_two (show k < 2 ^ 32 by omega), ← hcount]
    rfl
  have hedx : u.reg .edx = BitVec.ofNat 32 (k % 4) := by
    rw [← hu, ← ofNat_and_three, ← hcount]
    rfl
  obtain ⟨hmoved, -, hkeep⟩ :=
    @Copying.movs _ _ _ _ _ _ hcopy hasc (by omega) .movsl rfl hdir (k / 4) (show i + 4 * (k / 4) ≤ n by omega)
  show Wp env memcpyCode _ (StringOp.movsl.once^[(u.reg .ecx).toNat] u) _
  rw [hecx]
  exact wp_memcpyTail hasc hn (show i + 4 * (k / 4) + k % 4 = n by omega) hmoved (hkeep.trans hedx)

theorem wp_memcpyHead {k : Nat} (hasc : Ram.Ascending dst src n) (hn : n < 2 ^ 32)
    (hik : i + k = n) (h : Copying m dst src i s) (hcount : s.reg .ecx = BitVec.ofNat 32 k) :
    Wp env memcpyCode (after memcpyCode .top) s (Copying m dst src n) := by
  induction k generalizing i s with
  | zero =>
    simp only [after_memcpy_top, memcpyHead, List.cons_append, wp_op, wp_jcc, Cond.holds,
      Op.testl_zero, Operand.read, hcount]
    rw [if_pos (by decide), after_memcpy_done, ← hik]
    exact wp_nil.mpr (h.congr (by simp) (by simp) (by simp))
  | succ k ih =>
    have hne : BitVec.ofNat 32 (k + 1) ≠ 0 := ofNat_succ_ne_zero (by omega)
    rw [after_memcpy_top]
    simp only [memcpyHead, List.cons_append, wp_op, wp_jcc, wp_jmp, Cond.holds, Op.testl_zero,
      Operand.read, hcount, BitVec.and_self, beq_eq_false_iff_ne.mpr hne, Bool.false_eq_true,
      if_false]
    generalize hu : (Op.testl (.imm 3) (.reg .edi)).exec _ = u
    have hcopy : Copying m dst src i u := by
      rw [← hu]
      exact h.congr (by simp) (by simp) (by simp)
    have hecx : u.reg .ecx = BitVec.ofNat 32 (k + 1) := hu ▸ hcount
    split
    · exact wp_memcpyWords hasc hn hik hcopy hecx
    · apply ih (show i + 1 + k = n by omega)
      · exact (hcopy.byte hasc (by omega) (by omega)).congr (by simp) (by simp) (by simp)
      · simp [Operand.read, hecx, ofNat_succ_sub_one]

end

/-- `memcpy` when the destination does not begin inside the source. -/
theorem memcpy_wp {env : Env} {s : Cpu}
    (hasc : Ram.Ascending (s.reg .edi) (s.reg .esi) (s.reg .ecx).toNat) :
    Wp env memcpyCode memcpyCode s fun t =>
      t.mem = s.mem.copy (s.reg .edi) (s.reg .esi) (s.reg .ecx).toNat := by
  have hstart : Copying s.mem (s.reg .edi) (s.reg .esi) 0 s :=
    ⟨Writing.start rfl rfl, (BitVec.add_zero _).symm⟩
  have hrun : Wp env memcpyCode (after memcpyCode .top) s _ :=
    wp_memcpyHead hasc (s.reg .ecx).isLt (Nat.zero_add _) hstart
      (by rw [BitVec.ofNat_toNat, BitVec.setWidth_eq])
  exact (wp_label _).mpr (hrun.mono fun t ht => ht.mem)

/-! ## `memmove` -/

/-- A copy at work downwards: the last `k` of `n` bytes are in place. -/
structure CopyingDown (m : Ram) (dst src : BitVec 32) (n k : Nat) (s : Cpu) : Prop where
  dest : s.reg .edi + 1 = dst + BitVec.ofNat 32 (n - k)
  source : s.reg .esi + 1 = src + BitVec.ofNat 32 (n - k)
  mem : s.mem = m.copyDown dst src n k
  direction : s.flag .direction = true

namespace CopyingDown

variable {m : Ram} {dst src : BitVec 32} {n k : Nat} {s : Cpu}

-- one step down from an address behind the next byte
theorem pred_add {p q : BitVec 32} (hk : k < n) (h : p + 1 = q + BitVec.ofNat 32 (n - k)) :
    p = q + BitVec.ofNat 32 (n - (k + 1)) := by
  have hsplit : BitVec.ofNat 32 (n - k) = BitVec.ofNat 32 (n - (k + 1)) + 1 := by
    rw [show n - k = n - (k + 1) + 1 by omega, BitVec.ofNat_add]
    rfl
  rw [hsplit, ← BitVec.add_assoc] at h
  exact (BitVec.add_left_inj 1).mp h

theorem once (h : CopyingDown m dst src n k s) (hsrc : src.toNat < dst.toNat)
    (hend : dst.toNat + n ≤ 2 ^ 32) (hk : k < n) :
    CopyingDown m dst src n (k + 1) (StringOp.movsb.once s) := by
  have hstride : StringOp.movsb.stride s = -1 := by
    rw [StringOp.stride, h.direction]
    rfl
  have hdest := pred_add hk h.dest
  have hsource := pred_add hk h.source
  constructor
  · show s.reg .edi + StringOp.movsb.stride s + 1 = _
    rw [hstride, BitVec.add_assoc, hdest]
    exact BitVec.add_zero _
  · show s.reg .esi + StringOp.movsb.stride s + 1 = _
    rw [hstride, BitVec.add_assoc, hsource]
    exact BitVec.add_zero _
  · show s.mem.store8 (s.reg .edi) (s.mem (s.reg .esi)) = _
    rw [h.mem, hdest, hsource, Ram.copyDown_succ hsrc hend hk]
  · exact h.direction

theorem movsb (h : CopyingDown m dst src n 0 s) (hsrc : src.toNat < dst.toNat)
    (hend : dst.toNat + n ≤ 2 ^ 32) (hk : k ≤ n) :
    CopyingDown m dst src n k (StringOp.movsb.once^[k] s) := by
  induction k with
  | zero => exact h
  | succ k ih =>
    rw [Function.iterate_succ_apply']
    exact (ih (by omega)).once hsrc hend hk

end CopyingDown

-- A copy to a lower address may run upwards.
theorem ascending_of_le {dst src n : BitVec 32} (hle : dst.toNat ≤ src.toNat)
    (hsrc : src.toNat + n.toNat ≤ 2 ^ 32) : Ram.Ascending dst src n.toNat := by
  by_cases heq : dst = src
  · exact .inl heq
  · have hne : dst.toNat ≠ src.toNat := fun h => heq (BitVec.eq_of_toNat_eq h)
    right
    rw [BitVec.toNat_sub]
    omega

/-- `memmove` for every overlap.  The direction flag stays set after a copy downwards. -/
theorem memmove_wp {env : Env} {s : Cpu}
    (hsrc : (s.reg .esi).toNat + (s.reg .ecx).toNat ≤ 2 ^ 32)
    (hdst : (s.reg .edi).toNat + (s.reg .ecx).toNat ≤ 2 ^ 32) :
    Wp env memmoveCode memmoveCode s fun t =>
      t.mem = s.mem.copy (s.reg .edi) (s.reg .esi) (s.reg .ecx).toNat ∧
        t.flag .direction = decide ((s.reg .esi).toNat < (s.reg .edi).toNat) := by
  have hgo : after memmoveCode .go = [.op (.rep .movsb)] := rfl
  show Wp env memmoveCode (memmoveHead ++ .label .go :: after memmoveCode .go) s _
  simp only [memmoveHead, List.cons_append, List.nil_append, wp_op, wp_jcc, wp_label, Cond.holds,
    hgo, wp_nil]
  generalize hu : (Op.cmpl (.reg .edi) (.reg .esi)).exec _ = u
  have hedi : u.reg .edi = s.reg .edi := by simp [← hu]
  have hesi : u.reg .esi = s.reg .esi := by simp [← hu]
  have hecx : u.reg .ecx = s.reg .ecx := by simp [← hu]
  have hmem : u.mem = s.mem := by simp [← hu]
  have hdir : u.flag .direction = false := by simp [← hu]
  have hcarry : u.flag .carry = decide ((s.reg .esi).toNat < (s.reg .edi).toNat) := by
    simp [← hu, Operand.read, BitVec.usubOverflow]
  rw [hcarry]
  by_cases hlt : (s.reg .esi).toNat < (s.reg .edi).toNat
  · -- downwards, from the last byte
    rw [decide_eq_true hlt, if_neg (by decide)]
    generalize hv : Op.std.exec _ = v
    have hlast : ∀ p : BitVec 32, p + s.reg .ecx + -1 + 1 =
        p + BitVec.ofNat 32 ((s.reg .ecx).toNat - 0) := by
      intro p
      rw [Nat.sub_zero, BitVec.ofNat_toNat, BitVec.setWidth_eq, BitVec.add_assoc]
      exact BitVec.add_zero _
    have hstart : CopyingDown s.mem (s.reg .edi) (s.reg .esi) (s.reg .ecx).toNat 0 v := by
      rw [← hv]
      constructor
      · simpa [hedi, hecx] using hlast (s.reg .edi)
      · simpa [hesi, hecx] using hlast (s.reg .esi)
      · simpa using hmem
      · exact Op.std_direction _
    have hcount : v.reg .ecx = s.reg .ecx := by simp [← hv, hecx]
    have hdone := hstart.movsb hlt hdst (Nat.le_refl _)
    show (StringOp.movsb.once^[(v.reg .ecx).toNat] v).mem = _ ∧
      (StringOp.movsb.once^[(v.reg .ecx).toNat] v).flag .direction = _
    rw [hcount, hdone.mem, Ram.copyDown_self]
    exact ⟨rfl, hdone.direction⟩
  · rw [decide_eq_false hlt, if_pos (by decide)]
    have hstart : Copying s.mem (s.reg .edi) (s.reg .esi) 0 u :=
      ⟨Writing.start hedi hmem, hesi.trans (BitVec.add_zero _).symm⟩
    have hdone := @Copying.movs _ _ _ _ _ _ hstart (ascending_of_le (by omega) hsrc)
      (Nat.le_of_lt (s.reg .ecx).isLt) .movsb rfl hdir (s.reg .ecx).toNat (by
        show 0 + 1 * (s.reg .ecx).toNat ≤ _
        omega)
    have hall : 0 + StringOp.movsb.width * (s.reg .ecx).toNat = (s.reg .ecx).toNat := by
      show 0 + 1 * (s.reg .ecx).toNat = _
      omega
    rw [hall] at hdone
    show (StringOp.movsb.once^[(u.reg .ecx).toNat] u).mem = _ ∧
      (StringOp.movsb.once^[(u.reg .ecx).toNat] u).flag .direction = _
    rw [hecx]
    exact ⟨hdone.1.mem, hdone.2.1⟩

/-! ## Sequences of calls -/

inductive MemCall where
  | memset (s c n : BitVec 32)
  | memsetWord (s c n : BitVec 32)
  | memsetDword (s c n : BitVec 32)
  | memcpy (dest src n : BitVec 32)
  | memmove (dest src n : BitVec 32)

namespace MemCall

/-- The registers as the operand constraints of the inline assembly load them. -/
def enter : MemCall → Cpu → Cpu
  | memset s c n, cpu => ((cpu.set .eax (memsetPattern c)).set .edi s).set .ecx n
  | memsetWord s c n, cpu | memsetDword s c n, cpu => ((cpu.set .eax c).set .edi s).set .ecx n
  | memcpy dest src n, cpu | memmove dest src n, cpu =>
      ((cpu.set .edi dest).set .esi src).set .ecx n

/-- The call ends, and in a state with property `Q`. -/
def Returns (env : Env) (call : MemCall) (cpu : Cpu) (Q : Cpu → Prop) : Prop :=
  match call with
  | memset .. => Wp env memsetCode memsetCode (call.enter cpu) Q
  | memsetWord .. => Wp env memsetWordCode memsetWordCode (call.enter cpu) Q
  | memsetDword .. => Wp env memsetDwordCode memsetDwordCode (call.enter cpu) Q
  | memcpy .. => Wp env memcpyCode memcpyCode (call.enter cpu) Q
  | memmove .. => Wp env memmoveCode memmoveCode (call.enter cpu) Q

/-- What the call is for. -/
def effect (m : Ram) : MemCall → Ram
  | memset s c n => m.fill s n.toNat (Ram.byteOf c 0)
  | memsetWord s c n => m.storeBytes s (2 * n.toNat) (pattern 2 c)
  | memsetDword s c n => m.storeBytes s (4 * n.toNat) (pattern 4 c)
  | memcpy dest src n | memmove dest src n => m.copy dest src n.toNat

/-- The ranges a caller has to respect: a `memcpy` may overlap downwards, a `memmove` in any
way. -/
def Allowed : MemCall → Prop
  | memset .. => True
  | memsetWord _ _ n => 2 * n.toNat ≤ 2 ^ 32
  | memsetDword _ _ n => 4 * n.toNat ≤ 2 ^ 32
  | memcpy dest src n => Ram.Ascending dest src n.toNat
  | memmove dest src n => src.toNat + n.toNat ≤ 2 ^ 32 ∧ dest.toNat + n.toNat ≤ 2 ^ 32

theorem returns {env : Env} {call : MemCall} (h : call.Allowed) (cpu : Cpu) :
    call.Returns env cpu fun t => t.mem = call.effect cpu.mem := by
  cases call with
  | memset s c n => exact memset_wp rfl
  | memsetWord s c n => exact stosCode_wp rfl h
  | memsetDword s c n => exact stosCode_wp rfl h
  | memcpy dest src n => exact memcpy_wp h
  | memmove dest src n => exact (memmove_wp h.1 h.2).mono fun t ht => ht.1

/-- One call after the other.  Between two calls other code may use every register and flag but
stores nothing. -/
def ReturnsAll (env : Env) : List MemCall → Cpu → (Ram → Prop) → Prop
  | [], cpu, Q => Q cpu.mem
  | call :: calls, cpu, Q =>
      call.Returns env cpu fun t => ∀ t', t'.mem = t.mem → ReturnsAll env calls t' Q

theorem Returns.mono {env : Env} {call : MemCall} {cpu : Cpu} {P Q : Cpu → Prop}
    (h : call.Returns env cpu P) (hPQ : ∀ t, P t → Q t) : call.Returns env cpu Q := by
  cases call with
  | memset => exact Wp.mono h hPQ
  | memsetWord => exact Wp.mono h hPQ
  | memsetDword => exact Wp.mono h hPQ
  | memcpy => exact Wp.mono h hPQ
  | memmove => exact Wp.mono h hPQ

/-- Allowed calls reach every condition that the plain operations reach. -/
theorem ReturnsAll.of_effect {env : Env} {calls : List MemCall} {cpu : Cpu} {Q : Ram → Prop}
    (h : ∀ call ∈ calls, call.Allowed) (hQ : Q (calls.foldl effect cpu.mem)) :
    ReturnsAll env calls cpu Q := by
  induction calls generalizing cpu with
  | nil => exact hQ
  | cons call calls ih =>
    rw [List.forall_mem_cons] at h
    apply (returns h.1 cpu).mono
    intro t ht t' ht'
    -- the caller may change everything but memory before the next call
    apply ih h.2
    rw [ht', ht]
    exact hQ

/-- Every sequence of allowed calls ends and leaves in memory what the plain operations would,
whatever the direction flag and the alignment. -/
theorem sequence_refines (env : Env) (calls : List MemCall) (h : ∀ call ∈ calls, call.Allowed)
    (cpu : Cpu) : ReturnsAll env calls cpu fun m => m = calls.foldl effect cpu.mem :=
  ReturnsAll.of_effect h rfl

/-- A fill of seven bytes, moved up by one over itself, and five of them copied away. -/
theorem sequence_refines_overlapping :
    ReturnsAll (fun _ _ => none)
      [memset 0x1002 0x2AB 7, memmove 0x1003 0x1001 7, memcpy 0x1000 0x1001 5]
      ⟨fun _ => 0, fun _ => 0, 0, 0x400, fun _ => 0⟩
      fun m => m = [memset 0x1002 0x2AB 7, memmove 0x1003 0x1001 7, memcpy 0x1000 0x1001 5].foldl
        effect fun _ => 0 := by
  apply sequence_refines
  intro call hcall
  simp only [List.mem_cons, List.not_mem_nil, or_false] at hcall
  rcases hcall with rfl | rfl | rfl
  · trivial
  · exact ⟨by decide, by decide⟩
  · show Ram.Ascending _ _ _
    decide

end MemCall

/-! ## Page copies of a display switch -/

/-- A memory holds the bytes of the terminal model's video memory. -/
def MemoryHolds (m : Ram) (v : VideoBytes) : Prop :=
  ∀ a : Nat, a < 2 ^ 32 → v a = m (BitVec.ofNat 32 a)

theorem MemoryHolds.copy {m : Ram} {v : VideoBytes} (h : MemoryHolds m v) {dest src n : Nat}
    (hdest : dest + n ≤ 2 ^ 32) (hsrc : src + n < 2 ^ 32) (hdisj : dest + n ≤ src ∨ src + n ≤ dest) :
    MemoryHolds (m.copy (BitVec.ofNat 32 dest) (BitVec.ofNat 32 src) n) (v.memcpy dest src n) := by
  intro a ha
  have hoff : (BitVec.ofNat 32 a - BitVec.ofNat 32 dest).toNat = (a + (2 ^ 32 - dest)) % 2 ^ 32 := by
    rw [BitVec.toNat_sub, BitVec.toNat_ofNat, BitVec.toNat_ofNat]
    omega
  rw [VideoBytes.memcpy_apply (by omega)]
  unfold Ram.copy Ram.storeBytes
  rw [hoff]
  by_cases hin : dest ≤ a ∧ a < dest + n
  · rw [if_pos (by omega), if_pos (by omega),
      show (src : Int) + (a - dest) = ((src + (a - dest) : Nat) : Int) by omega, h _ (by omega),
      show (a + (2 ^ 32 - dest)) % 2 ^ 32 = a - dest by omega, BitVec.ofNat_add]
  · rw [if_neg (by omega), if_neg (by omega), h a ha]

-- where the model's `getTermVidAddr` points
def termPage (term : Nat) : Nat := 0xD0000 + PAGE_SIZE_KB * term

/-- The copies `switch_display_terminal` makes, for one switch after the other. -/
def switchCopies : Nat → List Nat → List MemCall
  | _, [] => []
  | cur, term :: terms =>
      .memcpy (BitVec.ofNat 32 (termPage cur)) VIDEO 4096 ::
        .memcpy VIDEO (BitVec.ofNat 32 (termPage term)) 4096 :: switchCopies term terms

theorem getTermVidAddr_termPage {term : Nat} (h : term < 3) : getTermVidAddr term = termPage term := by
  unfold getTermVidAddr
  rw [if_neg (by omega)]
  rfl

theorem switchCopies_allowed {cur : Nat} {terms : List Nat} (hcur : cur < 3)
    (hterms : ∀ term ∈ terms, term < 3) : ∀ call ∈ switchCopies cur terms, call.Allowed := by
  induction terms generalizing cur with
  | nil => exact fun _ h => nomatch h
  | cons term terms ih =>
    rw [List.forall_mem_cons] at hterms
    have hterm := hterms.1
    have hlow : ∀ t < 3, Ram.Ascending VIDEO (BitVec.ofNat 32 (termPage t)) 4096 := by decide
    have hhigh : ∀ t < 3, Ram.Ascending (BitVec.ofNat 32 (termPage t)) VIDEO 4096 := by decide
    intro call hcall
    rcases List.mem_cons.mp hcall with rfl | hcall
    · exact hhigh cur hcur
    rcases List.mem_cons.mp hcall with rfl | hcall
    · exact hlow term hterm
    · exact ih hterm hterms.2 call hcall

theorem switchDisplayTerminal_represents {m : Ram} {s : Term} {term : Nat}
    (hcur : s.displayTerminal < 3) (hterm : term < 3) (h : MemoryHolds m s.screen.mem) :
    MemoryHolds
      ((switchCopies s.displayTerminal [term]).foldl MemCall.effect m)
      (s.switchDisplayTerminal term).screen.mem := by
  have hpage : ∀ t < 3, 0xD0000 ≤ termPage t ∧ termPage t + 4096 ≤ 0xD3000 := by decide
  have hc := hpage _ hcur
  have ht := hpage term hterm
  have hsave := @MemoryHolds.copy _ _ h (termPage s.displayTerminal) 0xB8000 4096 (by omega)
    (by omega) (by omega)
  have hload := @MemoryHolds.copy _ _ hsave 0xB8000 (termPage term) 4096 (by omega) (by omega)
    (by omega)
  have hmem : (s.switchDisplayTerminal term).screen.mem =
      (s.screen.mem.memcpy (getTermVidAddr s.displayTerminal) VIDEO.toNat PAGE_SIZE_KB).memcpy
        VIDEO.toNat (getTermVidAddr term) PAGE_SIZE_KB := by
    simp only [Term.switchDisplayTerminal, Screen.updateCursor]
  have hcount : (4096 : BitVec 32).toNat = 4096 := by decide
  have hvideo : VIDEO.toNat = 0xB8000 := by decide
  rw [hmem, getTermVidAddr_termPage hcur, getTermVidAddr_termPage hterm, hvideo]
  simp only [switchCopies, List.foldl_cons, List.foldl_nil, MemCall.effect, hcount]
  exact hload

/-- Over any sequence of display switches the assembly copies keep memory as the terminal model
has it. -/
theorem switches_represented (env : Env) (s : Term) (hs : s.displayTerminal < 3) (terms : List Nat)
    (hterms : ∀ term ∈ terms, term < 3) (cpu : Cpu) (h : MemoryHolds cpu.mem s.screen.mem) :
    MemCall.ReturnsAll env (switchCopies s.displayTerminal terms) cpu fun m =>
      MemoryHolds m (terms.foldl (fun s term => s.switchDisplayTerminal term) s).screen.mem := by
  apply MemCall.ReturnsAll.of_effect (switchCopies_allowed hs hterms)
  generalize cpu.mem = m at h
  induction terms generalizing s m with
  | nil => exact h
  | cons term terms ih =>
    rw [List.forall_mem_cons] at hterms
    have hstep := switchDisplayTerminal_represents hs hterms.1 h
    exact ih (s.switchDisplayTerminal term) hterms.1 hterms.2 _ hstep

/-- To the second terminal, the third and back, from the state after boot. -/
theorem switches_represented_round :
    MemCall.ReturnsAll (fun _ _ => none) (switchCopies 0 [1, 2, 0])
      ⟨fun _ => 0, fun _ => 0, 0, 0x400, fun a => (bootTerm blankScreen).screen.mem a.toNat⟩
      fun m => MemoryHolds m
        ([1, 2, 0].foldl (fun s term => s.switchDisplayTerminal term)
          (bootTerm blankScreen)).screen.mem := by
  apply switches_represented _ (bootTerm blankScreen) (by decide) [1, 2, 0] (by decide)
  intro a ha
  show _ = (bootTerm blankScreen).screen.mem (BitVec.ofNat 32 a).toNat
  rw [BitVec.toNat_ofNat, Nat.mod_eq_of_lt ha]

end Kernel391
