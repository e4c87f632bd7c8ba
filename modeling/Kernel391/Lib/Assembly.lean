import Kernel391.Lib.BitField
import Kernel391.Lib.Ram
import Mathlib.Logic.Function.Iterate

/-!
# A subset of 32-bit x86 assembly

A listing is a list of lines in AT&T operand order, and control is the list of lines still to
come: a jump replaces it by what follows its label.  Code outside the listing, reached by a call,
is a parameter.  `Wp` is total correctness: the run ends, and in a state with the given property;
each line has one rewriting rule for it.

Segments are flat, so a segment register is a value that is moved around and saved.  Of the
arithmetic flags those that the conditional jumps read are computed, with the sign and the
overflow; the parity and the auxiliary carry keep their values.
-/

namespace Machine

inductive Reg where
  | eax | ecx | edx | ebx | esp | ebp | esi | edi
deriving DecidableEq

inductive Seg where
  | cs | ds | es | ss
deriving DecidableEq

inductive Flag where
  | carry | zero | sign | interrupt | direction | overflow
deriving DecidableEq

def Flag.bit : Flag → Nat
  | .carry => 0
  | .zero => 6
  | .sign => 7
  | .interrupt => 9
  | .direction => 10
  | .overflow => 11

def Flag.field (f : Flag) : Field 32 := ⟨f.bit, 1, by cases f <;> decide⟩

structure Cpu where
  reg : Reg → BitVec 32
  seg : Seg → BitVec 16
  eip : BitVec 32
  eflags : BitVec 32
  mem : Ram

namespace Cpu

def set (r : Reg) (v : BitVec 32) (s : Cpu) : Cpu :=
  { s with reg := fun r' => if r' = r then v else s.reg r' }

def setSeg (r : Seg) (v : BitVec 16) (s : Cpu) : Cpu :=
  { s with seg := fun r' => if r' = r then v else s.seg r' }

def flag (f : Flag) (s : Cpu) : Bool := s.eflags.getLsbD f.bit

def setFlag (f : Flag) (b : Bool) (s : Cpu) : Cpu :=
  { s with eflags := f.field.set (BitVec.ofBool b) s.eflags }

def setStatus (c z n o : Bool) (s : Cpu) : Cpu :=
  (((s.setFlag .carry c).setFlag .zero z).setFlag .sign n).setFlag .overflow o

-- the flags of a logical operation with result `r`
def logicFlags (r : BitVec 32) (s : Cpu) : Cpu := s.setStatus false (r == 0) r.msb false

def push (w : BitVec 32) (s : Cpu) : Cpu :=
  let p := s.reg .esp - 4
  { s.set .esp p with mem := s.mem.store32 p w }

def top (s : Cpu) : BitVec 32 := s.mem.load32 (s.reg .esp)

def drop (s : Cpu) : Cpu := s.set .esp (s.reg .esp + 4)

/-- `popl`: the register is written last, so that `popl %esp` loads the value itself. -/
def pop (r : Reg) (s : Cpu) : Cpu := s.drop.set r s.top

def popFlags (s : Cpu) : Cpu := { s.drop with eflags := s.top }

def pushAll (s : Cpu) : Cpu :=
  [Reg.eax, .ecx, .edx, .ebx, .esp, .ebp, .esi, .edi].foldl (fun t r => t.push (s.reg r)) s

/-- `popal` passes over the saved stack pointer. -/
def popAll (s : Cpu) : Cpu :=
  (((((s.pop .edi).pop .esi).pop .ebp).drop.pop .ebx).pop .edx).pop .ecx |>.pop .eax

def ret (s : Cpu) : Cpu := { s.drop with eip := s.top }

/-- `iret`: a return to an outer privilege level also restores its stack. -/
def iret (s : Cpu) : Cpu :=
  let s₁ := s.ret
  let s₂ := s₁.drop.setSeg .cs (s₁.top.setWidth 16)
  let s₃ := s₂.popFlags
  if (s.seg .cs).setWidth 2 < (s₁.top.setWidth 16).setWidth 2 then
    let s₄ := s₃.drop
    (s₄.drop.setSeg .ss (s₄.top.setWidth 16)).set .esp s₃.top
  else s₃

section Fields

variable (s : Cpu) (r r' : Reg) (v : BitVec 32) (f g : Flag) (b : Bool)

theorem set_reg : (s.set r v).reg r' = if r' = r then v else s.reg r' := rfl

@[simp] theorem set_reg_self : (s.set r v).reg r = v := if_pos rfl

@[simp] theorem setSeg_reg (q : Seg) (w : BitVec 16) : (s.setSeg q w).reg = s.reg := rfl

@[simp] theorem setFlag_reg : (s.setFlag f b).reg = s.reg := rfl

/-- The flags are separate bits. -/
theorem setFlag_flag : (s.setFlag f b).flag g = if g = f then b else s.flag g := by
  have hbits : (s.setFlag f b).flag g =
      if f.bit ≤ g.bit ∧ g.bit < f.bit + 1 then (BitVec.ofBool b).getLsbD (g.bit - f.bit)
      else s.flag g :=
    Field.getLsbD_set f.field _ s.eflags g.bit
  rw [hbits]
  by_cases h : g = f
  · subst h
    rw [if_pos ⟨Nat.le_refl _, Nat.lt_succ_self _⟩, if_pos rfl, Nat.sub_self]
    cases b <;> decide
  · have hbit : g.bit ≠ f.bit := by
      revert h
      cases g <;> cases f <;> decide
    rw [if_neg (by omega), if_neg h]

@[simp] theorem setStatus_carry (c z n o : Bool) : (s.setStatus c z n o).flag .carry = c := by
  simp [setStatus, setFlag_flag]

@[simp] theorem setStatus_zero (c z n o : Bool) : (s.setStatus c z n o).flag .zero = z := by
  simp [setStatus, setFlag_flag]

@[simp] theorem setStatus_direction (c z n o : Bool) :
    (s.setStatus c z n o).flag .direction = s.flag .direction := by
  simp [setStatus, setFlag_flag]

end Fields

end Cpu

/-! ## Instructions -/

/-- An immediate, a register, or the memory at `disp(base)`. -/
inductive Operand where
  | imm (w : BitVec 32)
  | reg (r : Reg)
  | mem (disp : BitVec 32) (base : Reg)

namespace Operand

def read (s : Cpu) : Operand → BitVec 32
  | imm w => w
  | reg r => s.reg r
  | mem disp base => s.mem.load32 (s.reg base + disp)

def write (v : BitVec 32) (s : Cpu) : Operand → Cpu
  | imm _ => s
  | reg r => s.set r v
  | mem disp base => { s with mem := s.mem.store32 (s.reg base + disp) v }

def readByte (s : Cpu) : Operand → UInt8
  | imm w => Ram.byteOf w 0
  | reg r => Ram.byteOf (s.reg r) 0
  | mem disp base => s.mem (s.reg base + disp)

def lowByte : Field 32 := ⟨0, 8, by decide⟩

def writeByte (b : UInt8) (s : Cpu) : Operand → Cpu
  | imm _ => s
  | reg r => s.set r (lowByte.set b.toBitVec (s.reg r))
  | mem disp base => { s with mem := s.mem.store8 (s.reg base + disp) b }

end Operand

inductive StringOp where
  | movsb | movsl | stosw | stosl

namespace StringOp

def width : StringOp → Nat
  | movsb => 1
  | stosw => 2
  | movsl | stosl => 4

-- how far the index registers move
def stride (i : StringOp) (s : Cpu) : BitVec 32 :=
  if s.flag .direction then -BitVec.ofNat 32 i.width else BitVec.ofNat 32 i.width

def transfer (i : StringOp) (s : Cpu) : Ram :=
  match i with
  | movsb => s.mem.store8 (s.reg .edi) (s.mem (s.reg .esi))
  | movsl => s.mem.store32 (s.reg .edi) (s.mem.load32 (s.reg .esi))
  | stosw => s.mem.store16 (s.reg .edi) (s.reg .eax)
  | stosl => s.mem.store32 (s.reg .edi) (s.reg .eax)

def movesSource : StringOp → Bool
  | movsb | movsl => true
  | stosw | stosl => false

/-- One repetition. -/
def once (i : StringOp) (s : Cpu) : Cpu :=
  let t := { s with mem := i.transfer s }
  let t := if i.movesSource then t.set .esi (s.reg .esi + i.stride s) else t
  (t.set .edi (s.reg .edi + i.stride s)).set .ecx (s.reg .ecx - 1)

end StringOp

/-- The instructions after which control goes on with the next line. -/
inductive Op where
  | movl (src dst : Operand)
  | movb (src dst : Operand)
  | movSegReg (src : Seg) (dst : Reg)
  | movRegSeg (src : Reg) (dst : Seg)
  | addl (src dst : Operand)
  | subl (src dst : Operand)
  | andl (src dst : Operand)
  | xorl (src dst : Operand)
  | shrl (n : Nat) (dst : Operand)
  | cmpl (src dst : Operand)
  | testl (src dst : Operand)
  | leal (disp : BitVec 32) (base index dst : Reg)
  | pushl (src : Operand)
  | popl (dst : Reg)
  | pushfl | popfl | pushal | popal
  | cld | std | sti
  | rep (i : StringOp)

def lowWord : Field 32 := ⟨0, 16, by decide⟩

def Op.exec : Op → Cpu → Cpu
  | movl src dst, s => dst.write (src.read s) s
  | movb src dst, s => dst.writeByte (src.readByte s) s
  | movSegReg src dst, s => s.set dst (lowWord.set (s.seg src) (s.reg dst))
  | movRegSeg src dst, s => s.setSeg dst ((s.reg src).setWidth 16)
  | addl src dst, s =>
      let x := dst.read s
      let y := src.read s
      dst.write (x + y) (s.setStatus (x.uaddOverflow y) (x + y == 0) (x + y).msb (x.saddOverflow y))
  | subl src dst, s =>
      let x := dst.read s
      let y := src.read s
      dst.write (x - y) (s.setStatus (x.usubOverflow y) (x - y == 0) (x - y).msb (x.ssubOverflow y))
  | andl src dst, s =>
      let r := dst.read s &&& src.read s
      dst.write r (s.logicFlags r)
  | xorl src dst, s =>
      let r := dst.read s ^^^ src.read s
      dst.write r (s.logicFlags r)
  | shrl n dst, s =>
      let x := dst.read s
      let r := x >>> n
      dst.write r (s.setStatus (x.getLsbD (n - 1)) (r == 0) r.msb (s.flag .overflow))
  | cmpl src dst, s =>
      let x := dst.read s
      let y := src.read s
      s.setStatus (x.usubOverflow y) (x - y == 0) (x - y).msb (x.ssubOverflow y)
  | testl src dst, s => s.logicFlags (dst.read s &&& src.read s)
  | leal disp base index dst, s => s.set dst (s.reg base + s.reg index + disp)
  | pushl src, s => s.push (src.read s)
  | popl dst, s => s.pop dst
  | pushfl, s => s.push s.eflags
  | popfl, s => s.popFlags
  | pushal, s => s.pushAll
  | popal, s => s.popAll
  | cld, s => s.setFlag .direction false
  | std, s => s.setFlag .direction true
  | sti, s => s.setFlag .interrupt true
  | rep i, s => i.once^[(s.reg .ecx).toNat] s

namespace Op

section Fields

variable (s : Cpu) (src : Operand) (r r' : Reg) (n : Nat)

@[simp] theorem movl_reg :
    ((movl src (.reg r)).exec s).reg r' = if r' = r then src.read s else s.reg r' := rfl

@[simp] theorem movl_mem : ((movl src (.reg r)).exec s).mem = s.mem := rfl

@[simp] theorem addl_reg :
    ((addl src (.reg r)).exec s).reg r' = if r' = r then s.reg r + src.read s else s.reg r' := rfl

@[simp] theorem addl_mem : ((addl src (.reg r)).exec s).mem = s.mem := rfl

@[simp] theorem subl_reg :
    ((subl src (.reg r)).exec s).reg r' = if r' = r then s.reg r - src.read s else s.reg r' := rfl

@[simp] theorem subl_mem : ((subl src (.reg r)).exec s).mem = s.mem := rfl

@[simp] theorem andl_reg :
    ((andl src (.reg r)).exec s).reg r' = if r' = r then s.reg r &&& src.read s else s.reg r' := rfl

@[simp] theorem andl_mem : ((andl src (.reg r)).exec s).mem = s.mem := rfl

@[simp] theorem shrl_reg :
    ((shrl n (.reg r)).exec s).reg r' = if r' = r then s.reg r >>> n else s.reg r' := rfl

@[simp] theorem shrl_mem : ((shrl n (.reg r)).exec s).mem = s.mem := rfl

@[simp] theorem cmpl_reg (dst : Operand) : ((cmpl src dst).exec s).reg = s.reg := rfl

@[simp] theorem cmpl_mem (dst : Operand) : ((cmpl src dst).exec s).mem = s.mem := rfl

@[simp] theorem cmpl_carry (dst : Operand) :
    ((cmpl src dst).exec s).flag .carry = (dst.read s).usubOverflow (src.read s) :=
  Cpu.setStatus_carry ..

@[simp] theorem cmpl_zero (dst : Operand) :
    ((cmpl src dst).exec s).flag .zero = (dst.read s - src.read s == 0) :=
  Cpu.setStatus_zero ..

@[simp] theorem cmpl_direction (dst : Operand) :
    ((cmpl src dst).exec s).flag .direction = s.flag .direction :=
  Cpu.setStatus_direction ..

@[simp] theorem testl_reg (dst : Operand) : ((testl src dst).exec s).reg = s.reg := rfl

@[simp] theorem testl_mem (dst : Operand) : ((testl src dst).exec s).mem = s.mem := rfl

@[simp] theorem testl_zero (dst : Operand) :
    ((testl src dst).exec s).flag .zero = (dst.read s &&& src.read s == 0) :=
  Cpu.setStatus_zero ..

@[simp] theorem movb_mem_reg (d : BitVec 32) : ((movb src (.mem d r)).exec s).reg = s.reg := rfl

@[simp] theorem movb_mem_mem (d : BitVec 32) :
    ((movb src (.mem d r)).exec s).mem = s.mem.store8 (s.reg r + d) (src.readByte s) := rfl

@[simp] theorem movb_reg_reg :
    ((movb src (.reg r)).exec s).reg r' =
      if r' = r then Operand.lowByte.set (src.readByte s).toBitVec (s.reg r) else s.reg r' := rfl

@[simp] theorem movb_reg_mem : ((movb src (.reg r)).exec s).mem = s.mem := rfl

@[simp] theorem movSegReg_reg (q : Seg) :
    ((movSegReg q r).exec s).reg r' =
      if r' = r then lowWord.set (s.seg q) (s.reg r) else s.reg r' := rfl

@[simp] theorem movSegReg_mem (q : Seg) : ((movSegReg q r).exec s).mem = s.mem := rfl

@[simp] theorem movRegSeg_reg (q : Seg) : ((movRegSeg r q).exec s).reg = s.reg := rfl

@[simp] theorem movRegSeg_mem (q : Seg) : ((movRegSeg r q).exec s).mem = s.mem := rfl

@[simp] theorem leal_reg (d : BitVec 32) (i b : Reg) :
    ((leal d b i r).exec s).reg r' = if r' = r then s.reg b + s.reg i + d else s.reg r' := rfl

@[simp] theorem leal_mem (d : BitVec 32) (i b : Reg) : ((leal d b i r).exec s).mem = s.mem := rfl

@[simp] theorem cld_reg : (cld.exec s).reg = s.reg := rfl

@[simp] theorem cld_mem : (cld.exec s).mem = s.mem := rfl

@[simp] theorem cld_direction : (cld.exec s).flag .direction = false := by
  show (s.setFlag .direction false).flag .direction = false
  rw [Cpu.setFlag_flag, if_pos rfl]

@[simp] theorem std_reg : (std.exec s).reg = s.reg := rfl

@[simp] theorem std_mem : (std.exec s).mem = s.mem := rfl

@[simp] theorem std_direction : (std.exec s).flag .direction = true := by
  show (s.setFlag .direction true).flag .direction = true
  rw [Cpu.setFlag_flag, if_pos rfl]

end Fields

end Op

inductive Cond where
  | z | b | a | ae

def Cond.holds (s : Cpu) : Cond → Bool
  | z => s.flag .zero
  | b => s.flag .carry
  | a => !s.flag .carry && !s.flag .zero
  | ae => !s.flag .carry

/-- A line of a listing.  Calls carry the address of the line behind them. -/
inductive Line (L : Type) where
  | label (l : L)
  | op (o : Op)
  | jmp (l : L)
  | jcc (c : Cond) (l : L)
  | call (f back : BitVec 32)
  | callTable (table : BitVec 32) (index : Reg) (back : BitVec 32)
  | ret
  | iret

/-- The lines behind a label. -/
def after {L : Type} [DecidableEq L] : List (Line L) → L → List (Line L)
  | [], _ => []
  | .label l' :: rest, l => if l' = l then rest else after rest l
  | _ :: rest, l => after rest l

/-- What lies outside a listing: the routine at an address, run from its entry to its return. -/
abbrev Env := BitVec 32 → Cpu → Option Cpu

section Runs

variable {L : Type} [DecidableEq L] (env : Env) (code : List (Line L))

/-- Runs a listing until its end or a return; `none` is a run that does not end within the given
number of lines, or not at all. -/
def exec : Nat → List (Line L) → Cpu → Option Cpu
  | _, [], s => some s
  | 0, _ :: _, _ => none
  | n + 1, .label _ :: rest, s => exec n rest s
  | n + 1, .op o :: rest, s => exec n rest (o.exec s)
  | n + 1, .jmp l :: _, s => exec n (after code l) s
  | n + 1, .jcc c l :: rest, s => if c.holds s then exec n (after code l) s else exec n rest s
  | n + 1, .call f back :: rest, s => (env f (s.push back)).bind (exec n rest)
  | n + 1, .callTable table index back :: rest, s =>
      (env (s.mem.load32 (table + 4 * s.reg index)) (s.push back)).bind (exec n rest)
  | _ + 1, .ret :: _, s => some s.ret
  | _ + 1, .iret :: _, s => some s.iret

/-- From these lines and this state the run ends in a state with property `Q`. -/
def Wp (rest : List (Line L)) (s : Cpu) (Q : Cpu → Prop) : Prop :=
  ∃ n t, exec env code n rest s = some t ∧ Q t

variable {env : Env} {code : List (Line L)} {rest : List (Line L)} {s : Cpu} {Q : Cpu → Prop}

theorem Wp.mono {P : Cpu → Prop} (h : Wp env code rest s P) (hPQ : ∀ t, P t → Q t) :
    Wp env code rest s Q := by
  obtain ⟨n, t, hrun, ht⟩ := h
  exact ⟨n, t, hrun, hPQ t ht⟩

/-- A run ends in one state, however many lines it is allowed. -/
theorem exec_det {n n' : Nat} {t t' : Cpu} (h : exec env code n rest s = some t)
    (h' : exec env code n' rest s = some t') : t = t' := by
  induction n generalizing n' rest s with
  | zero =>
    cases rest with
    | nil => cases n' <;> exact Option.some.inj (h.symm.trans h')
    | cons line rest => cases h
  | succ n ih =>
    cases rest with
    | nil => cases n' <;> exact Option.some.inj (h.symm.trans h')
    | cons line rest =>
      cases n' with
      | zero => cases h'
      | succ n' =>
        cases line with
        | label l => exact ih h h'
        | op o => exact ih h h'
        | jmp l => exact ih h h'
        | jcc c l =>
          simp only [exec] at h h'
          split at h
          · rw [if_pos ‹_›] at h'
            exact ih h h'
          · rw [if_neg ‹_›] at h'
            exact ih h h'
        | call f back =>
          obtain ⟨u, hu, hrest⟩ := Option.bind_eq_some_iff.mp h
          obtain ⟨u', hu', hrest'⟩ := Option.bind_eq_some_iff.mp h'
          rw [Option.some.inj (hu.symm.trans hu')] at hrest
          exact ih hrest hrest'
        | callTable table index back =>
          obtain ⟨u, hu, hrest⟩ := Option.bind_eq_some_iff.mp h
          obtain ⟨u', hu', hrest'⟩ := Option.bind_eq_some_iff.mp h'
          rw [Option.some.inj (hu.symm.trans hu')] at hrest
          exact ih hrest hrest'
        | ret => exact Option.some.inj (h.symm.trans h')
        | iret => exact Option.some.inj (h.symm.trans h')

/-- A line that cannot be the last one executed. -/
theorem wp_of_step {line : Line L} {rest' : List (Line L)} {s' : Cpu}
    (h : ∀ n, exec env code (n + 1) (line :: rest) s = exec env code n rest' s') :
    Wp env code (line :: rest) s Q ↔ Wp env code rest' s' Q := by
  constructor
  · rintro ⟨n, t, hrun, ht⟩
    cases n with
    | zero => cases hrun
    | succ n => exact ⟨n, t, (h n).symm.trans hrun, ht⟩
  · rintro ⟨n, t, hrun, ht⟩
    exact ⟨n + 1, t, (h n).trans hrun, ht⟩

@[simp] theorem wp_nil : Wp env code [] s Q ↔ Q s := by
  constructor
  · rintro ⟨n, t, hrun, ht⟩
    cases n <;> exact Option.some.inj hrun ▸ ht
  · intro h
    exact ⟨0, s, rfl, h⟩

@[simp] theorem wp_label (l : L) :
    Wp env code (.label l :: rest) s Q ↔ Wp env code rest s Q :=
  wp_of_step fun _ => rfl

@[simp] theorem wp_op (o : Op) :
    Wp env code (.op o :: rest) s Q ↔ Wp env code rest (o.exec s) Q :=
  wp_of_step fun _ => rfl

@[simp] theorem wp_jmp (l : L) :
    Wp env code (.jmp l :: rest) s Q ↔ Wp env code (after code l) s Q :=
  wp_of_step fun _ => rfl

@[simp] theorem wp_jcc (c : Cond) (l : L) :
    Wp env code (.jcc c l :: rest) s Q ↔
      if c.holds s then Wp env code (after code l) s Q else Wp env code rest s Q := by
  split
  · rename_i h
    exact wp_of_step fun _ => if_pos h
  · rename_i h
    exact wp_of_step fun _ => if_neg h

/-- A line that hands control to other code and goes on when that code returns. -/
theorem wp_of_bind {line : Line L} {x : Option Cpu}
    (h : ∀ n, exec env code (n + 1) (line :: rest) s = x.bind (exec env code n rest)) :
    Wp env code (line :: rest) s Q ↔ ∃ s', x = some s' ∧ Wp env code rest s' Q := by
  cases x with
  | none =>
    constructor
    · rintro ⟨n, t, hrun, -⟩
      cases n with
      | zero => cases hrun
      | succ n => cases (h n).symm.trans hrun
    · rintro ⟨s', hs', -⟩
      cases hs'
  | some s' =>
    rw [wp_of_step h]
    simp

@[simp] theorem wp_call (f back : BitVec 32) :
    Wp env code (.call f back :: rest) s Q ↔
      ∃ s', env f (s.push back) = some s' ∧ Wp env code rest s' Q :=
  wp_of_bind fun _ => rfl

@[simp] theorem wp_callTable (table : BitVec 32) (index : Reg) (back : BitVec 32) :
    Wp env code (.callTable table index back :: rest) s Q ↔
      ∃ s', env (s.mem.load32 (table + 4 * s.reg index)) (s.push back) = some s' ∧
        Wp env code rest s' Q :=
  wp_of_bind fun _ => rfl

theorem wp_of_last {line : Line L} {t : Cpu}
    (h : ∀ n, exec env code (n + 1) (line :: rest) s = some t) :
    Wp env code (line :: rest) s Q ↔ Q t := by
  constructor
  · rintro ⟨n, t', hrun, ht⟩
    cases n with
    | zero => cases hrun
    | succ n => exact Option.some.inj ((h n).symm.trans hrun) ▸ ht
  · intro ht
    exact ⟨1, t, h 0, ht⟩

@[simp] theorem wp_ret : Wp env code (.ret :: rest) s Q ↔ Q s.ret :=
  wp_of_last fun _ => rfl

@[simp] theorem wp_iret : Wp env code (.iret :: rest) s Q ↔ Q s.iret :=
  wp_of_last fun _ => rfl

end Runs

end Machine
