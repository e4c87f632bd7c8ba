import Mathlib.Data.Fintype.Basic
import Mathlib.Data.BitVec
import Kernel391.Lib.Run

/-!
# Interrupt masks (`i8259.c`)

Two 8259 controllers, the second behind line 2 of the first.  A controller is what its two ports
show: after an initialization word on the command port it takes the rest of the sequence from the
data port, and then the data port is the mask register.
-/

namespace Kernel391

open Machine

/-! ## The controllers -/

/-- `icws` initialization words are still to come on the data port. -/
structure Pic where
  icws : Nat
  mask : BitVec 8
deriving DecidableEq

structure Pics where
  master : Pic
  slave : Pic
deriving DecidableEq

def MASTER_8259_PORT : BitVec 16 := 0x20

def MASTER_8259_PORT_DAT : BitVec 16 := 0x21

def SLAVE_8259_PORT : BitVec 16 := 0xA0

def SLAVE_8259_PORT_DAT : BitVec 16 := 0xA1

-- Bit 4 marks the first word of an initialization, which clears the mask; bits 1 and 0 tell
-- whether the third and the fourth word are part of it.
def Pic.command (data : BitVec 8) (p : Pic) : Pic :=
  if data.getLsbD 4 then
    ⟨1 + (if data.getLsbD 1 then 0 else 1) + if data.getLsbD 0 then 1 else 0, 0⟩
  else p

def Pic.data (data : BitVec 8) (p : Pic) : Pic :=
  if p.icws = 0 then { p with mask := data } else { p with icws := p.icws - 1 }

namespace Pics

/-- `outb` writes the low byte of its operand. -/
def outb (data : BitVec 32) (port : BitVec 16) (p : Pics) : Pics :=
  if port = MASTER_8259_PORT then { p with master := p.master.command (data.setWidth 8) }
  else if port = SLAVE_8259_PORT then { p with slave := p.slave.command (data.setWidth 8) }
  else if port = MASTER_8259_PORT_DAT then { p with master := p.master.data (data.setWidth 8) }
  else if port = SLAVE_8259_PORT_DAT then { p with slave := p.slave.data (data.setWidth 8) }
  else p

/-- `inb` of a data port. -/
def inb (port : BitVec 16) (p : Pics) : BitVec 32 :=
  if port = MASTER_8259_PORT_DAT then p.master.mask.setWidth 32
  else if port = SLAVE_8259_PORT_DAT then p.slave.mask.setWidth 32
  else 0

end Pics

/-! ## The driver -/

def ICW1 : BitVec 32 := 0x11

def ICW2_MASTER : BitVec 32 := 0x20

def ICW2_SLAVE : BitVec 32 := 0x28

def ICW3_MASTER : BitVec 32 := 0x04

def ICW3_SLAVE : BitVec 32 := 0x02

def ICW4 : BitVec 32 := 0x01

def IRQ_AMNT : BitVec 32 := 8

def IRQ2 : Nat := 2

/-- `i8259_init`. -/
def i8259Init (p : Pics) : Pics :=
  let p := (p.outb ICW1 MASTER_8259_PORT).outb ICW1 SLAVE_8259_PORT
  let p := (p.outb ICW2_MASTER MASTER_8259_PORT_DAT).outb ICW2_SLAVE SLAVE_8259_PORT_DAT
  let p := (p.outb ICW3_MASTER MASTER_8259_PORT_DAT).outb ICW3_SLAVE SLAVE_8259_PORT_DAT
  let p := (p.outb ICW4 MASTER_8259_PORT_DAT).outb ICW4 SLAVE_8259_PORT_DAT
  (p.outb 0xFF MASTER_8259_PORT_DAT).outb 0xFF SLAVE_8259_PORT_DAT

/-- `enable_irq`. -/
def enableIrq (irqNum : BitVec 32) (p : Pics) : Pics :=
  let port := MASTER_8259_PORT_DAT
  if IRQ_AMNT ≤ irqNum ∧ irqNum < IRQ_AMNT * 2 then
    let p := p.outb (p.inb port &&& ~~~(1#32 <<< IRQ2)) port
    let irqNum := irqNum % IRQ_AMNT
    let port := SLAVE_8259_PORT_DAT
    p.outb (p.inb port &&& ~~~(1#32 <<< irqNum.toNat)) port
  else p.outb (p.inb port &&& ~~~(1#32 <<< irqNum.toNat)) port

/-- `disable_irq`.  The lines below 8 are the ones it takes to the slave. -/
def disableIrq (irqNum : BitVec 32) (p : Pics) : Pics :=
  let port := MASTER_8259_PORT_DAT
  if irqNum < IRQ_AMNT then
    let p := p.outb (p.inb port ||| 1#32 <<< IRQ2) port
    let irqNum := irqNum % IRQ_AMNT
    let port := SLAVE_8259_PORT_DAT
    p.outb (p.inb port ||| 1#32 <<< irqNum.toNat) port
  else p.outb (p.inb port ||| 1#32 <<< irqNum.toNat) port

/-! ## Requests -/

inductive IrqCall where
  | enable (line : Fin 16)
  | disable (line : Fin 16)
deriving DecidableEq

namespace IrqCall

def line : IrqCall → Fin 16
  | .enable n | .disable n => n

def perform : IrqCall → Pics → Pics
  | .enable n => enableIrq (BitVec.ofNat 32 n)
  | .disable n => disableIrq (BitVec.ofNat 32 n)

end IrqCall

/-- The controllers and the calls made since `i8259_init`. -/
structure PicRun where
  pics : Pics
  calls : List IrqCall

def picStep (s : PicRun) (c : IrqCall) : Option PicRun :=
  some ⟨c.perform s.pics, s.calls ++ [c]⟩

/-- The mask bit of a line; a set bit keeps the line quiet. -/
def maskBit (p : Pics) (n : Fin 16) : Bool :=
  if n.val < 8 then p.master.mask.getLsbD n else p.slave.mask.getLsbD (n - 8)

/-- The last call that named the line was `enable_irq`. -/
def Requested (calls : List IrqCall) (n : Fin 16) : Prop :=
  (calls.filter fun c => c.line = n).getLast? = some (.enable n)

instance (calls : List IrqCall) (n : Fin 16) : Decidable (Requested calls n) :=
  inferInstanceAs (Decidable (_ = _))

/-- The masks are those that were asked for. -/
structure MasksFollow (s : PicRun) : Prop where
  requests : ∀ n : Fin 16, n ≠ 2 → (maskBit s.pics n = false ↔ Requested s.calls n)
  cascade : ∀ n : Fin 16, 8 ≤ n.val → Requested s.calls n → maskBit s.pics 2 = false

/-- A call leaves the masks as asked for and touches its own line and the cascade line only. -/
def CallMeets (s : PicRun) (c : IrqCall) : Prop :=
  (∀ n : Fin 16, n ≠ c.line → n ≠ 2 → maskBit (c.perform s.pics) n = maskBit s.pics n) ∧
    MasksFollow ⟨c.perform s.pics, s.calls ++ [c]⟩

/-- The calls that do no harm: `disable_irq` of a line that is quiet already, and below 8 only
while all lines of the slave are. -/
def DisablesQuiet (s : PicRun) : IrqCall → Prop
  | .enable _ => True
  | .disable n =>
      if n.val < 8 then
        (n ≠ 2 → ¬Requested s.calls n) ∧ ∀ m : Fin 16, 8 ≤ m.val → ¬Requested s.calls m
      else ¬Requested s.calls n

/-! ## What a call does to the masks -/

/-- Both data ports are mask registers. -/
def Pics.Ready (p : Pics) : Prop := p.master.icws = 0 ∧ p.slave.icws = 0

theorem i8259Init_eq (p : Pics) : i8259Init p = ⟨⟨0, 0xFF#8⟩, ⟨0, 0xFF#8⟩⟩ := by
  simp [i8259Init, Pics.outb, Pic.command, Pic.data, ICW1, MASTER_8259_PORT, SLAVE_8259_PORT,
    MASTER_8259_PORT_DAT, SLAVE_8259_PORT_DAT]

theorem getLsbD_bit (k : Nat) {i : Nat} (hi : i < 32) :
    (1#32 <<< k).getLsbD i = decide (i = k) := by
  rw [BitVec.getLsbD_shiftLeft, BitVec.getLsbD_one]
  by_cases hik : i = k
  · subst hik
    simp [hi]
  · by_cases hlt : i < k
    · simp [hlt, hik]
    · have hsub : i - k ≠ 0 := by omega
      simp [hik, hsub]

-- The two edits of a mask register, bit by bit.
theorem getLsbD_cleared (mask : BitVec 8) (k i : Nat) (hi : i < 8) :
    ((mask.setWidth 32 &&& ~~~(1#32 <<< k)).setWidth 8).getLsbD i =
      (mask.getLsbD i && !decide (i = k)) := by
  have hwide : i < 32 := by omega
  rw [BitVec.getLsbD_setWidth, BitVec.getLsbD_and, BitVec.getLsbD_not, getLsbD_bit k hwide,
    BitVec.getLsbD_setWidth]
  simp [hi, hwide]

theorem getLsbD_raised (mask : BitVec 8) (k i : Nat) (hi : i < 8) :
    ((mask.setWidth 32 ||| 1#32 <<< k).setWidth 8).getLsbD i =
      (mask.getLsbD i || decide (i = k)) := by
  have hwide : i < 32 := by omega
  rw [BitVec.getLsbD_setWidth, BitVec.getLsbD_or, getLsbD_bit k hwide, BitVec.getLsbD_setWidth]
  simp [hi, hwide]

section

variable {p : Pics}

theorem outb_master (h : p.Ready) (data : BitVec 32) :
    p.outb data MASTER_8259_PORT_DAT = ⟨⟨0, data.setWidth 8⟩, p.slave⟩ := by
  obtain ⟨hm, -⟩ := h
  simp [Pics.outb, Pic.data, hm, MASTER_8259_PORT, SLAVE_8259_PORT, MASTER_8259_PORT_DAT]

theorem outb_slave (h : p.Ready) (data : BitVec 32) :
    p.outb data SLAVE_8259_PORT_DAT = ⟨p.master, ⟨0, data.setWidth 8⟩⟩ := by
  obtain ⟨-, hs⟩ := h
  simp [Pics.outb, Pic.data, hs, MASTER_8259_PORT, SLAVE_8259_PORT, MASTER_8259_PORT_DAT,
    SLAVE_8259_PORT_DAT]

theorem inb_master (p : Pics) : p.inb MASTER_8259_PORT_DAT = p.master.mask.setWidth 32 := by
  simp [Pics.inb]

theorem inb_slave (p : Pics) : p.inb SLAVE_8259_PORT_DAT = p.slave.mask.setWidth 32 := by
  simp [Pics.inb, MASTER_8259_PORT_DAT, SLAVE_8259_PORT_DAT]

theorem toNat_line (n : Fin 16) : (BitVec.ofNat 32 n).toNat = n := by
  rw [BitVec.toNat_ofNat]
  omega

theorem line_lt (n : Fin 16) : BitVec.ofNat 32 n < IRQ_AMNT ↔ n.val < 8 := by
  rw [BitVec.lt_def, toNat_line]
  rfl

theorem line_slave (n : Fin 16) :
    (IRQ_AMNT ≤ BitVec.ofNat 32 n ∧ BitVec.ofNat 32 n < IRQ_AMNT * 2) ↔ 8 ≤ n.val := by
  have htwice : (IRQ_AMNT * 2).toNat = 16 := by decide
  have hone : IRQ_AMNT.toNat = 8 := by decide
  rw [BitVec.le_def, BitVec.lt_def, toNat_line, htwice, hone]
  omega

theorem toNat_line_mod (n : Fin 16) : (BitVec.ofNat 32 n % IRQ_AMNT).toNat = n.val % 8 := by
  rw [BitVec.toNat_umod, toNat_line]
  rfl

theorem enableIrq_low (h : p.Ready) {n : Fin 16} (hn : n.val < 8) :
    enableIrq (BitVec.ofNat 32 n) p =
      ⟨⟨0, (p.master.mask.setWidth 32 &&& ~~~(1#32 <<< n.val)).setWidth 8⟩, p.slave⟩ := by
  have htest := mt (line_slave n).mp (by omega)
  unfold enableIrq
  rw [if_neg htest, outb_master h, inb_master, toNat_line]

theorem enableIrq_high (h : p.Ready) {n : Fin 16} (hn : 8 ≤ n.val) :
    enableIrq (BitVec.ofNat 32 n) p =
      ⟨⟨0, (p.master.mask.setWidth 32 &&& ~~~(1#32 <<< 2)).setWidth 8⟩,
        ⟨0, (p.slave.mask.setWidth 32 &&& ~~~(1#32 <<< (n.val % 8))).setWidth 8⟩⟩ := by
  unfold enableIrq
  dsimp only
  rw [if_pos ((line_slave n).mpr hn), outb_master h, outb_slave, inb_master, inb_slave,
    toNat_line_mod]
  · rfl
  · exact ⟨rfl, h.2⟩

theorem disableIrq_low (h : p.Ready) {n : Fin 16} (hn : n.val < 8) :
    disableIrq (BitVec.ofNat 32 n) p =
      ⟨⟨0, (p.master.mask.setWidth 32 ||| 1#32 <<< 2).setWidth 8⟩,
        ⟨0, (p.slave.mask.setWidth 32 ||| 1#32 <<< n.val).setWidth 8⟩⟩ := by
  have hmod : n.val % 8 = n.val := Nat.mod_eq_of_lt hn
  unfold disableIrq
  dsimp only
  rw [if_pos ((line_lt n).mpr hn), outb_master h, outb_slave, inb_master, inb_slave,
    toNat_line_mod, hmod]
  · rfl
  · exact ⟨rfl, h.2⟩

theorem disableIrq_high (h : p.Ready) {n : Fin 16} (hn : 8 ≤ n.val) :
    disableIrq (BitVec.ofNat 32 n) p =
      ⟨⟨0, (p.master.mask.setWidth 32 ||| 1#32 <<< n.val).setWidth 8⟩, p.slave⟩ := by
  have htest := mt (line_lt n).mp (by omega)
  unfold disableIrq
  rw [if_neg htest, outb_master h, inb_master, toNat_line]

theorem ready_perform (h : p.Ready) (c : IrqCall) : (c.perform p).Ready := by
  have hsplit : ∀ n : Fin 16, n.val < 8 ∨ 8 ≤ n.val := fun n => by omega
  cases c with
  | enable n =>
    rcases hsplit n with hn | hn
    · simpa only [IrqCall.perform, enableIrq_low h hn] using ⟨rfl, h.2⟩
    · simpa only [IrqCall.perform, enableIrq_high h hn] using ⟨rfl, rfl⟩
  | disable n =>
    rcases hsplit n with hn | hn
    · simpa only [IrqCall.perform, disableIrq_low h hn] using ⟨rfl, rfl⟩
    · simpa only [IrqCall.perform, disableIrq_high h hn] using ⟨rfl, h.2⟩

/-- `enable_irq` clears the bit of its line, and that of the cascade line for the slave. -/
theorem maskBit_enableIrq (h : p.Ready) (n m : Fin 16) :
    maskBit (enableIrq (BitVec.ofNat 32 n) p) m =
      (maskBit p m && !decide (m = n ∨ (8 ≤ n.val ∧ m = 2))) := by
  have htwo : m = 2 ↔ m.val = 2 := Fin.ext_iff
  by_cases hn : n.val < 8
  · rw [enableIrq_low h hn]
    unfold maskBit
    by_cases hm : m.val < 8
    · rw [if_pos hm, if_pos hm, getLsbD_cleared _ _ _ hm]
      congr 2
      simp only [Fin.ext_iff]
      apply decide_eq_decide.mpr
      omega
    · rw [if_neg hm, if_neg hm, decide_eq_false (by omega)]
      simp
  · rw [enableIrq_high h (by omega)]
    unfold maskBit
    by_cases hm : m.val < 8
    · rw [if_pos hm, if_pos hm, getLsbD_cleared _ _ _ hm]
      congr 2
      apply decide_eq_decide.mpr
      omega
    · rw [if_neg hm, if_neg hm, getLsbD_cleared _ _ _ (by omega)]
      congr 2
      apply decide_eq_decide.mpr
      omega

/-- `disable_irq` sets the cascade bit and a bit of the slave for a line of the master, and
nothing for a line of the slave. -/
theorem maskBit_disableIrq (h : p.Ready) (n m : Fin 16) :
    maskBit (disableIrq (BitVec.ofNat 32 n) p) m =
      (maskBit p m || decide (n.val < 8 ∧ (m = 2 ∨ m.val = n.val + 8))) := by
  have htwo : m = 2 ↔ m.val = 2 := Fin.ext_iff
  by_cases hn : n.val < 8
  · rw [disableIrq_low h hn]
    unfold maskBit
    by_cases hm : m.val < 8
    · rw [if_pos hm, if_pos hm, getLsbD_raised _ _ _ hm]
      congr 1
      apply decide_eq_decide.mpr
      omega
    · rw [if_neg hm, if_neg hm, getLsbD_raised _ _ _ (by omega)]
      congr 1
      apply decide_eq_decide.mpr
      omega
  · rw [disableIrq_high h (by omega)]
    unfold maskBit
    by_cases hm : m.val < 8
    · rw [if_pos hm, if_pos hm, getLsbD_raised _ _ _ hm]
      congr 1
      apply decide_eq_decide.mpr
      omega
    · rw [if_neg hm, if_neg hm, decide_eq_false (by omega), Bool.or_false]

end

/-! ## Sequences of calls -/

theorem requested_snoc (calls : List IrqCall) (c : IrqCall) (n : Fin 16) :
    Requested (calls ++ [c]) n ↔ if c.line = n then c = .enable n else Requested calls n := by
  unfold Requested
  rw [List.filter_append]
  by_cases hline : c.line = n
  · simp [hline]
  · simp [hline]

theorem requested_enable (calls : List IrqCall) (n m : Fin 16) :
    Requested (calls ++ [.enable n]) m ↔ m = n ∨ Requested calls m := by
  rw [requested_snoc]
  by_cases hnm : n = m
  · simp [IrqCall.line, hnm]
  · simp [IrqCall.line, hnm, Ne.symm hnm]

theorem requested_disable (calls : List IrqCall) (n m : Fin 16) :
    Requested (calls ++ [.disable n]) m ↔ m ≠ n ∧ Requested calls m := by
  rw [requested_snoc]
  by_cases hnm : n = m
  · simp [IrqCall.line, hnm]
  · simp [IrqCall.line, hnm, Ne.symm hnm]

structure PicInv (s : PicRun) : Prop where
  ready : s.pics.Ready
  follow : MasksFollow s

theorem picInv_init (p : Pics) : PicInv ⟨i8259Init p, []⟩ := by
  have hquiet : ∀ n : Fin 16, maskBit ⟨⟨0, 0xFF#8⟩, ⟨0, 0xFF#8⟩⟩ n = true := by decide
  rw [i8259Init_eq]
  refine ⟨⟨rfl, rfl⟩, ?_, ?_⟩
  · intro n _
    simp [hquiet, Requested]
  · intro n _ h
    simp [Requested] at h

section

variable {s : PicRun}

theorem enable_meets (h : PicInv s) (n : Fin 16) : CallMeets s (.enable n) := by
  have hbit := maskBit_enableIrq h.ready n
  refine ⟨?_, ?_, ?_⟩
  · intro m hne htwo
    show maskBit (enableIrq (BitVec.ofNat 32 n) s.pics) m = _
    rw [hbit, decide_eq_false (by tauto)]
    simp
  · intro m htwo
    show maskBit (enableIrq (BitVec.ofNat 32 n) s.pics) m = false ↔ _
    rw [hbit, requested_enable, ← h.follow.requests m htwo]
    by_cases hmn : m = n
    · simp [hmn]
    · simp [hmn, htwo]
  · intro m hm hreq
    show maskBit (enableIrq (BitVec.ofNat 32 n) s.pics) 2 = false
    rw [hbit]
    rcases (requested_enable _ _ _).mp hreq with rfl | hold
    · simp [hm]
    · simp [h.follow.cascade m hm hold]

/-- A call that leaves the bit of its own line alone is right only about a quiet line. -/
theorem quiet_of_same (h : PicInv s) {n : Fin 16} (htwo : n ≠ 2)
    (hsame : maskBit (disableIrq (BitVec.ofNat 32 n) s.pics) n = maskBit s.pics n)
    (hmeets : CallMeets s (.disable n)) : ¬Requested s.calls n := by
  intro hreq
  have hafter : maskBit (disableIrq (BitVec.ofNat 32 n) s.pics) n = false ↔
      Requested (s.calls ++ [.disable n]) n := hmeets.2.requests n htwo
  rw [hsame, requested_disable, h.follow.requests n htwo] at hafter
  exact (hafter.mp hreq).1 rfl

theorem requests_of_same (h : PicInv s) {n : Fin 16} (hquiet : n ≠ 2 → ¬Requested s.calls n)
    {m : Fin 16} (htwo : m ≠ 2)
    (hsame : maskBit (disableIrq (BitVec.ofNat 32 n) s.pics) m = maskBit s.pics m) :
    maskBit (disableIrq (BitVec.ofNat 32 n) s.pics) m = false ↔
      Requested (s.calls ++ [.disable n]) m := by
  rw [hsame, requested_disable, h.follow.requests m htwo]
  constructor
  · intro hreq
    refine ⟨?_, hreq⟩
    rintro rfl
    exact hquiet htwo hreq
  · exact And.right

/-- For a line of the master, the call is right exactly if the line and the whole slave were
quiet before it. -/
theorem disable_low_meets (h : PicInv s) {n : Fin 16} (hn : n.val < 8) :
    CallMeets s (.disable n) ↔ DisablesQuiet s (.disable n) := by
  have hbit := maskBit_disableIrq h.ready n
  simp only [hn, true_and] at hbit
  simp only [DisablesQuiet, hn, if_true]
  constructor
  · intro hmeets
    constructor
    · -- the bit of the line is where it was
      intro htwo
      apply quiet_of_same h htwo _ hmeets
      rw [hbit]
      simp [htwo]
    · -- and the cascade bit is set
      intro m hm hreq
      have hne : m ≠ n := by
        rintro rfl
        omega
      have hafter : maskBit (disableIrq (BitVec.ofNat 32 n) s.pics) 2 = false :=
        hmeets.2.cascade m hm ((requested_disable _ _ _).mpr ⟨hne, hreq⟩)
      rw [hbit] at hafter
      simp at hafter
  · rintro ⟨hline, hslave⟩
    have hquiet : ∀ m : Fin 16, 8 ≤ m.val → maskBit s.pics m = true := by
      intro m hm
      have htwo : m ≠ 2 := by
        rintro rfl
        exact absurd hm (by decide)
      cases hmask : maskBit s.pics m with
      | true => rfl
      | false => exact absurd ((h.follow.requests m htwo).mp hmask) (hslave m hm)
    have hsame : ∀ m : Fin 16, m ≠ 2 →
        maskBit (disableIrq (BitVec.ofNat 32 n) s.pics) m = maskBit s.pics m := by
      intro m htwo
      rw [hbit]
      by_cases hm : m.val = n.val + 8
      · rw [hquiet m (by omega)]
        rfl
      · simp [htwo, hm]
    refine ⟨fun m _ htwo => hsame m htwo, ?_, ?_⟩
    · intro m htwo
      exact requests_of_same h hline htwo (hsame m htwo)
    · intro m hm hreq
      exact absurd ((requested_disable _ _ _).mp hreq).2 (hslave m hm)

/-- For a line of the slave nothing happens, which is right only if nothing was to be done. -/
theorem disable_high_meets (h : PicInv s) {n : Fin 16} (hn : 8 ≤ n.val) :
    CallMeets s (.disable n) ↔ DisablesQuiet s (.disable n) := by
  have hlow : ¬n.val < 8 := by omega
  have hsame : ∀ m, maskBit (disableIrq (BitVec.ofNat 32 n) s.pics) m = maskBit s.pics m := by
    intro m
    rw [maskBit_disableIrq h.ready n m]
    simp [hlow]
  have htwo : n ≠ 2 := by
    rintro rfl
    exact absurd hn (by decide)
  simp only [DisablesQuiet, hlow, if_false]
  constructor
  · exact quiet_of_same h htwo (hsame n)
  · intro hquiet
    refine ⟨fun m _ _ => hsame m, ?_, ?_⟩
    · intro m hm
      exact requests_of_same h (fun _ => hquiet) hm (hsame m)
    · intro m hm hreq
      show maskBit (disableIrq (BitVec.ofNat 32 n) s.pics) 2 = false
      rw [hsame]
      exact h.follow.cascade m hm ((requested_disable _ _ _).mp hreq).2

theorem callMeets_iff (h : PicInv s) (c : IrqCall) : CallMeets s c ↔ DisablesQuiet s c := by
  cases c with
  | enable n => exact iff_of_true (enable_meets h n) trivial
  | disable n =>
    by_cases hn : n.val < 8
    · exact disable_low_meets h hn
    · exact disable_high_meets h (by omega)

end

/-- From initialization on, the masks are as the last requests ask for, call after call, exactly
if `disable_irq` is only ever called when there is nothing to disable. -/
theorem masks_follow_iff (p : Pics) (calls : List IrqCall) :
    MasksFollow ⟨i8259Init p, []⟩ ∧
      (Along picStep CallMeets ⟨i8259Init p, []⟩ calls ↔
        Along picStep DisablesQuiet ⟨i8259Init p, []⟩ calls) := by
  have hinit := picInv_init p
  refine ⟨hinit.follow, along_iff_of_invariant ?_ (fun s c h => callMeets_iff h c) hinit⟩
  intro s c s' h hok hstep
  cases hstep
  exact ⟨ready_perform h.ready c, ((callMeets_iff h c).mpr hok).2⟩

/-- The keyboard line, enabled and disabled again, is still unmasked. -/
theorem keyboard_stays_enabled :
    ∃ s, run picStep ⟨i8259Init ⟨⟨0, 0⟩, ⟨0, 0⟩⟩, []⟩ [.enable 1, .disable 1] = some s ∧
      maskBit s.pics 1 = false ∧ ¬Requested s.calls 1 ∧ ¬MasksFollow s := by
  refine ⟨⟨disableIrq 1 (enableIrq 1 (i8259Init ⟨⟨0, 0⟩, ⟨0, 0⟩⟩)), [.enable 1, .disable 1]⟩, rfl,
    by decide, by decide, ?_⟩
  intro h
  have hreq := (h.requests 1 (by decide)).mp (by decide)
  exact absurd hreq (by decide)

end Kernel391
