import Kernel391.Lib.Assembly

/-!
# Words on a stack

`Stack ws` lists the words from the stack pointer upwards.  Pushing and popping act on the list,
and a routine that keeps to the C calling convention keeps the list above its arguments, so code
that saves registers, calls C and restores them is followed without looking at addresses.
-/

namespace Machine

namespace Ram

/-- The words stored from address `p` on. -/
def Holds (m : Ram) : BitVec 32 → List (BitVec 32) → Prop
  | _, [] => True
  | p, w :: ws => m.load32 p = w ∧ Holds m (p + 4) ws

instance decidableHolds (m : Ram) : (p : BitVec 32) → (ws : List (BitVec 32)) →
    Decidable (m.Holds p ws)
  | _, [] => .isTrue trivial
  | p, _ :: ws => have := decidableHolds m (p + 4) ws; inferInstanceAs (Decidable (_ ∧ _))

theorem Holds.congr {m m' : Ram} {p : BitVec 32} {ws : List (BitVec 32)} (h : m.Holds p ws)
    (hm : ∀ k < 4 * ws.length, m' (p + BitVec.ofNat 32 k) = m (p + BitVec.ofNat 32 k)) :
    m'.Holds p ws := by
  induction ws generalizing p with
  | nil => trivial
  | cons w ws ih =>
    rw [List.length_cons] at hm
    refine ⟨?_, ih h.2 ?_⟩
    · rw [← h.1]
      exact load32_congr fun k hk => hm k (by omega)
    · intro k hk
      have hstep : p + 4 + BitVec.ofNat 32 k = p + BitVec.ofNat 32 (4 + k) := by
        rw [BitVec.add_assoc, BitVec.ofNat_add]
        rfl
      rw [hstep]
      exact hm (4 + k) (by omega)

theorem Holds.append_left {m : Ram} {p : BitVec 32} {vs ws : List (BitVec 32)}
    (h : m.Holds p (vs ++ ws)) : m.Holds p vs := by
  induction vs generalizing p with
  | nil => trivial
  | cons v vs ih => exact ⟨h.1, ih h.2⟩

theorem Holds.append_right {m : Ram} {p : BitVec 32} {vs ws : List (BitVec 32)}
    (h : m.Holds p (vs ++ ws)) : m.Holds (p + BitVec.ofNat 32 (4 * vs.length)) ws := by
  induction vs generalizing p with
  | nil =>
    rw [show p + BitVec.ofNat 32 (4 * ([] : List (BitVec 32)).length) = p from BitVec.add_zero p]
    exact h
  | cons v vs ih =>
    have hrest := ih h.2
    rw [BitVec.add_assoc, show (4 : BitVec 32) = BitVec.ofNat 32 4 from rfl, ← BitVec.ofNat_add,
      show 4 + 4 * vs.length = 4 * (v :: vs).length by rw [List.length_cons]; omega] at hrest
    exact hrest

theorem Holds.getElem {m : Ram} {p w : BitVec 32} {ws : List (BitVec 32)} (h : m.Holds p ws)
    {n : Nat} (hn : ws[n]? = some w) : m.load32 (p + BitVec.ofNat 32 (4 * n)) = w := by
  induction ws generalizing p n with
  | nil => cases hn
  | cons v ws ih =>
    cases n with
    | zero =>
      rw [show p + BitVec.ofNat 32 (4 * 0) = p from BitVec.add_zero p, h.1]
      exact Option.some.inj hn
    | succ n =>
      have hrest := ih h.2 hn
      rw [BitVec.add_assoc, show (4 : BitVec 32) = BitVec.ofNat 32 4 from rfl, ← BitVec.ofNat_add,
        show 4 + 4 * n = 4 * (n + 1) by omega] at hrest
      exact hrest

/-- Any memory holds some words. -/
theorem exists_holds (m : Ram) (p : BitVec 32) (n : Nat) {ws : List (BitVec 32)}
    (h : m.Holds (p + BitVec.ofNat 32 (4 * n)) ws) :
    ∃ vs : List (BitVec 32), vs.length = n ∧ m.Holds p (vs ++ ws) := by
  induction n generalizing p with
  | zero =>
    rw [show p + BitVec.ofNat 32 (4 * 0) = p from BitVec.add_zero p] at h
    exact ⟨[], rfl, h⟩
  | succ n ih =>
    have hnext : p + BitVec.ofNat 32 (4 * (n + 1)) = p + 4 + BitVec.ofNat 32 (4 * n) := by
      rw [BitVec.add_assoc, show 4 * (n + 1) = 4 + 4 * n by omega, BitVec.ofNat_add]
      rfl
    rw [hnext] at h
    obtain ⟨vs, hlen, hvs⟩ := ih (p + 4) h
    exact ⟨m.load32 p :: vs, congrArg (· + 1) hlen, rfl, hvs⟩

/-- A store does not reach words behind it. -/
theorem Holds.store32 {m : Ram} {p : BitVec 32} {ws : List (BitVec 32)} (h : m.Holds p ws)
    (hlen : 4 * (ws.length + 1) ≤ 2 ^ 32) (w : BitVec 32) :
    (m.store32 (p - 4) w).Holds (p - 4) (w :: ws) := by
  have hp : p - 4 + 4 = p := BitVec.sub_add_cancel p 4
  refine ⟨load32_store32 m (p - 4) w, ?_⟩
  rw [hp]
  apply h.congr
  intro k hk
  have haddr : p + BitVec.ofNat 32 k = p - 4 + BitVec.ofNat 32 (4 + k) := by
    rw [BitVec.ofNat_add, ← BitVec.add_assoc]
    exact congrArg (· + BitVec.ofNat 32 k) hp.symm
  rw [haddr, Ram.store32, storeBytes_add m _ _ (by omega), if_neg (by omega)]

end Ram

namespace Cpu

variable {s : Cpu} {w : BitVec 32} {ws : List (BitVec 32)} {r r' : Reg}

/-- The words from the stack pointer upwards. -/
def Stack (s : Cpu) (ws : List (BitVec 32)) : Prop := s.mem.Holds (s.reg .esp) ws

theorem push_reg : (s.push w).reg r' = if r' = .esp then s.reg .esp - 4 else s.reg r' := rfl

theorem Stack.push (h : s.Stack ws) (hlen : 4 * (ws.length + 1) ≤ 2 ^ 32) (w : BitVec 32) :
    (s.push w).Stack (w :: ws) :=
  Ram.Holds.store32 h hlen w

/-- A push leaves memory at and above the stack pointer, and far enough below it, alone. -/
theorem push_mem {a : BitVec 32} (ha : 4 ≤ (a - (s.reg .esp - 4)).toNat) :
    (s.push w).mem a = s.mem a :=
  if_neg (Nat.not_lt.mpr ha)

theorem Stack.top (h : s.Stack (w :: ws)) : s.top = w := h.1

theorem Stack.drop (h : s.Stack (w :: ws)) : s.drop.Stack ws := h.2

theorem drop_reg : s.drop.reg r' = if r' = .esp then s.reg .esp + 4 else s.reg r' := rfl

theorem Stack.pop (h : s.Stack (w :: ws)) (hr : r ≠ .esp) : (s.pop r).Stack ws := by
  show s.mem.Holds ((s.drop.set r s.top).reg .esp) ws
  rw [set_reg, if_neg (Ne.symm hr)]
  exact h.2

theorem Stack.pop_reg (h : s.Stack (w :: ws)) :
    (s.pop r).reg r' =
      if r' = r then w else if r' = .esp then s.reg .esp + 4 else s.reg r' := by
  show (s.drop.set r s.top).reg r' = _
  rw [set_reg, h.top, drop_reg]

theorem Stack.popFlags (h : s.Stack (w :: ws)) : s.popFlags.Stack ws := h.2

end Cpu

/-! ## C functions -/

/-- What a compiled C function with `args` words of arguments leaves alone between its entry `s`,
where the return address is on top of the stack, and its return `t`: the stack pointer, the saved
registers, the code and stack segments, and `frame` words above the arguments. -/
structure Cdecl (args frame : Nat) (s t : Cpu) : Prop where
  esp : t.reg .esp = s.reg .esp + 4
  saved : ∀ r, r = .ebx ∨ r = .esi ∨ r = .edi ∨ r = .ebp → t.reg r = s.reg r
  cs : t.seg .cs = s.seg .cs
  ss : t.seg .ss = s.seg .ss
  above : ∀ k < 4 * frame, t.mem (s.reg .esp + BitVec.ofNat 32 (4 + 4 * args + k)) =
    s.mem (s.reg .esp + BitVec.ofNat 32 (4 + 4 * args + k))

/-- The shortest function: it only returns. -/
theorem Cdecl.ret (args frame : Nat) (s : Cpu) : Cdecl args frame s s.ret := by
  refine ⟨rfl, ?_, rfl, rfl, fun _ _ => rfl⟩
  rintro r (rfl | rfl | rfl | rfl) <;> rfl

theorem Cdecl.mono {args n n' : Nat} {s t : Cpu} (h : Cdecl args n s t) (hn : n' ≤ n) :
    Cdecl args n' s t :=
  ⟨h.esp, h.saved, h.cs, h.ss, fun k hk => h.above k (by omega)⟩

/-- After the call the arguments, whatever became of them, lie on top of what was below them. -/
theorem Cdecl.stack {s t : Cpu} {back : BitVec 32} {vs ws : List (BitVec 32)}
    (h : Cdecl vs.length ws.length s t) (hs : s.Stack (back :: (vs ++ ws))) :
    ∃ vs' : List (BitVec 32), vs'.length = vs.length ∧ t.Stack (vs' ++ ws) := by
  apply Ram.exists_holds
  rw [h.esp]
  have habove := Ram.Holds.append_right hs.2
  apply habove.congr
  intro k hk
  have haddr : s.reg .esp + 4 + BitVec.ofNat 32 (4 * vs.length) + BitVec.ofNat 32 k =
      s.reg .esp + BitVec.ofNat 32 (4 + 4 * vs.length + k) := by
    rw [BitVec.ofNat_add, BitVec.ofNat_add, ← BitVec.add_assoc, ← BitVec.add_assoc]
    rfl
  rw [haddr]
  exact h.above k hk

end Machine
