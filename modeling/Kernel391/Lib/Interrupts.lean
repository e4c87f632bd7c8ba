import Kernel391.Lib.CallFrame
import Mathlib.Logic.Function.Basic

/-!
# Interrupts and the code around them

`deliver` is what the processor does when it goes through an interrupt gate: it saves the
interrupted context on a stack, that of the inner privilege level if the level changes.
`WpQuiet` is total correctness of a listing between any two lines of which other code may run,
as long as that code is quiet: it gives back every register and keeps some words of the stack and
some data.  It keeps a record of the calls, so that what a function is given and what it returns can
be said of the run's own calls.
-/

namespace Machine

namespace Cpu

/-- The current privilege level. -/
def cpl (s : Cpu) : BitVec 2 := (s.seg .cs).setWidth 2

-- On a change of level the stack is taken from the task state, and the old one saved on it.
def switchStack (kcs kss : BitVec 16) (esp0 : BitVec 32) (s : Cpu) : Cpu :=
  if kcs.setWidth 2 < s.cpl then
    (((s.set .esp esp0).setSeg .ss kss).push ((s.seg .ss).setWidth 32)).push (s.reg .esp)
  else s

/-- Entry through an interrupt gate with code segment `kcs`; `kss` and `esp0` are those of the
task state segment. -/
def deliver (kcs kss : BitVec 16) (esp0 : BitVec 32) (s : Cpu) : Cpu :=
  (((((s.switchStack kcs kss esp0).push s.eflags).push ((s.seg .cs).setWidth 32)).push s.eip).setSeg
    .cs kcs).setFlag .interrupt false

variable {s t : Cpu} {w : BitVec 32} {ws : List (BitVec 32)}

theorem Stack.setSeg (h : s.Stack ws) (q : Seg) (w : BitVec 16) : (s.setSeg q w).Stack ws := h

theorem Stack.setFlag (h : s.Stack ws) (f : Flag) (b : Bool) : (s.setFlag f b).Stack ws := h

/-! ## Registers saved all at once -/

theorem Stack.pushList (h : s.Stack ws) (f : Reg → BitVec 32) (rs : List Reg)
    (hlen : 4 * (ws.length + rs.length) ≤ 2 ^ 32) :
    (rs.foldl (fun t r => t.push (f r)) s).Stack ((rs.map f).reverse ++ ws) := by
  induction rs generalizing s ws with
  | nil => exact h
  | cons q rs ih =>
    rw [List.length_cons] at hlen
    have hrest := ih (h.push (by omega) (f q)) (by rw [List.length_cons]; omega)
    rw [List.map_cons, List.reverse_cons, List.append_assoc]
    exact hrest

/-- The order in which `pushal` leaves the registers, from the top of the stack. -/
def saved (g : Reg → BitVec 32) : List (BitVec 32) :=
  [g .edi, g .esi, g .ebp, g .esp, g .ebx, g .edx, g .ecx, g .eax]

theorem Stack.pushAll (h : s.Stack ws) (hlen : 4 * (ws.length + 8) ≤ 2 ^ 32) :
    s.pushAll.Stack (saved s.reg ++ ws) :=
  h.pushList s.reg [.eax, .ecx, .edx, .ebx, .esp, .ebp, .esi, .edi] hlen

theorem pushAll_esp : s.pushAll.reg .esp = s.reg .esp - 32 := by
  show s.reg .esp - 4 - 4 - 4 - 4 - 4 - 4 - 4 - 4 = _
  bv_omega

theorem popAll_esp : s.popAll.reg .esp = s.reg .esp + 32 := by
  show s.reg .esp + 4 + 4 + 4 + 4 + 4 + 4 + 4 + 4 = _
  bv_omega

/-- `popal` loads what `pushal` saved, apart from the stack pointer. -/
theorem Stack.popAll {g : Reg → BitVec 32} (h : s.Stack (saved g ++ ws)) :
    s.popAll.Stack ws ∧ ∀ r, r ≠ .esp → s.popAll.reg r = g r := by
  have h1 := h.pop (r := .edi) (by decide)
  have h2 := h1.pop (r := .esi) (by decide)
  have h3 := h2.pop (r := .ebp) (by decide)
  have h4 := h3.drop
  have h5 := h4.pop (r := .ebx) (by decide)
  have h6 := h5.pop (r := .edx) (by decide)
  have h7 := h6.pop (r := .ecx) (by decide)
  have h8 := h7.pop (r := .eax) (by decide)
  refine ⟨h8, ?_⟩
  intro r hr
  simp only [Cpu.popAll, h7.pop_reg, h6.pop_reg, h5.pop_reg, h4.pop_reg, drop_reg, h2.pop_reg,
    h1.pop_reg, h.pop_reg, hr, if_false]
  cases r <;> simp at hr ⊢

/-! ## Returning from an interrupt -/

-- the three words every interrupt saves
def savedContext (s : Cpu) : List (BitVec 32) :=
  [s.eip, (s.seg .cs).setWidth 32, s.eflags]

theorem setWidth_setWidth_16 (w : BitVec 16) : (w.setWidth 32).setWidth 16 = w := by
  apply BitVec.eq_of_toNat_eq
  have := w.isLt
  rw [BitVec.toNat_setWidth, BitVec.toNat_setWidth]
  omega

/-- The two conditions under which `iret` gives back an interrupted context. -/
structure Resumes (s t : Cpu) : Prop where
  eip : t.eip = s.eip
  eflags : t.eflags = s.eflags
  cs : t.seg .cs = s.seg .cs

theorem iret_eq (h : t.Stack (savedContext s ++ ws)) :
    t.iret =
      let u := ((t.ret.drop.setSeg .cs (s.seg .cs)).popFlags)
      if t.cpl < s.cpl then (u.drop.drop.setSeg .ss (u.drop.top.setWidth 16)).set .esp u.top
      else u := by
  have htop : t.ret.top = (s.seg .cs).setWidth 32 := h.2.1
  unfold Cpu.iret
  simp only [htop, setWidth_setWidth_16]
  rfl

theorem Stack.iret_frame (h : t.Stack (savedContext s ++ ws)) :
    let u := ((t.ret.drop.setSeg .cs (s.seg .cs)).popFlags)
    Resumes s u ∧ u.seg .ss = t.seg .ss ∧ u.Stack ws ∧
      u.reg .esp = t.reg .esp + 4 + 4 + 4 ∧ ∀ r, r ≠ .esp → u.reg r = t.reg r := by
  refine ⟨⟨h.1, h.2.2.1, rfl⟩, rfl, h.2.2.2, rfl, ?_⟩
  intro r hr
  show (((t.drop.drop).drop).reg r) = _
  rw [drop_reg, if_neg hr, drop_reg, if_neg hr, drop_reg, if_neg hr]

/-! ## Entering an interrupt -/

variable {kcs kss : BitVec 16} {esp0 : BitVec 32}

theorem deliver_reg {r : Reg} (hr : r ≠ .esp) : (s.deliver kcs kss esp0).reg r = s.reg r := by
  simp only [deliver, setFlag_reg, setSeg_reg, push_reg, hr, if_false, switchStack]
  split
  · simp only [push_reg, hr, if_false, setSeg_reg, set_reg]
  · rfl

/-- Without a change of level the context goes on top of the interrupted stack. -/
theorem deliver_inner (h : s.Stack ws) (hcpl : ¬kcs.setWidth 2 < s.cpl)
    (hlen : 4 * (ws.length + 3) ≤ 2 ^ 32) :
    (s.deliver kcs kss esp0).Stack (savedContext s ++ ws) ∧
      (s.deliver kcs kss esp0).reg .esp = s.reg .esp - 12 ∧
      (s.deliver kcs kss esp0).seg .ss = s.seg .ss := by
  simp only [deliver, switchStack, if_neg hcpl]
  refine ⟨?_, ?_, rfl⟩
  · apply Stack.setFlag
    apply Stack.setSeg
    have h1 := h.push (by omega) s.eflags
    have h2 := h1.push (by rw [List.length_cons]; omega) ((s.seg .cs).setWidth 32)
    exact h2.push (by rw [List.length_cons, List.length_cons]; omega) s.eip
  · show s.reg .esp - 4 - 4 - 4 = _
    bv_omega

/-- From an outer level the context and the old stack go on the kernel's stack. -/
theorem deliver_outer (hcpl : kcs.setWidth 2 < s.cpl) :
    (s.deliver kcs kss esp0).Stack
        (savedContext s ++ [s.reg .esp, (s.seg .ss).setWidth 32]) ∧
      (s.deliver kcs kss esp0).reg .esp = esp0 - 20 ∧ (s.deliver kcs kss esp0).seg .ss = kss := by
  simp only [deliver, switchStack, if_pos hcpl]
  refine ⟨?_, ?_, rfl⟩
  · apply Stack.setFlag
    apply Stack.setSeg
    have hempty : ((s.set .esp esp0).setSeg .ss kss).Stack [] := trivial
    have h1 := hempty.push (by simp) ((s.seg .ss).setWidth 32)
    have h2 := h1.push (by simp) (s.reg .esp)
    have h3 := h2.push (by simp) s.eflags
    exact (h3.push (by simp) ((s.seg .cs).setWidth 32)).push (by simp) s.eip
  · show esp0 - 4 - 4 - 4 - 4 - 4 = _
    bv_omega

/-- What `iret` makes of a context that `deliver` saved. -/
theorem iret_inner (h : t.Stack (savedContext s ++ ws)) (hcpl : ¬t.cpl < s.cpl) :
    Resumes s t.iret ∧ t.iret.seg .ss = t.seg .ss ∧ t.iret.Stack ws ∧
      t.iret.reg .esp = t.reg .esp + 12 ∧ ∀ r, r ≠ .esp → t.iret.reg r = t.reg r := by
  rw [iret_eq h]
  dsimp only
  rw [if_neg hcpl]
  obtain ⟨hres, hss, hstack, hesp, hreg⟩ := h.iret_frame
  refine ⟨hres, hss, hstack, ?_, hreg⟩
  rw [hesp]
  bv_omega

theorem iret_outer (h : t.Stack (savedContext s ++ [w, (s.seg .ss).setWidth 32]))
    (hcpl : t.cpl < s.cpl) :
    Resumes s t.iret ∧ t.iret.seg .ss = s.seg .ss ∧ t.iret.reg .esp = w ∧
      (∀ r, r ≠ .esp → t.iret.reg r = t.reg r) ∧ t.iret.mem = t.mem := by
  rw [iret_eq h]
  dsimp only
  rw [if_pos hcpl]
  obtain ⟨hres, -, hstack, -, hreg⟩ := h.iret_frame
  have hmem : (t.ret.drop.setSeg .cs (s.seg .cs)).popFlags.mem = t.mem := rfl
  generalize (t.ret.drop.setSeg .cs (s.seg .cs)).popFlags = u at hres hstack hreg hmem ⊢
  have hss : u.drop.top = (s.seg .ss).setWidth 32 := hstack.drop.top
  refine ⟨⟨hres.eip, hres.eflags, hres.cs⟩, ?_, ?_, ?_, hmem⟩
  · rw [hss, setWidth_setWidth_16]
    rfl
  · rw [hstack.top]
    rfl
  · intro r hr
    rw [set_reg, if_neg hr, setSeg_reg, drop_reg, if_neg hr, drop_reg, if_neg hr]
    exact hreg r hr

end Cpu

/-! ## Listings that can be interrupted -/

/-- Between `s` and `t` other code ran and gave everything back: the registers, the flags, up to
`n` words of the stack, and the data at the addresses in `kept`. -/
structure Quiet (kept : BitVec 32 → Prop) (n : Nat) (s t : Cpu) : Prop where
  reg : t.reg = s.reg
  cs : t.seg .cs = s.seg .cs
  ss : t.seg .ss = s.seg .ss
  eflags : t.eflags = s.eflags
  stack : ∀ ws : List (BitVec 32), ws.length ≤ n → s.Stack ws → t.Stack ws
  data : ∀ a, kept a → t.mem a = s.mem a

theorem Quiet.refl (kept : BitVec 32 → Prop) (n : Nat) (s : Cpu) : Quiet kept n s s :=
  ⟨rfl, rfl, rfl, rfl, fun _ _ h => h, fun _ _ => rfl⟩

theorem Quiet.trans {kept : BitVec 32 → Prop} {n : Nat} {s t u : Cpu} (h : Quiet kept n s t)
    (h' : Quiet kept n t u) : Quiet kept n s u :=
  ⟨h'.reg.trans h.reg, h'.cs.trans h.cs, h'.ss.trans h.ss, h'.eflags.trans h.eflags,
    fun ws hws hs => h'.stack ws hws (h.stack ws hws hs),
    fun a ha => (h'.data a ha).trans (h.data a ha)⟩

/-- A call made in a run: the function, the state it was entered in and the one it returned. -/
structure Called where
  routine : BitVec 32
  entry : Cpu
  exit : Cpu

section WpQuiet

variable {L : Type} [DecidableEq L] (env : Env) (code : List (Line L)) (noise : Cpu → Cpu → Prop)
  (Q : List Called → Cpu → Prop)

/-- The run ends in a state with property `Q`, whatever the noise in front of each line.  The list
is that of the calls made so far; `Q` is told all of them. -/
inductive WpQuiet : List (Line L) → List Called → Cpu → Prop
  | done {calls : List Called} {s : Cpu} (h : ∀ t, noise s t → Q calls t) : WpQuiet [] calls s
  | label {l : L} {rest : List (Line L)} {calls : List Called} {s : Cpu}
      (h : WpQuiet rest calls s) : WpQuiet (.label l :: rest) calls s
  | op {o : Op} {rest : List (Line L)} {calls : List Called} {s : Cpu}
      (h : ∀ t, noise s t → WpQuiet rest calls (o.exec t)) : WpQuiet (.op o :: rest) calls s
  | jmp {l : L} {rest : List (Line L)} {calls : List Called} {s : Cpu}
      (h : ∀ t, noise s t → WpQuiet (after code l) calls t) : WpQuiet (.jmp l :: rest) calls s
  | jcc {c : Cond} {l : L} {rest : List (Line L)} {calls : List Called} {s : Cpu}
      (h : ∀ t, noise s t → WpQuiet (if c.holds t then after code l else rest) calls t) :
      WpQuiet (.jcc c l :: rest) calls s
  | call {f back : BitVec 32} {rest : List (Line L)} {calls : List Called} {s : Cpu}
      (result : Cpu → Cpu) (hcall : ∀ t, noise s t → env f (t.push back) = some (result t))
      (h : ∀ t, noise s t → WpQuiet rest (calls ++ [⟨f, t.push back, result t⟩]) (result t)) :
      WpQuiet (.call f back :: rest) calls s
  | callTable {table : BitVec 32} {index : Reg} {back : BitVec 32} {rest : List (Line L)}
      {calls : List Called} {s : Cpu} (result : Cpu → Cpu)
      (hcall : ∀ t, noise s t →
        env (t.mem.load32 (table + 4 * t.reg index)) (t.push back) = some (result t))
      (h : ∀ t, noise s t → WpQuiet rest (calls ++
        [⟨t.mem.load32 (table + 4 * t.reg index), t.push back, result t⟩]) (result t)) :
      WpQuiet (.callTable table index back :: rest) calls s
  | ret {rest : List (Line L)} {calls : List Called} {s : Cpu}
      (h : ∀ t, noise s t → Q calls t.ret) : WpQuiet (.ret :: rest) calls s
  | iret {rest : List (Line L)} {calls : List Called} {s : Cpu}
      (h : ∀ t, noise s t → Q calls t.iret) : WpQuiet (.iret :: rest) calls s

variable {env : Env} {code : List (Line L)} {noise : Cpu → Cpu → Prop}
  {Q : List Called → Cpu → Prop} {rest : List (Line L)} {calls : List Called} {s : Cpu}

/-- Without any noise this is a run of the listing. -/
theorem WpQuiet.wp (hrefl : ∀ s, noise s s) (h : WpQuiet env code noise Q rest calls s) :
    Wp env code rest s fun t => ∃ calls, Q calls t := by
  induction h with
  | done h => exact wp_nil.mpr ⟨_, h _ (hrefl _)⟩
  | label _ ih => exact (wp_label _).mpr ih
  | op _ ih => exact (wp_op _).mpr (ih _ (hrefl _))
  | jmp _ ih => exact (wp_jmp _).mpr (ih _ (hrefl _))
  | jcc _ ih =>
    have hs := ih _ (hrefl _)
    rw [wp_jcc]
    split at hs
    · rename_i hc
      rw [if_pos hc]
      exact hs
    · rename_i hc
      rw [if_neg hc]
      exact hs
  | call result hcall _ ih => exact (wp_call _ _).mpr ⟨_, hcall _ (hrefl _), ih _ (hrefl _)⟩
  | callTable result hcall _ ih =>
    exact (wp_callTable _ _ _).mpr ⟨_, hcall _ (hrefl _), ih _ (hrefl _)⟩
  | ret h => exact wp_ret.mpr ⟨_, h _ (hrefl _)⟩
  | iret h => exact wp_iret.mpr ⟨_, h _ (hrefl _)⟩

/-- A listing that stands more noise stands less. -/
theorem WpQuiet.noise_mono {noise' : Cpu → Cpu → Prop} (hnoise : ∀ s t, noise' s t → noise s t)
    (h : WpQuiet env code noise Q rest calls s) : WpQuiet env code noise' Q rest calls s := by
  induction h with
  | done h => exact .done fun t ht => h t (hnoise _ t ht)
  | label _ ih => exact .label ih
  | op _ ih => exact .op fun t ht => ih t (hnoise _ t ht)
  | jmp _ ih => exact .jmp fun t ht => ih t (hnoise _ t ht)
  | jcc _ ih => exact .jcc fun t ht => ih t (hnoise _ t ht)
  | call result hcall _ ih =>
    exact .call result (fun t ht => hcall t (hnoise _ t ht)) fun t ht => ih t (hnoise _ t ht)
  | callTable result hcall _ ih =>
    exact .callTable result (fun t ht => hcall t (hnoise _ t ht)) fun t ht => ih t (hnoise _ t ht)
  | ret h => exact .ret fun t ht => h t (hnoise _ t ht)
  | iret h => exact .iret fun t ht => h t (hnoise _ t ht)

theorem WpQuiet.mono {Q' : List Called → Cpu → Prop} (hQ : ∀ calls t, Q calls t → Q' calls t)
    (h : WpQuiet env code noise Q rest calls s) : WpQuiet env code noise Q' rest calls s := by
  induction h with
  | done h => exact .done fun t ht => hQ _ t (h t ht)
  | label _ ih => exact .label ih
  | op _ ih => exact .op ih
  | jmp _ ih => exact .jmp ih
  | jcc _ ih => exact .jcc ih
  | call result hcall _ ih => exact .call result hcall ih
  | callTable result hcall _ ih => exact .callTable result hcall ih
  | ret h => exact .ret fun t ht => hQ _ _ (h t ht)
  | iret h => exact .iret fun t ht => hQ _ _ (h t ht)

end WpQuiet

/-! ## Code that saves and restores -/

/-- What is known of a state in the middle of linkage code: the registers, the depth `k` in words
below the stack pointer `p` of the entry, the words on the stack, and the data that is kept. -/
structure Context (kept : BitVec 32 → Prop) (m : Ram) (p : BitVec 32) (cs ss : BitVec 16)
    (g : Reg → BitVec 32) (ws : List (BitVec 32)) (k : Nat) (s : Cpu) : Prop where
  reg : ∀ r, r ≠ .esp → s.reg r = g r
  esp : s.reg .esp = p - BitVec.ofNat 32 (4 * k)
  cs : s.seg .cs = cs
  ss : s.seg .ss = ss
  stack : s.Stack ws
  data : ∀ a, kept a → s.mem a = m a

/-- The data lies outside the `n` words below `p`. -/
def Clear (kept : BitVec 32 → Prop) (p : BitVec 32) (n : Nat) : Prop :=
  ∀ a, kept a → 4 * n ≤ (a - (p - BitVec.ofNat 32 (4 * n))).toNat

namespace Context

variable {kept : BitVec 32 → Prop} {m : Ram} {p : BitVec 32} {cs ss : BitVec 16}
  {g : Reg → BitVec 32} {ws : List (BitVec 32)} {k n : Nat} {s t : Cpu} {w : BitVec 32} {r : Reg}

theorem quiet (c : Context kept m p cs ss g ws k s) (h : Quiet kept n s t) (hn : ws.length ≤ n) :
    Context kept m p cs ss g ws k t where
  reg r hr := by rw [h.reg, c.reg r hr]
  esp := by rw [h.reg, c.esp]
  cs := h.cs.trans c.cs
  ss := h.ss.trans c.ss
  stack := h.stack ws hn c.stack
  data a ha := (h.data a ha).trans (c.data a ha)

theorem depth_succ (p : BitVec 32) (k : Nat) :
    p - BitVec.ofNat 32 (4 * k) - 4 = p - BitVec.ofNat 32 (4 * (k + 1)) := by
  rw [show 4 * (k + 1) = 4 * k + 4 by omega, BitVec.ofNat_add]
  exact (BitVec.sub_sub ..)

theorem push (c : Context kept m p cs ss g ws k s) (hclear : Clear kept p n) (hk : k < n)
    (hlen : ws.length ≤ 2 ^ 20) (w : BitVec 32) :
    Context kept m p cs ss g (w :: ws) (k + 1) (s.push w) where
  reg r hr := by rw [Cpu.push_reg, if_neg hr, c.reg r hr]
  esp := by
    rw [Cpu.push_reg, if_pos rfl, c.esp, depth_succ]
  cs := c.cs
  ss := c.ss
  stack := c.stack.push (by omega) w
  data a ha := by
    have hout := hclear a ha
    rw [Cpu.push_mem, c.data a ha]
    rw [c.esp, depth_succ]
    have ha := a.isLt
    have hp := p.isLt
    rw [BitVec.toNat_sub, BitVec.toNat_sub, BitVec.toNat_ofNat] at hout ⊢
    omega

theorem pop (c : Context kept m p cs ss g (w :: ws) (k + 1) s) (hr : r ≠ .esp) :
    Context kept m p cs ss (Function.update g r w) ws k (s.pop r) where
  reg r' hr' := by
    rw [c.stack.pop_reg, if_neg hr', Function.update_apply]
    by_cases h : r' = r
    · rw [if_pos h, if_pos h]
    · rw [if_neg h, if_neg h, c.reg r' hr']
  esp := by
    rw [c.stack.pop_reg, if_neg (Ne.symm hr), if_pos rfl, c.esp, ← depth_succ,
      BitVec.sub_add_cancel]
  cs := c.cs
  ss := c.ss
  stack := c.stack.pop hr
  data := c.data

theorem popFlags (c : Context kept m p cs ss g (w :: ws) (k + 1) s) :
    Context kept m p cs ss g ws k s.popFlags where
  reg r hr := by
    show s.drop.reg r = _
    rw [Cpu.drop_reg, if_neg hr, c.reg r hr]
  esp := by
    show s.drop.reg .esp = _
    rw [Cpu.drop_reg, if_pos rfl, c.esp, ← depth_succ, BitVec.sub_add_cancel]
  cs := c.cs
  ss := c.ss
  stack := c.stack.popFlags
  data := c.data

/-- A saved stack pointer is popped into `esp` where it was pushed. -/
theorem popEsp (c : Context kept m p cs ss g ((p - BitVec.ofNat 32 (4 * k)) :: ws) (k + 1) s) :
    Context kept m p cs ss g ws k (s.pop .esp) := by
  have hesp : (s.pop .esp).reg .esp = p - BitVec.ofNat 32 (4 * k) := by
    rw [c.stack.pop_reg, if_pos rfl]
  have hdrop : s.drop.reg .esp = p - BitVec.ofNat 32 (4 * k) := by
    rw [Cpu.drop_reg, if_pos rfl, c.esp, ← depth_succ, BitVec.sub_add_cancel]
  constructor
  · intro r hr
    rw [c.stack.pop_reg, if_neg hr, if_neg hr, c.reg r hr]
  · exact hesp
  · exact c.cs
  · exact c.ss
  · show s.mem.Holds ((s.pop .esp).reg .esp) ws
    rw [hesp, ← hdrop]
    exact c.stack.drop
  · exact c.data

/-- A C function called with `vs` on the stack gives the context back, apart from the registers
it may use; it may have overwritten its arguments. -/
theorem cdecl {vs : List (BitVec 32)} {back : BitVec 32}
    (c : Context kept m p cs ss g (vs ++ ws) k s) (hlen : 4 * ((vs ++ ws).length + 1) ≤ 2 ^ 32)
    (h : Cdecl vs.length ws.length (s.push back) t) (hdata : ∀ a, kept a → t.mem a = m a) :
    ∃ vs' : List (BitVec 32), vs'.length = vs.length ∧
      Context kept m p cs ss t.reg (vs' ++ ws) k t := by
  obtain ⟨vs', hvs', hstack⟩ := h.stack (c.stack.push hlen back)
  refine ⟨vs', hvs', fun _ _ => rfl, ?_, h.cs.trans c.cs, h.ss.trans c.ss, hstack, hdata⟩
  rw [h.esp, Cpu.push_reg, if_pos rfl, BitVec.sub_add_cancel, c.esp]

end Context

/-- Whether a conditional jump is taken after `x` has been compared with `y`. -/
def Cond.compares (x y : BitVec 32) : Cond → Bool
  | z => x == y
  | b => decide (x.toNat < y.toNat)
  | a => decide (y.toNat < x.toNat)
  | ae => decide (y.toNat ≤ x.toNat)

theorem Cond.holds_cmpl {src dst : Operand} {s t : Cpu}
    (h : t.eflags = ((Op.cmpl src dst).exec s).eflags) (c : Cond) :
    c.holds t = c.compares (dst.read s) (src.read s) := by
  have hflag : ∀ f, t.flag f = ((Op.cmpl src dst).exec s).flag f := fun f => by
    unfold Cpu.flag
    rw [h]
  generalize hx : dst.read s = x at *
  generalize hy : src.read s = y at *
  have hcarry : t.flag .carry = decide (x.toNat < y.toNat) := by
    rw [hflag, Op.cmpl_carry, hx, hy]
    rfl
  have hzero : t.flag .zero = (x == y) := by
    rw [hflag, Op.cmpl_zero, hx, hy, Bool.eq_iff_iff, beq_iff_eq, beq_iff_eq]
    constructor
    · intro hsub
      rw [← BitVec.sub_add_cancel x y, hsub]
      exact BitVec.zero_add y
    · rintro rfl
      exact BitVec.sub_self x
  have hne : (x == y) = decide (x.toNat = y.toNat) := by
    rw [Bool.eq_iff_iff, beq_iff_eq, decide_eq_true_eq]
    exact BitVec.toNat_inj.symm
  cases c with
  | z => exact hzero
  | b => exact hcarry
  | a =>
    show (!t.flag .carry && !t.flag .zero) = decide _
    rw [hcarry, hzero, hne, Bool.eq_iff_iff]
    simp only [Bool.and_eq_true, Bool.not_eq_true', decide_eq_false_iff_not, decide_eq_true_eq]
    omega
  | ae =>
    show (!t.flag .carry) = decide _
    rw [hcarry, Bool.eq_iff_iff]
    simp only [Bool.not_eq_true', decide_eq_false_iff_not, decide_eq_true_eq]
    omega

/-- The state the processor enters from an outer level. -/
theorem Context.deliver {kept : BitVec 32 → Prop} {s : Cpu} {kcs kss : BitVec 16}
    {esp0 : BitVec 32} {n : Nat} (hcpl : kcs.setWidth 2 < s.cpl) (hclear : Clear kept esp0 n)
    (hn : 5 ≤ n) :
    Context kept s.mem esp0 kcs kss s.reg
      (Cpu.savedContext s ++ [s.reg .esp, (s.seg .ss).setWidth 32]) 5 (s.deliver kcs kss esp0) := by
  have hempty : Context kept s.mem esp0 (s.seg .cs) kss s.reg [] 0
      ((s.set .esp esp0).setSeg .ss kss) := by
    constructor
    · intro r hr
      rw [Cpu.setSeg_reg, Cpu.set_reg, if_neg hr]
    · rw [Cpu.setSeg_reg, Cpu.set_reg_self]
      exact (BitVec.sub_zero esp0).symm
    · rfl
    · rfl
    · trivial
    · intro a _
      rfl
  have hpushed := ((((hempty.push hclear (by omega) (by simp) ((s.seg .ss).setWidth 32)).push hclear
    (by omega) (by simp) (s.reg .esp)).push hclear (by omega) (by simp) s.eflags).push hclear
      (by omega) (by simp) ((s.seg .cs).setWidth 32)).push hclear (by omega) (by simp) s.eip
  rw [Cpu.deliver, Cpu.switchStack, if_pos hcpl]
  exact ⟨hpushed.reg, hpushed.esp, rfl, hpushed.ss, hpushed.stack, hpushed.data⟩

section Rules

variable {L : Type} [DecidableEq L] {env : Env} {code rest : List (Line L)}
  {Q : List Called → Cpu → Prop} {calls : List Called} {kept : BitVec 32 → Prop} {m : Ram}
  {p : BitVec 32} {cs ss : BitVec 16} {g : Reg → BitVec 32} {ws : List (BitVec 32)} {k d n : Nat}
  {s : Cpu} {w : BitVec 32} {r : Reg}

theorem WpQuiet.pushl {src : Operand} (c : Context kept m p cs ss g ws k s)
    (hsrc : ∀ t, Context kept m p cs ss g ws k t → src.read t = w) (hclear : Clear kept p d)
    (hk : k < d) (hlen : ws.length ≤ n) (hn : n ≤ 2 ^ 20)
    (h : ∀ t, Context kept m p cs ss g (w :: ws) (k + 1) t →
      WpQuiet env code (Quiet kept n) Q rest calls t) :
    WpQuiet env code (Quiet kept n) Q (.op (.pushl src) :: rest) calls s := by
  apply WpQuiet.op
  intro t ht
  have hc := c.quiet ht hlen
  have hpush := hc.push hclear hk (by omega) w
  show WpQuiet _ _ _ _ _ _ (t.push (src.read t))
  rw [hsrc t hc]
  exact h _ hpush

theorem WpQuiet.pushfl (c : Context kept m p cs ss g ws k s) (hclear : Clear kept p d) (hk : k < d)
    (hlen : ws.length ≤ n) (hn : n ≤ 2 ^ 20)
    (h : ∀ t w, Context kept m p cs ss g (w :: ws) (k + 1) t →
      WpQuiet env code (Quiet kept n) Q rest calls t) :
    WpQuiet env code (Quiet kept n) Q (.op .pushfl :: rest) calls s := by
  apply WpQuiet.op
  intro t ht
  exact h _ _ ((c.quiet ht hlen).push hclear hk (by omega) t.eflags)

theorem WpQuiet.popl (c : Context kept m p cs ss g (w :: ws) (k + 1) s) (hr : r ≠ .esp)
    (hlen : (w :: ws).length ≤ n)
    (h : ∀ t, Context kept m p cs ss (Function.update g r w) ws k t →
      WpQuiet env code (Quiet kept n) Q rest calls t) :
    WpQuiet env code (Quiet kept n) Q (.op (.popl r) :: rest) calls s := by
  apply WpQuiet.op
  intro t ht
  exact h _ ((c.quiet ht hlen).pop hr)

theorem WpQuiet.popfl (c : Context kept m p cs ss g (w :: ws) (k + 1) s)
    (hlen : (w :: ws).length ≤ n)
    (h : ∀ t, Context kept m p cs ss g ws k t → WpQuiet env code (Quiet kept n) Q rest calls t) :
    WpQuiet env code (Quiet kept n) Q (.op .popfl :: rest) calls s := by
  apply WpQuiet.op
  intro t ht
  exact h _ (c.quiet ht hlen).popFlags

theorem WpQuiet.poplEsp
    (c : Context kept m p cs ss g ((p - BitVec.ofNat 32 (4 * k)) :: ws) (k + 1) s)
    (hlen : ws.length + 1 ≤ n)
    (h : ∀ t, Context kept m p cs ss g ws k t → WpQuiet env code (Quiet kept n) Q rest calls t) :
    WpQuiet env code (Quiet kept n) Q (.op (.popl .esp) :: rest) calls s := by
  apply WpQuiet.op
  intro t ht
  exact h _ (c.quiet ht hlen).popEsp

/-- A register loaded from an operand that the context determines. -/
theorem WpQuiet.movl {src : Operand} (c : Context kept m p cs ss g ws k s) (hr : r ≠ .esp)
    (hsrc : ∀ t, Context kept m p cs ss g ws k t → src.read t = w) (hlen : ws.length ≤ n)
    (h : ∀ t, Context kept m p cs ss (Function.update g r w) ws k t →
      WpQuiet env code (Quiet kept n) Q rest calls t) :
    WpQuiet env code (Quiet kept n) Q (.op (.movl src (.reg r)) :: rest) calls s := by
  apply WpQuiet.op
  intro t ht
  have hc := c.quiet ht hlen
  apply h
  constructor
  · intro r' hr'
    rw [Op.movl_reg, hsrc t hc, Function.update_apply, hc.reg r' hr']
  · rw [Op.movl_reg, if_neg (Ne.symm hr), hc.esp]
  · exact hc.cs
  · exact hc.ss
  · show t.mem.Holds (((Op.movl src (.reg r)).exec t).reg .esp) ws
    rw [Op.movl_reg, if_neg (Ne.symm hr)]
    exact hc.stack
  · exact hc.data

/-- The words of the stack as operands. -/
theorem Context.read (c : Context kept m p cs ss g ws k s) {i : Nat} (hi : ws[i]? = some w) :
    (Operand.mem (BitVec.ofNat 32 (4 * i)) .esp).read s = w :=
  Ram.Holds.getElem c.stack hi

/-- A comparison with an immediate and the jump that reads its flags. -/
theorem WpQuiet.compare {cc : Cond} {l : L} (c : Context kept m p cs ss g ws k s) (hr : r ≠ .esp)
    (hlen : ws.length ≤ n)
    (h : ∀ t, Context kept m p cs ss g ws k t →
      WpQuiet env code (Quiet kept n) Q (if cc.compares (g r) w then after code l else rest) calls
        t) :
    WpQuiet env code (Quiet kept n) Q (.op (.cmpl (.imm w) (.reg r)) :: .jcc cc l :: rest) calls
      s := by
  apply WpQuiet.op
  intro t ht
  have hc := c.quiet ht hlen
  have hcmp : Context kept m p cs ss g ws k ((Op.cmpl (.imm w) (.reg r)).exec t) :=
    ⟨hc.reg, hc.esp, hc.cs, hc.ss, hc.stack, hc.data⟩
  apply WpQuiet.jcc
  intro u hu
  have hholds : cc.holds u = cc.compares (g r) w := by
    rw [Cond.holds_cmpl hu.eflags]
    show cc.compares (t.reg r) w = _
    rw [hc.reg r hr]
  rw [hholds]
  exact h u (hcmp.quiet hu hlen)

/-- A row of pushes. -/
theorem WpQuiet.pushRegs (rs : List Reg) (hrs : ∀ r ∈ rs, r ≠ .esp)
    (c : Context kept m p cs ss g ws k s) (hclear : Clear kept p d) (hk : k + rs.length ≤ d)
    (hlen : ws.length + rs.length ≤ n) (hn : n ≤ 2 ^ 20)
    (h : ∀ t, Context kept m p cs ss g ((rs.map g).reverse ++ ws) (k + rs.length) t →
      WpQuiet env code (Quiet kept n) Q rest calls t) :
    WpQuiet env code (Quiet kept n) Q (rs.map (fun r => .op (.pushl (.reg r))) ++ rest) calls
      s := by
  induction rs generalizing ws k s with
  | nil => exact h s c
  | cons q rs ih =>
    rw [List.length_cons] at hk hlen
    refine WpQuiet.pushl c (fun t ht => ht.reg q (hrs q List.mem_cons_self)) hclear (by omega)
      (by omega) hn ?_
    intro t ht
    refine ih (fun r hr => hrs r (List.mem_cons_of_mem q hr)) ht (by omega)
      (by rw [List.length_cons]; omega) ?_
    intro u hu
    apply h u
    rw [List.map_cons, List.reverse_cons, List.append_assoc, List.length_cons,
      Nat.add_comm rs.length, ← Nat.add_assoc]
    exact hu

/-- A row of pops, each with the word it finds. -/
theorem WpQuiet.popRegs (rs : List (Reg × BitVec 32)) (hrs : ∀ r ∈ rs, r.1 ≠ .esp)
    (c : Context kept m p cs ss g (rs.map Prod.snd ++ ws) (k + rs.length) s)
    (hlen : rs.length + ws.length ≤ n)
    (h : ∀ t, Context kept m p cs ss (rs.foldl (fun g r => Function.update g r.1 r.2) g) ws k t →
      WpQuiet env code (Quiet kept n) Q rest calls t) :
    WpQuiet env code (Quiet kept n) Q (rs.map (fun r => .op (.popl r.1)) ++ rest) calls s := by
  induction rs generalizing g s with
  | nil => exact h s c
  | cons q rs ih =>
    rw [List.length_cons] at hlen
    have hq : Context kept m p cs ss g (q.2 :: (rs.map Prod.snd ++ ws)) (k + rs.length + 1) s := c
    refine WpQuiet.popl hq (hrs q List.mem_cons_self)
      (by rw [List.length_cons, List.length_append, List.length_map]; omega) ?_
    intro t ht
    exact ih (fun r hr => hrs r (List.mem_cons_of_mem q hr)) ht (by omega) h

end Rules

end Machine
