import Kernel391.Lib.Interrupts
import Mathlib.Logic.Relation

/-!
# Interrupt and system call linkage (`link_idt.S`, `syscall_link.S`, `ece391syscall.S`)

The assembly between the processor and the C handlers.  The handlers are compiled C and a
parameter: what is assumed of one is that it returns and keeps to the calling convention.  What is
shown is that the interrupted code gets its general registers, flags, code and stack segment and
stack back (the stubs do not save `ds` and `es`), and that a system call takes its arguments from
the user program to the handler and the result the other way.
-/

namespace Kernel391

open Machine

/-! ## Interrupt requests -/

/-- `irq0` to `irq15` are this listing with their own handlers. -/
def irqCode (handler back : BitVec 32) : List (Line Empty) :=
  [.op .pushal,
    .op .pushfl,
    .call handler back,
    .op .popfl,
    .op .popal,
    .iret]

/-- The state in which the stub calls its handler. -/
def irqEntry (back : BitVec 32) (s : Cpu) : Cpu := ((s.pushAll).push s.pushAll.eflags).push back

/-- A handler between the saves and the restores of the stub leaves the state it was entered in,
but for memory. -/
theorem irqEntry_restores {back : BitVec 32} {d v : Cpu} {ws : List (BitVec 32)} (hws : d.Stack ws)
    (hlen : ws.length < 2 ^ 21) (h : Cdecl 0 (9 + ws.length) (irqEntry back d) v) :
    v.popFlags.popAll.Stack ws ∧ v.popFlags.popAll.reg = d.reg ∧
      v.popFlags.popAll.seg .cs = d.seg .cs ∧ v.popFlags.popAll.seg .ss = d.seg .ss := by
  have hsaved := hws.pushAll (by omega)
  have hlist : (Cpu.saved d.reg ++ ws).length = 8 + ws.length := by
    rw [List.length_append]
    rfl
  have hflags := hsaved.push (by omega) d.pushAll.eflags
  have hentry := hflags.push (by rw [List.length_cons]; omega) back
  obtain ⟨vs, hvs, hstack⟩ := @Cdecl.stack _ _ _ [] _
    (h.mono (show (d.pushAll.eflags :: (Cpu.saved d.reg ++ ws)).length ≤ 9 + ws.length by
      rw [List.length_cons]
      omega)) hentry
  rw [List.length_eq_zero_iff.mp hvs] at hstack
  obtain ⟨hrest, hreg⟩ := hstack.popFlags.popAll
  refine ⟨hrest, ?_, h.cs, h.ss⟩
  funext r
  by_cases hr : r = .esp
  · subst hr
    have hback : (irqEntry back d).reg .esp = d.reg .esp - 32 - 4 - 4 := by
      rw [← Cpu.pushAll_esp]
      rfl
    have hflagged : v.popFlags.reg .esp = v.reg .esp + 4 := rfl
    rw [Cpu.popAll_esp, hflagged, h.esp, hback]
    bv_omega
  · exact hreg r hr

variable {env : Env} {handler back esp0 : BitVec 32} {kcs kss : BitVec 16} {s v : Cpu}
  {ws : List (BitVec 32)}

/-- An interrupt of user code, over the kernel's stack. -/
theorem irqCode_outer (hcpl : kcs.setWidth 2 < s.cpl)
    (hv : env handler (irqEntry back (s.deliver kcs kss esp0)) = some v)
    (hcdecl : Cdecl 0 14 (irqEntry back (s.deliver kcs kss esp0)) v) :
    Wp env (irqCode handler back) (irqCode handler back) (s.deliver kcs kss esp0) fun t =>
      t.reg = s.reg ∧ Cpu.Resumes s t ∧ t.seg .ss = s.seg .ss := by
  simp only [irqCode, wp_op, wp_call, wp_iret]
  refine ⟨v, hv, ?_⟩
  show v.popFlags.popAll.iret.reg = _ ∧ Cpu.Resumes s v.popFlags.popAll.iret ∧ _
  obtain ⟨hstack, -, -⟩ := @Cpu.deliver_outer s kcs kss esp0 hcpl
  obtain ⟨hrest, hreg, hcs, -⟩ := irqEntry_restores hstack (by simp [Cpu.savedContext])
    (hcdecl.mono (by simp [Cpu.savedContext]))
  have hlevel : v.popFlags.popAll.cpl < s.cpl := by
    unfold Cpu.cpl at hcpl ⊢
    rw [hcs]
    exact hcpl
  obtain ⟨hres, hss, hesp, hkeep, -⟩ := Cpu.iret_outer hrest hlevel
  refine ⟨?_, hres, hss⟩
  funext r
  by_cases hr : r = .esp
  · rw [hr, hesp]
  · rw [hkeep r hr, hreg, Cpu.deliver_reg hr]

/-- An interrupt of kernel code, on the stack that is in use. -/
theorem irqCode_inner (hcpl : ¬kcs.setWidth 2 < s.cpl) (hws : s.Stack ws)
    (hlen : ws.length < 2 ^ 20) (hv : env handler (irqEntry back (s.deliver kcs kss esp0)) = some v)
    (hcdecl : Cdecl 0 (12 + ws.length) (irqEntry back (s.deliver kcs kss esp0)) v) :
    Wp env (irqCode handler back) (irqCode handler back) (s.deliver kcs kss esp0) fun t =>
      t.reg = s.reg ∧ Cpu.Resumes s t ∧ t.seg .ss = s.seg .ss ∧ t.Stack ws := by
  simp only [irqCode, wp_op, wp_call, wp_iret]
  refine ⟨v, hv, ?_⟩
  show v.popFlags.popAll.iret.reg = _ ∧ Cpu.Resumes s v.popFlags.popAll.iret ∧ _
  obtain ⟨hstack, hesp0, hss0⟩ := @Cpu.deliver_inner s ws kcs kss esp0 hws hcpl (by omega)
  obtain ⟨hrest, hreg, hcs, hss⟩ := irqEntry_restores hstack
    (by rw [List.length_append]; simp [Cpu.savedContext]; omega)
    (hcdecl.mono (by rw [List.length_append]; simp [Cpu.savedContext]; omega))
  have hlevel : ¬v.popFlags.popAll.cpl < s.cpl := by
    unfold Cpu.cpl at hcpl ⊢
    rw [hcs]
    exact hcpl
  obtain ⟨hres, hsegss, hws', hesp, hkeep⟩ := Cpu.iret_inner hrest hlevel
  refine ⟨?_, hres, hsegss.trans (hss.trans hss0), hws'⟩
  funext r
  by_cases hr : r = .esp
  · rw [hr, hesp, hreg, hesp0, BitVec.sub_add_cancel]
  · rw [hkeep r hr, hreg, Cpu.deliver_reg hr]

/-- The interrupted code finds its general registers, the flags, `cs`, `ss` and its stack as they
were. -/
theorem irq_transparent (hkcs : kcs.setWidth 2 = 0#2) (hws : s.Stack ws)
    (hlen : ws.length < 2 ^ 20) (hv : env handler (irqEntry back (s.deliver kcs kss esp0)) = some v)
    (hcdecl : Cdecl 0 (14 + ws.length) (irqEntry back (s.deliver kcs kss esp0)) v) :
    Wp env (irqCode handler back) (irqCode handler back) (s.deliver kcs kss esp0) fun t =>
      t.reg = s.reg ∧ Cpu.Resumes s t ∧ t.seg .ss = s.seg .ss ∧ (s.cpl = 0 → t.Stack ws) := by
  by_cases hcpl : kcs.setWidth 2 < s.cpl
  · refine (irqCode_outer hcpl hv (hcdecl.mono (by omega))).mono ?_
    rintro t ⟨hreg, hres, hss⟩
    refine ⟨hreg, hres, hss, ?_⟩
    intro hzero
    rw [hkcs, hzero] at hcpl
    exact absurd hcpl (by decide)
  · refine (irqCode_inner hcpl hws hlen hv (hcdecl.mono (by omega))).mono ?_
    rintro t ⟨hreg, hres, hss, hstack⟩
    exact ⟨hreg, hres, hss, fun _ => hstack⟩

-- functions that return at once
def returnOnly : Env := fun _ c => some c.ret

theorem irq_transparent_user :
    let s : Cpu := ⟨fun _ => 0x83ffff0, fun _ => 0x2b, 0x8048100, 0x202, fun _ => 0⟩
    s.cpl = 3 ∧ Wp returnOnly (irqCode 0x402000 0x401000) (irqCode 0x402000 0x401000)
      (s.deliver 0x10 0x18 0x7ffffc) fun t =>
        t.reg = s.reg ∧ Cpu.Resumes s t ∧ t.seg .ss = s.seg .ss ∧ (s.cpl = 0 → t.Stack []) :=
  ⟨by decide, irq_transparent (by decide) trivial (by decide) rfl (Cdecl.ret ..)⟩

/-- One interrupt, of kernel code or of user code.  Its handler keeps the calling convention and
the data, and of the program's own stack, where that is another one, it keeps `n` words. -/
def Interrupted (env : Env) (kcs kss : BitVec 16) (esp0 : BitVec 32) (kept : BitVec 32 → Prop)
    (n : Nat) (s t : Cpu) : Prop :=
  (∀ a, kept a ∨ kcs.setWidth 2 < s.cpl ∧ (a - s.reg .esp).toNat < 4 * n → t.mem a = s.mem a) ∧
    ∃ handler back v lines,
      env handler (irqEntry back (s.deliver kcs kss esp0)) = some v ∧
      Cdecl 0 (if kcs.setWidth 2 < s.cpl then 14 else 12 + n)
        (irqEntry back (s.deliver kcs kss esp0)) v ∧
      exec env (irqCode handler back) lines (irqCode handler back) (s.deliver kcs kss esp0) = some t

/-- Any number of interrupts, one after the other. -/
def Interrupts (env : Env) (kcs kss : BitVec 16) (esp0 : BitVec 32) (kept : BitVec 32 → Prop)
    (n : Nat) : Cpu → Cpu → Prop :=
  Relation.ReflTransGen (Interrupted env kcs kss esp0 kept n)

variable {kept : BitVec 32 → Prop} {n : Nat} {t : Cpu}

/-- The stub of an interrupt of user code leaves the user's stack to its handler. -/
theorem Interrupted.quiet_outer (hcpl : kcs.setWidth 2 < s.cpl)
    (h : Interrupted env kcs kss esp0 kept n s t) : Quiet kept n s t := by
  obtain ⟨hdata, handler, back, v, lines, hv, hcdecl, hrun⟩ := h
  rw [if_pos hcpl] at hcdecl
  obtain ⟨lines', t', hrun', hreg, hres, hss⟩ := irqCode_outer hcpl hv hcdecl
  obtain rfl := exec_det hrun hrun'
  refine ⟨hreg, hres.cs, hss, hres.eflags, ?_, fun a ha => hdata a (.inl ha)⟩
  intro ws hws hstack
  show t.mem.Holds (t.reg .esp) ws
  rw [hreg]
  refine hstack.congr fun k hk => hdata _ (.inr ⟨hcpl, ?_⟩)
  rw [BitVec.add_comm, BitVec.add_sub_cancel, BitVec.toNat_ofNat]
  omega

/-- That of an interrupt of kernel code works on the stack it finds. -/
theorem Interrupted.quiet_inner (hn : n < 2 ^ 20) (hcpl : ¬kcs.setWidth 2 < s.cpl)
    (h : Interrupted env kcs kss esp0 kept n s t) : Quiet kept n s t := by
  obtain ⟨hdata, handler, back, v, lines, hv, hcdecl, hrun⟩ := h
  rw [if_neg hcpl] at hcdecl
  have hstub : ∀ ws : List (BitVec 32), ws.length ≤ n → s.Stack ws →
      t.reg = s.reg ∧ Cpu.Resumes s t ∧ t.seg .ss = s.seg .ss ∧ t.Stack ws := by
    intro ws hws hstack
    obtain ⟨lines', t', hrun', ht'⟩ := irqCode_inner hcpl hstack (by omega) hv
      (hcdecl.mono (by omega))
    rw [exec_det hrun hrun']
    exact ht'
  obtain ⟨hreg, hres, hss, -⟩ := hstub [] (Nat.zero_le n) trivial
  exact ⟨hreg, hres.cs, hss, hres.eflags, fun ws hlen h => (hstub ws hlen h).2.2.2,
    fun a ha => hdata a (.inl ha)⟩

theorem Interrupts.quiet (hn : n < 2 ^ 20) (h : Interrupts env kcs kss esp0 kept n s t) :
    Quiet kept n s t := by
  induction h with
  | refl => exact Quiet.refl kept n s
  | @tail u t _ hlast ih =>
    refine ih.trans ?_
    by_cases hcpl : kcs.setWidth 2 < u.cpl
    · exact hlast.quiet_outer hcpl
    · exact hlast.quiet_inner hn hcpl

/-! ## System calls -/

/-- The addresses in `syscall_link.S`: those of the C functions, of the table and of the lines
behind the two calls. -/
structure SyscallSymbols where
  jumptable : BitVec 32
  halt : BitVec 32
  execute : BitVec 32
  read : BitVec 32
  write : BitVec 32
  open_ : BitVec 32
  close : BitVec 32
  getargs : BitVec 32
  vidmap : BitVec 32
  setHandler : BitVec 32
  sigreturn : BitVec 32
  back : BitVec 32
  errnoLocation : BitVec 32
  errnoBack : BitVec 32

inductive SyscallLabel where
  | invalidSyscall | done
deriving DecidableEq

variable (sym : SyscallSymbols)

/-- `syscall_jumptable`, with a null for the number no call has. -/
def syscallJumptable : List (BitVec 32) :=
  [0, sym.halt, sym.execute, sym.read, sym.write, sym.open_, sym.close, sym.getargs, sym.vidmap,
    sym.setHandler, sym.sigreturn]

def sysCallSaves : List (Line SyscallLabel) :=
  [.op .sti,
    .op (.pushl (.reg .ebx)),
    .op (.pushl (.reg .ecx)),
    .op (.pushl (.reg .edx)),
    .op (.pushl (.reg .esi)),
    .op (.pushl (.reg .edi)),
    .op (.pushl (.reg .ebp)),
    .op (.pushl (.reg .esp)),
    .op .pushfl,
    .op (.pushl (.reg .edx)),
    .op (.pushl (.reg .ecx)),
    .op (.pushl (.reg .ebx))]

def sysCallDispatch : List (Line SyscallLabel) :=
  [.op (.cmpl (.imm 1) (.reg .eax)),
    .jcc .b .invalidSyscall,
    .op (.cmpl (.imm 10) (.reg .eax)),
    .jcc .a .invalidSyscall,
    .callTable sym.jumptable .eax sym.back,
    .jmp .done]

-- no jump leads here
def sysCallErrno : List (Line SyscallLabel) :=
  [.op (.xorl (.reg .ecx) (.reg .ecx)),
    .op (.subl (.reg .eax) (.reg .ecx)),
    .op (.pushl (.reg .ecx)),
    .call sym.errnoLocation sym.errnoBack,
    .op (.popl .ecx),
    .op (.movl (.reg .ecx) (.mem 0 .eax))]

def sysCallRestores : List (Line SyscallLabel) :=
  [.op (.popl .ebx),
    .op (.popl .ecx),
    .op (.popl .edx),
    .op .popfl,
    .op (.popl .esp),
    .op (.popl .ebp),
    .op (.popl .edi),
    .op (.popl .esi),
    .op (.popl .edx),
    .op (.popl .ecx),
    .op (.popl .ebx),
    .iret]

def sysCallCode : List (Line SyscallLabel) :=
  sysCallSaves ++ sysCallDispatch sym ++ sysCallErrno sym ++
    .label .invalidSyscall :: .op (.movl (.imm (-1)) (.reg .eax)) ::
      .label .done :: sysCallRestores

theorem after_invalidSyscall :
    after (sysCallCode sym) .invalidSyscall =
      .op (.movl (.imm (-1)) (.reg .eax)) :: .label .done :: sysCallRestores := rfl

theorem after_done : after (sysCallCode sym) .done = sysCallRestores := rfl

/-- The bytes of the table. -/
def InJumptable (a : BitVec 32) : Prop := (a - sym.jumptable).toNat < 44

variable {sym} {user : Cpu}

/-- The arguments of a system call, in the registers of the user program. -/
def syscallArgs (user : Cpu) : List (BitVec 32) := [user.reg .ebx, user.reg .ecx, user.reg .edx]

/-- The states in which the linkage code enters a function of the kernel: the return address and
the arguments are on the kernel's stack, below what has been saved, and the data is as in `m`. -/
structure SyscallEntry (sym : SyscallSymbols) (kcs kss : BitVec 16) (esp0 : BitVec 32)
    (kept : BitVec 32 → Prop) (m : Ram) (args : List (BitVec 32)) (c : Cpu) : Prop where
  stack : c.Stack (sym.back :: args)
  esp : c.reg .esp = esp0 - BitVec.ofNat 32 (4 * 17)
  cs : c.seg .cs = kcs
  ss : c.seg .ss = kss
  data : ∀ a, kept a → c.mem a = m a

/-- The function at `f` returns when entered so, keeps to the calling convention, and does not
write on the data. -/
def SyscallHandled (env : Env) (entered : Cpu → Prop) (kept : BitVec 32 → Prop)
    (f : BitVec 32) : Prop :=
  ∀ c, entered c → ∃ v, env f c = some v ∧ Cdecl 3 13 c v ∧ ∀ a, kept a → v.mem a = c.mem a

/-- What the caller of a system call gets in `eax`: with a number in the table, the result of the
one call the run made, of the function with that number; with any other, -1 and no call. -/
def SyscallResult (sym : SyscallSymbols) (env : Env) (entered : Cpu → Prop) (number : Nat)
    (calls : List Called) (result : BitVec 32) : Prop :=
  if 1 ≤ number ∧ number ≤ 10 then
    ∃ call, calls = [call] ∧ (syscallJumptable sym)[number]? = some call.routine ∧
      entered call.entry ∧ env call.routine call.entry = some call.exit ∧
      result = call.exit.reg .eax
  else calls = [] ∧ result = -1

/-- The user program goes on behind its `int $0x80` with nothing changed but `eax`. -/
structure SyscallReturns (sym : SyscallSymbols) (env : Env) (entered : Cpu → Prop)
    (kept : BitVec 32 → Prop) (user : Cpu) (calls : List Called) (t : Cpu) : Prop where
  resumes : Cpu.Resumes user t
  ss : t.seg .ss = user.seg .ss
  reg : ∀ r, r ≠ .eax → t.reg r = user.reg r
  eax : SyscallResult sym env entered (user.reg .eax).toNat calls (t.reg .eax)
  data : ∀ a, kept a → t.mem a = user.mem a

/-- The words on the kernel's stack when a system call has saved the registers. -/
def syscallFrame (user : Cpu) (esp0 : BitVec 32) : List (BitVec 32) :=
  [esp0 - BitVec.ofNat 32 (4 * 11), user.reg .ebp, user.reg .edi, user.reg .esi, user.reg .edx,
    user.reg .ecx, user.reg .ebx] ++
    (Cpu.savedContext user ++ [user.reg .esp, (user.seg .ss).setWidth 32])

/-- From `done` on the registers are restored, except for the result. -/
theorem sysCallRestores_returns {g : Reg → BitVec 32} {a₁ a₂ a₃ flags : BitVec 32}
    {entered : Cpu → Prop} {calls : List Called} {s : Cpu} (hcpl : kcs.setWidth 2 < user.cpl)
    (c : Context kept user.mem esp0 kcs kss g
      (a₁ :: a₂ :: a₃ :: flags :: syscallFrame user esp0) 16 s)
    (hresult : SyscallResult sym env entered (user.reg .eax).toNat calls (g .eax)) :
    WpQuiet env (sysCallCode sym) (Quiet kept 17) (SyscallReturns sym env entered kept user)
      sysCallRestores calls s := by
  refine WpQuiet.popRegs [(.ebx, a₁), (.ecx, a₂), (.edx, a₃)] (by simp) c (by simp [syscallFrame,
    Cpu.savedContext]) ?_
  intro s₁ h₁
  refine WpQuiet.popfl h₁ (by simp [syscallFrame, Cpu.savedContext]) ?_
  intro s₂ h₂
  refine WpQuiet.poplEsp h₂ (by simp [Cpu.savedContext]) ?_
  intro s₃ h₃
  refine WpQuiet.popRegs [(.ebp, user.reg .ebp), (.edi, user.reg .edi), (.esi, user.reg .esi),
    (.edx, user.reg .edx), (.ecx, user.reg .ecx), (.ebx, user.reg .ebx)] (by simp) h₃
    (by simp [Cpu.savedContext]) ?_
  intro s₄ h₄
  apply WpQuiet.iret
  intro t ht
  have h₅ := h₄.quiet ht (by simp [Cpu.savedContext])
  have hlevel : t.cpl < user.cpl := by
    unfold Cpu.cpl at hcpl ⊢
    rw [h₅.cs]
    exact hcpl
  obtain ⟨hres, hss, hesp, hreg, hmem⟩ := Cpu.iret_outer h₅.stack hlevel
  refine ⟨hres, hss, ?_, ?_, ?_⟩
  · intro r hr
    by_cases hr' : r = .esp
    · rw [hr', hesp]
    · rw [hreg r hr', h₅.reg r hr']
      cases r <;> simp at hr hr' ⊢
  · rw [hreg _ (by simp), h₅.reg _ (by simp)]
    simpa [Function.update_apply] using hresult
  · intro a ha
    rw [hmem, h₅.data a ha]

theorem inJumptable_add {k : Nat} (hk : k < 4 * (syscallJumptable sym).length) :
    InJumptable sym (sym.jumptable + BitVec.ofNat 32 k) := by
  change k < 44 at hk
  unfold InJumptable
  rw [BitVec.add_comm, BitVec.add_sub_cancel, BitVec.toNat_ofNat]
  omega

theorem getElem_jumptable {s : Cpu} {m : Ram} {g : Reg → BitVec 32} {p : BitVec 32}
    {ws : List (BitVec 32)} {k : Nat} {f : BitVec 32}
    (htable : m.Holds sym.jumptable (syscallJumptable sym))
    (hkept : ∀ a, InJumptable sym a → kept a) (c : Context kept m p kcs kss g ws k s)
    (hf : (syscallJumptable sym)[(g .eax).toNat]? = some f) :
    s.mem.load32 (sym.jumptable + 4 * s.reg .eax) = f := by
  have hkept : s.mem.Holds sym.jumptable (syscallJumptable sym) := by
    apply htable.congr
    intro i hi
    exact c.data _ (hkept _ (inJumptable_add hi))
  have haddr : (4 * s.reg .eax : BitVec 32) = BitVec.ofNat 32 (4 * (g .eax).toNat) := by
    rw [c.reg .eax (by simp), BitVec.ofNat_mul, BitVec.ofNat_toNat, BitVec.setWidth_eq]
    rfl
  rw [haddr]
  exact hkept.getElem hf

theorem sysCallInvalid_returns {flags : BitVec 32} {entered : Cpu → Prop} {s : Cpu}
    (hcpl : kcs.setWidth 2 < user.cpl)
    (hn : ¬(1 ≤ (user.reg .eax).toNat ∧ (user.reg .eax).toNat ≤ 10))
    (c : Context kept user.mem esp0 kcs kss user.reg
      (user.reg .ebx :: user.reg .ecx :: user.reg .edx :: flags :: syscallFrame user esp0) 16 s) :
    WpQuiet env (sysCallCode sym) (Quiet kept 17) (SyscallReturns sym env entered kept user)
      (after (sysCallCode sym) .invalidSyscall) [] s := by
  rw [after_invalidSyscall]
  refine WpQuiet.movl (w := -1) c (by simp) (fun _ _ => rfl) (by simp [syscallFrame,
    Cpu.savedContext]) ?_
  intro t hset
  apply WpQuiet.label
  apply sysCallRestores_returns hcpl hset
  unfold SyscallResult
  rw [if_neg hn, Function.update_self]
  exact ⟨rfl, rfl⟩

/-- The call through the table, from any state that noise in front of it leads to. -/
theorem sysCallTable_called {flags f : BitVec 32} {s : Cpu}
    (htable : user.mem.Holds sym.jumptable (syscallJumptable sym))
    (hkept : ∀ a, InJumptable sym a → kept a) (hclear : Clear kept esp0 17)
    (hf : (syscallJumptable sym)[(user.reg .eax).toNat]? = some f)
    (hhandler : SyscallHandled env
      (SyscallEntry sym kcs kss esp0 kept user.mem (syscallArgs user)) kept f)
    (c : Context kept user.mem esp0 kcs kss user.reg
      (syscallArgs user ++ flags :: syscallFrame user esp0) 16 s) :
    s.mem.load32 (sym.jumptable + 4 * s.reg .eax) = f ∧
      SyscallEntry sym kcs kss esp0 kept user.mem (syscallArgs user) (s.push sym.back) ∧
      ∃ v a₁ a₂ a₃, env f (s.push sym.back) = some v ∧
        Context kept user.mem esp0 kcs kss v.reg
          (a₁ :: a₂ :: a₃ :: flags :: syscallFrame user esp0) 16 v := by
  have hpush := c.push hclear (by omega) (by simp [syscallArgs, syscallFrame, Cpu.savedContext])
    sym.back
  have hentry : SyscallEntry sym kcs kss esp0 kept user.mem (syscallArgs user) (s.push sym.back) :=
    ⟨Ram.Holds.append_left hpush.stack, hpush.esp, hpush.cs, hpush.ss, hpush.data⟩
  obtain ⟨v, hv, hcdecl, hdata⟩ := hhandler _ hentry
  obtain ⟨vs, hvs, hctx⟩ := @Context.cdecl _ _ _ _ _ _ (flags :: syscallFrame user esp0) _ _ _
    (syscallArgs user) sym.back c (by simp [syscallArgs, syscallFrame, Cpu.savedContext]) hcdecl
    fun a ha => (hdata a ha).trans (hpush.data a ha)
  refine ⟨getElem_jumptable htable hkept c hf, hentry, v, ?_⟩
  match vs, hvs with
  | [a₁, a₂, a₃], _ => exact ⟨a₁, a₂, a₃, hv, hctx⟩

theorem sysCallDispatch_returns {flags : BitVec 32} {s : Cpu}
    {rest : List (Line SyscallLabel)} (hcpl : kcs.setWidth 2 < user.cpl)
    (htable : user.mem.Holds sym.jumptable (syscallJumptable sym))
    (hkept : ∀ a, InJumptable sym a → kept a) (hclear : Clear kept esp0 17)
    (hhandler : ∀ f, 1 ≤ (user.reg .eax).toNat →
      (syscallJumptable sym)[(user.reg .eax).toNat]? = some f →
      SyscallHandled env (SyscallEntry sym kcs kss esp0 kept user.mem (syscallArgs user)) kept f)
    (c : Context kept user.mem esp0 kcs kss user.reg
      (syscallArgs user ++ flags :: syscallFrame user esp0) 16 s) :
    WpQuiet env (sysCallCode sym) (Quiet kept 17)
      (SyscallReturns sym env (SyscallEntry sym kcs kss esp0 kept user.mem (syscallArgs user)) kept
        user) (sysCallDispatch sym ++ rest) [] s := by
  have hlen : (syscallArgs user ++ flags :: syscallFrame user esp0).length ≤ 17 := by
    simp [syscallArgs, syscallFrame, Cpu.savedContext]
  refine WpQuiet.compare c (by simp) hlen ?_
  intro s₁ c₁
  by_cases hlow : (user.reg .eax).toNat < 1
  · rw [if_pos (show Cond.compares (user.reg .eax) 1 .b = true from decide_eq_true hlow)]
    exact sysCallInvalid_returns hcpl (by omega) c₁
  rw [if_neg (show ¬Cond.compares (user.reg .eax) 1 .b = true by
    rw [show Cond.compares (user.reg .eax) 1 .b = decide _ from rfl, decide_eq_true_eq]
    exact hlow)]
  refine WpQuiet.compare c₁ (by simp) hlen ?_
  intro s₂ c₂
  by_cases hhigh : 10 < (user.reg .eax).toNat
  · rw [if_pos (show Cond.compares (user.reg .eax) 10 .a = true from decide_eq_true hhigh)]
    exact sysCallInvalid_returns hcpl (by omega) c₂
  rw [if_neg (show ¬Cond.compares (user.reg .eax) 10 .a = true by
    rw [show Cond.compares (user.reg .eax) 10 .a = decide _ from rfl, decide_eq_true_eq]
    exact hhigh)]
  have hindex : (user.reg .eax).toNat < (syscallJumptable sym).length := by
    show _ < 11
    omega
  have hf := List.getElem?_eq_getElem hindex
  generalize (syscallJumptable sym)[(user.reg .eax).toNat] = f at hf
  have hcalled := fun t (ht : Quiet kept 17 s₂ t) =>
    sysCallTable_called htable hkept hclear hf (hhandler f (by omega) hf) (c₂.quiet ht hlen)
  choose hload hentry result a₁ a₂ a₃ hcall hctx using hcalled
  refine WpQuiet.callTable (fun t => (env f (t.push sym.back)).getD t) ?_ ?_
  · intro t ht
    rw [hload t ht, hcall t ht]
    rfl
  · intro t ht
    rw [hload t ht, hcall t ht, Option.getD_some]
    apply WpQuiet.jmp
    intro u hu
    rw [after_done]
    refine sysCallRestores_returns hcpl ((hctx t ht).quiet hu hlen) ?_
    unfold SyscallResult
    rw [if_pos (by omega)]
    exact ⟨_, rfl, hf, hentry t ht, hcall t ht, rfl⟩

/-- A system call from a user program, with noise anywhere or nowhere. -/
theorem sysCallCode_returns (hcpl : kcs.setWidth 2 < user.cpl)
    (htable : user.mem.Holds sym.jumptable (syscallJumptable sym))
    (hkept : ∀ a, InJumptable sym a → kept a) (hclear : Clear kept esp0 17)
    (hhandler : ∀ f, 1 ≤ (user.reg .eax).toNat →
      (syscallJumptable sym)[(user.reg .eax).toNat]? = some f →
      SyscallHandled env (SyscallEntry sym kcs kss esp0 kept user.mem (syscallArgs user)) kept f) :
    WpQuiet env (sysCallCode sym) (Quiet kept 17)
      (SyscallReturns sym env (SyscallEntry sym kcs kss esp0 kept user.mem (syscallArgs user)) kept
        user) (sysCallCode sym) [] (user.deliver kcs kss esp0) := by
  have hentry := @Context.deliver kept user kcs kss esp0 17 hcpl hclear (by omega)
  apply WpQuiet.op
  intro s₀ h₀
  have hsti := hentry.quiet h₀ (by simp [Cpu.savedContext])
  have c₀ : Context kept user.mem esp0 kcs kss user.reg _ 5 (Op.sti.exec s₀) :=
    ⟨hsti.reg, hsti.esp, hsti.cs, hsti.ss, hsti.stack, hsti.data⟩
  refine WpQuiet.pushRegs [.ebx, .ecx, .edx, .esi, .edi, .ebp] (by simp) c₀ hclear (by simp)
    (by simp [Cpu.savedContext]) (by omega) ?_
  intro s₁ c₁
  refine WpQuiet.pushl c₁ (fun t ht => ht.esp) hclear (by simp) (by simp [Cpu.savedContext])
    (by omega) ?_
  intro s₂ c₂
  refine WpQuiet.pushfl c₂ hclear (by simp) (by simp [Cpu.savedContext]) (by omega) ?_
  intro s₃ flags c₃
  refine WpQuiet.pushRegs [.edx, .ecx, .ebx] (by simp) c₃ hclear (by simp)
    (by simp [Cpu.savedContext]) (by omega) ?_
  intro s₄ c₄
  exact sysCallDispatch_returns hcpl htable hkept hclear hhandler c₄

/-- Whatever interrupts come in whatever lines of the linkage code, a system call gives the user
program its result and everything else back.  `halt` is the call that does not return. -/
theorem sys_call_returns (hcpl : kcs.setWidth 2 < user.cpl) (hhalt : (user.reg .eax).toNat ≠ 1)
    (htable : user.mem.Holds sym.jumptable (syscallJumptable sym))
    (hkept : ∀ a, InJumptable sym a → kept a) (hclear : Clear kept esp0 17)
    (hhandler : ∀ f, 2 ≤ (user.reg .eax).toNat →
      (syscallJumptable sym)[(user.reg .eax).toNat]? = some f →
      SyscallHandled env (SyscallEntry sym kcs kss esp0 kept user.mem (syscallArgs user)) kept f) :
    WpQuiet env (sysCallCode sym) (Interrupts env kcs kss esp0 kept 17)
      (SyscallReturns sym env (SyscallEntry sym kcs kss esp0 kept user.mem (syscallArgs user)) kept
        user) (sysCallCode sym) [] (user.deliver kcs kss esp0) := by
  refine (sysCallCode_returns hcpl htable hkept hclear ?_).noise_mono
    fun s t h => h.quiet (by omega)
  intro f hpos hf
  exact hhandler f (by omega) hf

-- addresses for the tests below
def sampleSymbols : SyscallSymbols :=
  ⟨0x401000, 0x402000, 0x402100, 0x402200, 0x402300, 0x402400, 0x402500, 0x402600, 0x402700,
    0x402800, 0x402900, 0x401080, 0x4010c0, 0x401090⟩

def sampleMemory : Ram :=
  (syscallJumptable sampleSymbols).zipIdx.foldl
    (fun m entry => m.store32 (sampleSymbols.jumptable + BitVec.ofNat 32 (4 * entry.2)) entry.1)
    fun _ => 0

theorem sampleMemory_holds :
    sampleMemory.Holds sampleSymbols.jumptable (syscallJumptable sampleSymbols) := by
  decide +kernel

theorem sampleTable_clear : Clear (InJumptable sampleSymbols) 0x7ffffc 17 := by
  intro a ha
  have haddr : a.toNat < 0x401000 + 44 ∧ 0x401000 ≤ a.toNat := by
    unfold InJumptable at ha
    rw [BitVec.toNat_sub] at ha
    have hjump : sampleSymbols.jumptable.toNat = 0x401000 := rfl
    have := a.isLt
    omega
  rw [BitVec.toNat_sub,
    show (0x7ffffc - BitVec.ofNat 32 (4 * 17) : BitVec 32).toNat = 0x7fffb8 from rfl]
  omega

def sampleUser : Cpu := ⟨fun _ => 3, fun _ => 0x2b, 0x8048100, 0x202, sampleMemory⟩

theorem sys_call_returns_read :
    sampleUser.cpl = 3 ∧ WpQuiet returnOnly (sysCallCode sampleSymbols)
      (Interrupts returnOnly 0x10 0x18 0x7ffffc (InJumptable sampleSymbols) 17)
      (SyscallReturns sampleSymbols returnOnly (SyscallEntry sampleSymbols 0x10 0x18 0x7ffffc
        (InJumptable sampleSymbols) sampleUser.mem (syscallArgs sampleUser))
        (InJumptable sampleSymbols) sampleUser)
      (sysCallCode sampleSymbols) [] (sampleUser.deliver 0x10 0x18 0x7ffffc) :=
  ⟨by decide, sys_call_returns (by decide) (by decide) sampleMemory_holds (fun _ h => h)
    sampleTable_clear fun _ _ _ c _ => ⟨c.ret, rfl, Cdecl.ret .., fun _ _ => rfl⟩⟩

/-! ## The library of user programs -/

/-- `DO_CALL` up to the `int $0x80`. -/
def doCallEntry (number : Nat) : List (Line Empty) :=
  [.op (.pushl (.reg .ebx)),
    .op (.movl (.imm (BitVec.ofNat 32 number)) (.reg .eax)),
    .op (.movl (.mem 8 .esp) (.reg .ebx)),
    .op (.movl (.mem 12 .esp) (.reg .ecx)),
    .op (.movl (.mem 16 .esp) (.reg .edx))]

/-- `DO_CALL` behind it. -/
def doCallReturn : List (Line Empty) :=
  [.op (.popl .ebx),
    .ret]

/-- The state the `int` instruction leaves to the kernel; `behind` is the next instruction. -/
def trap (kcs kss : BitVec 16) (esp0 behind : BitVec 32) (s : Cpu) : Cpu :=
  { s with eip := behind }.deliver kcs kss esp0

variable {number : Nat} {ret a₁ a₂ a₃ behind : BitVec 32}

theorem doCallEntry_loads (hstack : s.Stack [ret, a₁, a₂, a₃])
    (hclear : Clear kept (s.reg .esp) 1) :
    WpQuiet env (doCallEntry number) (Quiet kept 5) (fun _ u =>
      Context kept s.mem (s.reg .esp) (s.seg .cs) (s.seg .ss) (fun
        | .eax => BitVec.ofNat 32 number
        | .ebx => a₁
        | .ecx => a₂
        | .edx => a₃
        | r => s.reg r) [s.reg .ebx, ret, a₁, a₂, a₃] 1 u) (doCallEntry number) [] s := by
  have c₀ : Context kept s.mem (s.reg .esp) (s.seg .cs) (s.seg .ss) s.reg [ret, a₁, a₂, a₃] 0 s :=
    ⟨fun _ _ => rfl, (BitVec.sub_zero _).symm, rfl, rfl, hstack, fun _ _ => rfl⟩
  refine WpQuiet.pushl c₀ (fun t ht => ht.reg .ebx (by simp)) hclear (by omega) (by simp)
    (by omega) ?_
  intro t₁ c₁
  refine WpQuiet.movl c₁ (by simp) (fun _ _ => rfl) (by simp) ?_
  intro t₂ c₂
  refine WpQuiet.movl c₂ (by simp) (fun t ht => ht.read (i := 2) rfl) (by simp) ?_
  intro t₃ c₃
  refine WpQuiet.movl c₃ (by simp) (fun t ht => ht.read (i := 3) rfl) (by simp) ?_
  intro t₄ c₄
  refine WpQuiet.movl c₄ (by simp) (fun t ht => ht.read (i := 4) rfl) (by simp) ?_
  intro t₅ c₅
  apply WpQuiet.done
  intro u hu
  have c₆ := c₅.quiet hu (by simp)
  refine ⟨?_, c₆.esp, c₆.cs, c₆.ss, c₆.stack, c₆.data⟩
  intro r hr
  rw [c₆.reg r hr]
  cases r <;> rfl

/-- The data kept during the system call: also the word that the wrapper has pushed. -/
def KeptInCall (kept : BitVec 32 → Prop) (p a : BitVec 32) : Prop :=
  kept a ∨ (a - (p - 4)).toNat < 4

theorem doCallReturn_returns {m : Ram} {g : Reg → BitVec 32} {p b : BitVec 32} {cs ss : BitVec 16}
    {t : Cpu} (c : Context kept m p cs ss g [b, ret] 1 t) :
    WpQuiet env doCallReturn (Quiet kept 2) (fun _ w => w.eip = ret ∧ w.reg .esp = p + 4 ∧
      (∀ r, r ≠ .esp → w.reg r = Function.update g .ebx b r) ∧ w.seg .cs = cs ∧ w.seg .ss = ss ∧
      ∀ a, kept a → w.mem a = m a) doCallReturn [] t := by
  refine WpQuiet.popl c (by simp) (by simp) ?_
  intro t₁ c₁
  apply WpQuiet.ret
  intro t₂ ht₂
  have c₂ := c₁.quiet ht₂ (by simp)
  refine ⟨c₂.stack.top, ?_, ?_, c₂.cs, c₂.ss, c₂.data⟩
  · show t₂.drop.reg .esp = _
    rw [Cpu.drop_reg, if_pos rfl, c₂.esp]
    exact congrArg (· + 4) (BitVec.sub_zero p)
  · intro r hr
    show t₂.drop.reg r = _
    rw [Cpu.drop_reg, if_neg hr, c₂.reg r hr]

theorem SyscallEntry.mono {kept' : BitVec 32 → Prop} {m m' : Ram} {args : List (BitVec 32)}
    {c : Cpu} (h : SyscallEntry sym kcs kss esp0 kept' m' args c) (hkept : ∀ a, kept a → kept' a)
    (hm : ∀ a, kept a → m' a = m a) : SyscallEntry sym kcs kss esp0 kept m args c :=
  ⟨h.stack, h.esp, h.cs, h.ss, fun a ha => (h.data a (hkept a ha)).trans (hm a ha)⟩

theorem SyscallResult.mono {entered entered' : Cpu → Prop} {calls : List Called} {w : BitVec 32}
    (h : SyscallResult sym env entered number calls w) (hentered : ∀ c, entered c → entered' c) :
    SyscallResult sym env entered' number calls w := by
  unfold SyscallResult at h ⊢
  split at h
  · rename_i hnumber
    obtain ⟨call, hcalls, hf, hentry, hv, hw⟩ := h
    rw [if_pos hnumber]
    exact ⟨call, hcalls, hf, hentered _ hentry, hv, hw⟩
  · rename_i hnumber
    rw [if_neg hnumber]
    exact h

/-- What a wrapper leaves to its caller: it has kept to the calling convention and to the data, and
the result is that of the call the kernel made. -/
structure DoCallReturns (sym : SyscallSymbols) (env : Env) (entered : Cpu → Prop)
    (kept : BitVec 32 → Prop) (number : Nat) (ret : BitVec 32) (s : Cpu) (calls : List Called)
    (w : Cpu) : Prop where
  eip : w.eip = ret
  cdecl : Cdecl 3 0 s w
  data : ∀ a, kept a → w.mem a = s.mem a
  eax : SyscallResult sym env entered number calls (w.reg .eax)

/-- The three parts of a wrapper, with noise anywhere or nowhere. -/
theorem doCall_returns (hnumber : number < 2 ^ 32)
    (hstack : s.Stack [ret, a₁, a₂, a₃]) (hcpl : kcs.setWidth 2 < s.cpl)
    (htable : s.mem.Holds sym.jumptable (syscallJumptable sym))
    (hkept : ∀ a, InJumptable sym a ∨ (a - s.reg .esp).toNat < 4 → kept a)
    (huser : Clear kept (s.reg .esp) 1) (hkernel : Clear (KeptInCall kept (s.reg .esp)) esp0 17)
    (hhandler : ∀ f, (syscallJumptable sym)[number]? = some f →
      SyscallHandled env (SyscallEntry sym kcs kss esp0 kept s.mem [a₁, a₂, a₃])
        (KeptInCall kept (s.reg .esp)) f) :
    WpQuiet env (doCallEntry number) (Quiet kept 5) (fun _ u =>
      WpQuiet env (sysCallCode sym) (Quiet (KeptInCall kept (s.reg .esp)) 17) (fun calls t =>
        WpQuiet env doCallReturn (Quiet kept 2) (fun _ w =>
          DoCallReturns sym env (SyscallEntry sym kcs kss esp0 kept s.mem [a₁, a₂, a₃]) kept number
            ret s calls w)
        doCallReturn [] t)
      (sysCallCode sym) [] (trap kcs kss esp0 behind u))
    (doCallEntry number) [] s := by
  refine (doCallEntry_loads hstack huser).mono ?_
  intro _ u hu
  have heax : (u.reg .eax).toNat = number := by
    rw [hu.reg .eax (by simp)]
    exact Nat.mod_eq_of_lt hnumber
  have hargs : syscallArgs { u with eip := behind } = [a₁, a₂, a₃] := by
    show [u.reg .ebx, u.reg .ecx, u.reg .edx] = _
    rw [hu.reg .ebx (by simp), hu.reg .ecx (by simp), hu.reg .edx (by simp)]
  have hesp : u.reg .esp = s.reg .esp - 4 := hu.esp
  have hentered : ∀ c, SyscallEntry sym kcs kss esp0 (KeptInCall kept (s.reg .esp)) u.mem
      [a₁, a₂, a₃] c → SyscallEntry sym kcs kss esp0 kept s.mem [a₁, a₂, a₃] c :=
    fun c hc => hc.mono (fun a ha => .inl ha) hu.data
  have hcall : WpQuiet env (sysCallCode sym) (Quiet (KeptInCall kept (s.reg .esp)) 17)
      (SyscallReturns sym env (SyscallEntry sym kcs kss esp0 (KeptInCall kept (s.reg .esp)) u.mem
        [a₁, a₂, a₃]) (KeptInCall kept (s.reg .esp)) { u with eip := behind })
      (sysCallCode sym) [] (trap kcs kss esp0 behind u) := by
    rw [← hargs]
    refine @sysCallCode_returns env esp0 kcs kss _ sym { u with eip := behind } ?_ ?_ ?_ hkernel ?_
    · show _ < (u.seg .cs).setWidth 2
      rw [hu.cs]
      exact hcpl
    · refine htable.congr fun k hk => hu.data _ (hkept _ (.inl ?_))
      exact inJumptable_add hk
    · exact fun a ha => .inl (hkept a (.inl ha))
    · intro f _ hf c hc
      change (syscallJumptable sym)[(u.reg .eax).toNat]? = some f at hf
      rw [heax] at hf
      rw [hargs] at hc
      exact hhandler f hf c (hentered c hc)
  refine hcall.mono ?_
  intro calls t ht
  have hreturn : Context kept s.mem (s.reg .esp) (s.seg .cs) (s.seg .ss) t.reg
      [s.reg .ebx, ret] 1 t := by
    refine ⟨fun _ _ => rfl, ?_, ht.resumes.cs.trans hu.cs, ht.ss.trans hu.ss, ?_, ?_⟩
    · exact (ht.reg .esp (by simp)).trans hu.esp
    · -- the pushed word and the return address are kept
      have hwords : u.mem.Holds (u.reg .esp) ([s.reg .ebx, ret] ++ [a₁, a₂, a₃]) := hu.stack
      show t.mem.Holds (t.reg .esp) _
      rw [ht.reg .esp (by simp)]
      refine hwords.append_left.congr fun k hk => ht.data _ ?_
      change k < 8 at hk
      show KeptInCall kept _ (u.reg .esp + _)
      rw [hesp]
      by_cases hlow : k < 4
      · right
        rw [BitVec.add_comm, BitVec.add_sub_cancel, BitVec.toNat_ofNat]
        omega
      · left
        apply hkept
        right
        have haddr : s.reg .esp - 4 + BitVec.ofNat 32 k - s.reg .esp = BitVec.ofNat 32 k - 4 := by
          bv_omega
        rw [haddr, BitVec.toNat_sub, BitVec.toNat_ofNat, show (4 : BitVec 32).toNat = 4 from rfl]
        omega
    · intro a ha
      rw [ht.data a (.inl ha)]
      exact hu.data a ha
  refine (doCallReturn_returns hreturn).mono ?_
  rintro _ w ⟨heip, hwesp, hreg, hcs, hss, hdata⟩
  refine ⟨heip, ⟨hwesp, ?_, hcs, hss, ?_⟩, hdata, ?_⟩
  · intro r hr
    by_cases hr' : r = .ebx
    · rw [hreg r (by rintro rfl; simp at hr), hr', Function.update_self]
    · rw [hreg r (by rintro rfl; simp at hr), Function.update_of_ne hr',
        ht.reg r (by rintro rfl; simp at hr)]
      show u.reg r = _
      rw [hu.reg r (by rintro rfl; simp at hr)]
      rcases hr with rfl | rfl | rfl | rfl
      · exact absurd rfl hr'
      all_goals rfl
  · intro k hk
    exact absurd hk (by omega)
  · have hresult := ht.eax.mono hentered
    rw [show (Cpu.reg { u with eip := behind } .eax).toNat = number from heax] at hresult
    rw [hreg .eax (by simp), Function.update_of_ne (by simp)]
    exact hresult

/-- A wrapper is itself a C function of three arguments: whatever interrupts come before, in and
after its system call, it has the kernel call the function with its number and these arguments
once, returns the result of that call, and keeps to the calling convention. -/
theorem do_call_returns (hnumber : 2 ≤ number ∧ number ≤ 10)
    (hstack : s.Stack [ret, a₁, a₂, a₃]) (hcpl : kcs.setWidth 2 < s.cpl)
    (htable : s.mem.Holds sym.jumptable (syscallJumptable sym))
    (hkept : ∀ a, InJumptable sym a ∨ (a - s.reg .esp).toNat < 4 → kept a)
    (huser : Clear kept (s.reg .esp) 1) (hkernel : Clear (KeptInCall kept (s.reg .esp)) esp0 17)
    (hhandler : ∀ f, (syscallJumptable sym)[number]? = some f →
      SyscallHandled env (SyscallEntry sym kcs kss esp0 kept s.mem [a₁, a₂, a₃])
        (KeptInCall kept (s.reg .esp)) f) :
    WpQuiet env (doCallEntry number) (Interrupts env kcs kss esp0 kept 5) (fun _ u =>
      WpQuiet env (sysCallCode sym)
        (Interrupts env kcs kss esp0 (KeptInCall kept (s.reg .esp)) 17) (fun calls t =>
        WpQuiet env doCallReturn (Interrupts env kcs kss esp0 kept 2) (fun _ w =>
          DoCallReturns sym env (SyscallEntry sym kcs kss esp0 kept s.mem [a₁, a₂, a₃]) kept number
            ret s calls w)
        doCallReturn [] t)
      (sysCallCode sym) [] (trap kcs kss esp0 behind u))
    (doCallEntry number) [] s := by
  have hquiet := @doCall_returns _ _ _ _ _ _ _ _ _ _ _ _ behind (by omega) hstack hcpl htable hkept
    huser hkernel hhandler
  refine (hquiet.mono ?_).noise_mono fun s t h => h.quiet (by omega)
  intro _ u hu
  refine (hu.mono ?_).noise_mono fun s t h => h.quiet (by omega)
  intro calls t ht
  exact ht.noise_mono fun s t h => h.quiet (by omega)

def sampleKept (a : BitVec 32) : Prop :=
  InJumptable sampleSymbols a ∨ (a - 0x83ffff0).toNat < 4

theorem sampleKept_bounds {a : BitVec 32} (h : sampleKept a) :
    a.toNat < 0x401000 + 44 ∧ 0x401000 ≤ a.toNat ∨ 0x83ffff0 ≤ a.toNat ∧ a.toNat < 0x83ffff4 := by
  have ha := a.isLt
  rcases h with h | h
  · have hjump : sampleSymbols.jumptable.toNat = 0x401000 := rfl
    unfold InJumptable at h
    rw [BitVec.toNat_sub] at h
    omega
  · rw [BitVec.toNat_sub, show (0x83ffff0 : BitVec 32).toNat = 0x83ffff0 from rfl] at h
    omega

def sampleCaller : Cpu := ⟨fun _ => 0x83ffff0, fun _ => 0x2b, 0x8048100, 0x202, sampleMemory⟩

theorem do_call_returns_read :
    sampleCaller.cpl = 3 ∧ Wp returnOnly (doCallEntry 3) (doCallEntry 3) sampleCaller fun u =>
      Wp returnOnly (sysCallCode sampleSymbols) (sysCallCode sampleSymbols)
        (trap 0x10 0x18 0x7ffffc 0x8048110 u) fun t =>
          Wp returnOnly doCallReturn doCallReturn t fun w => ∃ calls,
            DoCallReturns sampleSymbols returnOnly (SyscallEntry sampleSymbols 0x10 0x18 0x7ffffc
              sampleKept sampleCaller.mem [0, 0, 0]) sampleKept 3 0 sampleCaller calls w := by
  have hesp : sampleCaller.reg .esp = 0x83ffff0 := rfl
  refine ⟨by decide, ?_⟩
  have hcall := @do_call_returns returnOnly 0x7ffffc 0x10 0x18 sampleCaller sampleKept sampleSymbols
    3 0 0 0 0 0x8048110 (by decide)
    (show sampleMemory.Holds 0x83ffff0 [0, 0, 0, 0] by decide +kernel) (by decide)
    sampleMemory_holds (fun a ha => ha)
    (by
      intro a ha
      have hbounds := sampleKept_bounds ha
      rw [BitVec.toNat_sub, hesp,
        show (0x83ffff0 - BitVec.ofNat 32 (4 * 1) : BitVec 32).toNat = 0x83fffec from rfl]
      omega)
    (by
      intro a ha
      have hbounds : a.toNat < 0x401000 + 44 ∧ 0x401000 ≤ a.toNat ∨
          0x83fffec ≤ a.toNat ∧ a.toNat < 0x83ffff4 := by
        rcases ha with ha | ha
        · have := sampleKept_bounds ha
          omega
        · have := a.isLt
          rw [BitVec.toNat_sub, hesp,
            show (0x83ffff0 - 4 : BitVec 32).toNat = 0x83fffec from rfl] at ha
          omega
      rw [BitVec.toNat_sub,
        show (0x7ffffc - BitVec.ofNat 32 (4 * 17) : BitVec 32).toNat = 0x7fffb8 from rfl]
      omega)
    (fun _ _ c _ => ⟨c.ret, rfl, Cdecl.ret .., fun _ _ => rfl⟩)
  refine (hcall.wp fun _ => .refl).mono ?_
  rintro u ⟨_, hu⟩
  refine (hu.wp fun _ => .refl).mono ?_
  rintro t ⟨calls, ht⟩
  refine (ht.wp fun _ => .refl).mono ?_
  rintro w ⟨_, hw⟩
  exact ⟨calls, hw⟩

end Kernel391
