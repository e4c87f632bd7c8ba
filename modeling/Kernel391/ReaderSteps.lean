import Kernel391.Lib.Run
import Kernel391.LineDiscipline
import Mathlib.Logic.Function.Basic

/-!
# Readers and keyboard interrupts

`terminal_read` cut into the steps between which an interrupt can come.  Each terminal has one
process that can be reading; which process runs is left open, so that a step of any reader can
follow a step of any other.
-/

namespace Kernel391

open Machine Term

/-- Where a process is in `terminal_read`, with the locals it still needs. -/
inductive ReadPhase where
  | idle
  | reset (nbytes : Int)
  | poll (nbytes : Int)
  | clear (nbytes : Int)
  | copy
  | clearBuffer (result : ReadResult)
deriving DecidableEq

def ReadPhase.isPoll : ReadPhase → Bool
  | .poll _ => true
  | _ => false

/-- The terminals and their readers, with a record of what went in and what came out: the line that
is being edited on each terminal, as an ideal editor has it, the lines that ENTER has ended while a
reader was waiting, and what the readers got. -/
structure IoState where
  term : Term
  phase : Nat → ReadPhase
  line : Nat → List UInt8
  floor : Nat → Nat
  typed : Nat → List (List UInt8)
  returned : Nat → List ReadResult

inductive IoEvent where
  | key (scancode : UInt8)
  | call (terminal : Fin 3) (nbytes : Int)
  | reader (terminal : Fin 3)

-- The copy loop, the newline fix-up and the `strncpy` to the caller's buffer.
def Term.copyLine (s : Term) : ReadResult × Term :=
  let copied := lineLoop s.displayedRow MAX_BUFF_LENGTH 0
  let reads := (List.range copied.length).map (Access.keyBuffer s.displayTerminal)
  (⟨copied.length, strncpy (lineBuffer copied) MAX_BUFF_LENGTH 0⟩,
    { s with trace := s.trace ++ reads })

namespace IoState

def display (w : IoState) : Nat := w.term.displayTerminal

/-- The reader of terminal `t` is waiting for ENTER. -/
def polling (w : IoState) (t : Nat) : Bool := (w.phase t).isPoll

/-- The editor of the displayed terminal. -/
def editor (w : IoState) : LineEditor :=
  ⟨w.line w.display, w.floor w.display, w.term.lShiftCheck, w.term.rShiftCheck, w.term.ctrlCheck,
    w.term.capslockCheck⟩

/-- The line of the displayed terminal has changed. -/
def edit (term : Term) (line : List UInt8) (floor : Nat) (w : IoState) : IoState :=
  { w with
    term := term
    line := Function.update w.line w.display line
    floor := Function.update w.floor w.display floor }

/-- ENTER ends the line, which is `typed` for the reader if that is waiting. -/
def key (rom : Nat → UInt8) (scancode : UInt8) (w : IoState) : IoState :=
  let term := w.term.keyboardHandler rom scancode
  if keyLabel scancode = .enter then
    { w.edit term [] 0 with
      typed :=
        if w.polling w.display then
          Function.update w.typed w.display (w.typed w.display ++ [w.line w.display])
        else w.typed }
  else
    let e := w.editor.press scancode
    w.edit term e.line e.floor

def setPhase (t : Nat) (p : ReadPhase) (w : IoState) : IoState :=
  { w with phase := Function.update w.phase t p }

def setTerm (term : Term) (w : IoState) : IoState := { w with term := term }

def ret (t : Nat) (r : ReadResult) (w : IoState) : IoState :=
  { w.setPhase t .idle with returned := Function.update w.returned t (w.returned t ++ [r]) }

/-- The next step of the process that reads on terminal `t`. -/
def readerStep (t : Nat) (w : IoState) : Option IoState :=
  match w.phase t with
  | .idle => none
  | .reset nbytes => some ((w.setTerm w.term.terminalReadStart).setPhase t (.poll nbytes))
  | .poll nbytes => some (if w.term.enterDown then w.setPhase t (.clear nbytes) else w)
  | .clear nbytes =>
      let w := w.setTerm (w.term.setEnterDown false)
      some (if nbytes ≤ 0 then w.ret t ⟨-1, []⟩ else w.setPhase t .copy)
  | .copy => some ((w.setTerm w.term.copyLine.2).setPhase t (.clearBuffer w.term.copyLine.1))
  | .clearBuffer r => some ((w.setTerm w.term.clearBuffer).ret t r)

end IoState

def ioStep (rom : Nat → UInt8) (w : IoState) : IoEvent → Option IoState
  | .key scancode => some (w.key rom scancode)
  | .call t nbytes => if w.phase t = .idle then some (w.setPhase t (.reset nbytes)) else none
  | .reader t => w.readerStep t

/-! ## The steps in a row -/

namespace IoState

variable {w : IoState} {t : Nat}

@[simp] theorem setPhase_phase (p : ReadPhase) : (w.setPhase t p).phase t = p := by
  simp only [setPhase, Function.update_self]

@[simp] theorem setTerm_typed (s : Term) : (w.setTerm s).typed = w.typed := rfl

@[simp] theorem ret_typed (r : ReadResult) : (w.ret t r).typed = w.typed := rfl

@[simp] theorem setPhase_setPhase (p q : ReadPhase) :
    (w.setPhase t p).setPhase t q = w.setPhase t q := by
  simp only [setPhase, Function.update_idem]

theorem ret_setPhase (p : ReadPhase) (r : ReadResult) : (w.setPhase t p).ret t r = w.ret t r := by
  simp only [ret, setPhase_setPhase]
  rfl

theorem setTerm_setPhase (p : ReadPhase) (s : Term) :
    (w.setPhase t p).setTerm s = (w.setTerm s).setPhase t p := rfl

theorem readerStep_poll {nbytes : Int} (hphase : w.phase t = .poll nbytes)
    (hdown : w.term.enterDown = true) : w.readerStep t = some (w.setPhase t (.clear nbytes)) := by
  simp only [readerStep, hphase, if_pos hdown]

theorem readerStep_clear {nbytes : Int} (hphase : w.phase t = .clear nbytes) (hn : 0 < nbytes) :
    w.readerStep t = some ((w.setTerm (w.term.setEnterDown false)).setPhase t .copy) := by
  simp only [readerStep, hphase, if_neg (show ¬nbytes ≤ 0 by omega)]

theorem readerStep_copy (hphase : w.phase t = .copy) : w.readerStep t =
    some ((w.setTerm w.term.copyLine.2).setPhase t (.clearBuffer w.term.copyLine.1)) := by
  simp only [readerStep, hphase]

theorem readerStep_clearBuffer {r : ReadResult} (hphase : w.phase t = .clearBuffer r) :
    w.readerStep t = some ((w.setTerm w.term.clearBuffer).ret t r) := by
  simp only [readerStep, hphase]

end IoState

/-- A reader that is not interrupted does what `terminal_read` does. -/
theorem readerStep_resume (rom : Nat → UInt8) {w : IoState} {t : Fin 3} {nbytes : Int}
    (hphase : w.phase t = .poll nbytes) {r : ReadResult} {s : Term}
    (hresume : w.term.terminalReadResume nbytes = some (r, s)) :
    ∃ n, run (ioStep rom) w (List.replicate n (.reader t)) = some ((w.setTerm s).ret t r) := by
  unfold terminalReadResume at hresume
  split at hresume
  · next hdown =>
    have hpoll : ioStep rom w (.reader t) = some (w.setPhase t (.clear nbytes)) :=
      IoState.readerStep_poll hphase hdown
    split at hresume
    · next hn =>
      cases hresume
      have hclear : ioStep rom (w.setPhase t (.clear nbytes)) (.reader t) =
          some ((w.setTerm (w.term.setEnterDown false)).ret t ⟨-1, []⟩) := by
        simp only [ioStep, IoState.readerStep, IoState.setPhase_phase, if_pos hn,
          IoState.setTerm_setPhase, IoState.ret_setPhase]
        rfl
      exact ⟨2, run_cons_eq_some.mpr ⟨_, hpoll, run_cons_eq_some.mpr ⟨_, hclear, rfl⟩⟩⟩
    · next hn =>
      cases hresume
      have hclear : ioStep rom (w.setPhase t (.clear nbytes)) (.reader t) =
          some ((w.setTerm (w.term.setEnterDown false)).setPhase t .copy) := by
        rw [ioStep, IoState.readerStep_clear (IoState.setPhase_phase _) (by omega),
          IoState.setTerm_setPhase, IoState.setPhase_setPhase]
        rfl
      generalize hterm : w.term.setEnterDown false = s at hclear
      have hcopy : ioStep rom ((w.setTerm s).setPhase t .copy) (.reader t) =
          some ((w.setTerm s.copyLine.2).setPhase t (.clearBuffer s.copyLine.1)) := by
        rw [ioStep, IoState.readerStep_copy (IoState.setPhase_phase _), IoState.setTerm_setPhase,
          IoState.setPhase_setPhase]
        rfl
      have hbuffer : ioStep rom ((w.setTerm s.copyLine.2).setPhase t (.clearBuffer s.copyLine.1))
          (.reader t) = some ((w.setTerm s.copyLine.2.clearBuffer).ret t s.copyLine.1) := by
        rw [ioStep, IoState.readerStep_clearBuffer (IoState.setPhase_phase _),
          IoState.setTerm_setPhase, IoState.ret_setPhase]
        rfl
      refine ⟨4, run_cons_eq_some.mpr ⟨_, hpoll, run_cons_eq_some.mpr ⟨_, hclear,
        run_cons_eq_some.mpr ⟨_, hcopy, run_cons_eq_some.mpr ⟨_, hbuffer, ?_⟩⟩⟩⟩⟩
      rw [← hterm]
      rfl
  · cases hresume

end Kernel391
