import Nemu.Lib.Recording
import Nemu.Monitor.UiMainloop
import Nemu.Monitor.WatchpointCheck

/-!
# The library calls of the command handlers

The handlers of `src/monitor/debug/ui.c` once more, with every call of `atoi`, `strcpy`, `strncpy`
and of the lexer that they make on their arguments, and the size of the array that is copied to.
`check` calls the lexer as well, but on the text field of a watchpoint, and the lexer and `eval`
copy and convert the text fields of tokens; these are arrays, and no null pointers.
-/

namespace Nemu

open StateRules

variable {R : Type} {E : Emulator R}

/-! ## Calls -/

inductive LibCall where
  | atoi (nptr : Option (List Char))
  | strcpy (size : Nat) (src : Option (List Char))
  | strncpy (size : Nat) (src : Option (List Char)) (n : Nat)
  | makeToken (e : Option (List Char))
  deriving DecidableEq

/-- No null pointer, and no more bytes than the array has.  `strcpy` copies the terminator too. -/
def LibCall.Safe : LibCall → Prop
  | atoi nptr => nptr.isSome
  | strcpy size src => ∃ s, src = some s ∧ s.length < size
  | strncpy size src n => src.isSome ∧ n ≤ size
  | makeToken e => e.isSome

abbrev OnUiCalls (R : Type) := Recorder Fault (Ui R) LibCall

/-! ## Handlers -/

namespace Ui

def cmdSiRecorded (E : Emulator R) (saved : List Char) : OnUiCalls R Int :=
  match strtok saved with
  | none => unrecorded (cmdSi E saved)
  | some (arg, _) => do
      emit (.atoi (some arg))
      unrecorded (cmdSi E saved)

/-- `expr` hands its argument to `make_token` at once. -/
def cmdPRecorded (args : Option (List Char)) : OnUiCalls R Int := do
  emit (.makeToken args)
  unrecorded (cmdP args)

/-- `cmd_x_N` behind the test of `n`. -/
def examineRecorded (n : Int) (saved : List Char) : OnUiCalls R Int := do
  emit (.strcpy addrSize ((strtok saved).map Prod.fst))
  unrecorded (examine n saved)

def cmdXNRecorded (saved : List Char) : OnUiCalls R Int := do
  emit (.atoi ((strtok saved).map Prod.fst))
  match strtok saved with
  | none => unrecorded (throw .null)
  | some (arg, saved) =>
      if atoi arg ≤ 0 then
        unrecorded do
          printLine .invalidInput
          return -1
      else
        examineRecorded (atoi arg) saved

/-- `new_wp` behind the lists.  From a null pointer `strncpy` does not return. -/
def watchRecorded (cpu : CPUState) (args : Option (List Char)) (p : Option Nat) :
    OnUiCalls R Unit := do
  emit (.strncpy lenWpName args lenWpName)
  match args with
  | none => unrecorded (throw .null)
  | some e => do
      emit (.makeToken (some e))
      unrecorded (onWorld (onDebugger (watch cpu (some e) p)))

def cmdWRecorded (args : Option (List Char)) : OnUiCalls R Int := do
  let cpu := (← unrecorded get).world.machine.cpu
  let p ← unrecorded (onWorld (onDebugger linkNew))
  watchRecorded cpu args p
  return 0

def cmdDRecorded (args : Option (List Char)) : OnUiCalls R Int :=
  match args with
  | some text => do
      emit (.atoi (some text))
      unrecorded (cmdD (some text))
  | none => unrecorded (cmdD none)

end Ui

/-- `cmd_help`, `cmd_c`, `cmd_q` and `cmd_info` call none of the functions. -/
def Handler.runRecorded (E : Emulator R) (args : Option (List Char)) (saved : List Char) :
    Handler → OnUiCalls R Int
  | .cmdHelp => unrecorded (Ui.cmdHelp saved)
  | .cmdC => unrecorded (Ui.cmdC E)
  | .cmdQ => unrecorded Ui.cmdQ
  | .cmdSi => Ui.cmdSiRecorded E saved
  | .cmdInfo => unrecorded (Ui.cmdInfo saved)
  | .cmdP => Ui.cmdPRecorded args
  | .cmdXN => Ui.cmdXNRecorded saved
  | .cmdW => Ui.cmdWRecorded args
  | .cmdD => Ui.cmdDRecorded args

def runLineRecorded (E : Emulator R) (line : List Char) : OnUiCalls R Int :=
  match strtok line with
  | none => return 0
  | some (cmd, saved) =>
      let args := if saved = [] then none else some saved
      match findCmd cmd with
      | some e => e.handler.runRecorded E args saved
      | none => unrecorded do
          printLine (.unknownCommand cmd)
          return 0

/-- The calls for one line, in order. -/
def lineCalls (E : Emulator R) (line : List Char) (u : Ui R) : List LibCall :=
  (final (runLineRecorded E line ⟨u, []⟩)).events

/-! ## When the calls are safe -/

/-- `x` is `y` with calls that are all safe if and only if `c` holds. -/
def SafeExactly {α : Type} (c : Prop) (x : OnUiCalls R α) (y : OnUi R α) : Prop :=
  Logs (fun calls => (∀ e ∈ calls, e.Safe) ↔ c) x y

namespace SafeExactly

variable {α : Type} {c c' : Prop} {x : OnUiCalls R α} {y : OnUi R α}

theorem unrecorded (y : OnUi R α) : SafeExactly True (unrecorded y) y :=
  Logs.unrecorded y (by simp)

theorem emit {e : LibCall} (h : SafeExactly c x y) :
    SafeExactly (e.Safe ∧ c) (emit e >>= fun _ => x) y :=
  Logs.emit h fun calls hcalls => by rw [List.forall_mem_cons, hcalls]

theorem of_iff (h : SafeExactly c x y) (hc : c ↔ c') : SafeExactly c' x y :=
  Logs.mono h fun _ hcalls => hcalls.trans hc

theorem erases (h : SafeExactly c x y) : Records (fun _ => True) x y :=
  Logs.mono h fun _ _ _ _ => trivial

/-- Nothing is called behind `x`. -/
theorem bind_pure {β : Type} (h : SafeExactly c x y) (b : β) :
    SafeExactly c (x >>= fun _ => pure b) (y >>= fun _ => pure b) := by
  refine Logs.bind (Q := fun calls => calls = []) h (fun _ => Logs.unrecorded (pure b) rfl)
    (fun _ hcalls => hcalls) ?_
  rintro first second hfirst rfl
  rw [List.append_nil]
  exact hfirst

theorem calls (h : SafeExactly c x y) (u : Ui R) :
    (∀ e ∈ (final (x ⟨u, []⟩)).events, e.Safe) ↔ c := by
  rcases Logs.final_eq h ⟨u, []⟩ with ⟨calls, hcalls, hfinal⟩
  rw [hfinal]
  exact hcalls

end SafeExactly

/-! ## Each handler -/

/-- What is behind `x`: a number and, if it is positive, a word that `addr` can hold. -/
def ExaminesSafely (saved : List Char) : Prop :=
  ∃ n rest, strtok saved = some (n, rest) ∧
    (0 < atoi n → ∃ e rest', strtok rest = some (e, rest') ∧ e.length < Ui.addrSize)

namespace Ui

variable {u : Ui R} {active free : List Nat} (args : Option (List Char)) (saved : List Char)

theorem cmdSi_safe : SafeExactly True (cmdSiRecorded E saved) (cmdSi E saved) := by
  unfold cmdSiRecorded
  cases strtok saved with
  | none => exact .unrecorded _
  | some word => exact (SafeExactly.unrecorded _).emit.of_iff (by simp [LibCall.Safe])

theorem cmdP_safe : SafeExactly (R := R) (args.isSome) (cmdPRecorded args) (cmdP args) :=
  (SafeExactly.unrecorded _).emit.of_iff (by simp [LibCall.Safe])

theorem cmdD_safe : SafeExactly (R := R) True (cmdDRecorded args) (cmdD args) := by
  cases args with
  | none => exact .unrecorded _
  | some text => exact (SafeExactly.unrecorded _).emit.of_iff (by simp [LibCall.Safe])

theorem examine_safe (n : Int) :
    SafeExactly (R := R) (∃ e rest, strtok saved = some (e, rest) ∧ e.length < addrSize)
      (examineRecorded n saved) (examine n saved) := by
  refine (SafeExactly.unrecorded _).emit.of_iff ?_
  cases strtok saved with
  | none => simp [LibCall.Safe]
  | some word => simp [LibCall.Safe, Prod.ext_iff]

theorem cmdXN_safe :
    SafeExactly (R := R) (ExaminesSafely saved) (cmdXNRecorded saved) (cmdXN saved) := by
  unfold cmdXNRecorded cmdXN ExaminesSafely
  -- the cases are those of the source: no word, a count that is refused, a second word to copy
  cases strtok saved with
  | none => exact (SafeExactly.unrecorded _).emit.of_iff (by simp [LibCall.Safe])
  | some word =>
      rcases word with ⟨n, rest⟩
      dsimp only [Option.map_some]
      by_cases hn : atoi n ≤ 0
      · rw [if_pos hn, if_pos hn]
        refine (SafeExactly.unrecorded _).emit.of_iff ?_
        simp [LibCall.Safe, Int.not_lt.2 hn]
      · rw [if_neg hn, if_neg hn]
        refine (examine_safe rest (atoi n)).emit.of_iff ?_
        simp [LibCall.Safe, Int.not_le.1 hn]

/-! ### cmd_w -/

theorem watch_safe (cpu : CPUState) (p : Option Nat) :
    SafeExactly (R := R) (args.isSome) (watchRecorded cpu args p)
      (onWorld (onDebugger (watch cpu args p))) := by
  cases args with
  | none => exact (SafeExactly.unrecorded _).emit.of_iff (by simp [LibCall.Safe])
  | some e => exact (SafeExactly.unrecorded _).emit.emit.of_iff (by simp [LibCall.Safe])

theorem cmdW_eq : (cmdW args : OnUi R Int) = do
    let u ← get
    let p ← onWorld (onDebugger linkNew)
    onWorld (onDebugger (watch u.world.machine.cpu args p))
    return 0 := by
  unfold cmdW
  simp only [newWp_eq, onDebugger_bind, onWorld_bind, bind_assoc]

theorem cmdW_erases :
    Records (fun _ => True) (cmdWRecorded args : OnUiCalls R Int) (cmdW args) := by
  rw [cmdW_eq]
  refine (Records.unrecorded _).bind fun u => (Records.unrecorded _).bind fun p => ?_
  exact ((watch_safe args u.world.machine.cpu p).bind_pure 0).erases

/-- Without a free node `new_wp` panics before it copies anything. -/
theorem cmdW_calls (h : u.world.wp.Lists active free) :
    (∀ e ∈ (final (cmdWRecorded args ⟨u, []⟩)).events, e.Safe) ↔ args.isSome ∨ free = [] := by
  have hget : unrecorded (get : OnUi R (Ui R)) ⟨u, ([] : List LibCall)⟩ = .ok u ⟨u, []⟩ := rfl
  unfold cmdWRecorded
  rw [bind_ok hget]
  cases free with
  | nil =>
      -- no node, no call
      have hfull := linkNew_full (s := u.world.debugger) h
      have hlink := unrecorded_of_error (s := ⟨u, ([] : List LibCall)⟩)
        (onWorld_of_error (onDebugger_of_error hfull))
      rw [bind_error hlink]
      simp
  | cons p free =>
      rcases linkNew_run (s := u.world.debugger) h with ⟨d, hrun, -, -, -⟩
      have hlink := unrecorded_of_ok (s := ⟨u, ([] : List LibCall)⟩)
        (onWorld_of_ok (onDebugger_of_ok hrun))
      have hwatch := (watch_safe (R := R) args u.world.machine.cpu (some p)).bind_pure (0 : Int)
      rw [bind_ok hlink, hwatch.calls]
      simp

end Ui

/-! ## Lines -/

section Lines

variable {u : Ui R} {active free : List Nat}

/-- Only what `cmd_w` calls depends on more than the arguments. -/
theorem handler_safe (args : Option (List Char)) (saved : List Char) {f : Handler}
    (hf : f ≠ .cmdW) :
    SafeExactly ((f = .cmdP → args.isSome) ∧ (f = .cmdXN → ExaminesSafely saved))
      (f.runRecorded E args saved) (f.run E args saved) := by
  cases f with
  | cmdHelp => exact (SafeExactly.unrecorded _).of_iff (by simp)
  | cmdC => exact (SafeExactly.unrecorded _).of_iff (by simp)
  | cmdQ => exact (SafeExactly.unrecorded _).of_iff (by simp)
  | cmdSi => exact (Ui.cmdSi_safe saved).of_iff (by simp)
  | cmdInfo => exact (SafeExactly.unrecorded _).of_iff (by simp)
  | cmdP => exact (Ui.cmdP_safe args).of_iff (by simp)
  | cmdXN => exact (Ui.cmdXN_safe saved).of_iff (by simp)
  | cmdW => exact absurd rfl hf
  | cmdD => exact (Ui.cmdD_safe args).of_iff (by simp)

theorem handler_erases (args : Option (List Char)) (saved : List Char) (f : Handler) :
    Records (fun _ => True) (f.runRecorded E args saved) (f.run E args saved) := by
  by_cases hf : f = .cmdW
  · subst hf
    exact Ui.cmdW_erases args
  · exact (handler_safe args saved hf).erases

/-- Apart from the record, a line does what it does in `ui_mainloop`. -/
theorem runLine_erases (line : List Char) :
    Records (fun _ => True) (runLineRecorded E line) (runLine E line) := by
  unfold runLineRecorded runLine
  cases strtok line with
  | none => exact .pure 0
  | some word =>
      dsimp only
      cases findCmd word.1 with
      | none => exact .unrecorded _
      | some e => exact handler_erases _ _ _

theorem handler_calls (h : u.world.wp.Lists active free) (args : Option (List Char))
    (saved : List Char) (f : Handler) :
    (∀ e ∈ (final (f.runRecorded E args saved ⟨u, []⟩)).events, e.Safe) ↔
      (f = .cmdP → args.isSome) ∧ (f = .cmdW → args.isSome ∨ free = []) ∧
        (f = .cmdXN → ExaminesSafely saved) := by
  by_cases hf : f = .cmdW
  · subst hf
    rw [Handler.runRecorded, Ui.cmdW_calls args h]
    simp
  · rw [(handler_safe args saved hf).calls u]
    simp [hf]

/-- A line on which no handler goes wrong while the nodes in `free` are left for watchpoints. -/
def Survived (free : List Nat) (line : List Char) : Prop :=
  ∀ cmd saved, strtok line = some (cmd, saved) →
    (cmd = ['p'] → saved ≠ []) ∧ (cmd = ['w'] → saved ≠ [] ∨ free = []) ∧
      (cmd = ['x'] → ExaminesSafely saved)

/-- The handlers pass on no null pointer, and copy no more than fits, exactly on these lines. -/
theorem lineCalls_safe_iff (h : u.world.wp.Lists active free) (line : List Char) :
    (∀ e ∈ lineCalls E line u, e.Safe) ↔ Survived free line := by
  unfold lineCalls runLineRecorded Survived
  cases strtok line with
  | none => simp
  | some word =>
      rcases word with ⟨cmd, saved⟩
      dsimp only
      have hargs : (if saved = [] then none else some saved).isSome ↔ saved ≠ [] := by
        by_cases hs : saved = [] <;> simp [hs]
      have hwords : ∀ P : List Char → List Char → Prop,
          (∀ cmd' saved', some (cmd, saved) = some (cmd', saved') → P cmd' saved') ↔ P cmd saved := by
        simp
      rw [hwords]
      cases hfind : findCmd cmd with
      | none =>
          have hp : cmd ≠ ['p'] := ne_of_findCmd_eq_none hfind (by decide)
          have hw : cmd ≠ ['w'] := ne_of_findCmd_eq_none hfind (by decide)
          have hx : cmd ≠ ['x'] := ne_of_findCmd_eq_none hfind (by decide)
          dsimp only
          rw [(SafeExactly.unrecorded _).calls u]
          simp [hp, hw, hx]
      | some e =>
          have hp : e.handler = .cmdP ↔ cmd = ['p'] := findCmd_handler hfind (by decide)
          have hw : e.handler = .cmdW ↔ cmd = ['w'] := findCmd_handler hfind (by decide)
          have hx : e.handler = .cmdXN ↔ cmd = ['x'] := findCmd_handler hfind (by decide)
          dsimp only
          rw [handler_calls h, hargs, hp, hw, hx]

/-- `x` with a word that just fits, typed while a watchpoint is set. -/
theorem lineCalls_safe_iff_x :
    trapWorld.wp.Lists [0, 1] (List.range' 2 30) ∧
      ∀ e ∈ lineCalls (Emulator.x86 false .idle (pure ())) ['x', ' ', '1', ' ', '0', 'x', '1', '0']
        ⟨trapWorld, []⟩, e.Safe := by
  have hlists : (⟨trapWorld, []⟩ : Ui Unit).world.wp.Lists [0, 1] (List.range' 2 30) :=
    watchWord_lists
  refine ⟨hlists, (lineCalls_safe_iff hlists _).2 ?_⟩
  have hline : strtok ['x', ' ', '1', ' ', '0', 'x', '1', '0'] =
      some (['x'], ['1', ' ', '0', 'x', '1', '0']) := rfl
  intro cmd saved hword
  cases hline.symm.trans hword
  refine ⟨by simp, by simp, fun _ => ⟨['1'], ['0', 'x', '1', '0'], rfl, fun _ => ?_⟩⟩
  exact ⟨['0', 'x', '1', '0'], [], rfl, by decide⟩

/-- `p` alone hands a null pointer to the lexer, and a word of 16 characters behind `x 1` runs over
the 15 bytes of `addr`. -/
theorem lineCalls_unsafe :
    (∃ e ∈ lineCalls (Emulator.x86 false .idle (pure ())) ['p'] ⟨trapWorld, []⟩, ¬ e.Safe) ∧
      ∃ e ∈ lineCalls (Emulator.x86 false .idle (pure ()))
        (['x', ' ', '1', ' '] ++ List.replicate 16 '0') ⟨trapWorld, []⟩, ¬ e.Safe := by
  have hp : lineCalls (Emulator.x86 false .idle (pure ())) ['p'] ⟨trapWorld, []⟩ =
      [.makeToken none] := rfl
  have hx : lineCalls (Emulator.x86 false .idle (pure ()))
      (['x', ' ', '1', ' '] ++ List.replicate 16 '0') ⟨trapWorld, []⟩ =
        [.atoi (some ['1']), .strcpy 15 (some (List.replicate 16 '0'))] := rfl
  rw [hp, hx]
  constructor
  · exact ⟨_, List.mem_cons_self, by simp [LibCall.Safe]⟩
  · refine ⟨_, List.mem_cons_of_mem _ List.mem_cons_self, ?_⟩
    rintro ⟨word, hword, hlen⟩
    cases hword
    exact absurd hlen (by decide)

end Lines

end Nemu
