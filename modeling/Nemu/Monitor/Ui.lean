import Nemu.Monitor.CpuLoop

/-!
# The command line

`src/monitor/debug/ui.c`: `ui_mainloop` takes a line apart with `strtok`, looks the first word up in
`cmd_table`, and lets the handler read the rest.  The lines come from `readline`, without their
newline.
-/

namespace Nemu

open StateRules

variable {R : Type}

/-! ## String functions -/

/-- `strtok(s, " ")`: the first word, and where the next call goes on. -/
def strtok (s : List Char) : Option (List Char × List Char) :=
  match s.dropWhile (· = ' ') with
  | [] => none
  | c :: t =>
      some ((c :: t).takeWhile (· ≠ ' '), ((c :: t).dropWhile (· ≠ ' ')).drop 1)

/-- `isspace` -/
def isSpace (c : Char) : Bool :=
  c = ' ' || c = '\t' || c = '\n' || c = '\r' || c.toNat = 11 || c.toNat = 12

def decimalValue (digits : List Char) : Int :=
  (digits.takeWhile Char.isDigit).foldl (fun n c => 10 * n + (c.toNat - 48 : Nat)) 0

/-- `strtol(s, NULL, 10)`, which stops at the limits of a `long`. -/
def strtol (s : List Char) : Int :=
  match s.dropWhile isSpace with
  | '-' :: t => max (-9223372036854775808) (-decimalValue t)
  | '+' :: t => min 9223372036854775807 (decimalValue t)
  | t => min 9223372036854775807 (decimalValue t)

/-- `(int)strtol(s, NULL, 10)` -/
def atoi (s : List Char) : Int := (BitVec.ofInt 32 (strtol s)).toInt

/-! ## Console -/

/-- What the handlers print. -/
inductive UiLine
  | text (arg : Option (List Char))
  | usage (name : List Char) (description : String)
  | unknownCommand (cmd : List Char)
  | invalidInput
  | infoExample
  | watchpoint (no : Int) (exp : List Char) (value : Word)
  | noWatchpoint
  /-- `isa_reg_display` -/
  | registers (cpu : CPUState)
  | value (v : Word)
  | address (a : Word)
  | rowAddress (a : Word)
  | word (v : Word)

structure Ui (R : Type) where
  world : World R
  out : List UiLine

abbrev OnUi (R : Type) := EStateM Fault (Ui R)

def onWorld {α : Type} (x : OnWorld R α) : OnUi R α := fun u =>
  match x u.world with
  | .ok a world => .ok a { u with world }
  | .error e world => .error e { u with world }

theorem onWorld_of_ok {α : Type} {x : OnWorld R α} {u : Ui R} {a : α} {world : World R}
    (h : x u.world = .ok a world) : onWorld x u = .ok a { u with world } := by
  simp only [onWorld, h]

theorem onWorld_of_error {α : Type} {x : OnWorld R α} {u : Ui R} {e : Fault} {world : World R}
    (h : x u.world = .error e world) : onWorld x u = .error e { u with world } := by
  simp only [onWorld, h]

theorem onWorld_bind {α β : Type} (x : OnWorld R α) (f : α → OnWorld R β) :
    (onWorld (x >>= f) : OnUi R β) = onWorld x >>= fun a => onWorld (f a) := by
  funext u
  cases hx : x u.world with
  | ok a w =>
      rw [bind_ok (onWorld_of_ok hx)]
      simp only [onWorld]
      rw [bind_ok hx]
  | error e w =>
      rw [bind_error (onWorld_of_error hx)]
      exact onWorld_of_error (bind_error hx)

def printLine (line : UiLine) : OnUi R Unit :=
  modify fun u => { u with out := u.out ++ [line] }

/-! ## cmd_table -/

inductive Handler
  | cmdHelp
  | cmdC
  | cmdQ
  | cmdSi
  | cmdInfo
  | cmdP
  | cmdXN
  | cmdW
  | cmdD
  deriving DecidableEq, Repr

structure CmdEntry where
  name : List Char
  description : String
  handler : Handler

def cmdTable : List CmdEntry :=
  [⟨['h', 'e', 'l', 'p'], "Display informations about all supported commands", .cmdHelp⟩,
   ⟨['c'], "Continue the execution of the program", .cmdC⟩,
   ⟨['q'], "Exit NEMU", .cmdQ⟩,
   ⟨['s', 'i'], "Step through the program to run N orders and then pause, default N=1", .cmdSi⟩,
   ⟨['i', 'n', 'f', 'o'], "Display the state of the program", .cmdInfo⟩,
   ⟨['p'], "Calculate the value of expression EXPR", .cmdP⟩,
   ⟨['x'], "Calculate the value of expression EXPR and set as the starting memory address, " ++
     "print successive N 4 bytes in hexadecimal form", .cmdXN⟩,
   ⟨['w'], "When the value of EXPR changes, pause the program", .cmdW⟩,
   ⟨['d'], "Delete the watchpoint of index N", .cmdD⟩]

def findCmd (cmd : List Char) : Option CmdEntry := cmdTable.find? fun e => e.name = cmd

/-! ## Handlers

`saved` is where `strtok(NULL, " ")` goes on, and `args` the pointer that `ui_mainloop` hands on. -/

namespace Ui

def printUsage (e : CmdEntry) : OnUi R Unit := printLine (.usage e.name e.description)

/-- The entry that `arg` names, or all of them. -/
def showHelp : Option (List Char) → OnUi R Unit
  | none => cmdTable.forM printUsage
  | some arg =>
      match findCmd arg with
      | some e => printUsage e
      | none => printLine (.unknownCommand arg)

def cmdHelp (saved : List Char) : OnUi R Int := do
  let arg := (strtok saved).map Prod.fst
  printLine (.text arg)
  showHelp arg
  return 0

/-- `(uint64_t)-1` -/
def uint64Max : Nat := 18446744073709551615

def cmdC (E : Emulator R) : OnUi R Int := do
  onWorld (cpuExec E uint64Max)
  return 0

def cmdQ : OnUi R Int := return -1

def noteZero (arg : Option Int) : OnUi R Unit :=
  if arg = some 0 then printLine .invalidInput else pure ()

def cmdSi (E : Emulator R) (saved : List Char) : OnUi R Int := do
  let arg := (strtok saved).map fun word => atoi word.1
  noteZero arg
  onWorld (Nemu.cmdSi E arg)
  return 0

/-- The rows of `info_wp_display`; no list is longer than the pool. -/
def wpRows : Nat → Option Nat → OnDebugger (List UiLine)
  | 0, _ => throw .diverge
  | fuel + 1, p => do
      let wp ← node p
      let row := UiLine.watchpoint wp.no wp.cstr wp.value
      if wp.next = none then return [row] else return row :: (← wpRows fuel wp.next)

def infoWpDisplay : OnDebugger (List UiLine) := do
  let s ← get
  if s.wp.head = none then return [.noWatchpoint] else wpRows nrWp s.wp.head

def showRegisters : OnUi R Unit := do
  printLine (.registers (← get).world.machine.cpu)

def showWatchpoints : OnUi R Unit := do
  let rows ← onWorld (onDebugger infoWpDisplay)
  rows.forM printLine

def showInfo (arg : List Char) : OnUi R Unit :=
  if arg.head? = some 'w' then showWatchpoints
  else if arg.head? = some 'r' then showRegisters
  else pure ()

def cmdInfo (saved : List Char) : OnUi R Int :=
  match strtok saved with
  | none => do
      printLine .infoExample
      return 0
  | some (arg, _) => do
      showInfo arg
      return 0

/-- `expr(args, success)` for the flag of one byte. -/
def evalArgs (args : Option (List Char)) : OnUi R (Word × Byte) :=
  match args with
  | none => throw .null
  | some e => do
      let cpu := (← get).world.machine.cpu
      onWorld (onDebugger (callExpr cpu e 1))

def showValue (result : Word) (success : Byte) : OnUi R Unit :=
  if success = 1 then printLine (.value result) else pure ()

def cmdP (args : Option (List Char)) : OnUi R Int := do
  let (result, success) ← evalArgs args
  showValue result success
  return 0

/-- The size of `addr`. -/
def addrSize : Nat := 15

/-- A new row after every fourth word. -/
def startRow (i : Nat) (address : Word) : OnUi R Unit :=
  if i % 4 = 0 then printLine (.rowAddress address) else pure ()

/-- The loop of `cmd_x_N`: `n` more words, the next of which has the number `i`. -/
def printWords : Nat → Nat → Word → OnUi R Unit
  | 0, _, _ => pure ()
  | n + 1, i, address => do
      startRow i address
      let v ← onWorld (onMachine (onBus (paddrRead address 4)))
      printLine (.word v)
      printWords n (i + 1) (address + 4)

/-- `cmd_x_N` behind the test of `n`. -/
def examine (n : Int) (saved : List Char) : OnUi R Int :=
  match strtok saved with
  | none => throw .null
  | some (arg, _) =>
      if arg.length < addrSize then do
        printLine (.address (htoi arg))
        printWords n.toNat 0 (htoi arg)
        return 0
      else throw .bounds

def cmdXN (saved : List Char) : OnUi R Int :=
  match strtok saved with
  | none => throw .null
  | some (arg, saved) =>
      if atoi arg ≤ 0 then do
        printLine .invalidInput
        return -1
      else examine (atoi arg) saved

def cmdW (args : Option (List Char)) : OnUi R Int := do
  let cpu := (← get).world.machine.cpu
  onWorld (onDebugger (newWp cpu args))
  return 0

def cmdD (args : Option (List Char)) : OnUi R Int :=
  match args with
  | some args => do
      onWorld (onDebugger (deleteWp (atoi args)))
      return 0
  | none => do
      printLine .invalidInput
      return 0

end Ui

def Handler.run (E : Emulator R) (args : Option (List Char)) (saved : List Char) :
    Handler → OnUi R Int
  | .cmdHelp => Ui.cmdHelp saved
  | .cmdC => Ui.cmdC E
  | .cmdQ => Ui.cmdQ
  | .cmdSi => Ui.cmdSi E saved
  | .cmdInfo => Ui.cmdInfo saved
  | .cmdP => Ui.cmdP args
  | .cmdXN => Ui.cmdXN saved
  | .cmdW => Ui.cmdW args
  | .cmdD => Ui.cmdD args

/-! ## ui_mainloop -/

/-- What happens to one line; the result is the handler's, or 0 without one. -/
def runLine (E : Emulator R) (line : List Char) : OnUi R Int :=
  match strtok line with
  | none => return 0
  | some (cmd, saved) =>
      let args := if saved = [] then none else some saved
      match findCmd cmd with
      | some e => e.handler.run E args saved
      | none => do
          printLine (.unknownCommand cmd)
          return 0

/-- Why the loop has ended. -/
inductive Exit
  | endOfInput
  | left (line : List Char)
  deriving DecidableEq, Repr

/-- `ui_mainloop(false)` on the lines that `readline` gives. -/
def uiMainloop (E : Emulator R) : List (List Char) → OnUi R Exit
  | [] => return .endOfInput
  | line :: lines => do
      if (← runLine E line) < 0 then return .left line
      uiMainloop E lines

end Nemu
