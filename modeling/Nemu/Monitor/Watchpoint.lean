import Nemu.Expr.Lexer
import Nemu.Lib.Chain

/-!
# Watchpoints

The pool and its two lists of `src/monitor/debug/watchpoint.c`.  A `WP *` is an index of `wp_pool`;
reading or writing through a null pointer or through one behind the array is a fault.
-/

namespace Nemu

open StateRules

def nrWp : Nat := 32

def lenWpName : Nat := 32

/-! ## State -/

/-- `exp` holds the characters of the field up to its terminator.  `strncpy` stores none when the
text takes up all 32 of them. -/
structure WP where
  no : Int
  next : Option Nat
  exp : List Char
  value : Word

/-- The string that starts at `exp`.  Without a terminator it runs on into `value` and ends at the
latest in the zero bytes that pad the structure. -/
def WP.cstr (wp : WP) : List Char :=
  if wp.exp.length < lenWpName then wp.exp
  else
    let bytes := (List.range 4).map (LittleEndian.byteOf wp.value)
    wp.exp ++ (bytes.takeWhile (· ≠ 0)).map fun b => Char.ofNat b.toNat

structure WpState where
  pool : Nat → WP
  head : Option Nat
  free_ : Option Nat

def WpState.zero : WpState :=
  { pool := fun _ => ⟨0, none, [], 0⟩, head := none, free_ := none }

/-- The successors in the pool. -/
def WpState.next (s : WpState) (i : Nat) : Option Nat := (s.pool i).next

/-- The lines that the functions of this file log. -/
inductive WpMessage
  | built (no : Int) (exp : List Char) (value : Word)
  | freed (no : Int)
  | notFound (num : Int)
  | changed (no : Int) (old new : Word)
  deriving DecidableEq, Repr

/-- What the watchpoint functions work on: their own statics, and those of `expr`.  The callers of
`expr` pass a flag of one byte, which `expr.c` takes for an `int`: `behind n` are the three bytes that
it finds behind the flag at its `n`-th call from now on.  They are whatever the stack or the heap has
there. -/
structure Debugger where
  wp : WpState
  buf : TokenBuf
  bus : Bus
  evalMessages : List EvalMessage
  messages : List WpMessage
  behind : Nat → BitVec 24

/-- The statics at the start of the program. -/
def Debugger.zero : Debugger :=
  { wp := .zero, buf := .zero, bus := .zero, evalMessages := [], messages := [],
    behind := fun _ => 0 }

/-- The debugger whose calls of `expr` find zeros behind the flag. -/
def Debugger.clear (d : Debugger) : Debugger := { d with behind := fun _ => 0 }

abbrev OnDebugger := EStateM Fault Debugger

/-! ## Access -/

/-- `*p` -/
def node (p : Option Nat) : OnDebugger WP := fun s =>
  match p with
  | none => .error .null s
  | some i => if i < nrWp then .ok (s.wp.pool i) s else .error .bounds s

def modifyWp (f : WpState → WpState) : OnDebugger Unit :=
  modify fun s => { s with wp := f s.wp }

def setHead (p : Option Nat) : OnDebugger Unit := modifyWp fun s => { s with head := p }

def setFree (p : Option Nat) : OnDebugger Unit := modifyWp fun s => { s with free_ := p }

namespace WpState

/-- `wp_pool[i].next = p` -/
def setNext (s : WpState) (i : Nat) (p : Option Nat) : WpState :=
  { s with pool := fun j => if j = i then { s.pool j with next := p } else s.pool j }

def setExp (s : WpState) (i : Nat) (exp : List Char) : WpState :=
  { s with pool := fun j => if j = i then { s.pool j with exp } else s.pool j }

def setValue (s : WpState) (i : Nat) (value : Word) : WpState :=
  { s with pool := fun j => if j = i then { s.pool j with value } else s.pool j }

section Fields

variable (s : WpState) (i j : Nat) (p : Option Nat) (exp : List Char) (value : Word)

@[simp] theorem setNext_head : (s.setNext i p).head = s.head := rfl

@[simp] theorem setNext_free : (s.setNext i p).free_ = s.free_ := rfl

@[simp] theorem setNext_next : (s.setNext i p).next = Function.update s.next i p := by
  funext k
  by_cases h : k = i
  · simp [setNext, next, h]
  · simp [setNext, next, h]

@[simp] theorem setNext_no : ((s.setNext i p).pool j).no = (s.pool j).no := by
  by_cases h : j = i
  · simp [setNext, h]
  · simp [setNext, h]

@[simp] theorem setExp_next : (s.setExp i exp).next = s.next := by
  funext k
  by_cases h : k = i
  · simp [setExp, next, h]
  · simp [setExp, next, h]

@[simp] theorem setExp_no : ((s.setExp i exp).pool j).no = (s.pool j).no := by
  by_cases h : j = i
  · simp [setExp, h]
  · simp [setExp, h]

@[simp] theorem setValue_next : (s.setValue i value).next = s.next := by
  funext k
  by_cases h : k = i
  · simp [setValue, next, h]
  · simp [setValue, next, h]

@[simp] theorem setValue_no : ((s.setValue i value).pool j).no = (s.pool j).no := by
  by_cases h : j = i
  · simp [setValue, h]
  · simp [setValue, h]

end Fields

end WpState

def logWp (m : WpMessage) : OnDebugger Unit :=
  modify fun s => { s with messages := s.messages ++ [m] }

/-- The `int` that `expr.c` reads through a pointer to a flag of one byte. -/
def flagWord (behind : BitVec 24) (success : Byte) : Word := behind ++ success

/-- `expr(e, &success)`: the value, with the flag behind the pointer going in and out. -/
def callExpr (cpu : CPUState) (e : List Char) (success : Byte) : OnDebugger (Word × Byte) := fun s =>
  let leave (st : ExprState) : Debugger :=
    { s with
      buf := st.buf, bus := st.eval.bus, evalMessages := st.eval.messages,
      behind := fun n => s.behind (n + 1) }
  match expr cpu e ⟨s.buf, ⟨flagWord (s.behind 0) success, s.bus, s.evalMessages⟩⟩ with
  | .ok v st => .ok (v, st.eval.success.setWidth 8) (leave st)
  | .error f st => .error f (leave st)

theorem final_callExpr (cpu : CPUState) (e : List Char) (success : Byte) (s : Debugger) :
    final (callExpr cpu e success s) =
      let st := final (expr cpu e ⟨s.buf, ⟨flagWord (s.behind 0) success, s.bus, s.evalMessages⟩⟩)
      { s with
        buf := st.buf, bus := st.eval.bus, evalMessages := st.eval.messages,
        behind := fun n => s.behind (n + 1) } := by
  unfold callExpr
  cases expr cpu e ⟨s.buf, ⟨flagWord (s.behind 0) success, s.bus, s.evalMessages⟩⟩ <;> rfl

/-! ## init_wp_pool -/

/-- The loop links every node to the one behind it; for the last one that is the address behind
the array, which is then overwritten. -/
def initWpPool : OnDebugger Unit := do
  modifyWp fun s =>
    { s with pool := fun i => if i < nrWp then ⟨i, some (i + 1), [], 0⟩ else s.pool i }
  modifyWp fun s => s.setNext (nrWp - 1) none
  setHead none
  setFree (some 0)

/-! ## new_wp -/

/-- `while (q->next != NULL) q = q->next;`.  No list is longer than the pool. -/
def lastNode : Nat → Option Nat → OnDebugger (Option Nat)
  | 0, _ => throw .diverge
  | fuel + 1, q => do
      let wp ← node q
      if wp.next ≠ none then lastNode fuel wp.next else return q

/-- `p->next = v` -/
def storeNext (p v : Option Nat) : OnDebugger Unit := do
  let _ ← node p
  modifyWp fun s => s.setNext (p.getD 0) v

/-- Behind the last node of the list that starts at `list`; `p` becomes the list when it is
empty. -/
def appendNode (list p : Option Nat) (setList : Option Nat → OnDebugger Unit) :
    OnDebugger Unit := do
  if list = none then
    setList p
  else
    let q ← lastNode nrWp list
    storeNext q p

/-- `strncpy(p->exp, args, LEN_WP_NAME)` and what follows it in `new_wp`. -/
def watch (cpu : CPUState) (args : Option (List Char)) (p : Option Nat) : OnDebugger Unit := do
  match args with
  | none => throw .null
  | some e => do
      modifyWp fun s => s.setExp (p.getD 0) (e.take lenWpName)
      let (value, _) ← callExpr cpu e 1
      modifyWp fun s => s.setValue (p.getD 0) value
      let wp ← node p
      logWp (.built wp.no wp.cstr wp.value)

def newWp (cpu : CPUState) (args : Option (List Char)) : OnDebugger Unit := do
  let s ← get
  if s.wp.free_ = none then
    throw .abort
  else
    let p := s.wp.free_
    let wp ← node p
    setFree wp.next
    storeNext p none
    let s ← get
    appendNode s.wp.head p setHead
    watch cpu args p

/-! ## free_wp and delete_wp -/

def freeWp (wp : Option Nat) : OnDebugger Unit := do
  logWp (.freed (← node wp).no)
  storeNext wp none
  let s ← get
  appendNode s.wp.free_ wp setFree

/-- The `while` loop of `delete_wp`, with `is_found`. -/
def deleteLoop (num : Int) : Nat → Option Nat → OnDebugger Bool
  | 0, _ => throw .diverge
  | fuel + 1, p => do
      let wp ← node p
      if wp.next ≠ none then
        let temp ← node wp.next
        if temp.no = num then
          storeNext p temp.next
          freeWp wp.next
          return true
        else
          deleteLoop num fuel wp.next
      else
        return false

def deleteWp (num : Int) : OnDebugger Unit := do
  let p := (← get).wp.head
  let wp ← node p
  let isFound ←
    if wp.no = num then do
      setHead wp.next
      freeWp p
      pure true
    else
      deleteLoop num nrWp p
  if isFound then pure () else logWp (.notFound num)

/-! ## check -/

/-- The `while` loop of `check`.  It stops in front of the last node. -/
def checkLoop (cpu : CPUState) : Nat → Option Nat → Byte → Bool → OnDebugger Bool
  | 0, _, _, _ => throw .diverge
  | fuel + 1, p, success, flag => do
      let wp ← node p
      if wp.next ≠ none then
        let (curValue, success) ← callExpr cpu wp.cstr success
        if curValue ≠ wp.value then
          logWp (.changed wp.no wp.value curValue)
          checkLoop cpu fuel wp.next success true
        else
          checkLoop cpu fuel wp.next success flag
      else
        return flag

def check (cpu : CPUState) : OnDebugger Bool := do
  let s ← get
  checkLoop cpu nrWp s.wp.head 1 false

end Nemu
