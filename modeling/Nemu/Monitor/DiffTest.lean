import Nemu.Monitor.World

/-!
# Differential testing

`src/monitor/diff-test/diff-test.c`.
-/

namespace Nemu

variable {R : Type} (E : Emulator R)

/-! ## Calls of the reference design -/

def recordCall (c : RefCall) : OnWorld R Unit :=
  modifyDiff fun d => { d with calls := d.calls ++ [c] }

def refDifftestGetregs : OnWorld R CPUState := do
  recordCall .getregs
  return E.ref.getregs (← get).diff.ref

def refDifftestSetregs (cpu : CPUState) : OnWorld R Unit := do
  recordCall .setregs
  modifyDiff fun d => { d with ref := E.ref.setregs cpu d.ref }

/-- `ref_difftest_exec(1)` -/
def refDifftestExec : OnWorld R Unit := do
  recordCall .exec
  modifyDiff fun d => { d with ref := E.ref.exec d.ref }

/-! ## Skipping -/

def setSkipRef (b : Bool) : OnWorld R Unit :=
  modifyMachine fun s => { s with bus := { s.bus with isSkipRef := b } }

/-- The loop runs `nr_ref` times, and not at all when that is negative. -/
def difftestSkipDut (nrRef nrDut : Int) : OnWorld R Unit := do
  modifyDiff fun d => { d with skipDutNrInstr := d.skipDutNrInstr + nrDut }
  (List.range nrRef.toNat).forM fun _ => refDifftestExec E

/-! ## difftest_step -/

def checkregs (ref : CPUState) (pc : Word) : OnWorld R Unit := do
  recordCall (.checkregs pc)
  let cpu := (← get).machine.cpu
  if E.isaDifftestCheckregs ref cpu pc then
    pure ()
  else
    modifyMachine fun s =>
      { s with nemuState := { s.nemuState with state := .nemuAbort, haltPc := pc } }

/-- The branch that waits for `cpu.pc` to catch up. -/
def catchUp (nextPc : Word) : OnWorld R Unit := do
  let refR ← refDifftestGetregs E
  if refR.pc = nextPc then
    checkregs E refR nextPc
    modifyDiff fun d => { d with skipDutNrInstr := 0 }
  else
    modifyDiff fun d => { d with skipDutNrInstr := d.skipDutNrInstr - 1 }
    cAssert ((← get).diff.skipDutNrInstr != 0)

def difftestStep (oriPc nextPc : Word) : OnWorld R Unit := do
  let w ← get
  if w.diff.isDetach then
    pure ()
  else if 0 < w.diff.skipDutNrInstr then
    catchUp E nextPc
  else if w.machine.bus.isSkipRef then
    refDifftestSetregs E w.machine.cpu
    setSkipRef false
  else
    refDifftestExec E
    let refR ← refDifftestGetregs E
    checkregs E refR oriPc

end Nemu
