import Nemu.Device.Init
import Nemu.Monitor.ParseArgs
import Nemu.Monitor.RefImage
import Nemu.Monitor.Ui
import Nemu.Monitor.Watching

/-!
# From the command line to the guest

`main`, and `init_monitor` of `src/monitor/monitor.c`, for x86 with `DEBUG` and without `DIFF_TEST`
and `HAS_IOE`.  Every `cpu_exec` looks at the watchpoints behind an instruction, and follows a null
pointer if there is none.  With `-b` there cannot be one.
-/

namespace Nemu

open StateRules

variable {R : Type}

/-! ## init_monitor -/

/-- `isa_default_img` of `src/isa/x86/init.c` -/
def isaDefaultImg : List Byte :=
  [0xb8, 0x34, 0x12, 0x00, 0x00,
    0xb9, 0x27, 0x00, 0x10, 0x00,
    0x89, 0x01,
    0x66, 0xc7, 0x41, 0x04, 0x01, 0x00,
    0xbb, 0x02, 0x00, 0x00, 0x00,
    0x66, 0xc7, 0x84, 0x99, 0x00, 0xe0,
    0xff, 0xff, 0x01, 0x00,
    0xb8, 0x00, 0x00, 0x00, 0x00,
    0xd6]

section Main

-- the files that can be opened for the log, what `load_img` finds in the others, and what `reg_test`
-- leaves in the registers
variable (opens : List Char → Bool) (files : List Char → Option (List Byte)) (regs : Fin 8 → Word)

def initLog (logFile : Option (List Char)) : OnUi R Unit :=
  match logFile with
  | none => pure ()
  | some name => cAssert (opens name)

/-- The bytes that `load_img` copies to `pmem`.  `fread` reads no element of an empty file, and leaves
`pmem` with a file that is too long. -/
def imageOf (imgFile : Option (List Char)) : Except Fault (List Byte) :=
  match imgFile with
  | none => .ok isaDefaultImg
  | some name =>
      match files name with
      | none | some [] => .error .abort
      | some image =>
          if guestToHost imageStart + image.length ≤ pmemSize then .ok image else .error .bounds

/-- `init_isa` of x86, behind `reg_test`. -/
def initIsaX86 : Exec Unit := do
  onBus (initIsa .x86)
  modifyCpu fun _ => ⟨regs, Isa.x86.pcStart⟩

def argBytes (arg : List Char) : List Byte := arg.map fun c => BitVec.ofNat 8 c.toNat

/-- `init_device` without `HAS_IOE`: the arguments of the guest are copied to the first space, behind
which nothing else is mapped. -/
def NoIoe.initDevice (mainargs : List Char) : OnInit Unit :=
  if mainargs.length < ioSpaceMax then Ioe.initArgsrom (argBytes mainargs) else throw .bounds

/-- `p_space` is at the start of `io_space`. -/
def onInit (x : OnInit Unit) : OnIO Unit := fun io =>
  match x ⟨io, 0⟩ with
  | .ok a s => .ok a s.io
  | .error e s => .error e s.io

/-- The result is `is_batch_mode`. -/
def initMonitor (args : List (List Char)) : OnUi R Bool := do
  match parseArgs args with
  | .error e => throw e
  | .ok m => do
      initLog opens m.logFile
      match imageOf files m.imgFile with
      | .error e => throw e
      | .ok image => do
          onWorld (onMachine (onBus (loadImg image)))
          onWorld (onMachine (initIsaX86 regs))
          onWorld (onDebugger initWpPool)
          onWorld (onDevices (onInit (NoIoe.initDevice m.mainargs)))
          return m.isBatchMode

/-- `lines` is what is typed at the prompt. -/
def main (E : Emulator R) (args lines : List (List Char)) : OnUi R Unit := do
  if ← initMonitor opens files regs args then
    let _ ← Ui.cmdC E
  else
    let _ ← uiMainloop E lines

end Main

/-! ## Without a watchpoint -/

section Unwatched

variable {ref : Ref R} {deviceUpdate : OnIO Unit} {w : World R} {free : List Nat}

/-- The error of an instruction, or else that of the check behind it. -/
theorem loopBody_unwatched (hlists : w.wp.Lists [] free) :
    ∃ e w', loopBody (.x86 false ref deviceUpdate) w = .error e w' ∧
      ((∃ npc s, execOnce w.machine = .ok npc s) → e = .null) := by
  cases hrun : execOnce w.machine with
  | ok npc s =>
      let w₁ : World R := { w with machine := s.traced w.gNrGuestInstr }
      have hexec : executeStep (.x86 false ref deviceUpdate) w = .ok ⟨⟩ w₁ := executeStep_ok hrun
      have hcheck : Nemu.check w₁.machine.cpu w₁.debugger = .error .null w₁.debugger :=
        check_nil (d := w₁.debugger) hlists
      have hwatch : watchStep w₁ = .error .null (w₁.withDebugger w₁.debugger) := by
        have hrunCheck : runCheck w₁ = .error .null (w₁.withDebugger w₁.debugger) := by
          rw [runCheck, bind_ok (get_run w₁)]
          exact onDebugger_of_error hcheck
        rw [watchStep, bind_error hrunCheck]
      exact ⟨.null, _, (bind_ok hexec).trans (bind_error hwatch), fun _ => rfl⟩
  | error e s =>
      have honce : onMachine execOnce w = .error e { w with machine := s } := by
        simp only [onMachine, hrun]
      have hexec : executeStep (.x86 false ref deviceUpdate) w = .error e { w with machine := s } := by
        rw [executeStep, bind_ok (get_run w)]
        exact bind_error honce
      refine ⟨e, _, bind_error hexec, fun h => ?_⟩
      rcases h with ⟨npc, s', hok⟩
      cases hok

theorem cpuExec_unwatched (hlists : w.wp.Lists [] free) (hlive : ¬ w.state.Terminal) (n : Nat) :
    ∃ e w', cpuExec (.x86 false ref deviceUpdate) (n + 1) w = .error e w' ∧
      ((∃ npc s, execOnce w.running.machine = .ok npc s) → e = .null) := by
  rcases @loopBody_unwatched R ref deviceUpdate w.running free hlists with ⟨e, w', hbody, hnull⟩
  exact ⟨e, w', cpuExec_error n hlive hbody, hnull⟩

end Unwatched

/-! ## Batch mode -/

/-- The machine that `init_monitor` leaves, when it runs. -/
def startedMachine (image : List Byte) (mainargs : List Char) (regs : Fin 8 → Word) : Machine :=
  { Machine.zero with
    cpu := ⟨regs, Isa.x86.pcStart⟩
    bus := { Bus.zero with
      pmem := memcpy (fun _ => 0) (guestToHost imageStart) image
      pmemMap := registerPmem 0
      io := { IOState.zero with
        ioSpace := memcpy IOState.zero.ioSpace 0 (argBytes mainargs ++ [0])
        mmioMaps := [deviceMap 0xa2000000 0 4096 none] } }
    nemuState := ⟨.nemuRunning, 0, 0⟩ }

/-- The log file can be opened, the image fits, and so do the arguments of the guest. -/
structure MonitorArgs.Startable (opens : List Char → Bool) (files : List Char → Option (List Byte))
    (m : MonitorArgs) (image : List Byte) : Prop where
  log : ∀ name, m.logFile = some name → opens name = true
  image : imageOf files m.imgFile = .ok image
  mainargs : m.mainargs.length < ioSpaceMax

section Batch

variable {opens : List Char → Bool} {files : List Char → Option (List Byte)}
  {args lines : List (List Char)} {m : MonitorArgs} {image : List Byte}

theorem NoIoe.initDevice_run {mainargs : List Char} (h : mainargs.length < ioSpaceMax) (io : IOState)
    (hmmio : io.mmioMaps = []) :
    onInit (NoIoe.initDevice mainargs) io = .ok ⟨⟩ { io with
      ioSpace := memcpy io.ioSpace 0 (argBytes mainargs ++ [0])
      mmioMaps := [deviceMap 0xa2000000 0 4096 none] } := by
  have hroom : ({ io with ioSpace := memcpy io.ioSpace 0 (argBytes mainargs ++ [0]) } :
      IOState).mmioMaps.length < nrMap := by
    change io.mmioMaps.length < nrMap
    rw [hmmio]
    decide
  have hrun := @Ioe.initMemory_run 4096
    (fun argsromBase io =>
      { io with ioSpace := memcpy io.ioSpace argsromBase (argBytes mainargs ++ [0]) })
    0xa2000000 io 4096 0 (by decide) (by decide) hroom
  rw [onInit, initDevice, if_pos h, Ioe.initArgsrom, hrun]
  simp only [hmmio, List.nil_append]

theorem initLog_run {logFile : Option (List Char)}
    (h : ∀ name, logFile = some name → opens name = true) (u : Ui R) :
    initLog opens logFile u = .ok ⟨⟩ u := by
  cases logFile with
  | none => rfl
  | some name => rw [initLog, h name rfl, cAssert_true_run]

theorem initMonitor_ok (regs : Fin 8 → Word) (hargs : parseArgs args = .ok m)
    (hm : m.Startable opens files image) (ref : R) :
    ∃ u, initMonitor opens files regs args ⟨.zero ref, []⟩ = .ok m.isBatchMode u ∧
      u.world.running.machine = startedMachine image m.mainargs regs ∧
      u.world.wp.Lists [] (0 :: List.range' 1 31) ∧ ¬ u.world.state.Terminal := by
  have hrun : initMonitor opens files regs args =
      (do
        initLog opens m.logFile
        onWorld (onMachine (onBus (loadImg image)))
        onWorld (onMachine (initIsaX86 regs))
        onWorld (onDebugger initWpPool)
        onWorld (onDevices (onInit (NoIoe.initDevice m.mainargs)))
        return m.isBatchMode : OnUi R Bool) := by
    rw [initMonitor, hargs]
    dsimp only
    rw [hm.image]
  -- the log file is opened, the image and the registers are written, and the pool is linked
  let w₁ : World R := final (onMachine (onBus (loadImg image)) (.zero ref))
  let w₂ : World R := final (onMachine (initIsaX86 regs) w₁)
  let w₃ : World R := final (onDebugger initWpPool w₂)
  have himage : onMachine (onBus (loadImg image)) (.zero ref) = .ok ⟨⟩ w₁ := rfl
  have hisa : onMachine (initIsaX86 regs) w₁ = .ok ⟨⟩ w₂ := rfl
  have hpool : onDebugger initWpPool w₂ = .ok ⟨⟩ w₃ := rfl
  let io : IOState := { IOState.zero with
    ioSpace := memcpy IOState.zero.ioSpace 0 (argBytes m.mainargs ++ [0])
    mmioMaps := [deviceMap 0xa2000000 0 4096 none] }
  let w₄ : World R := { w₃ with
    machine := { w₃.machine with bus := { w₃.machine.bus with io } } }
  have hdevice : onDevices (onInit (NoIoe.initDevice m.mainargs)) w₃ = .ok ⟨⟩ w₄ := by
    have hio := NoIoe.initDevice_run hm.mainargs w₃.machine.bus.io rfl
    simp only [onDevices, onMachine, onBus, hio]
    rfl
  refine ⟨⟨w₄, []⟩, ?_, rfl, initWpPool_lists _, not_terminal_stop⟩
  rw [hrun, bind_ok (initLog_run hm.log _), bind_ok (onWorld_of_ok himage),
    bind_ok (onWorld_of_ok hisa), bind_ok (onWorld_of_ok hpool), bind_ok (onWorld_of_ok hdevice)]
  rfl

/-- Without one of these, `init_monitor` does not return. -/
theorem initMonitor_error (regs : Fin 8 → Word) (hargs : parseArgs args = .ok m)
    (hm : ∀ image, ¬ m.Startable opens files image) (ref : R) :
    ∃ e u, initMonitor opens files regs args ⟨.zero ref, []⟩ = .error e u := by
  cases hrun : initMonitor opens files regs args ⟨.zero ref, []⟩ with
  | error e u => exact ⟨e, u, rfl⟩
  | ok b u =>
      rw [initMonitor, hargs] at hrun
      dsimp only at hrun
      rcases bind_eq_ok.1 hrun with ⟨⟨⟩, u₁, hlog, h₁⟩
      have hopen : ∀ name, m.logFile = some name → opens name = true := by
        intro name hname
        simp only [initLog, hname] at hlog
        exact (cAssert_eq_ok.1 hlog).1
      cases himage : imageOf files m.imgFile with
      | error e =>
          rw [himage] at h₁
          cases h₁
      | ok image =>
          rw [himage] at h₁
          rcases bind_eq_ok.1 h₁ with ⟨⟨⟩, u₂, -, h₂⟩
          rcases bind_eq_ok.1 h₂ with ⟨⟨⟩, u₃, -, h₃⟩
          rcases bind_eq_ok.1 h₃ with ⟨⟨⟩, u₄, -, h₄⟩
          rcases bind_eq_ok.1 h₄ with ⟨⟨⟩, u₅, hdevice, -⟩
          refine absurd ⟨hopen, himage, ?_⟩ (hm image)
          by_contra hlong
          -- the copy of the arguments leaves `io_space`
          have hfault : ∀ io, onInit (NoIoe.initDevice m.mainargs) io = .error .bounds io := by
            intro io
            rw [onInit, NoIoe.initDevice, if_neg hlong]
            rfl
          simp only [onWorld, onDevices, onMachine, onBus, hfault] at hdevice
          cases hdevice

/-- With `-b` no run of `main` ends without a fault, whatever the image and whatever the registers
hold at first: if `init_monitor` returns, the null pointer is followed behind the first instruction
that returns. -/
theorem main_batch (opens : List Char → Bool) (files : List Char → Option (List Byte))
    (regs : Fin 8 → Word) (ref : Ref R) (deviceUpdate : OnIO Unit) (r : R) (lines : List (List Char))
    (hargs : parseArgs args = .ok m) (hbatch : m.isBatchMode = true) :
    ∃ e u, main opens files regs (.x86 false ref deviceUpdate) args lines ⟨.zero r, []⟩ =
        .error e u ∧
      ∀ image, m.Startable opens files image →
        (∃ npc s, execOnce (startedMachine image m.mainargs regs) = .ok npc s) → e = .null := by
  by_cases hstart : ∃ image, m.Startable opens files image
  · rcases hstart with ⟨image, hm⟩
    rcases initMonitor_ok regs hargs hm r with ⟨u, hinit, hmachine, hlists, hlive⟩
    rcases @cpuExec_unwatched R ref deviceUpdate u.world _ hlists hlive 18446744073709551614 with
      ⟨e, w', hexec, hnull⟩
    have hcmd : Ui.cmdC (.x86 false ref deviceUpdate) u = .error e { u with world := w' } :=
      bind_error (onWorld_of_error hexec)
    refine ⟨e, { u with world := w' }, ?_, fun image' hm' hfirst => ?_⟩
    · rw [main, bind_ok hinit, hbatch, if_pos rfl]
      exact bind_error hcmd
    · have hsame : image' = image := Except.ok.inj (hm'.image.symm.trans hm.image)
      rw [hsame, ← hmachine] at hfirst
      exact hnull hfirst
  · rw [not_exists] at hstart
    rcases initMonitor_error regs hargs hstart r with ⟨e, u, hinit⟩
    exact ⟨e, u, bind_error hinit, fun image hm => absurd hm (hstart image)⟩

/-- `nemu -b -l out -a hi`, with the built-in image. -/
theorem main_batch_default :
    ∃ u, main (fun name => name == ['o', 'u', 't']) (fun _ => none) (fun _ => 0)
      (.x86 false .idle (pure ()))
      [['-', 'b'], ['-', 'l'], ['o', 'u', 't'], ['-', 'a'], ['h', 'i']] [] ⟨.zero (), []⟩ =
        .error .null u := by
  let opens : List Char → Bool := fun name => name == ['o', 'u', 't']
  let m : MonitorArgs := ⟨['h', 'i'], some ['o', 'u', 't'], none, none, true⟩
  have hargs : parseArgs [['-', 'b'], ['-', 'l'], ['o', 'u', 't'], ['-', 'a'], ['h', 'i']] =
      .ok m :=
    parseLoop_of_commandLine (.options (.batch (.options (.separate .logFile
      (.options (.separate .mainargs .nil)))))) _
  rcases main_batch opens (fun _ => none) (fun _ => 0) .idle (pure ()) () [] hargs rfl with
    ⟨e, u, hmain, hnull⟩
  have hstart : m.Startable opens (fun _ => none) isaDefaultImg :=
    ⟨fun name hname => by cases hname; rfl, rfl, by decide⟩
  let s := startedMachine isaDefaultImg m.mainargs (fun _ => 0)
  let i := Mov.immToReg false rEax 0x1234
  have hcode : LittleEndian.Holds s.bus.pmem 1048576 (i.encode 0) := by
    unfold LittleEndian.Holds
    decide
  rcases execOnce_executes (s := s) ⟨rfl, rfl, rfl⟩ ⟨rfl, rfl, rfl⟩ hcode (by decide) trivial
    trivial with ⟨s', -, hfirst⟩
  rw [if_pos (by decide)] at hfirst
  rw [hnull isaDefaultImg hstart ⟨_, _, hfirst⟩] at hmain
  exact ⟨u, hmain⟩

end Batch

end Nemu
