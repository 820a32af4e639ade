import Nemu.Lib.Simulation
import Nemu.X86.RtlResults

/-!
# The machine of RTL

What RTL is for, without the ways of `rtl.h`: results are numbers, a comparison is what the bits of
its code say, the immediates are operands, and a jump is where the instruction goes on.  Every
program runs on `rtl.h` as it does on this machine, so `ir` never shows.
-/

namespace Nemu

open StateRules Requests Simulation LittleEndian

/-! ## The machine -/

/-- `next` is where the instruction goes on, if not behind itself. -/
structure RtlMachine where
  cell : Cell → Word
  bus : Bus
  nemuState : NEMUState
  pc : Word
  seqPc : Word
  next : Option Word

abbrev OnRtl := EStateM Fault RtlMachine

namespace RtlMachine

def set (m : RtlMachine) (c : Cell) (v : Word) : RtlMachine :=
  { m with cell := Function.update m.cell c v }

/-- To the target, or on behind the instruction. -/
def goto (m : RtlMachine) : Option Word → RtlMachine
  | some target => { m with pc := target, next := some target }
  | none => { m with next := none }

def onBus {α : Type} (x : OnBus α) : OnRtl α := fun m =>
  match x m.bus with
  | .ok a bus => .ok a { m with bus }
  | .error e bus => .error e { m with bus }

/-- A value that there is not always. -/
def given {α : Type} (e : Fault) : Option α → OnRtl α
  | some a => pure a
  | none => throw e

def assign (dest : Cell) (v : Word) : OnRtl Unit := modify fun m => m.set dest v

def serve (host : ArithLogic → Word → Word → Word) : RtlCall → OnRtl Word
  | .fetch len => do
      let instr ← onBus (vaddrRead (← get).seqPc len)
      modify fun m => { m with seqPc := m.seqPc + BitVec.ofNat 32 len }
      return instr
  | .pc => return (← get).pc
  | .look c => return (← get).cell c
  | .li dest imm => answered (assign dest imm)
  | .mv dest src1 => answered do assign dest ((← get).cell src1)
  | .arithLogic name dest src1 src2 => answered do
      let m ← get
      assign dest (← given .divide (name.result host (m.cell src1) (m.cell src2)))
  | .arithLogicI name dest src1 imm => answered do
      let m ← get
      assign dest (← given .divide (name.result host (m.cell src1) imm))
  | .div64 name dest src1Hi src1Lo src2 => answered do
      let m ← get
      assign dest (← given .divide (name.result (m.cell src1Hi) (m.cell src1Lo) (m.cell src2)))
  | .lm dest addr len => answered do
      assign dest (← onBus (vaddrRead ((← get).cell addr) len))
  | .sm addr src1 len => answered do
      let m ← get
      onBus (vaddrWrite (m.cell addr) (m.cell src1) len)
  | .lr dest r width => answered do
      let m ← get
      let (i, k) ← given .abort (part r width)
      assign dest (load (byteOf (m.cell (.gpr i))) k width)
  | .sr r src1 width => answered do
      let m ← get
      let (i, k) ← given .abort (part r width)
      assign (.gpr i) (insert (m.cell (.gpr i)) k width (m.cell src1))
  | .setrelop relop dest src1 src2 => answered do
      let m ← get
      let holds ← given .abort (compared relop (m.cell src1) (m.cell src2))
      assign dest (if holds then 1 else 0)
  | .setrelopi relop dest src1 imm => answered do
      let m ← get
      let holds ← given .abort (compared relop (m.cell src1) imm)
      assign dest (if holds then 1 else 0)
  | .j target => answered (modify fun m => m.goto (some target))
  | .jr target => answered (modify fun m => m.goto (some (m.cell target)))
  | .jrelop relop src1 src2 target => answered do
      let m ← get
      let holds ← given .abort (compared relop (m.cell src1) (m.cell src2))
      modify fun m => m.goto (if holds then some target else none)
  | .exit state haltPc haltRet => answered do
      modify fun m => { m with nemuState := ⟨state, haltPc, haltRet⟩ }

/-- An instruction, from its address to the next one's. -/
def instr (host : ArithLogic → Word → Word → Word) (isaExec : RtlProgram Unit) : OnRtl Word := do
  modify fun m => { m with seqPc := m.pc }
  isaExec.run (serve host)
  modify fun m => { m with pc := m.next.getD m.seqPc, next := none }
  return (← get).seqPc

def isRunning (m : RtlMachine) : Bool := m.nemuState.state = .nemuRunning

end RtlMachine

/-! ## What the machine shows -/

/-- The machine under `rtl.h`: `is_jmp` tells that the next instruction is in `cpu.pc` already. -/
structure Machine.Shows (s : Machine) (m : RtlMachine) : Prop where
  cell : ∀ c, s.rtlGet (.cell c) = m.cell c
  bus : s.bus = m.bus
  nemuState : s.nemuState = m.nemuState
  pc : s.cpu.pc = m.pc
  seqPc : s.decinfo.seqPc = m.seqPc
  isJmp : s.decinfo.isJmp = m.next.isSome
  next : ∀ target, m.next = some target → m.pc = target

/-- What the cells depend on. -/
theorem rtlGet_frame {s s' : Machine} (hs0 : s'.s0 = s.s0) (hs1 : s'.s1 = s.s1)
    (hgpr : s'.cpu.gpr = s.cpu.gpr) (hoperand : s'.decinfo.operand = s.decinfo.operand) (c : Cell) :
    s'.rtlGet (.cell c) = s.rtlGet (.cell c) := by
  cases c with
  | s0 => exact hs0
  | s1 => exact hs1
  | gpr i => exact congrFun hgpr i
  | val op => exact congrArg Operand.val (congrFun hoperand op)
  | addr op => exact congrArg Operand.word (congrFun hoperand op)

/-- An operand's other field. -/
theorem withOperand_word (d : DecodeInfo) (op : OperandId) (v : Word) (op' : OperandId) :
    ((d.withOperand op { d.operand op with val := v }).operand op').word = (d.operand op').word := by
  by_cases hop : op' = op
  · subst hop
    simp only [DecodeInfo.withOperand, Function.update_self]
  · exact congrArg Operand.word (Function.update_of_ne hop _ d.operand)

theorem withOperand_val (d : DecodeInfo) (op : OperandId) (v : Word) (op' : OperandId) :
    ((d.withOperand op { d.operand op with word := v }).operand op').val = (d.operand op').val := by
  by_cases hop : op' = op
  · subst hop
    simp only [DecodeInfo.withOperand, Function.update_self]
  · exact congrArg Operand.val (Function.update_of_ne hop _ d.operand)

theorem rtlGet_rtlSet (s : Machine) (c : Cell) (v : Word) (c' : Cell) :
    (s.rtlSet (.cell c) v).rtlGet (.cell c') =
      Function.update (fun c' => s.rtlGet (.cell c')) c v c' := by
  by_cases hc : c' = c
  · subst hc
    rw [Function.update_self]
    cases c' with
    | s0 => rfl
    | s1 => rfl
    | gpr i => exact Function.update_self i v s.cpu.gpr
    | val op => exact congrArg Operand.val (Function.update_self op _ s.decinfo.operand)
    | addr op => exact congrArg Operand.word (Function.update_self op _ s.decinfo.operand)
  · rw [Function.update_of_ne hc]
    cases c with
    | s0 =>
        cases c' with
        | s0 => exact absurd rfl hc
        | _ => rfl
    | s1 =>
        cases c' with
        | s1 => exact absurd rfl hc
        | _ => rfl
    | gpr i =>
        cases c' with
        | gpr j => exact Function.update_of_ne (fun h => hc (congrArg Cell.gpr h)) v s.cpu.gpr
        | _ => rfl
    | val op =>
        cases c' with
        | val op' =>
            have hop : op' ≠ op := fun h => hc (congrArg Cell.val h)
            exact congrArg Operand.val (Function.update_of_ne hop _ s.decinfo.operand)
        | addr op' => exact withOperand_word s.decinfo op v op'
        | _ => rfl
    | addr op =>
        cases c' with
        | val op' => exact withOperand_val s.decinfo op v op'
        | addr op' =>
            have hop : op' ≠ op := fun h => hc (congrArg Cell.addr h)
            exact congrArg Operand.word (Function.update_of_ne hop _ s.decinfo.operand)
        | _ => rfl

namespace Machine.Shows

variable {s : Machine} {m : RtlMachine}

theorem gpr (h : s.Shows m) (i : Fin 8) : s.cpu.gpr32 i = m.cell (.gpr i) := h.cell (.gpr i)

theorem set (h : s.Shows m) (c : Cell) (v : Word) : (s.rtlSet (.cell c) v).Shows (m.set c v) where
  cell c' := by
    have hcells : (fun c' => s.rtlGet (.cell c')) = m.cell := funext h.cell
    rw [rtlGet_rtlSet, hcells]
    rfl
  bus := by
    cases c <;> exact h.bus
  nemuState := by
    cases c <;> exact h.nemuState
  pc := by
    cases c <;> exact h.pc
  seqPc := by
    cases c <;> exact h.seqPc
  isJmp := by
    cases c <;> exact h.isJmp
  next := h.next

/-- The immediate of a pseudo instruction. -/
theorem ir (h : s.Shows m) (imm : Word) : (s.rtlSet .ir imm).Shows m where
  cell c := by
    rw [← h.cell c]
    apply rtlGet_frame <;> rfl
  bus := h.bus
  nemuState := h.nemuState
  pc := h.pc
  seqPc := h.seqPc
  isJmp := h.isJmp
  next := h.next

end Machine.Shows

/-! ## Calls -/

section Calls

variable {α β : Type} {s : Machine} {m : RtlMachine}

/-- The same value, or the same fault, and a machine that shows the other. -/
abbrev Agree (r : EStateM.Result Fault Machine α) (r' : EStateM.Result Fault RtlMachine α) : Prop :=
  Requests.Agrees Machine.Shows Machine.Shows r r'

theorem agree_get {f : Machine → Exec α} {g : RtlMachine → OnRtl α} (h : Agree (f s s) (g m m)) :
    Agree ((get >>= f) s) ((get >>= g) m) := h

theorem agree_answered {x : Exec Unit} {y : OnRtl Unit} (h : Agree (x s) (y m)) :
    Agree (answered x s) (answered y m) :=
  h.bind fun _ _ _ h' => .ok h'

theorem agree_assign (h : s.Shows m) (dest : Cell) (v : Word) :
    Agree (interpretRtlLi (.cell dest) v s) (RtlMachine.assign dest v m) :=
  .ok (h.set dest v)

theorem agree_given (h : s.Shows m) {x : Exec α} {e : Fault} {v : Option α} (hx : Computes x e v) :
    Agree (x s) (RtlMachine.given e v m) := by
  rw [hx s]
  cases v with
  | none => exact .error h
  | some a => exact .ok h

theorem Machine.Shows.withBus (h : s.Shows m) (bus : Bus) :
    Machine.Shows { s with bus } { m with bus } where
  cell := h.cell
  bus := rfl
  nemuState := h.nemuState
  pc := h.pc
  seqPc := h.seqPc
  isJmp := h.isJmp
  next := h.next

theorem agree_onBus (h : s.Shows m) (x : OnBus α) : Agree (onBus x s) (RtlMachine.onBus x m) := by
  unfold onBus RtlMachine.onBus
  rw [h.bus]
  cases x m.bus with
  | ok a bus => exact .ok (h.withBus bus)
  | error e bus => exact .error (h.withBus bus)

/-- The immediate of a pseudo instruction comes out of `ir` as it went in. -/
theorem agree_arithLogic (h : s.Shows m) (host : ArithLogic → Word → Word → Word)
    (name : ArithLogic) (dest src1 : Cell) (src2 : RtlReg) {v : Word} (hv : s.rtlGet src2 = v) :
    Agree (interpretRtlArithLogic host name (.cell dest) (.cell src1) src2 s)
      ((RtlMachine.given .divide (name.result host (m.cell src1) v) >>= fun r =>
        RtlMachine.assign dest r) m) := by
  subst hv
  unfold interpretRtlArithLogic
  rw [bind_ok (get_run s), h.cell src1]
  exact (agree_given h (name.cOp_computes host _ _)).bind fun r _ _ h' => agree_assign h' dest r

theorem agree_setrelop (h : s.Shows m) (relop : Word) (dest src1 : Cell) (src2 : RtlReg) {v : Word}
    (hv : s.rtlGet src2 = v) :
    Agree (interpretRtlSetrelop relop (.cell dest) (.cell src1) src2 s)
      ((RtlMachine.given .abort (compared relop (m.cell src1) v) >>= fun holds =>
        RtlMachine.assign dest (if holds then 1 else 0)) m) := by
  subst hv
  unfold interpretRtlSetrelop
  rw [bind_ok (get_run s), h.cell src1]
  exact (agree_given h (interpretRelop_computes relop _ _)).bind fun _ _ _ h' =>
    agree_assign h' dest _

theorem agree_j (h : s.Shows m) (target : Word) :
    Agree (interpretRtlJ target s)
      ((modify fun m => m.goto (some target) : OnRtl Unit) m) := by
  exact .ok ⟨fun c => (rtlGet_frame rfl rfl rfl rfl c).trans (h.cell c), h.bus, h.nemuState, rfl,
    h.seqPc, rfl, fun _ ht => Option.some.inj ht⟩

/-- A jump that is not taken takes back the one before it. -/
theorem agree_stay (h : s.Shows m) :
    Agree (decinfoSetJmp false s) ((modify fun m => m.goto none : OnRtl Unit) m) := by
  exact .ok ⟨fun c => (rtlGet_frame rfl rfl rfl rfl c).trans (h.cell c), h.bus, h.nemuState, h.pc,
    h.seqPc, rfl, fun _ ht => by cases ht⟩

theorem agree_fetch (h : s.Shows m) (len : Nat) (host : ArithLogic → Word → Word → Word) :
    Agree (instrFetch len s) (RtlMachine.serve host (.fetch len) m) := by
  rw [instrFetch, RtlMachine.serve]
  refine agree_get ?_
  rw [h.seqPc]
  refine (agree_onBus h _).bind fun instr s' m' h' => ?_
  rw [bind_ok (modify_run _ s')]
  rcases strcatfBytebuf_forM (fun i => byteText (byteOf instr i)) (List.range len)
    { s' with trace := { s'.trace with fetched := s'.trace.fetched + len } } with ⟨t, htrace, -⟩
  rw [bind_ok htrace]
  exact .ok ⟨fun c => (rtlGet_frame rfl rfl rfl rfl c).trans (h'.cell c), h'.bus, h'.nemuState,
    h'.pc, congrArg (· + BitVec.ofNat 32 len) h'.seqPc, h'.isJmp, h'.next⟩

/-- Every call does on the machine under `rtl.h` what it does on the machine of RTL. -/
theorem agree_serve (host : ArithLogic → Word → Word → Word) (call : RtlCall) (h : s.Shows m) :
    Agree (call.exec host s) (RtlMachine.serve host call m) := by
  cases call with
  | fetch len => exact agree_fetch h len host
  | pc =>
      refine agree_get ?_
      rw [h.pc]
      exact .ok h
  | look c =>
      refine agree_get ?_
      rw [h.cell]
      exact .ok h
  | li dest imm => exact agree_answered (agree_assign h dest imm)
  | mv dest src1 =>
      refine agree_answered ?_
      change Agree (interpretRtlLi (.cell dest) (s.rtlGet (.cell src1)) s) _
      rw [h.cell]
      exact agree_assign h dest _
  | arithLogic name dest src1 src2 =>
      exact agree_answered (agree_arithLogic h host name dest src1 (.cell src2) (h.cell src2))
  | arithLogicI name dest src1 imm =>
      exact agree_answered (agree_arithLogic (h.ir imm) host name dest src1 .ir rfl)
  | div64 name dest src1Hi src1Lo src2 =>
      refine agree_answered (agree_get ?_)
      rw [h.cell, h.cell, h.cell]
      exact (agree_given h (name.op_computes _ _ _)).bind fun r _ _ h' => agree_assign h' dest r
  | lm dest addr len =>
      refine agree_answered (agree_get ?_)
      rw [h.cell]
      exact (agree_onBus h _).bind fun v _ _ h' => agree_assign h' dest v
  | sm addr src1 len =>
      refine agree_answered (agree_get ?_)
      rw [h.cell, h.cell]
      exact agree_onBus h _
  | lr dest r width =>
      refine agree_answered ?_
      change Agree ((rtlLr r width >>= fun v => interpretRtlLi (.cell dest) v) s) _
      have hlr := rtlLr_part r width s
      rw [bind_ok (get_run m)]
      cases hpart : part r width with
      | none =>
          rw [hpart] at hlr
          rw [bind_error hlr]
          exact .error h
      | some p =>
          rw [hpart] at hlr
          rw [bind_ok hlr, h.gpr]
          exact agree_assign h dest _
  | sr r src1 width =>
      refine agree_answered (agree_get ?_)
      rw [rtlSr_part, h.cell]
      cases part r width with
      | none => exact .error h
      | some p =>
          change Agree (.ok PUnit.unit (s.rtlSet (.cell (.gpr p.1))
            (insert (s.cpu.gpr32 p.1) p.2 width (m.cell src1)))) _
          rw [h.gpr]
          exact .ok (h.set (.gpr p.1) _)
  | setrelop relop dest src1 src2 =>
      exact agree_answered (agree_setrelop h relop dest src1 (.cell src2) (h.cell src2))
  | setrelopi relop dest src1 imm =>
      exact agree_answered (agree_setrelop (h.ir imm) relop dest src1 .ir rfl)
  | j target => exact agree_answered (agree_j h target)
  | jr target =>
      refine agree_answered ?_
      rw [interpretRtlJr, bind_ok (get_run s), h.cell]
      exact agree_j h _
  | jrelop relop src1 src2 target =>
      refine agree_answered (agree_get ?_)
      rw [h.cell, h.cell]
      refine (agree_given h (interpretRelop_computes relop _ _)).bind fun holds s' m' h' => ?_
      cases holds with
      | true => exact agree_j h' target
      | false => exact agree_stay h'
  | exit state haltPc haltRet =>
      exact agree_answered (.ok ⟨fun c => (rtlGet_frame rfl rfl rfl rfl c).trans (h.cell c), h.bus,
        rfl, h.pc, h.seqPc, h.isJmp, h.next⟩)

end Calls

/-! ## Programs -/

section Programs

variable {s : Machine} {m : RtlMachine} (host : ArithLogic → Word → Word → Word)

/-- `update_pc` goes to the last jump's target, if that was taken. -/
theorem agree_updatePc (h : s.Shows m) :
    Agree (updatePc s)
      ((modify fun m => { m with pc := m.next.getD m.seqPc, next := none } : OnRtl Unit) m) := by
  have hjmp := h.isJmp
  unfold updatePc
  rw [modify_run, modify_run]
  cases hnext : m.next with
  | none =>
      rw [hnext] at hjmp
      rw [if_neg (by rw [hjmp]; exact Bool.false_ne_true)]
      exact .ok ⟨fun c => (rtlGet_frame rfl rfl rfl rfl c).trans (h.cell c), h.bus, h.nemuState,
        h.seqPc, h.seqPc, hjmp, fun _ ht => by cases ht⟩
  | some target =>
      have hset : s.decinfo.isJmp = true := by
        rw [hjmp, hnext]
        rfl
      rw [if_pos hset]
      exact .ok ⟨fun c => (rtlGet_frame rfl rfl rfl rfl c).trans (h.cell c), h.bus, h.nemuState,
        h.pc.trans (h.next target hnext), h.seqPc, rfl, fun _ ht => by cases ht⟩

theorem agree_execOnce (h : s.Shows m) (isaExec : RtlProgram Unit) :
    Agree (rtlExecOnce host isaExec s) (RtlMachine.instr host isaExec m) := by
  unfold rtlExecOnce RtlMachine.instr
  rw [bind_ok (get_run s), bind_ok (modify_run _ m)]
  have hstart : Machine.Shows { s with decinfo := { s.decinfo with seqPc := s.cpu.pc } }
      { m with seqPc := m.pc } :=
    ⟨fun c => (rtlGet_frame rfl rfl rfl rfl c).trans (h.cell c), h.bus, h.nemuState, h.pc, h.pc,
      h.isJmp, h.next⟩
  rw [modifyDecinfo, bind_ok (modify_run _ s)]
  refine (isaExec.run_agrees (fun _ _ h => h) (fun call _ _ h => agree_serve host call h) hstart).bind
    fun _ s' m' h' => (agree_updatePc h').bind fun _ s'' m'' h'' => ?_
  rw [bind_ok (get_run s''), bind_ok (get_run m''), h''.seqPc]
  exact .ok h''

/-- An instruction set that is written in RTL runs under `rtl.h` as on the machine of RTL, for any
number of instructions and whatever its helpers do: the same faults, and at the end the same cells,
memory, run state and `pc`. -/
theorem rtl_agrees (isaExec : RtlProgram Unit) (n : Nat) (h : s.Shows m) :
    Agree (iterate Machine.isRunning (rtlExecOnce host isaExec) n s)
      (iterate RtlMachine.isRunning (RtlMachine.instr host isaExec) n m) := by
  refine iterate_agrees (fun _ _ h => agree_execOnce host h isaExec) (fun s m h => ?_) n h
  rw [Machine.isRunning, RtlMachine.isRunning, h.nemuState]

end Programs

/-- Counts in `s0` and jumps back while it is less than 2. -/
def countToTwo : RtlProgram Unit :=
  .ask (.arithLogicI .add .s0 .s0 1) fun _ =>
    .ask (.li .s1 2) fun _ =>
      .ask (.jrelop relopLtu .s0 .s1 0x100) fun _ =>
        .ask (.look .s0) fun v =>
          if v = 2 then .ask (.exit .nemuEnd 0x100 v) fun _ => .ret ⟨⟩ else .ret ⟨⟩

theorem rtl_agrees_countToTwo :
    ∃ s, iterate Machine.isRunning (rtlExecOnce (fun _ _ _ => 0) countToTwo) 100
        { Machine.zero with nemuState := ⟨.nemuRunning, 0, 0⟩ } = .ok ⟨⟩ s ∧
      s.s0 = 2 ∧ s.nemuState.haltRet = 2 := by
  let start : RtlMachine :=
    { cell := fun _ => 0, bus := Bus.zero, nemuState := ⟨.nemuRunning, 0, 0⟩, pc := 0, seqPc := 0,
      next := none }
  have hstart : Machine.Shows { Machine.zero with nemuState := ⟨.nemuRunning, 0, 0⟩ } start :=
    ⟨fun c => by cases c <;> rfl, rfl, rfl, rfl, rfl, rfl, fun _ h => by cases h⟩
  have hrun : ∃ m, iterate RtlMachine.isRunning
      (RtlMachine.instr (fun _ _ _ => 0) countToTwo) 100 start = .ok ⟨⟩ m ∧
        m.cell .s0 = 2 ∧ m.nemuState.haltRet = 2 := ⟨_, rfl, rfl, rfl⟩
  rcases hrun with ⟨m, hm, hs0, hret⟩
  have hagree := rtl_agrees (fun _ _ _ => 0) countToTwo 100 hstart
  rw [hm] at hagree
  rcases hagree.exists_ok with ⟨s, hs, hshows⟩
  exact ⟨s, hs, (hshows.cell .s0).trans hs0, hshows.nemuState ▸ hret⟩

end Nemu
