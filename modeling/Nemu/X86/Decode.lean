import Nemu.Cpu.Machine

/-!
# Operand decoding

`src/isa/x86/decode/`: the ModR/M and SIB bytes, the helpers for one operand, and the decode
helpers that the opcode table uses.
-/

namespace Nemu

open StateRules

/-! ## Encoding bytes -/

abbrev ModRM := BitVec 8

namespace ModRM

def regM (m : ModRM) : BitVec 3 := m.extractLsb' 0 3

/-- The field that is both `reg` and `opcode`. -/
def reg (m : ModRM) : BitVec 3 := m.extractLsb' 3 3

def mod (m : ModRM) : BitVec 2 := m.extractLsb' 6 2

end ModRM

abbrev SIB := BitVec 8

namespace SIB

def base (s : SIB) : BitVec 3 := s.extractLsb' 0 3

def index (s : SIB) : BitVec 3 := s.extractLsb' 3 3

def ss (s : SIB) : BitVec 2 := s.extractLsb' 6 2

end SIB

/-- The number of a register that three bits of an encoding name. -/
def regOf (r : BitVec 3) : Fin 8 := ⟨r.toNat, r.isLt⟩

/-! ## Printing -/

/-- `print_Dop` -/
def printDop (op : OperandId) (text : List Char) : Exec Unit :=
  modifyOperand op fun o => { o with str := text.take (opStrSize - 1) }

/-- `reg_name`, stopping where it asserts. -/
def regNameOf (index : Word) (width : Nat) : Exec (List Char) :=
  match regName index width with
  | some name => pure name
  | none => throw .abort

/-- `"%%%s"` of a register name. -/
def printReg (op : OperandId) (index : Word) : Exec Unit := do
  let o ← getOperand op
  printDop op ('%' :: (← regNameOf index o.width))

/-! ## Operands -/

def setVal (op : OperandId) (val : Word) : Exec Unit := modifyOperand op fun o => { o with val }

/-- `op->type`, and the member of the union that goes with it. -/
def setPlace (op : OperandId) (type : OpType) (word : Word) : Exec Unit :=
  modifyOperand op fun o => { o with type, word }

def loadReg (op : OperandId) (r : Word) : Exec Unit := do
  setVal op (← rtlLr r (← getOperand op).width)

/-- The lines that all register operands share. -/
def decodeReg (op : OperandId) (r : Word) (loadVal : Bool) : Exec Unit := do
  setPlace op .reg r
  if loadVal then loadReg op r else pure ()
  printReg op r

def loadMem (op : OperandId) : Exec Unit := do
  let o ← getOperand op
  setVal op (← rtlLm o.word o.width)

def decodeOpI (op : OperandId) : Exec Unit := do
  let imm ← instrFetch (← getOperand op).width
  setPlace op .imm imm
  setVal op imm
  printDop op ('$' :: '0' :: 'x' :: hexText imm.toNat)

/-- The body ends in `TODO()`. -/
def decodeOpSI (op : OperandId) : Exec Unit := do
  let o ← getOperand op
  cAssert (o.width == 1 || o.width == 4)
  throw .abort

def decodeOpA (op : OperandId) (loadVal : Bool) : Exec Unit :=
  decodeReg op (BitVec.ofNat 32 rEax.val) loadVal

def decodeOpR (op : OperandId) (loadVal : Bool) : Exec Unit := do
  decodeReg op (BitVec.ofNat 32 ((← get).decinfo.opcode % 8)) loadVal

def decodeOpO (op : OperandId) (loadVal : Bool) : Exec Unit := do
  let addr ← instrFetch 4
  setPlace op .mem addr
  if loadVal then loadMem op else pure ()
  printDop op ('0' :: 'x' :: hexText addr.toNat)

/-! ## ModR/M -/

def setS0 (v : Word) : Exec Unit := modify fun s => { s with s0 := v }

def setS1 (v : Word) : Exec Unit := modify fun s => { s with s1 := v }

/-- What the first half of `load_addr` finds out: `base_reg` and `index_reg`, `none` being -1, and
`scale`. -/
structure AddrForm where
  baseReg : Option (Fin 8)
  indexReg : Option (Fin 8)
  scale : Nat

def fetchForm (m : ModRM) : Exec AddrForm := do
  if regOf m.regM = rEsp then
    let s : SIB := (← instrFetch 1).setWidth 8
    let indexReg := if regOf s.index ≠ rEsp then some (regOf s.index) else none
    return { baseReg := some (regOf s.base), indexReg, scale := s.ss.toNat }
  else
    return { baseReg := some (regOf m.regM), indexReg := none, scale := 0 }

/-- `base_reg` and `disp_size` after the tests of `mod`. -/
def dispForm (m : ModRM) (baseReg : Option (Fin 8)) : Option (Fin 8) × Nat :=
  if m.mod = 0 then if baseReg = some rEbp then (none, 4) else (baseReg, 0)
  else if m.mod = 1 then (baseReg, 1)
  else (baseReg, 4)

def fetchDisp (dispSize : Nat) : Exec Word := do
  if dispSize ≠ 0 then
    let disp ← instrFetch dispSize
    let disp := if dispSize = 1 then (disp.setWidth 8).signExtend 32 else disp
    -- `rtl_addi` goes through `ir`
    modify fun s => { s with ir := disp, s0 := s.s0 + disp }
    return disp
  else
    return 0

def addBase (baseReg : Option (Fin 8)) : Exec Unit := do
  match baseReg with
  | some r => modify fun s => { s with s0 := s.s0 + s.cpu.gpr32 r }
  | none => pure ()

def addIndex (indexReg : Option (Fin 8)) (scale : Nat) : Exec Unit := do
  match indexReg with
  | some r => do
      setS1 ((← get).cpu.gpr32 r <<< scale)
      modify fun s => { s with s0 := s.s0 + s.s1 }
  | none => pure ()

/-- The text of a displacement: `"%s%#x"` of the sign and the absolute value. -/
def dispText (dispSize : Nat) (disp : Word) : List Char :=
  if dispSize = 0 then []
  else
    let abs := if disp.msb then (-disp).toNat else disp.toNat
    (if disp.msb then ['-'] else []) ++ if abs = 0 then ['0'] else '0' :: 'x' :: hexText abs

def nameText (r : Option (Fin 8)) : List Char :=
  match r with
  | some r => '%' :: regsl.getD r []
  | none => []

/-- The text of a memory operand. -/
def addrText (form : AddrForm) (baseReg : Option (Fin 8)) (dispSize : Nat) (disp : Word) :
    List Char :=
  let indexBuf := match form.indexReg with
    | some r => ',' :: nameText (some r) ++ ',' :: Nat.toDigits 10 (1 <<< form.scale)
    | none => []
  if baseReg = none ∧ form.indexReg = none then dispText dispSize disp
  else dispText dispSize disp ++ '(' :: nameText baseReg ++ indexBuf ++ [')']

def loadAddr (m : ModRM) (rm : OperandId) : Exec Unit := do
  cAssert (m.mod != 3)
  setS0 0
  let form ← fetchForm m
  let (baseReg, dispSize) := dispForm m form.baseReg
  let disp ← fetchDisp dispSize
  addBase baseReg
  addIndex form.indexReg form.scale
  let s ← get
  modifyOperand rm fun o =>
    { o with word := s.s0, str := addrText form baseReg dispSize disp, type := .mem }

/-- The part of `read_ModR_M` about `reg`. -/
def readReg (m : ModRM) (reg : Option OperandId) (loadRegVal : Bool) : Exec Unit :=
  match reg with
  | none => pure ()
  | some reg => decodeReg reg (m.reg.setWidth 32) loadRegVal

def readModRM (rm : OperandId) (loadRmVal : Bool) (reg : Option OperandId) (loadRegVal : Bool) :
    Exec Unit := do
  let m : ModRM := (← instrFetch 1).setWidth 8
  modifyDecinfo fun d => { d with extOpcode := m.reg }
  readReg m reg loadRegVal
  if m.mod = 3 then
    decodeReg rm (m.regM.setWidth 32) loadRmVal
  else
    loadAddr m rm
    if loadRmVal then loadMem rm else pure ()

/-! ## Decode helpers -/

/-- The helpers that occur in the opcode table. -/
inductive DHelper
  | movG2E
  | movE2G
  | I2E
  | movI2E
  | movI2r
  | E
  | gp7E
  | SI2E
  | gp21E
  | gp2cl2E
  | gp2Ib2E
  | O2a
  | a2O
  deriving DecidableEq, Repr

def setOperandWidth (op : OperandId) (width : Nat) : Exec Unit :=
  modifyOperand op fun o => { o with width }

def DHelper.run : DHelper → Exec Unit
  | .movG2E => readModRM .dest false (some .src) true
  | .movE2G => readModRM .src true (some .dest) false
  | .I2E => do
      readModRM .dest true none false
      decodeOpI .src
  | .movI2E => do
      readModRM .dest false none false
      decodeOpI .src
  | .movI2r => do
      decodeOpR .dest false
      decodeOpI .src
  | .E => readModRM .dest true none false
  | .gp7E => readModRM .dest false none false
  | .SI2E => do
      let dest ← getOperand .dest
      cAssert (dest.width == 2 || dest.width == 4)
      readModRM .dest true none false
      setOperandWidth .src 1
      -- nothing after this is reached
      decodeOpSI .src
  | .gp21E => do
      readModRM .dest true none false
      setPlace .src .imm 1
      setVal .src 1
      printDop .src ['$', '1']
  | .gp2cl2E => do
      readModRM .dest true none false
      let r := BitVec.ofNat 32 rCl.val
      setPlace .src .reg r
      setVal .src (← rtlLr r 1)
      printDop .src ['%', 'c', 'l']
  | .gp2Ib2E => do
      readModRM .dest true none false
      setOperandWidth .src 1
      decodeOpI .src
  | .O2a => do
      decodeOpO .src true
      decodeOpA .dest false
  | .a2O => do
      decodeOpA .src true
      decodeOpO .dest false

end Nemu
