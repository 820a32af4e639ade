import Nemu.Common
import Nemu.Lib.LittleEndian
import Mathlib.Logic.Function.Basic

/-!
# The x86 register file

`src/isa/x86/include/isa/reg.h`.  The union overlays `_32`, `_16` and `_8[2]` on the same storage
and names the eight words `eax` .. `edi`; here the storage is the 32-bit word and the narrower
views are read off and written into it.
-/

namespace Nemu

open LittleEndian

structure CPUState where
  gpr : Fin 8 → Word
  pc : Word

def CPUState.zero : CPUState :=
  { gpr := fun _ => 0, pc := 0 }

/-! ## Register numbers -/

def rEax : Fin 8 := 0
def rEcx : Fin 8 := 1
def rEdx : Fin 8 := 2
def rEbx : Fin 8 := 3
def rEsp : Fin 8 := 4
def rEbp : Fin 8 := 5
def rEsi : Fin 8 := 6
def rEdi : Fin 8 := 7
def rCl : Fin 8 := 1

theorem mod_four_lt_four (n : Nat) : n % 4 < 4 := by omega

theorem mod_four_lt_eight (r : Fin 8) : r.val % 4 < 8 := by omega

theorem div_four_lt_four (r : Fin 8) : r.val / 4 < 4 := by omega

/-! ## Register names -/

def regsl : List (List Char) :=
  [['e', 'a', 'x'], ['e', 'c', 'x'], ['e', 'd', 'x'], ['e', 'b', 'x'], ['e', 's', 'p'],
    ['e', 'b', 'p'], ['e', 's', 'i'], ['e', 'd', 'i']]

def regsw : List (List Char) :=
  [['a', 'x'], ['c', 'x'], ['d', 'x'], ['b', 'x'], ['s', 'p'], ['b', 'p'], ['s', 'i'], ['d', 'i']]

def regsb : List (List Char) :=
  [['a', 'l'], ['c', 'l'], ['d', 'l'], ['b', 'l'], ['a', 'h'], ['c', 'h'], ['d', 'h'], ['b', 'h']]

/-- `reg_name`; the two `assert`s of the source are the `none`. -/
def regName (index : Word) (width : Nat) : Option (List Char) :=
  match width with
  | 4 => regsl[index.toNat]?
  | 1 => regsb[index.toNat]?
  | 2 => regsw[index.toNat]?
  | _ => none

/-! ## Views of the union -/

namespace CPUState

def gpr32 (cpu : CPUState) (i : Fin 8) : Word := cpu.gpr i

def gpr16 (cpu : CPUState) (i : Fin 8) : BitVec 16 := (cpu.gpr i).setWidth 16

def gpr8 (cpu : CPUState) (i : Fin 8) (k : Nat) : Byte := byteOf (cpu.gpr i) k

/-- Assignments to `_32`, `_16` and `_8[k]`, of the low bytes of a word. -/
def setGpr32 (cpu : CPUState) (i : Fin 8) (v : Word) : CPUState :=
  { cpu with gpr := Function.update cpu.gpr i v }

def setGpr16 (cpu : CPUState) (i : Fin 8) (v : Word) : CPUState :=
  { cpu with gpr := Function.update cpu.gpr i (insert (cpu.gpr i) 0 2 v) }

def setGpr8 (cpu : CPUState) (i : Fin 8) (k : Nat) (v : Word) : CPUState :=
  { cpu with gpr := Function.update cpu.gpr i (insert (cpu.gpr i) k 1 v) }

def eax (cpu : CPUState) : Word := cpu.gpr rEax
def ecx (cpu : CPUState) : Word := cpu.gpr rEcx
def edx (cpu : CPUState) : Word := cpu.gpr rEdx
def ebx (cpu : CPUState) : Word := cpu.gpr rEbx
def esp (cpu : CPUState) : Word := cpu.gpr rEsp
def ebp (cpu : CPUState) : Word := cpu.gpr rEbp
def esi (cpu : CPUState) : Word := cpu.gpr rEsi
def edi (cpu : CPUState) : Word := cpu.gpr rEdi

end CPUState

end Nemu
