import Nemu.Cpu.Machine
import Nemu.Expr.Accepts

/-!
# Three views of a register

A register is shown by `isa_reg_display`, evaluated as `$name` by `expr`, and loaded by `rtl_lr`.
The three use tables of their own: `get_gpr` compares with `$eax` again and again, and the rows of
the byte registers go through the words one after the other.
-/

namespace Nemu

open StateRules

/-! ## isa_reg_display -/

/-- A row: the label, and the number that is printed in hexadecimal and again in decimal. -/
structure RegRow where
  label : List Char
  value : Word

def isaRegDisplay (cpu : CPUState) : List RegRow :=
  [⟨['e', 'a', 'x'], cpu.eax⟩,
    ⟨['e', 'c', 'x'], cpu.ecx⟩,
    ⟨['e', 'd', 'x'], cpu.edx⟩,
    ⟨['e', 'b', 'x'], cpu.ebx⟩,
    ⟨['e', 's', 'p'], cpu.esp⟩,
    ⟨['e', 'b', 'p'], cpu.ebp⟩,
    ⟨['e', 's', 'i'], cpu.esi⟩,
    ⟨['e', 'd', 'i'], cpu.edi⟩,
    ⟨['a', 'x'], (cpu.gpr16 rEax).setWidth 32⟩,
    ⟨['c', 'x'], (cpu.gpr16 rEcx).setWidth 32⟩,
    ⟨['d', 'x'], (cpu.gpr16 rEdx).setWidth 32⟩,
    ⟨['b', 'x'], (cpu.gpr16 rEbx).setWidth 32⟩,
    ⟨['s', 'p'], (cpu.gpr16 rEsp).setWidth 32⟩,
    ⟨['b', 'p'], (cpu.gpr16 rEbp).setWidth 32⟩,
    ⟨['s', 'i'], (cpu.gpr16 rEsi).setWidth 32⟩,
    ⟨['d', 'i'], (cpu.gpr16 rEdi).setWidth 32⟩,
    ⟨['a', 'l'], (cpu.gpr8 rEax 0).setWidth 32⟩,
    ⟨['c', 'l'], (cpu.gpr8 rEax 1).setWidth 32⟩,
    ⟨['d', 'l'], (cpu.gpr8 rEcx 0).setWidth 32⟩,
    ⟨['b', 'l'], (cpu.gpr8 rEcx 1).setWidth 32⟩,
    ⟨['a', 'h'], (cpu.gpr8 rEdx 0).setWidth 32⟩,
    ⟨['c', 'h'], (cpu.gpr8 rEdx 1).setWidth 32⟩,
    ⟨['b', 'h'], (cpu.gpr8 rEbx 0).setWidth 32⟩,
    ⟨['d', 'h'], (cpu.gpr8 rEbx 1).setWidth 32⟩]

/-- The number on the row with a label. -/
def displayed (cpu : CPUState) (name : List Char) : Option Word :=
  ((isaRegDisplay cpu).find? fun row => row.label == name).map RegRow.value

/-! ## The views -/

/-- All three views give the number `v` for the register `name`, which has position `index` among
those of its width. -/
structure ViewedAs (s : Machine) (name : List Char) (index : Word) (width : Nat) (v : Word) :
    Prop where
  display : displayed s.cpu name = some v
  expr : ∀ buf, ∃ st, Nemu.expr s.cpu ('$' :: name) ⟨buf, .start s.bus⟩ = .ok v st ∧
    st.eval.success = 1
  rtlLr : Nemu.rtlLr index width s = .ok v s

/-- The names that `get_gpr` compares with, as far as they are reached. -/
def comparedNames : List (List Char) :=
  [['e', 'a', 'x'], ['e', 'c', 'x'], ['e', 'd', 'x'], ['e', 'b', 'x']]

theorem mem_comparedNames {name : List Char} :
    name ∈ comparedNames ↔ '$' :: name ∈ knownRegisters := by
  simp [comparedNames, knownRegisters, nameEax, nameEcx, nameEdx, nameEbx]

theorem regName_mem {index : Word} {width : Nat} {name : List Char}
    (h : regName index width = some name) : name ∈ registerNames := by
  unfold regName at h
  unfold registerNames
  split at h
  · exact List.mem_append_left _ (List.mem_append_left _ (List.mem_of_getElem? h))
  · exact List.mem_append_right _ (List.mem_of_getElem? h)
  · exact List.mem_append_left _ (List.mem_append_right _ (List.mem_of_getElem? h))
  · cases h

/-- A register alone is one token. -/
theorem makeToken_register {name : List Char} (h : name ∈ registerNames) (buf : TokenBuf) :
    ∃ buf', makeToken ('$' :: name) buf = .ok true buf' ∧
      buf'.stored = [⟨.tkGpr, '$' :: name⟩] := by
  let x : Lexeme := .reg name h
  let buf₀ : TokenBuf := { buf with nrToken := 0 }
  have hlen : ∀ n ∈ registerNames, ('$' :: n).length < tokenStrSize := by decide
  have hstep := @makeTokenLoop_lexeme name.length [] buf₀ x x.delimits_nil
    (Nat.zero_lt_succ 511) (hlen name h)
  rw [List.append_nil] at hstep
  refine ⟨buf₀.add x, ?_, ?_⟩
  · change makeTokenLoop (name.length + 1) ('$' :: name) buf₀ = _
    refine hstep.trans ?_
    cases name.length <;> rfl
  · have htoken := buf₀.add_text (x := x) (by simp [x])
    have hstored : (buf₀.add x).stored = [(buf₀.add x).tokens 0] := by
      simp [TokenBuf.stored, segment, TokenBuf.add_nrToken, buf₀]
    rw [hstored]
    exact congrArg (fun t => [t]) htoken

theorem expr_register {cpu : CPUState} {name : List Char} (h : name ∈ registerNames)
    (buf : TokenBuf) (st : EvalState) :
    ∃ buf', expr cpu ('$' :: name) ⟨buf, st⟩ =
      liftEval (evalLeaf cpu ⟨.tkGpr, '$' :: name⟩) ⟨buf', st⟩ := by
  rcases makeToken_register h buf with ⟨buf', hmake, hstored⟩
  refine ⟨buf', ?_⟩
  rw [@expr_of_stored cpu _ ⟨buf, st⟩ buf' hmake, hstored, evalSegment]

/-- With its flag kept, `$name` is a register that `get_gpr` knows. -/
theorem expr_register_known {cpu : CPUState} {name : List Char} (h : name ∈ registerNames)
    {buf : TokenBuf} {st : EvalState} {v : Word} {st' : ExprState}
    (hrun : expr cpu ('$' :: name) ⟨buf, st⟩ = .ok v st') (hflag : st'.eval.success = 1) :
    '$' :: name ∈ knownRegisters := by
  rcases expr_register h buf st with ⟨buf', heq⟩
  rw [heq, liftEval] at hrun
  cases hleaf : evalLeaf cpu ⟨.tkGpr, '$' :: name⟩ st with
  | error f s' =>
      rw [hleaf] at hrun
      cases hrun
  | ok w s' =>
      rw [hleaf] at hrun
      cases hrun
      exact evalLeaf_gpr rfl hleaf hflag

theorem evalLeaf_register {cpu : CPUState} {str : List Char} {v : Word} {st : EvalState}
    (hgpr : getGpr cpu str st = .ok v st) (hflag : st.success = 1) :
    evalLeaf cpu ⟨.tkGpr, str⟩ st = .ok v st := by
  simp only [evalLeaf]
  rw [bind_ok hgpr, bind_ok (get_run st), if_pos hflag]
  rfl

/-! ## Where they agree -/

/-- A 32-bit register is loaded from its place in the array. -/
theorem rtlLr_four {s : Machine} {index : Word} {i : Fin 8} (h : index.toNat = i.val) :
    rtlLr index 4 s = .ok (s.cpu.gpr i) s := by
  have hlt : index.toNat < 8 := h ▸ i.isLt
  have hcheck : checkRegIndex index s = .ok i s := by
    simp only [checkRegIndex, dif_pos hlt]
    congr 1
    exact Fin.ext h
  rw [rtlLr, bind_ok (get_run s)]
  exact (bind_ok hcheck).trans rfl

/-- The compared names are those of the first four 32-bit registers. -/
theorem regName_compared {index : Word} {width : Nat} {name : List Char}
    (h : regName index width = some name) (hname : name ∈ comparedNames) :
    width = 4 ∧ ∃ i : Fin 8, index.toNat = i.val ∧ i.val < 4 ∧ comparedNames[i.val]? = some name := by
  have hnarrow : ∀ n ∈ regsw ++ regsb, n ∉ comparedNames := by decide
  have hlate : ∀ i : Fin 8, ∀ n ∈ comparedNames, regsl[i.val]? = some n →
      i.val < 4 ∧ comparedNames[i.val]? = some n := by decide
  unfold regName at h
  split at h
  case h_1 =>
    have hlt : index.toNat < 8 := (List.getElem?_eq_some_iff.1 h).1
    rcases hlate ⟨index.toNat, hlt⟩ name hname h with ⟨hfour, hget⟩
    exact ⟨rfl, ⟨index.toNat, hlt⟩, rfl, hfour, hget⟩
  case h_2 => exact absurd hname (hnarrow name (List.mem_append_right _ (List.mem_of_getElem? h)))
  case h_3 => exact absurd hname (hnarrow name (List.mem_append_left _ (List.mem_of_getElem? h)))
  case h_4 => cases h

theorem viewedAs_compared (s : Machine) {index : Word} {name : List Char} {i : Fin 8}
    (hindex : index.toNat = i.val) (hmem : name ∈ registerNames)
    (hdisplay : displayed s.cpu name = some (s.cpu.gpr i))
    (hgpr : ∀ st, getGpr s.cpu ('$' :: name) st = .ok (s.cpu.gpr i) st) :
    ViewedAs s name index 4 (s.cpu.gpr i) := by
  refine ⟨hdisplay, fun buf => ?_, rtlLr_four hindex⟩
  rcases @expr_register s.cpu _ hmem buf (.start s.bus) with ⟨buf', heq⟩
  have hleaf := evalLeaf_register (hgpr (.start s.bus)) rfl
  refine ⟨⟨buf', .start s.bus⟩, ?_, rfl⟩
  rw [heq, liftEval, hleaf]

/-- The three views of a register agree, with the flag kept, if and only if it is one of `eax`,
`ecx`, `edx` and `ebx`. -/
theorem regViews_agree_iff (s : Machine) {index : Word} {width : Nat} {name : List Char}
    (h : regName index width = some name) :
    (∃ v, ViewedAs s name index width v) ↔ name ∈ comparedNames := by
  have hmem := regName_mem h
  constructor
  · rintro ⟨v, hviews⟩
    rcases hviews.expr .zero with ⟨st, hrun, hflag⟩
    exact mem_comparedNames.2 (expr_register_known hmem hrun hflag)
  · intro hname
    rcases regName_compared h hname with ⟨rfl, i, hindex, hfour, hget⟩
    -- one case for each of the four names
    have hcases : i = 0 ∨ i = 1 ∨ i = 2 ∨ i = 3 := by omega
    rcases hcases with rfl | rfl | rfl | rfl <;> cases hget
    · exact ⟨_, viewedAs_compared s hindex hmem rfl fun _ => rfl⟩
    · exact ⟨_, viewedAs_compared s hindex hmem rfl fun _ => rfl⟩
    · exact ⟨_, viewedAs_compared s hindex hmem rfl fun _ => rfl⟩
    · exact ⟨_, viewedAs_compared s hindex hmem rfl fun _ => rfl⟩

/-- `%ecx` -/
theorem regViews_agree_iff_ecx : ∃ v, ViewedAs .zero ['e', 'c', 'x'] 1 4 v :=
  (regViews_agree_iff .zero (by decide)).2 (by decide)

/-- A machine with another byte in every place that a row of a byte register is read from. -/
def bytesMachine : Machine :=
  { Machine.zero with cpu := { gpr := fun i => BitVec.ofNat 32 (0x0201 + 0x0202 * i.val), pc := 0 } }

/-- For `%cl`, the row shows `%ah`, and `$cl` is no register to `expr`. -/
theorem regViews_differ_cl :
    ¬ (∀ (s : Machine) (index : Word) (width : Nat) (name : List Char),
        regName index width = some name → ∃ v, ViewedAs s name index width v) ∧
      displayed bytesMachine.cpu ['c', 'l'] = some 2 ∧
      rtlLr 1 1 bytesMachine = .ok 3 bytesMachine := by
  refine ⟨fun h => ?_, by decide, rfl⟩
  rcases h bytesMachine 1 1 ['c', 'l'] (by decide) with ⟨v, hviews⟩
  rcases hviews.expr .zero with ⟨st, hrun, hflag⟩
  have hknown := expr_register_known (by decide) hrun hflag
  exact absurd hknown (by decide)

end Nemu
