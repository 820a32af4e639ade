import Nemu.X86.TraceRules

/-!
# Between instructions

Every instruction that returns leaves `pmem` registered, and the two flags of `decinfo` that an
instruction finds cleared cleared again.
-/

namespace Nemu

open StateRules

/-- What holds whenever no instruction is being executed. -/
structure Machine.Boundary (s : Machine) : Prop where
  map : s.bus.pmemMap = registerPmem 0
  isJmp : s.decinfo.isJmp = false
  isOperandSize16 : s.decinfo.isOperandSize16 = false

/-! ## The two flags -/

/-- A helper that leaves the flag alone. -/
theorem size16_of_within {α : Type} {x : Exec α} {a : α} {s s' : Machine}
    (hx : Within (Keeps SameMap true) x) (hrun : x s = .ok a s')
    (h : s.decinfo.isOperandSize16 = false) : s'.decinfo.isOperandSize16 = false :=
  ((hx.ok hrun).size16 rfl).trans h

/-- The prefix sets the flag before it executes the rest and clears it behind it; everything else
leaves the flag alone. -/
theorem execHelper_size16 {idex : OpcodeEntry → Exec Unit}
    (hidex : ∀ e s s' u, idex e s = .ok u s' → s.decinfo.isOperandSize16 = false →
      s'.decinfo.isOperandSize16 = false)
    {x : EHelper} {s s' : Machine} {u : Unit} (hrun : x.run idex s = .ok u s')
    (h : s.decinfo.isOperandSize16 = false) : s'.decinfo.isOperandSize16 = false := by
  cases x with
  | inv => exact size16_of_within (execInv_within (R := Keeps SameMap true)) hrun h
  | mov => exact size16_of_within (execMov_within (R := Keeps SameMap true)) hrun h
  | nemuTrap => exact size16_of_within (execNemuTrap_within (R := Keeps SameMap true)) hrun h
  | operandSize =>
      rcases bind_eq_ok.1 hrun with ⟨_, s₁, -, hrun₁⟩
      rcases bind_eq_ok.1 hrun₁ with ⟨e, s₂, -, hrun₂⟩
      rcases bind_eq_ok.1 hrun₂ with ⟨_, s₃, -, hrun₃⟩
      cases hrun₃
      rfl
  | twoByteEsc =>
      rcases bind_eq_ok.1 hrun with ⟨e, s₁, hfetch, hrun₁⟩
      exact hidex e s₁ s' u hrun₁ (size16_of_within (fetchEntry_within _) hfetch h)
  | group g =>
      rcases bind_eq_ok.1 hrun with ⟨_, s₁, hget, hrun₁⟩
      cases hget
      exact hidex _ s s' u hrun₁ h

theorem idex_size16 (fuel : Nat) (e : OpcodeEntry) (s s' : Machine) (u : Unit)
    (hrun : idex fuel e s = .ok u s') (h : s.decinfo.isOperandSize16 = false) :
    s'.decinfo.isOperandSize16 = false := by
  induction fuel generalizing e s s' u with
  | zero => cases hrun
  | succ fuel ih =>
      rcases bind_eq_ok.1 hrun with ⟨_, s₁, hdecode, hrun₁⟩
      exact execHelper_size16 ih hrun₁ (size16_of_within (runDecode_within e) hdecode h)

/-! ## exec_once -/

/-- `s₁` behind `update_pc`, when the instruction was no jump. -/
def Machine.stepped (s₁ : Machine) : Machine :=
  { s₁ with cpu := { s₁.cpu with pc := s₁.decinfo.seqPc } }

/-- What `exec_once` adds to `isa_exec` when the instruction was no jump. -/
theorem execOnce_of_isaExec {s s₁ : Machine} {u : Unit}
    (hisa : isaExec { s with decinfo := { s.decinfo with seqPc := s.cpu.pc } } = .ok u s₁)
    (hjmp : s₁.decinfo.isJmp = false) :
    execOnce s =
      if s₁.trace.fits then .ok s₁.decinfo.seqPc s₁.stepped else .error .bounds s₁.stepped := by
  have hupdate : updatePc s₁ = .ok ⟨⟩ s₁.stepped := by
    rw [updatePc, modify_run, hjmp]
    rfl
  rw [execOnce, bind_ok (get_run s)]
  refine (bind_ok (modify_run _ s)).trans ((bind_ok hisa).trans ((bind_ok hupdate).trans ?_))
  have hfits : s₁.stepped.trace.fits = s₁.trace.fits := rfl
  cases hs : s₁.trace.fits with
  | true =>
      have hcheck : checkTrace s₁.stepped = .ok ⟨⟩ s₁.stepped := by
        rw [checkTrace, hfits, hs]
        rfl
      rw [bind_ok hcheck]
      rfl
  | false =>
      have hcheck : checkTrace s₁.stepped = .error .bounds s₁.stepped := by
        rw [checkTrace, hfits, hs]
        rfl
      rw [bind_error hcheck]
      rfl

theorem Machine.Boundary.execOnce {s s' : Machine} {npc : Word} (h : s.Boundary)
    (hrun : Nemu.execOnce s = .ok npc s') : s'.Boundary := by
  rcases bind_eq_ok.1 hrun with ⟨_, s₁, hget, hrun₁⟩
  cases hget
  rcases bind_eq_ok.1 hrun₁ with ⟨_, s₂, hpc, hrun₂⟩
  cases hpc
  rcases bind_eq_ok.1 hrun₂ with ⟨_, s₃, hisa, hrun₃⟩
  rcases bind_eq_ok.1 hrun₃ with ⟨_, s₄, hupdate, hrun₄⟩
  cases hupdate
  rcases bind_eq_ok.1 hrun₄ with ⟨_, s₅, hcheck, hrun₅⟩
  rcases checkTrace_eq_ok.1 hcheck with ⟨rfl, -⟩
  cases hrun₅
  have hkeeps := (isaExec_within (R := Keeps SameMap false) (S := Keeps SameMap false)
    setOperandSize16_keeps).ok hisa
  have hjmp : s₃.decinfo.isJmp = false := hkeeps.isJmp.trans h.isJmp
  have hmap : s₃.bus.pmemMap = registerPmem 0 := Eq.trans hkeeps.bus h.map
  rcases bind_eq_ok.1 hisa with ⟨e, s₂, hfetch, hidex⟩
  have hfetchKeeps := (fetchEntry_within (R := Keeps SameMap true) 0).ok hfetch
  have hsize : s₃.decinfo.isOperandSize16 = false :=
    idex_size16 _ _ _ _ _ hidex ((hfetchKeeps.size16 rfl).trans h.isOperandSize16)
  simp only [hjmp, Bool.false_eq_true, if_false]
  exact ⟨hmap, hjmp, hsize⟩

end Nemu
