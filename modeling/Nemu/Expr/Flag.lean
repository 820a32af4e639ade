import Nemu.Expr.EvalRules

/-!
# The flag of an evaluation

Through every function of the evaluator the flag can be cleared but is never set, and a division by
zero is logged only together with clearing it.
-/

namespace Nemu

open StateRules

/-- What can have happened between two states: the flag was kept or cleared, and if a division by
zero was logged it is cleared now. -/
structure Later (s s' : EvalState) : Prop where
  flag : s'.success = s.success ∨ s'.success = 0
  logged : ∃ ms, s'.messages = s.messages ++ ms ∧ (.divisionByZero ∈ ms → s'.success = 0)

namespace Later

theorem refl (s : EvalState) : Later s s :=
  ⟨Or.inl rfl, [], by simp, by simp⟩

theorem trans {a b c : EvalState} (h : Later a b) (h' : Later b c) : Later a c := by
  rcases h.logged with ⟨ms, hms, hdiv⟩
  rcases h'.logged with ⟨ns, hns, hdiv'⟩
  -- a flag that is cleared stays cleared
  have hkeep : b.success = 0 → c.success = 0 := by
    intro hzero
    rcases h'.flag with hsame | hcleared
    · exact hsame.trans hzero
    · exact hcleared
  refine ⟨?_, ms ++ ns, ?_, ?_⟩
  · rcases h'.flag with hsame | hcleared
    · rw [hsame]
      exact h.flag
    · exact Or.inr hcleared
  · rw [hns, hms, List.append_assoc]
  · intro hmem
    rcases List.mem_append.1 hmem with hleft | hright
    · exact hkeep (hdiv hleft)
    · exact hdiv' hright

/-- The flag is set at the end only if it was set before. -/
theorem set_before {s s' : EvalState} (h : Later s s') (hs' : s'.success = 1) : s.success = 1 := by
  rcases h.flag with hsame | hcleared
  · exact hsame.symm.trans hs'
  · rw [hcleared] at hs'
    cases hs'

instance : IsPreorder EvalState Later where
  refl := refl
  trans _ _ _ h h' := trans h h'

theorem log {m : EvalMessage} (hm : m ≠ .divisionByZero) : Within Later (Nemu.log m) := by
  intro s
  refine ⟨Or.inl rfl, [m], rfl, fun hmem => ?_⟩
  exact absurd (List.mem_singleton.1 hmem).symm hm

theorem clearSuccess : Within Later Nemu.clearSuccess :=
  fun s => ⟨Or.inr rfl, [], by simp [Nemu.clearSuccess], fun _ => rfl⟩

theorem zeroDivisor : Within Later (do
    Nemu.clearSuccess
    Nemu.log .divisionByZero) :=
  fun _ => ⟨Or.inr rfl, [.divisionByZero], rfl, fun _ => rfl⟩

theorem liftBus {α : Type} (x : OnBus α) : Within Later (Nemu.liftBus x) := by
  intro s
  rw [final_liftBus]
  exact ⟨Or.inl rfl, [], by simp, by simp⟩

instance : EvalRel Later where
  log _ hm := log hm
  clearSuccess := clearSuccess
  zeroDivisor := zeroDivisor
  read addr len := liftBus (vaddrRead addr len)

end Later

end Nemu
