import Nemu.Monitor.WatchpointCheck

/-!
# When one check is exact

The answer of `check` against what it is meant to say about the machine state: that the current
value of some active watchpoint is not the stored one.  The loop stops in front of the last
watchpoint, needs one to start with, and reads more than the flag through the pointer to it.
-/

namespace Nemu

open Chain StateRules

/-! ## Current values -/

/-- The expressions of the nodes, evaluated one after the other, return these values and keep their
flag. -/
def CurrentValues (cpu : CPUState) : Debugger → List Nat → List Word → Prop
  | _, [], [] => True
  | d, i :: l, v :: vs =>
      ∃ d', callExpr cpu (d.wp.pool i).cstr 1 d = .ok (v, 1) d' ∧ CurrentValues cpu d' l vs
  | _, _, _ => False

theorem Changed.append {wp : WpState} {l : List Nat} {vs : List Word} (h : Changed wp l vs)
    (m : List Nat) (us : List Word) : Changed wp (l ++ m) (vs ++ us) := by
  induction l generalizing vs with
  | nil => exact absurd h (not_changed_nil wp vs)
  | cons i l ih =>
      cases vs with
      | nil =>
          rcases h with ⟨iv, hmem, -⟩
          cases hmem
      | cons v vs =>
          rw [List.cons_append, List.cons_append, changed_cons]
          exact (changed_cons.1 h).imp_right ih

/-- The current values depend on the pool, the machine and the bytes behind the flags. -/
theorem CurrentValues.congr {cpu : CPUState} {d₁ d₂ : Debugger} {l : List Nat} {vs : List Word}
    (h : CurrentValues cpu d₁ l vs) (hwp : d₂.wp = d₁.wp) (hview : SameView d₁ d₂) :
    CurrentValues cpu d₂ l vs := by
  induction l generalizing d₁ d₂ vs with
  | nil =>
      cases vs with
      | nil => exact trivial
      | cons v vs => exact h
  | cons i l ih =>
      cases vs with
      | nil => exact h
      | cons v vs =>
          rcases h with ⟨d₁', hcall, hrest⟩
          rcases callExpr_congr hview hcall with ⟨d₂', hcall', hwp', hview'⟩
          have hsame : d₁'.wp = d₁.wp := (callExpr_sameWp cpu _ _).ok hcall
          rw [← hwp] at hcall'
          exact ⟨d₂', hcall', ih hrest (by rw [hwp', hwp, hsame]) hview'⟩

/-- They are the values in turn. -/
theorem CurrentValues.inTurn {cpu : CPUState} {d : Debugger} {l : List Nat} {vs : List Word}
    (h : CurrentValues cpu d l vs) : valuesInTurn cpu 1 d l = some vs := by
  induction l generalizing d vs with
  | nil =>
      cases vs with
      | nil => rfl
      | cons v vs => exact h.elim
  | cons i l ih =>
      cases vs with
      | nil => exact h.elim
      | cons v vs =>
          rcases h with ⟨d', hcall, hrest⟩
          rw [valuesInTurn_cons hcall, ih hrest]
          rfl

theorem CurrentValues.dropLast {cpu : CPUState} {d : Debugger} {l : List Nat} {vs : List Word}
    (h : CurrentValues cpu d l vs) : CurrentValues cpu d l.dropLast vs.dropLast := by
  induction l generalizing d vs with
  | nil =>
      cases vs with
      | nil => exact trivial
      | cons v vs => exact h.elim
  | cons i l ih =>
      cases vs with
      | nil => exact h.elim
      | cons v vs =>
          rcases h with ⟨d', hcall, hrest⟩
          cases l with
          | nil =>
              cases vs with
              | nil => exact trivial
              | cons u vs => exact hrest.elim
          | cons j l =>
              cases vs with
              | nil => exact hrest.elim
              | cons u vs => exact ⟨d', hcall, ih hrest⟩

/-- What `check` owes to the machine state: it returns, and finds exactly the changes. -/
def CheckExact (cpu : CPUState) (d : Debugger) (active : List Nat) (vs : List Word) : Prop :=
  ∃ flag d', Nemu.check cpu d = .ok flag d' ∧ (flag = true ↔ Changed d.wp active vs)

/-! ## The list that is compared -/

/-- A check is exact if and only if some watchpoint is active, and the values of all but the last, as
the check reads them, show a change exactly when the current values of all of them do.  Over zeros the
values read are the current ones. -/
theorem check_exact_iff {cpu : CPUState} {active free : List Nat} {d : Debugger} {vs : List Word}
    (h : d.wp.Lists active free) (hvs : CurrentValues cpu d.clear active vs) :
    (CheckExact cpu d active vs ↔
      active ≠ [] ∧ ∃ us, valuesInTurn cpu 1 d active.dropLast = some us ∧
        (Changed d.wp active.dropLast us ↔ Changed d.wp active vs)) ∧
    ((∀ n, d.behind n = 0) → valuesInTurn cpu 1 d active.dropLast = some vs.dropLast) := by
  refine ⟨⟨?_, ?_⟩, fun hzero => ?_⟩
  · rintro ⟨flag, d', hrun, hexact⟩
    have hne : active ≠ [] := by
      rintro rfl
      rw [check_nil h] at hrun
      cases hrun
    rcases (check_lists_iff h hne).1 ⟨d', hrun⟩ with ⟨us, hvalues, hflag⟩
    exact ⟨hne, us, hvalues, hflag.symm.trans hexact⟩
  · rintro ⟨hne, us, hvalues, hsame⟩
    have hrun : ∃ d', Nemu.check cpu d = .ok (decide (Changed d.wp active.dropLast us)) d' :=
      (check_lists_iff h hne).2 ⟨us, hvalues, decide_eq_true_iff⟩
    rcases hrun with ⟨d', hrun⟩
    exact ⟨_, d', hrun, decide_eq_true_iff.trans hsame⟩
  · have hview : SameView d.clear d := ⟨rfl, funext hzero⟩
    have hcurrent : CurrentValues cpu d active vs := hvs.congr rfl hview
    exact hcurrent.dropLast.inTurn

/-- The watchpoints of `watchWord`, with 1 at 0x100: the first one has changed, and what lies behind
the flag does not matter. -/
theorem check_exact_iff_word :
    let d := wordDebugger.over (.word 1 fun n => BitVec.ofNat 24 (n + 1))
    CheckExact .zero d [0, 1] [1, 1] := by
  intro d
  have hload : LittleEndian.load d.bus.pmem 0x100 4 = 1 := LittleEndian.load_store _ _ _
  have hvs : CurrentValues .zero d.clear [0, 1] [1, 1] := by
    rcases callExpr_word .zero 1 d.clear rfl with ⟨buf, hword⟩
    rcases callExpr_one .zero 1 (d.clear.called buf) with ⟨buf', hone⟩
    exact ⟨d.clear.called buf, hload ▸ hword, _, hone, trivial⟩
  have hturn := valuesInTurn_word .zero (d := d) rfl rfl
  rw [hload] at hturn
  have hfirst : Changed watchWord [0] [1] := ⟨(0, 1), by simp, by decide⟩
  exact (check_exact_iff (d := d) watchWord_lists hvs).1.2
    ⟨by simp, [1], hturn, iff_of_true hfirst (hfirst.append [1] [1])⟩

/-- The watchpoint `*0x100` alone, set when the word was 0. -/
def watchOnlyWord : WpState :=
  { pool := fun i =>
      if i = 0 then ⟨0, none, starWord, 0⟩
      else ⟨i, if i < nrWp - 1 then some (i + 1) else none, [], 0⟩
    head := some 0
    free_ := some 1 }

theorem watchOnlyWord_lists : watchOnlyWord.Lists [0] (List.range' 1 31) where
  headPath := by decide
  freePath := by decide
  perm := by decide
  no := by decide

/-- With 1 at 0x100, the only watchpoint has changed and the check does not say so. -/
theorem check_misses_last :
    ¬ ∀ (cpu : CPUState) (d : Debugger) (active free : List Nat) (vs : List Word),
        d.wp.Lists active free → CurrentValues cpu d.clear active vs → CheckExact cpu d active vs := by
  intro h
  let d : Debugger := { wordDebugger.over (.word 1 fun _ => 0) with wp := watchOnlyWord }
  have hload : LittleEndian.load d.bus.pmem 0x100 4 = 1 := LittleEndian.load_store _ _ _
  rcases callExpr_word .zero 1 d.clear rfl with ⟨buf, hword⟩
  rcases h .zero d [0] _ [1] watchOnlyWord_lists ⟨_, hload ▸ hword, trivial⟩ with
    ⟨flag, d', hrun, hflag⟩
  -- the loop stops in front of it, and so at once
  have hfalse : Nemu.check .zero d = .ok false d := rfl
  rw [hfalse] at hrun
  cases hrun
  exact absurd (hflag.2 ⟨(0, 1), by simp, by decide⟩) (by decide)

end Nemu
