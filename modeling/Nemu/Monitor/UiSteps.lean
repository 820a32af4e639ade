import Nemu.Monitor.UiMainloop

/-!
# The command loop as a run of statements

A line that is typed is carried out by statements of the program: what `ui_mainloop` leaves behind
is a configuration that the statements reach from the prompt.
-/

namespace Nemu

open StateRules

variable {R : Type} {E : Emulator R}

/-! ## What a handler does to the statics -/

/-- Every run of `x` that returns leaves the statics alone. -/
def Quiet {α : Type} (x : OnUi R α) : Prop :=
  ∀ u a u', x u = .ok a u' → u'.world = u.world

/-- Every run of `x` that returns is a run of statements from the prompt back to it. -/
def Returns {α : Type} (E : Emulator R) (x : OnUi R α) : Prop :=
  ∀ u a u', x u = .ok a u' → Steps E ⟨.prompt, u.world⟩ ⟨.prompt, u'.world⟩

section Rules

variable {α β : Type} {x : OnUi R α} {f : α → OnUi R β}

theorem Quiet.pure (a : α) : Quiet (Pure.pure a : OnUi R α) := by
  intro u b u' h
  cases h
  rfl

theorem Quiet.printLine (line : UiLine) : Quiet (Nemu.printLine line : OnUi R Unit) := by
  intro u a u' h
  cases h
  rfl

theorem Quiet.bind (hx : Quiet x) (hf : ∀ a, Quiet (f a)) : Quiet (x >>= f) := by
  intro u b u'' h
  rcases bind_eq_ok.1 h with ⟨a, u', hrun, hrest⟩
  exact (hf a u' b u'' hrest).trans (hx u a u' hrun)

theorem Quiet.forM (lines : List UiLine) : Quiet (lines.forM Nemu.printLine : OnUi R PUnit) := by
  induction lines with
  | nil => exact .pure _
  | cons line lines ih => exact .bind (.printLine line) fun _ => ih

theorem Quiet.returns (h : Quiet x) : Returns E x := by
  intro u a u' hrun
  rw [h u a u' hrun]

theorem Returns.bind (hx : Returns E x) (hf : ∀ a, Returns E (f a)) : Returns E (x >>= f) := by
  intro u b u'' h
  rcases bind_eq_ok.1 h with ⟨a, u', hrun, hrest⟩
  exact (hx u a u' hrun).trans (hf a u' b u'' hrest)

theorem onWorld_ok {x : OnWorld R α} {a : α} {u u' : Ui R} (h : onWorld x u = .ok a u') :
    x u.world = .ok a u'.world := by
  unfold onWorld at h
  cases hrun : x u.world with
  | ok b world =>
      rw [hrun] at h
      cases h
      rfl
  | error e world =>
      rw [hrun] at h
      cases h

/-- A function of `cpu-exec.c` or a command that is one statement. -/
theorem Returns.onWorld {x : OnWorld R α}
    (h : ∀ w, Covers E .prompt x .prompt w) : Returns E (Nemu.onWorld x) := by
  intro u a u' hrun
  exact (h u.world).ok a u'.world (onWorld_ok hrun)

end Rules

/-! ## Handlers -/

namespace Ui

theorem cmdHelp_quiet (saved : List Char) : Quiet (cmdHelp saved : OnUi R Int) := by
  refine .bind (.printLine _) fun _ => .bind ?_ fun _ => .pure _
  cases strtok saved with
  | none => exact fun u a u' h => by cases h; rfl
  | some word =>
      dsimp only [Option.map_some, showHelp]
      cases findCmd word.1 with
      | none => exact .printLine _
      | some e => exact .printLine _

theorem cmdC_returns : Returns E (cmdC E) := by
  refine .bind (.onWorld fun w => ?_) fun _ => (Quiet.pure _).returns
  exact ⟨fun a w' h => .head (step_command _ w) ((cpuExec_covers _ w).ok a w' h),
    fun e w' h => .head (step_command _ w) ((cpuExec_covers _ w).error e w' h)⟩

theorem cmdSi_returns (saved : List Char) : Returns E (cmdSi E saved) := by
  have hnote : Quiet (noteZero ((strtok saved).map fun word => atoi word.1) : OnUi R Unit) := by
    unfold noteZero
    split
    · exact .printLine _
    · exact .pure _
  exact hnote.returns.bind fun _ => .bind (.onWorld fun w => siLoop_covers _ w) fun _ =>
    (Quiet.pure _).returns

/-! ### info -/

theorem wpRows_within (fuel : Nat) (p : Option Nat) : Within Eq (wpRows fuel p) := by
  induction fuel generalizing p with
  | zero => exact Within.throw _
  | succ fuel ih =>
      refine (node_within p).bind fun wp => ?_
      refine Within.ite (Within.pure _) ?_
      exact (ih wp.next).bind fun _ => Within.pure _

theorem infoWpDisplay_within : Within Eq infoWpDisplay :=
  Within.get.bind fun s => Within.ite (Within.pure _) (wpRows_within nrWp s.wp.head)

theorem cmdInfo_quiet (saved : List Char) : Quiet (cmdInfo saved : OnUi R Int) := by
  have hwp : Quiet (showWatchpoints : OnUi R Unit) := by
    refine .bind (fun u a u' h => ?_) fun rows => .forM rows
    have hfinal := final_onDebugger infoWpDisplay u.world
    -- reading the pool leaves the debugger as it was
    rw [onWorld_ok h, ← infoWpDisplay_within u.world.debugger] at hfinal
    exact hfinal
  have hreg : Quiet (showRegisters : OnUi R Unit) := by
    intro u a u' h
    cases h
    rfl
  unfold cmdInfo
  cases strtok saved with
  | none => exact .bind (.printLine _) fun _ => .pure _
  | some word =>
      refine .bind ?_ fun _ => .pure _
      unfold showInfo
      split
      · exact hwp
      · split
        · exact hreg
        · exact .pure _

/-! ### Expressions and memory -/

theorem evalArgs_returns (args : Option (List Char)) : Returns E (evalArgs args) := by
  cases args with
  | none => exact fun u a u' h => by cases h
  | some e =>
      intro u a u' h
      rcases bind_eq_ok.1 h with ⟨_, _, hget, hcall⟩
      cases hget
      have hrun : Nemu.cmdP (some e) u.world = .ok ⟨⟩ u'.world := by
        rw [Nemu.cmdP, bind_ok (get_run u.world), bind_ok (onWorld_ok hcall)]
        rfl
      exact .single (step_of_run (c := .p (some e)) (bind_ok hrun))

theorem cmdP_returns (args : Option (List Char)) : Returns E (cmdP args) := by
  refine (evalArgs_returns args).bind fun result => ?_
  refine Returns.bind ?_ fun _ => (Quiet.pure _).returns
  unfold showValue
  split
  · exact (Quiet.printLine _).returns
  · exact (Quiet.pure _).returns

/-- The words that are printed are read as `readWords` reads them. -/
theorem printWords_reads {n i : Nat} {address : Word} {u u' : Ui R} {r : Unit}
    (h : printWords n i address u = .ok r u') :
    readWords n address u.world = .ok ⟨⟩ u'.world := by
  induction n generalizing i address u with
  | zero =>
      cases h
      rfl
  | succ n ih =>
      rcases bind_eq_ok.1 h with ⟨_, u₁, hrow, h₁⟩
      rcases bind_eq_ok.1 h₁ with ⟨v, u₂, hread, h₂⟩
      rcases bind_eq_ok.1 h₂ with ⟨_, u₃, hword, h₃⟩
      have hquiet : Quiet (startRow i address : OnUi R Unit) := by
        unfold startRow
        split
        · exact .printLine _
        · exact .pure _
      have hworld := ih h₃
      rw [Quiet.printLine _ _ _ _ hword] at hworld
      rw [readWords, ← hquiet _ _ _ hrow, bind_ok (onWorld_ok hread)]
      exact hworld

theorem examine_returns {n : Int} (hn : ¬ n ≤ 0) (saved : List Char) :
    Returns E (examine n saved) := by
  unfold examine
  cases strtok saved with
  | none => exact fun u a u' h => by cases h
  | some word =>
      dsimp only
      split
      case isFalse => exact fun u a u' h => by cases h
      case isTrue =>
        refine (Quiet.printLine _).returns.bind fun _ => ?_
        refine Returns.bind (fun u a u' h => ?_) fun _ => (Quiet.pure _).returns
        refine .single (step_of_run (c := .x n (htoi word.1)) ?_)
        change Command.run (.x n (htoi word.1)) u.world = _
        rw [Command.run, if_neg hn, bind_ok (printWords_reads h)]
        rfl

/-! ### Watchpoints -/

theorem cmdW_returns (args : Option (List Char)) : Returns E (cmdW args) := by
  intro u a u' h
  rcases bind_eq_ok.1 h with ⟨_, _, hget, h₁⟩
  cases hget
  rcases bind_eq_ok.1 h₁ with ⟨_, u₂, hnew, hpure⟩
  cases hpure
  refine .single (step_of_run (c := .w args) ?_)
  change Command.run (.w args) u.world = _
  rw [Command.run, bind_ok (get_run u.world), bind_ok (onWorld_ok hnew)]
  rfl

theorem cmdD_returns (args : Option (List Char)) : Returns E (cmdD args) := by
  cases args with
  | none => exact (Quiet.bind (.printLine _) fun _ => .pure _).returns
  | some args =>
      refine Returns.bind (fun u a u' h => ?_) fun _ => (Quiet.pure _).returns
      exact .single (step_of_run (c := .d (atoi args)) (bind_ok (onWorld_ok h)))

end Ui

/-! ## Lines -/

/-- Where a result leads. -/
def Point.behind (r : Int) : Point := if r < 0 then .exited else .prompt

theorem Returns.behind {x : OnUi R Int} (hx : Returns E x) {r : Int} {u u' : Ui R}
    (hzero : r = 0) (h : x u = .ok r u') :
    Steps E ⟨.prompt, u.world⟩ ⟨.behind r, u'.world⟩ := by
  subst hzero
  exact hx u 0 u' h

/-- A count that is not positive ends the program, any other is that of the words to be read. -/
theorem cmdXN_steps {saved : List Char} {r : Int} {u u' : Ui R}
    (h : Ui.cmdXN saved u = .ok r u') :
    Steps E ⟨.prompt, u.world⟩ ⟨.behind r, u'.world⟩ := by
  unfold Ui.cmdXN at h
  cases hword : strtok saved with
  | none =>
      rw [hword] at h
      cases h
  | some word =>
      rw [hword] at h
      dsimp only at h
      split at h
      case isTrue =>
        cases h
        exact .single (step_of_run (c := .q) rfl)
      case isFalse hpos => exact (Ui.examine_returns hpos word.2).behind (Ui.examine_result h) h

theorem handler_steps {f : Handler} {args : Option (List Char)} {saved : List Char} {r : Int}
    {u u' : Ui R} (h : f.run E args saved u = .ok r u') :
    Steps E ⟨.prompt, u.world⟩ ⟨.behind r, u'.world⟩ := by
  cases f with
  | cmdHelp => exact (Ui.cmdHelp_quiet saved).returns.behind (Ui.cmdHelp_result h) h
  | cmdC => exact Ui.cmdC_returns.behind (Ui.cmdC_result h) h
  | cmdQ =>
      cases h
      exact .single (step_of_run (c := .q) rfl)
  | cmdSi => exact (Ui.cmdSi_returns saved).behind (Ui.cmdSi_result h) h
  | cmdInfo => exact (Ui.cmdInfo_quiet saved).returns.behind (Ui.cmdInfo_result h) h
  | cmdP => exact (Ui.cmdP_returns args).behind (Ui.cmdP_result h) h
  | cmdXN => exact cmdXN_steps h
  | cmdW => exact (Ui.cmdW_returns args).behind (Ui.cmdW_result h) h
  | cmdD => exact (Ui.cmdD_returns args).behind (Ui.cmdD_result h) h

/-- Where a line leads: back to the prompt, or out of the program. -/
theorem runLine_steps {line : List Char} {r : Int} {u u' : Ui R}
    (h : runLine E line u = .ok r u') :
    Steps E ⟨.prompt, u.world⟩ ⟨.behind r, u'.world⟩ := by
  unfold runLine at h
  cases hword : strtok line with
  | none =>
      rw [hword] at h
      cases h
      exact .refl
  | some word =>
      rw [hword] at h
      dsimp only at h
      cases hfind : findCmd word.1 with
      | none =>
          rw [hfind] at h
          have hquiet : Quiet (printLine (.unknownCommand word.1) >>= fun _ => pure 0 :
              OnUi R Int) := .bind (.printLine _) fun _ => .pure _
          exact hquiet.returns.behind (eq_zero_of_return h) h
      | some e =>
          rw [hfind] at h
          exact handler_steps h

/-- The command loop does nothing that the statements do not do: every run of it on typed lines
is a run of theirs from the prompt. -/
theorem uiMainloop_steps {lines : List (List Char)} {x : Exit} {u u' : Ui R}
    (h : uiMainloop E lines u = .ok x u') :
    ∃ p, Steps E ⟨.prompt, u.world⟩ ⟨p, u'.world⟩ := by
  induction lines generalizing u with
  | nil =>
      cases h
      exact ⟨.prompt, .refl⟩
  | cons line lines ih =>
      rcases bind_eq_ok.1 h with ⟨r, u₁, hline, hrest⟩
      have hsteps := runLine_steps hline
      by_cases hneg : r < 0
      · rw [if_pos hneg] at hrest
        cases hrest
        exact ⟨_, hsteps⟩
      · rw [if_neg hneg] at hrest
        rw [Point.behind, if_neg hneg] at hsteps
        rcases ih hrest with ⟨p, hp⟩
        exact ⟨p, hsteps.trans hp⟩

/-- No typed line makes a guest run again that has ended. -/
theorem uiMainloop_ended {lines : List (List Char)} {x : Exit} {u u' : Ui R}
    (h : uiMainloop E lines u = .ok x u') (ht : u.world.state.Terminal) :
    u'.world.state.Terminal := by
  rcases uiMainloop_steps h with ⟨p, hsteps⟩
  have hended : (Config.mk .prompt u.world : Config R).Terminal := ht
  exact (Steps.ended E .prompt hended hsteps).1

end Nemu
