import Nemu.Monitor.Ui

/-!
# Leaving the command loop

`ui_mainloop` returns as soon as a handler's result is negative.  `cmd_q` means it that way; the
other negative result is that of `cmd_x_N` for a count that is not positive.
-/

namespace Nemu

open StateRules

variable {R : Type} {E : Emulator R}

/-! ## Results of the handlers -/

/-- `x` with a first argument that is no positive number. -/
def BadCount (saved : List Char) : Prop :=
  ∃ arg saved', strtok saved = some (arg, saved') ∧ atoi arg ≤ 0

theorem eq_zero_of_return {α : Type} {x : OnUi R α} {r : Int} {u u' : Ui R}
    (h : (x >>= fun _ => pure 0) u = .ok r u') : r = 0 := by
  rcases bind_eq_ok.1 h with ⟨_, _, _, hpure⟩
  cases hpure
  rfl

namespace Ui

variable {r : Int} {u u' : Ui R} {args : Option (List Char)} {saved : List Char}

theorem cmdHelp_result (h : cmdHelp saved u = .ok r u') : r = 0 := by
  rcases bind_eq_ok.1 h with ⟨_, _, _, h₁⟩
  exact eq_zero_of_return h₁

theorem cmdC_result (h : cmdC E u = .ok r u') : r = 0 := eq_zero_of_return h

theorem cmdSi_result (h : cmdSi E saved u = .ok r u') : r = 0 := by
  rcases bind_eq_ok.1 h with ⟨_, _, _, h₁⟩
  exact eq_zero_of_return h₁

theorem cmdInfo_result (h : cmdInfo saved u = .ok r u') : r = 0 := by
  unfold cmdInfo at h
  cases hword : strtok saved with
  | none =>
      rw [hword] at h
      exact eq_zero_of_return h
  | some word =>
      rw [hword] at h
      exact eq_zero_of_return h

theorem cmdP_result (h : cmdP args u = .ok r u') : r = 0 := by
  rcases bind_eq_ok.1 h with ⟨_, _, _, h₁⟩
  exact eq_zero_of_return h₁

theorem examine_result {n : Int} (h : examine n saved u = .ok r u') : r = 0 := by
  unfold examine at h
  cases hword : strtok saved with
  | none =>
      rw [hword] at h
      cases h
  | some word =>
      rw [hword] at h
      dsimp only at h
      split at h
      case isTrue =>
        rcases bind_eq_ok.1 h with ⟨_, _, _, h₁⟩
        exact eq_zero_of_return h₁
      case isFalse => cases h

/-- The only handler besides `cmd_q` with a negative result. -/
theorem cmdXN_result (h : cmdXN saved u = .ok r u') : r < 0 ↔ BadCount saved := by
  unfold cmdXN at h
  cases hword : strtok saved with
  | none =>
      rw [hword] at h
      cases h
  | some word =>
      rw [hword] at h
      dsimp only at h
      -- the word that the handler has read is the one that `BadCount` speaks about
      have hbad : BadCount saved ↔ atoi word.1 ≤ 0 := by
        constructor
        · rintro ⟨arg, saved', harg, hle⟩
          cases hword.symm.trans harg
          exact hle
        · exact fun hle => ⟨word.1, word.2, hword, hle⟩
      rw [hbad]
      split at h
      case isTrue hle =>
        rcases bind_eq_ok.1 h with ⟨_, _, _, hpure⟩
        cases hpure
        exact ⟨fun _ => hle, fun _ => by decide⟩
      case isFalse hpos =>
        rw [examine_result h]
        exact ⟨fun hlt => absurd hlt (by decide), fun hle => absurd hle hpos⟩

theorem cmdW_result (h : cmdW args u = .ok r u') : r = 0 := by
  rcases bind_eq_ok.1 h with ⟨_, _, _, h₁⟩
  exact eq_zero_of_return h₁

theorem cmdD_result (h : cmdD args u = .ok r u') : r = 0 := by
  unfold cmdD at h
  split at h
  · exact eq_zero_of_return h
  · exact eq_zero_of_return h

end Ui

theorem handler_result {f : Handler} {args : Option (List Char)} {saved : List Char} {r : Int}
    {u u' : Ui R} (h : f.run E args saved u = .ok r u') :
    r < 0 ↔ f = .cmdQ ∨ f = .cmdXN ∧ BadCount saved := by
  cases f with
  | cmdHelp => simp [Ui.cmdHelp_result h]
  | cmdC => simp [Ui.cmdC_result h]
  | cmdQ =>
      cases h
      simp
  | cmdSi => simp [Ui.cmdSi_result h]
  | cmdInfo => simp [Ui.cmdInfo_result h]
  | cmdP => simp [Ui.cmdP_result h]
  | cmdXN => simp [Ui.cmdXN_result h]
  | cmdW => simp [Ui.cmdW_result h]
  | cmdD => simp [Ui.cmdD_result h]

/-! ## One line -/

def firstWord (line : List Char) : Option (List Char) := (strtok line).map Prod.fst

/-- A line `x N ...` for a number `N` that is not positive. -/
def AsksForNothing (line : List Char) : Prop :=
  ∃ saved, strtok line = some (['x'], saved) ∧ BadCount saved

/-- No two entries of the table share a handler. -/
theorem findCmd_handler {cmd : List Char} {e : CmdEntry} (h : findCmd cmd = some e) {f : Handler}
    {name : List Char} (hf : ∀ e ∈ cmdTable, e.handler = f ↔ e.name = name) :
    e.handler = f ↔ cmd = name := by
  have hname : e.name = cmd := by simpa using List.find?_some h
  have hmem : e ∈ cmdTable := List.mem_of_find?_eq_some h
  rw [← hname]
  exact hf e hmem

/-- A word that is in no entry of the table is none of their names. -/
theorem ne_of_findCmd_eq_none {cmd name : List Char} (h : findCmd cmd = none)
    (hname : (findCmd name).isSome = true) : cmd ≠ name := by
  rintro rfl
  rw [h] at hname
  cases hname

theorem runLine_result {line : List Char} {r : Int} {u u' : Ui R}
    (h : runLine E line u = .ok r u') :
    r < 0 ↔ firstWord line = some ['q'] ∨ AsksForNothing line := by
  unfold runLine at h
  unfold firstWord AsksForNothing
  cases hword : strtok line with
  | none =>
      rw [hword] at h
      cases h
      simp
  | some word =>
      rcases word with ⟨cmd, saved⟩
      rw [hword] at h
      dsimp only at h
      have hasks : (∃ saved', some (cmd, saved) = some (['x'], saved') ∧ BadCount saved') ↔
          cmd = ['x'] ∧ BadCount saved := by
        constructor
        · rintro ⟨saved', heq, hbad⟩
          cases heq
          exact ⟨rfl, hbad⟩
        · rintro ⟨rfl, hbad⟩
          exact ⟨saved, rfl, hbad⟩
      rw [hasks, Option.map_some, Option.some_inj]
      cases hfind : findCmd cmd with
      | none =>
          rw [hfind] at h
          rw [eq_zero_of_return h]
          have hq : cmd ≠ ['q'] := ne_of_findCmd_eq_none hfind (by decide)
          have hx : cmd ≠ ['x'] := ne_of_findCmd_eq_none hfind (by decide)
          simp [hq, hx]
      | some e =>
          rw [hfind] at h
          have hq : e.handler = .cmdQ ↔ cmd = ['q'] := findCmd_handler hfind (by decide)
          have hx : e.handler = .cmdXN ↔ cmd = ['x'] := findCmd_handler hfind (by decide)
          rw [handler_result h, hq, hx]

/-! ## The loop -/

/-- The loop has ended at the end of input or at a line `q`. -/
def Exit.Asked (x : Exit) : Prop :=
  x = .endOfInput ∨ ∃ line, x = .left line ∧ firstWord line = some ['q']

theorem Exit.asked_left (line : List Char) :
    (Exit.left line).Asked ↔ firstWord line = some ['q'] := by
  constructor
  · rintro (h | ⟨line', h, hq⟩)
    · cases h
    · cases h
      exact hq
  · exact fun hq => .inr ⟨line, rfl, hq⟩

/-- The lines in front of the first `q`. -/
def beforeQuit (lines : List (List Char)) : List (List Char) :=
  lines.takeWhile fun line => firstWord line ≠ some ['q']

theorem beforeQuit_quit {line : List Char} {lines : List (List Char)}
    (hq : firstWord line = some ['q']) : beforeQuit (line :: lines) = [] := by
  simp [beforeQuit, hq]

theorem beforeQuit_other {line : List Char} {lines : List (List Char)}
    (hq : firstWord line ≠ some ['q']) :
    beforeQuit (line :: lines) = line :: beforeQuit lines := by
  simp [beforeQuit, hq]

/-- Every run without a fault: the loop is left for no other reason than `q` and the end of input
if and only if no line in front of `q` is an `x` with a count that is not positive. -/
theorem uiMainloop_iff {lines : List (List Char)} {x : Exit} {u u' : Ui R}
    (hrun : uiMainloop E lines u = .ok x u') :
    x.Asked ↔ ∀ line ∈ beforeQuit lines, ¬ AsksForNothing line := by
  induction lines generalizing u with
  -- on the lines: the loop goes on as long as no handler returns a negative number
  | nil =>
      cases hrun
      exact ⟨fun _ line hline => absurd hline (by simp [beforeQuit]), fun _ => .inl rfl⟩
  | cons line lines ih =>
      rcases bind_eq_ok.1 hrun with ⟨r, u₁, hline, hrest⟩
      have hresult := runLine_result hline
      by_cases hneg : r < 0
      · rw [if_pos hneg] at hrest
        cases hrest
        rw [Exit.asked_left]
        by_cases hq : firstWord line = some ['q']
        · rw [beforeQuit_quit hq]
          exact ⟨fun _ line hline => absurd hline List.not_mem_nil, fun _ => hq⟩
        · have hasks : AsksForNothing line := (hresult.1 hneg).resolve_left hq
          rw [beforeQuit_other hq]
          exact ⟨fun hq' => absurd hq' hq, fun h => absurd hasks (h line List.mem_cons_self)⟩
      · rw [if_neg hneg] at hrest
        have hq : firstWord line ≠ some ['q'] := fun hq => hneg (hresult.2 (.inl hq))
        have hasks : ¬ AsksForNothing line := fun hasks => hneg (hresult.2 (.inr hasks))
        rw [ih hrest, beforeQuit_other hq]
        simp only [List.forall_mem_cons, hasks, not_false_eq_true, true_and]

/-- The condition holds of a line `info` and a line `q`. -/
theorem uiMainloop_iff_info :
    ∃ x u', uiMainloop (Emulator.x86 false .idle (pure ())) [['i', 'n', 'f', 'o'], ['q']]
        ⟨trapWorld, []⟩ = .ok x u' ∧
      (∀ line ∈ beforeQuit [['i', 'n', 'f', 'o'], ['q']], ¬ AsksForNothing line) ∧ x.Asked := by
  let E : Emulator Unit := .x86 false .idle (pure ())
  have hrun : uiMainloop E [['i', 'n', 'f', 'o'], ['q']] ⟨trapWorld, []⟩ =
      .ok (.left ['q']) ⟨trapWorld, [.infoExample]⟩ := rfl
  have hasked : (Exit.left ['q']).Asked := (Exit.asked_left _).2 (by decide)
  exact ⟨_, _, hrun, (uiMainloop_iff hrun).1 hasked, hasked⟩

/-- `x 0` ends the program, while `si 0` and `d` report the same mistake and go on. -/
theorem x_zero_leaves :
    ∃ u', uiMainloop (Emulator.x86 false .idle (pure ())) [['x', ' ', '0'], ['c']]
        ⟨trapWorld, []⟩ = .ok (.left ['x', ' ', '0']) u' ∧
      ¬ (Exit.left ['x', ' ', '0']).Asked := by
  refine ⟨⟨trapWorld, [.invalidInput]⟩, rfl, ?_⟩
  rw [Exit.asked_left]
  decide

end Nemu
