import Mathlib.Data.List.TakeWhile
import Nemu.Expr.Grammar
import Nemu.Monitor.Ui
import Nemu.Monitor.WatchpointCheck

/-!
# The command `d`

`d s` should move the watchpoint that `s` names to the free list, and otherwise leave the two lists
as they are.  `delete_wp` reads through `head` before anything else, and `atoi` finds a number in
any string.
-/

namespace Nemu

open Chain StateRules

/-! ## Numbers -/

/-- The number that `s` is the decimal numeral of. -/
def decimalNumeral (s : List Char) : Option Nat :=
  if s ≠ [] ∧ s.all Char.isDigit then some (numeral 10 s) else none

theorem decimalNumeral_eq_some {s : List Char} {n : Nat} (h : decimalNumeral s = some n) :
    s ≠ [] ∧ (∀ c ∈ s, c.isDigit = true) ∧ numeral 10 s = n := by
  unfold decimalNumeral at h
  split at h
  case isTrue hs => exact ⟨hs.1, List.all_eq_true.1 hs.2, Option.some.inj h⟩
  case isFalse => cases h

theorem isDigit_iff {c : Char} : c.isDigit = true ↔ 48 ≤ c.toNat ∧ c.toNat ≤ 57 :=
  Char.isDigit_iff_toNat

theorem digitValue_of_isDigit {c : Char} (h : c.isDigit = true) :
    digitValue c = c.toNat - 48 := by
  have hle : c ≤ '9' := (isDigit_iff.1 h).2
  rw [digitValue, if_pos hle]

/-- `strtol` takes all of a numeral. -/
theorem decimalValue_numeral {s : List Char} (h : ∀ c ∈ s, c.isDigit = true) :
    decimalValue s = numeral 10 s := by
  have hfold : ∀ n : Nat, s.foldl (fun (n : Int) c => 10 * n + (c.toNat - 48 : Nat)) n =
      (s.foldl (fun n c => n * 10 + digitValue c) n : Nat) := by
    induction s with
    | nil => exact fun _ => rfl
    | cons c s ih =>
        intro n
        have hstep : 10 * (n : Int) + (c.toNat - 48 : Nat) = (n * 10 + digitValue c : Nat) := by
          rw [digitValue_of_isDigit (h c (by simp))]
          omega
        rw [List.foldl_cons, List.foldl_cons, hstep]
        exact ih (fun d hd => h d (by simp [hd])) _
  rw [decimalValue, List.takeWhile_eq_self_iff.2 h]
  exact hfold 0

theorem strtol_numeral {s : List Char} (hne : s ≠ []) (h : ∀ c ∈ s, c.isDigit = true) :
    strtol s = min 9223372036854775807 (numeral 10 s : Int) := by
  cases s with
  | nil => exact absurd rfl hne
  | cons c s =>
      have hdigit := isDigit_iff.1 (h c (by simp))
      -- a digit is no space and no sign
      have hspace : isSpace c = false := by
        have hchar : ∀ d : Char, d.toNat < 48 → c ≠ d := by
          rintro d hd rfl
          omega
        have h11 : c.toNat ≠ 11 := by omega
        have h12 : c.toNat ≠ 12 := by omega
        simp [isSpace, hchar ' ' (by decide), hchar '\t' (by decide), hchar '\n' (by decide),
          hchar '\r' (by decide), h11, h12]
      have hdrop : (c :: s).dropWhile isSpace = c :: s := by simp [hspace]
      have hminus : c ≠ '-' := by
        rintro rfl
        exact absurd hdigit (by decide)
      have hplus : c ≠ '+' := by
        rintro rfl
        exact absurd hdigit (by decide)
      rw [← decimalValue_numeral h, strtol, hdrop]
      split
      case h_1 heq => exact absurd (List.cons.inj heq).1 hminus
      case h_2 heq => exact absurd (List.cons.inj heq).1 hplus
      case h_3 => rfl

/-- On the numeral of an `int`, `atoi` is exact. -/
theorem atoi_numeral {s : List Char} {n : Nat} (h : decimalNumeral s = some n)
    (hn : n < 2147483648) : atoi s = n := by
  rcases decimalNumeral_eq_some h with ⟨hne, hdigits, hvalue⟩
  rw [atoi, strtol_numeral hne hdigits, hvalue]
  have hmin : min 9223372036854775807 (n : Int) = n := by omega
  rw [hmin, BitVec.toInt_ofInt]
  exact Int.bmod_eq_of_le (by omega) (by omega)

/-! ## What d is for -/

/-- What deleting `target` does to the two lists. -/
structure Moves (target : Option Nat) (active free active' free' : List Nat) : Prop where
  moved : ∀ n, target = some n → n ∈ active → active' = active.erase n ∧ free'.Perm (n :: free)
  kept : (∀ n, target = some n → n ∉ active) → active' = active ∧ free' = free

variable {R : Type}

/-- `d` with these arguments returns, and moves the watchpoint that they name. -/
def DeleteExact (args : Option (List Char)) (active free : List Nat) (u : Ui R) : Prop :=
  ∃ r u' active' free', Ui.cmdD args u = .ok r u' ∧ u'.world.wp.Lists active' free' ∧
    Moves (args.bind decimalNumeral) active free active' free'

section Command

variable {u : Ui R} {active free : List Nat}

theorem cmdD_run {s : List Char} {d : Debugger} (h : deleteWp (atoi s) u.world.debugger = .ok ⟨⟩ d) :
    Ui.cmdD (some s) u = .ok 0 { u with world := u.world.withDebugger d } := by
  exact bind_ok (onWorld_of_ok (onDebugger_of_ok h))

/-- With no watchpoint, `delete_wp` reads through a null pointer. -/
theorem cmdD_nil (h : u.world.wp.Lists [] free) (s : List Char) :
    ∃ u', Ui.cmdD (some s) u = .error .null u' := by
  have hhead : u.world.debugger.wp.head = none := h.headPath
  have hnull : deleteWp (atoi s) u.world.debugger = .error .null u.world.debugger := by
    rw [deleteWp, bind_ok (get_run _), hhead]
    rfl
  exact ⟨_, bind_error (onWorld_of_error (onDebugger_of_error hnull))⟩

/-- The lists behind a command. -/
theorem cmdD_lists (h : u.world.wp.Lists active free) (hne : active ≠ []) (s : List Char) :
    ∃ u', Ui.cmdD (some s) u = .ok 0 u' ∧
      u'.world.wp.Lists (active.filter fun i : Nat => (i : Int) ≠ atoi s)
        (free ++ active.filter fun i : Nat => (i : Int) = atoi s) := by
  rcases deleteWp_run (s := u.world.debugger) h hne (atoi s) with ⟨d, hrun, hlists⟩
  exact ⟨_, cmdD_run hrun, hlists⟩

/-- The lists of a pool are determined by it. -/
theorem WpState.Lists.unique {wp : WpState} {active' free' : List Nat} (h : wp.Lists active free)
    (h' : wp.Lists active' free') : active' = active ∧ free' = free :=
  ⟨h'.headPath.unique h.headPath, h'.freePath.unique h.freePath⟩

/-- `d` is exact if and only if it has no argument, or some watchpoint is active and `atoi` reads
the number of an active watchpoint from a numeral alone. -/
theorem cmdD_exact_iff (h : u.world.wp.Lists active free) (args : Option (List Char)) :
    DeleteExact args active free u ↔
      args = none ∨ active ≠ [] ∧
        ∀ s, args = some s → ∀ i ∈ active, atoi s = i → decimalNumeral s = some i := by
  cases args with
  | none =>
      refine iff_of_true ⟨0, _, active, free, rfl, h, ?_⟩ (Or.inl rfl)
      exact ⟨fun n hn => (Option.some_ne_none n hn.symm).elim, fun _ => ⟨rfl, rfl⟩⟩
  | some s =>
      have hnodup := (List.nodup_append.1 h.nodup).1
      constructor
      · rintro ⟨r, u', active', free', hrun, hlists, hmoves⟩
        have hne : active ≠ [] := by
          rintro rfl
          rcases cmdD_nil h s with ⟨u'', hnull⟩
          rw [hnull] at hrun
          cases hrun
        rcases cmdD_lists h hne s with ⟨u'', hrun', hlists'⟩
        rw [hrun] at hrun'
        cases hrun'
        have hactive := (hlists'.unique hlists).1
        refine Or.inr ⟨hne, ?_⟩
        rintro _ ⟨rfl⟩ i hi hatoi
        -- the watchpoint is gone, so that it must be the one that is named
        have hgone : i ∉ active' := by
          rw [hactive]
          simp [hatoi]
        by_contra hnumeral
        by_cases hnamed : ∃ n, decimalNumeral s = some n ∧ n ∈ active
        · rcases hnamed with ⟨n, hn, hmem⟩
          have hin : i ≠ n := fun heq => hnumeral (heq ▸ hn)
          rw [(hmoves.moved n hn hmem).1] at hgone
          exact hgone ((List.mem_erase_of_ne hin).2 hi)
        · have hkept := (hmoves.kept fun n hn hmem => hnamed ⟨n, hn, hmem⟩).1
          exact hgone (hkept ▸ hi)
      · rintro (hnone | ⟨hne, hnumeral⟩)
        · cases hnone
        rcases cmdD_lists h hne s with ⟨u', hrun, hlists⟩
        refine ⟨0, u', _, _, hrun, hlists, ?_, ?_⟩
        · intro n hn hmem
          have hlt : n < nrWp := h.lt_of_mem (List.mem_append_left _ hmem)
          have hatoi : atoi s = n := atoi_numeral hn (Nat.lt_trans hlt (by decide))
          rcases List.append_of_mem hmem with ⟨l, m, rfl⟩
          rcases filter_number hnodup hatoi.symm with ⟨hrest, hgone⟩
          have hnl : n ∉ l := fun hl => (List.nodup_append.1 hnodup).2.2 n hl n (by simp) rfl
          rw [hrest, hgone, List.erase_append_right _ hnl, List.erase_cons_head]
          exact ⟨rfl, List.perm_append_singleton n free⟩
        · intro hnone
          have hother : ∀ i ∈ active, (i : Int) ≠ atoi s := fun i hi heq =>
            hnone i (hnumeral s rfl i hi heq.symm) hi
          rw [List.filter_eq_self.2 (by simpa using hother),
            List.filter_eq_nil_iff.2 (by simpa using hother), List.append_nil]
          exact ⟨rfl, rfl⟩

/-- The watchpoints of `watchWord` at the command line. -/
def wordUi : Ui Unit := { world := { World.zero () with wp := watchWord }, out := [] }

/-- `d 1` -/
theorem cmdD_exact_iff_one : DeleteExact (some ['1']) [0, 1] (List.range' 2 30) wordUi := by
  have hlists : wordUi.world.wp.Lists [0, 1] (List.range' 2 30) := watchWord_lists
  refine (cmdD_exact_iff hlists (some ['1'])).2 (Or.inr ⟨by simp, ?_⟩)
  rintro _ ⟨rfl⟩ i - hi
  have hone : atoi ['1'] = 1 := by decide
  rw [hone] at hi
  obtain rfl : i = 1 := by omega
  rfl

/-- The command line behind `init_wp_pool`. -/
def emptyUi : Ui Unit :=
  { world := { World.zero () with wp := (final (initWpPool .zero)).wp }, out := [] }

/-- `d abc` deletes watchpoint 0, and `d 0` without watchpoints reads through a null pointer. -/
theorem cmdD_deletes_zero :
    ¬ DeleteExact (some ['a', 'b', 'c']) [0, 1] (List.range' 2 30) wordUi ∧
      ¬ DeleteExact (some ['0']) [] (List.range 32) emptyUi := by
  constructor
  · rintro ⟨r, u', active', free', hrun, hlists, hmoves⟩
    have hstart : wordUi.world.wp.Lists [0, 1] (List.range' 2 30) := watchWord_lists
    rcases cmdD_lists hstart (by simp) ['a', 'b', 'c'] with ⟨u'', hrun', hlists'⟩
    rw [hrun] at hrun'
    cases hrun'
    have hkept := hmoves.kept fun n hn => by cases hn
    have hone := (hlists'.unique hlists).1.symm.trans hkept.1
    exact absurd hone (by decide)
  · rintro ⟨r, u', active', free', hrun, -⟩
    have hstart : emptyUi.world.wp.Lists [] (List.range nrWp) := initWpPool_lists .zero
    rcases cmdD_nil hstart ['0'] with ⟨u'', hnull⟩
    rw [hnull] at hrun
    cases hrun

end Command

end Nemu
