import Nemu.Expr.Htoi
import Nemu.Monitor.UiMainloop
import Nemu.Monitor.WatchpointDelete

/-!
# The command `x`

The help text of `x N EXPR` promises the `N` words from the value of `EXPR` on.  `cmd_x_N` does not
call `expr`: it copies one word of the text to an array and converts it with `htoi`.
-/

namespace Nemu

open StateRules

/-! ## Words -/

/-- The words that have been printed. -/
def wordsOf (out : List UiLine) : List Word :=
  out.filterMap fun
    | .word v => some v
    | _ => none

@[simp] theorem wordsOf_append (out out' : List UiLine) :
    wordsOf (out ++ out') = wordsOf out ++ wordsOf out' := List.filterMap_append

/-- The `n` words from `address` on, read one after the other. -/
def wordsAt : Nat → Word → OnBus (List Word)
  | 0, _ => return []
  | n + 1, address => do
      let v ← paddrRead address 4
      let vs ← wordsAt n (address + 4)
      return v :: vs

theorem wordsAt_length {n : Nat} {address : Word} {bus bus' : Bus} {vs : List Word}
    (h : wordsAt n address bus = .ok vs bus') : vs.length = n := by
  induction n generalizing address bus bus' vs with
  | zero =>
      cases h
      rfl
  | succ n ih =>
      rcases bind_eq_ok.1 h with ⟨v, bus₁, _, hrest⟩
      rcases bind_eq_ok.1 hrest with ⟨vs', bus₂, hvs, hpure⟩
      cases hpure
      rw [List.length_cons, ih hvs]

variable {R : Type} {E : Emulator R} {u : Ui R}

/-- What a command prints that reads the words of `r`: all of them, or it stops where the reads
do. -/
def PrintsWords {α : Type} (r : EStateM.Result Fault Bus (List Word)) (u : Ui R) :
    EStateM.Result Fault (Ui R) α → Prop
  | .ok _ u' => ∃ ws bus, r = .ok ws bus ∧ wordsOf u'.out = wordsOf u.out ++ ws
  | .error _ _ => ∀ ws bus, r ≠ .ok ws bus

/-- The first word has been printed, and the others follow. -/
theorem PrintsWords.cons {α : Type} {y : OnBus (List Word)} {bus : Bus} {v : Word} {u₁ : Ui R}
    {r : EStateM.Result Fault (Ui R) α} (hrest : PrintsWords (y bus) u₁ r)
    (hfirst : wordsOf u₁.out = wordsOf u.out ++ [v]) :
    PrintsWords ((y >>= fun vs => pure (v :: vs)) bus) u r := by
  cases r with
  | ok a u' =>
      rcases hrest with ⟨ws, bus', hws, hout⟩
      refine ⟨v :: ws, bus', ?_, ?_⟩
      · rw [bind_ok hws]
        rfl
      · rw [hout, hfirst, List.append_assoc]
        rfl
  | error e u' =>
      intro ws bus' h
      rcases bind_eq_ok.1 h with ⟨vs, bus₁, hvs, -⟩
      exact hrest vs bus₁ hvs

/-! ## The loop -/

namespace Ui

def withBus (u : Ui R) (bus : Bus) : Ui R :=
  { u with world := { u.world with machine := { u.world.machine with bus } } }

section Bus

variable {α : Type} {x : OnBus α} {bus : Bus}

theorem onBus_ok {a : α} (h : x u.world.machine.bus = .ok a bus) :
    onWorld (onMachine (onBus x)) u = .ok a (u.withBus bus) := by
  refine onWorld_of_ok ?_
  simp only [onMachine, onBus, h]

theorem onBus_error {e : Fault} (h : x u.world.machine.bus = .error e bus) :
    onWorld (onMachine (onBus x)) u = .error e (u.withBus bus) := by
  refine onWorld_of_error ?_
  simp only [onMachine, onBus, h]

end Bus

theorem startRow_run (i : Nat) (address : Word) (u : Ui R) :
    ∃ out, startRow i address u = .ok ⟨⟩ { u with out } ∧ wordsOf out = wordsOf u.out := by
  unfold startRow
  split
  · exact ⟨u.out ++ [.rowAddress address], rfl, by simp [wordsOf]⟩
  · exact ⟨u.out, rfl, rfl⟩

/-- The loop of `cmd_x_N` prints what it reads. -/
theorem printWords_run (n i : Nat) (address : Word) (u : Ui R) :
    PrintsWords (wordsAt n address u.world.machine.bus) u (printWords n i address u) := by
  induction n generalizing i address u with
  -- on the words that are left: a read that fails ends both, and one that does not adds a word
  | zero => exact ⟨[], _, rfl, (List.append_nil _).symm⟩
  | succ n ih =>
      rcases startRow_run i address u with ⟨out, hrow, hout⟩
      let u₁ : Ui R := { u with out }
      rw [printWords, bind_ok hrow, wordsAt]
      cases hread : paddrRead address 4 u₁.world.machine.bus with
      | error e bus =>
          rw [bind_error hread, bind_error (onBus_error hread)]
          exact fun ws bus h => nomatch h
      | ok v bus =>
          rw [bind_ok hread, bind_ok (onBus_ok hread)]
          refine (ih (i + 1) (address + 4) { u₁.withBus bus with out := out ++ [.word v] }).cons ?_
          rw [wordsOf_append, hout]
          rfl

/-- The command on a word that fits in its array. -/
theorem examine_word (n : Int) {saved w rest : List Char} (hword : strtok saved = some (w, rest))
    (hlen : w.length < addrSize) (u : Ui R) :
    PrintsWords (wordsAt n.toNat (htoi w) u.world.machine.bus) u (examine n saved u) := by
  let u₁ : Ui R := { u with out := u.out ++ [.address (htoi w)] }
  have hprinted : wordsOf u₁.out = wordsOf u.out := by
    rw [wordsOf_append]
    exact List.append_nil _
  have hloop := printWords_run n.toNat 0 (htoi w) u₁
  have hexamine : examine n saved u =
      (printWords n.toNat 0 (htoi w) >>= fun _ => pure 0 : OnUi R Int) u₁ := by
    simp only [examine, hword, if_pos hlen]
    rfl
  rw [hexamine]
  cases hrun : printWords n.toNat 0 (htoi w) u₁ with
  | ok r u' =>
      rw [hrun] at hloop
      rw [bind_ok hrun]
      rcases hloop with ⟨ws, bus, hws, hout⟩
      exact ⟨ws, bus, hws, hout.trans (by rw [hprinted])⟩
  | error e u' =>
      rw [hrun] at hloop
      rw [bind_error hrun]
      exact hloop

/-- Behind the test of `n`, the words from the number that the text's first word denotes are
printed, if that word fits in the array and they can be read. -/
theorem examine_iff {n : Int} {saved : List Char} {ws : List Word} :
    (∃ u', examine n saved u = .ok 0 u' ∧ wordsOf u'.out = wordsOf u.out ++ ws) ↔
      ∃ w rest bus, strtok saved = some (w, rest) ∧ w.length < addrSize ∧
        wordsAt n.toNat (htoi w) u.world.machine.bus = .ok ws bus := by
  constructor
  · rintro ⟨u', hrun, hout⟩
    -- without a word there is a null pointer, and a long one leaves `addr`
    cases hword : strtok saved with
    | none =>
        simp only [examine, hword] at hrun
        cases hrun
    | some word =>
        rcases word with ⟨w, rest⟩
        by_cases hlen : w.length < addrSize
        · have hprints := examine_word n hword hlen u
          rw [hrun] at hprints
          rcases hprints with ⟨ws', bus, hws, hout'⟩
          rw [hout, List.append_cancel_left_eq] at hout'
          exact ⟨w, rest, bus, rfl, hlen, hout' ▸ hws⟩
        · simp only [examine, hword, if_neg hlen] at hrun
          cases hrun
  · rintro ⟨w, rest, bus, hword, hlen, hws⟩
    have hprints := examine_word n hword hlen u
    cases hrun : examine n saved u with
    | ok r u' =>
        rw [hrun] at hprints
        rcases hprints with ⟨ws', bus', hws', hout⟩
        cases hws.symm.trans hws'
        rw [examine_result hrun]
        exact ⟨u', rfl, hout⟩
    | error e u' =>
        rw [hrun] at hprints
        exact absurd hws (hprints ws bus)

end Ui

/-! ## The line -/

/-- `x N EXPR` -/
def examineLine (num e : List Char) : List Char := ['x', ' '] ++ num ++ ' ' :: e

theorem strtok_word {w rest : List Char} (hne : w ≠ []) (hw : ∀ c ∈ w, c ≠ ' ') :
    strtok (w ++ ' ' :: rest) = some (w, rest) := by
  cases w with
  | nil => exact absurd rfl hne
  | cons c t =>
      have hc : c ≠ ' ' := hw c (by simp)
      have hall : ∀ d ∈ c :: t, decide (d ≠ ' ') = true := fun d hd => decide_eq_true (hw d hd)
      have hskip : (c :: t ++ ' ' :: rest).dropWhile (· = ' ') = c :: (t ++ ' ' :: rest) := by
        simp [hc]
      have htake : (c :: t ++ ' ' :: rest).takeWhile (· ≠ ' ') = c :: t := by
        rw [List.takeWhile_append_of_pos hall]
        simp
      have hdrop : (c :: t ++ ' ' :: rest).dropWhile (· ≠ ' ') = ' ' :: rest := by
        rw [List.dropWhile_append_of_pos hall]
        simp
      rw [strtok, hskip]
      dsimp only
      rw [← List.cons_append, htake, hdrop]
      rfl

section Line

variable {num e : List Char} {n : Nat}

theorem runLine_examineLine (hnum : decimalNumeral num = some n) :
    runLine E (examineLine num e) u =
      if atoi num ≤ 0 then
        .ok (-1) { u with out := u.out ++ [.invalidInput] }
      else
        Ui.examine (atoi num) e u := by
  rcases decimalNumeral_eq_some hnum with ⟨hne, hdigits, -⟩
  have hspace : ∀ c ∈ num, c ≠ ' ' := by
    rintro c hc rfl
    exact absurd (hdigits ' ' hc) (by decide)
  have hline : strtok (examineLine num e) = some (['x'], num ++ ' ' :: e) :=
    strtok_word (w := ['x']) (by simp) (by simp)
  have hfind : findCmd ['x'] = some (cmdTable.get ⟨6, by decide⟩) := rfl
  rw [runLine, hline]
  dsimp only
  rw [hfind]
  change Ui.cmdXN (num ++ ' ' :: e) u = _
  rw [Ui.cmdXN, strtok_word hne hspace]
  dsimp only
  split
  · rfl
  · rfl

theorem atoi_lt (s : List Char) : atoi s < 2147483648 := BitVec.toInt_lt

/-- Behind `x N`, `ws` are the words that are printed: the command has read all of the number, the
first word of the text fits in its array, and they lie where that word denotes in hexadecimal. -/
structure ExaminesWord (n : Nat) (e : List Char) (bus : Bus) (ws : List Word) : Prop where
  number : n < 2147483648
  word : ∃ w rest a bus', strtok e = some (w, rest) ∧ w.length < Ui.addrSize ∧ HexDenotes w a ∧
    wordsAt n a bus = .ok ws bus'

theorem examineLine_iff (hnum : decimalNumeral num = some n) (hpos : 1 ≤ n) {ws : List Word}
    (hws : ws.length = n) :
    (∃ u', runLine E (examineLine num e) u = .ok 0 u' ∧ wordsOf u'.out = wordsOf u.out ++ ws) ↔
      ExaminesWord n e u.world.machine.bus ws := by
  rw [runLine_examineLine hnum]
  have hexact : n < 2147483648 → atoi num = n := atoi_numeral hnum
  by_cases hle : atoi num ≤ 0
  · -- the command gives up, which it does for no number that `atoi` knows
    rw [if_pos hle]
    constructor
    · rintro ⟨u', hrun, -⟩
      cases hrun
    · rintro ⟨hlt, -⟩
      have hn := hexact hlt
      omega
  · rw [if_neg hle, Ui.examine_iff]
    constructor
    · rintro ⟨w, rest, bus, hword, hlen, hread⟩
      -- as many words as `atoi` says are read, so that it has read all of the number
      have hcount : (atoi num).toNat = n := (wordsAt_length hread).symm.trans hws
      have hlt := atoi_lt num
      refine ⟨by omega, w, rest, htoi w, bus, hword, hlen, hexDenotes_iff.2 rfl, ?_⟩
      rwa [hcount] at hread
    · rintro ⟨hlt, w, rest, a, bus, hword, hlen, hdenotes, hread⟩
      have hcount : (atoi num).toNat = n := by
        rw [hexact hlt]
        exact Int.toNat_natCast n
      refine ⟨w, rest, bus, hword, hlen, ?_⟩
      rw [hexDenotes_iff.1 hdenotes, hcount]
      exact hread

/-- What the help text promises of `x N EXPR`: where `expr` succeeds, over zeros behind its flag, and
the words from its value on can be read, these are printed. -/
def FollowsHelp (E : Emulator R) (num : List Char) (n : Nat) (e : List Char) (u : Ui R) : Prop :=
  ∀ v d ws bus, callExpr u.world.machine.cpu e 1 u.world.debugger.clear = .ok (v, 1) d →
    wordsAt n v d.bus = .ok ws bus →
      ∃ u', runLine E (examineLine num e) u = .ok 0 u' ∧ wordsOf u'.out = wordsOf u.out ++ ws

variable {v : Word} {d : Debugger} {ws : List Word} {bus : Bus}

/-- The promise is kept exactly where reading the first word of `EXPR` as a hexadecimal number
leads to the same words. -/
theorem followsHelp_iff (hnum : decimalNumeral num = some n) (hpos : 1 ≤ n)
    (hcall : callExpr u.world.machine.cpu e 1 u.world.debugger.clear = .ok (v, 1) d)
    (hread : wordsAt n v d.bus = .ok ws bus) :
    FollowsHelp E num n e u ↔ ExaminesWord n e u.world.machine.bus ws := by
  have hlen : ws.length = n := wordsAt_length hread
  constructor
  · intro h
    exact (examineLine_iff hnum hpos hlen).1 (h v d ws bus hcall hread)
  · intro h v' d' ws' bus' hcall' hread'
    cases hcall.symm.trans hcall'
    cases hread.symm.trans hread'
    exact (examineLine_iff hnum hpos hlen).2 h

end Line

/-! ## Two texts -/

/-- Every byte of memory is the low byte of its address. -/
def countingUi : Ui Unit :=
  ⟨{ trapWorld with
      machine := { trapWorld.machine with
        bus := { trapWorld.machine.bus with pmem := fun i => BitVec.ofNat 8 i } } }, []⟩

/-- `x 1 0x10` -/
theorem followsHelp_iff_hex :
    ∃ d ws bus, callExpr countingUi.world.machine.cpu ['0', 'x', '1', '0'] 1
        countingUi.world.debugger.clear = .ok (16, 1) d ∧ wordsAt 1 16 d.bus = .ok ws bus ∧
      FollowsHelp (Emulator.x86 false .idle (pure ())) ['1'] 1 ['0', 'x', '1', '0'] countingUi := by
  let d := countingUi.world.debugger.clear
  have hcall : ∃ buf, callExpr countingUi.world.machine.cpu ['0', 'x', '1', '0'] 1 d =
      .ok (16, 1) (d.called buf) :=
    callExpr_token (t := ⟨.tkHexadecimal, ['0', 'x', '1', '0']⟩) 1 ⟨_, rfl, by decide⟩ fun _ => rfl
  rcases hcall with ⟨buf, hcall⟩
  have hread : wordsAt 1 16 countingUi.world.machine.bus =
      .ok [0x13121110] countingUi.world.machine.bus := rfl
  refine ⟨_, _, _, hcall, hread, (followsHelp_iff rfl (Nat.le_refl 1) hcall hread).2 ?_⟩
  exact ⟨by decide, ['0', 'x', '1', '0'], [], 16, _, rfl, by decide, hexDenotes_iff.2 rfl, hread⟩

/-- `x 1 10` prints the word at 16, and `EXPR` has the value 10. -/
theorem not_followsHelp_decimal :
    ¬ FollowsHelp (Emulator.x86 false .idle (pure ())) ['1'] 1 ['1', '0'] countingUi := by
  intro h
  let d := countingUi.world.debugger.clear
  have hcall : ∃ buf, callExpr countingUi.world.machine.cpu ['1', '0'] 1 d =
      .ok (10, 1) (d.called buf) :=
    callExpr_token (t := ⟨.tkDecimal, ['1', '0']⟩) 1 ⟨_, rfl, by decide⟩ fun _ => rfl
  rcases hcall with ⟨buf, hcall⟩
  have hread : wordsAt 1 10 countingUi.world.machine.bus =
      .ok [0x0d0c0b0a] countingUi.world.machine.bus := rfl
  rcases (examineLine_iff rfl (Nat.le_refl 1) rfl).1 (h _ _ _ _ hcall hread) with
    ⟨-, w, rest, a, bus, hword, -, hdenotes, hwords⟩
  have hline : strtok ['1', '0'] = some (['1', '0'], []) := rfl
  cases hline.symm.trans hword
  have hsixteen : wordsAt 1 16 countingUi.world.machine.bus =
      .ok [0x13121110] countingUi.world.machine.bus := rfl
  rw [← hexDenotes_iff.1 hdenotes] at hwords
  cases hsixteen.symm.trans hwords

end Nemu
