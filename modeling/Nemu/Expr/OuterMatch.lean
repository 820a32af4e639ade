import Nemu.Expr.Segment
import Nemu.Lib.Brackets

/-!
# What check_parentheses decides

With a stack that never runs out, `check_parentheses` says whether the brackets of its range are
properly nested and the first one is matched by the last one.  It clears `*success` only at a
closing bracket that does not find its kind on the top of the stack.
-/

namespace Nemu

open StateRules BracketSymbol

/-! ## The brackets of a token array -/

/-- A token as a bracket; a kind of bracket is named by its opening token. -/
def TokenType.bracket? (t : TokenType) : Option (BracketSymbol TokenType) :=
  if t.isOpen then some (opening t) else t.opener?.map closing

def bracketWord (ts : List TokenType) : List (BracketSymbol TokenType) :=
  ts.filterMap TokenType.bracket?

/-- `tokens[p .. q]` as a word of brackets. -/
def bracketsOf (tokens : Nat → Token) (p q : Int) : List (BracketSymbol TokenType) :=
  bracketWord ((segment tokens p q).map Token.type)

/-- `tokens[p .. q]` is properly nested, and the round bracket at `p` is matched by the one
at `q`. -/
structure OuterMatched (tokens : Nat → Token) (p q : Nat) : Prop where
  first : (tokens p).type = .lparen
  last : (tokens q).type = .rparen
  nested : Balanced (bracketsOf tokens p q)
  outer : Matches (bracketsOf tokens p q) 0 ((bracketsOf tokens p q).length - 1)

/-- The range stands between round brackets, and some closing bracket in it does not find an
opening bracket of its kind on the top of the stack. -/
structure BadClosing (tokens : Nat → Token) (p q : Nat) : Prop where
  first : (tokens p).type = .lparen
  last : (tokens q).type = .rparen
  closing : ∃ k o S, p ≤ k ∧ k ≤ q ∧ (tokens k).type.opener? = some o ∧
    scan (bracketsOf tokens p ((k : Int) - 1)) [] = some S ∧ S.head? ≠ some o

theorem bracketWord_open {t : TokenType} (ho : t.isOpen = true) (ts : List TokenType) :
    bracketWord (t :: ts) = opening t :: bracketWord ts := by
  simp [bracketWord, TokenType.bracket?, ho]

theorem bracketWord_close {t o : TokenType} (hc : t.opener? = some o) (ts : List TokenType) :
    bracketWord (t :: ts) = closing o :: bracketWord ts := by
  have ho : t.isOpen = false := by
    cases t <;> simp [TokenType.opener?] at hc <;> rfl
  simp [bracketWord, TokenType.bracket?, ho, hc]

theorem bracketWord_other {t : TokenType} (ho : t.isOpen = false) (hc : t.opener? = none)
    (ts : List TokenType) : bracketWord (t :: ts) = bracketWord ts := by
  simp [bracketWord, TokenType.bracket?, ho, hc]

/-! ## The scan with an unbounded stack -/

/-- Some closing token of a list meets another top of the stack than the one it needs. -/
def ClosesWrong (ts L : List TokenType) : Prop :=
  ∃ before c after o S, ts = before ++ c :: after ∧ c.opener? = some o ∧
    scan (bracketWord before) L = some S ∧ S.head? ≠ some o

theorem ClosesWrong.here {c o : TokenType} {L : List TokenType} (hc : c.opener? = some o)
    (hL : L.head? ≠ some o) (rest : List TokenType) : ClosesWrong (c :: rest) L :=
  ⟨[], c, rest, o, L, rfl, hc, rfl, hL⟩

/-- A token that takes the stack from `L` to `L'` stands before the wrong one. -/
theorem ClosesWrong.later {t : TokenType} {rest L L' : List TokenType}
    (hscan : ∀ ts, scan (bracketWord (t :: ts)) L = scan (bracketWord ts) L')
    (h : ClosesWrong rest L') : ClosesWrong (t :: rest) L := by
  rcases h with ⟨before, c, after, o, S, rfl, hc, hS, hne⟩
  exact ⟨t :: before, c, after, o, S, rfl, hc, by rw [hscan, hS], hne⟩

/-- The scan changes nothing but the flag and the log, and clears the flag only for a reason. -/
structure ScanKeeps (wrong : Prop) (s s' : EvalState) : Prop where
  bus : s'.bus = s.bus
  success : s'.success = s.success ∨ s'.success = 0 ∧ wrong

theorem ScanKeeps.refl (wrong : Prop) (s : EvalState) : ScanKeeps wrong s s where
  bus := rfl
  success := Or.inl rfl

theorem ScanKeeps.imp {wrong wrong' : Prop} {s s' : EvalState} (himp : wrong → wrong')
    (h : ScanKeeps wrong s s') : ScanKeeps wrong' s s' where
  bus := h.bus
  success := h.success.imp_right fun hw => ⟨hw.1, himp hw.2⟩

/-- A closing bracket pops its kind from the top of the stack, or clears the flag. -/
theorem closeBracket_lifo (o : TokenType) (L : List TokenType) (s : EvalState) :
    (∃ L', L = o :: L' ∧ closeBracket lifo o L s = .ok (true, L') s) ∨
      (L.head? ≠ some o ∧ ∃ L' s', closeBracket lifo o L s = .ok (false, L') s' ∧
        s'.bus = s.bus ∧ s'.success = 0) := by
  cases L with
  | nil =>
      exact Or.inr ⟨by simp, [], _, rfl, rfl, rfl⟩
  | cons e L =>
      by_cases heq : e = o
      · refine Or.inl ⟨L, by rw [heq], ?_⟩
        simp only [closeBracket, lifo, liftStack, pure_bind, heq, if_true]
        rfl
      · refine Or.inr ⟨by simpa using heq, L, { s with success := 0 }, ?_, rfl, rfl⟩
        simp only [closeBracket, lifo, liftStack, pure_bind, heq, if_false]
        rfl

/-- The loop behind index `p` accepts exactly the words that empty the stack with their last
bracket. -/
theorem checkParenthesesLoop_lifo {p i : Int} (hi : p < i) (ts L : List TokenType)
    (s : EvalState) :
    ∃ flag S s', checkParenthesesLoop lifo p i ts L s = .ok (flag, S) s' ∧
      (flag && lifo.isEmpty S) = closesLast (bracketWord ts) L ∧
      ScanKeeps (ClosesWrong ts L) s s' := by
  induction ts generalizing i L s with
  | nil =>
      exact ⟨true, L, s, rfl, rfl, ScanKeeps.refl _ s⟩
  | cons e rest ih =>
      have hnext : p < i + 1 := by omega
      cases hopen : e.isOpen with
      | true =>
          rw [checkParenthesesLoop_open lifo p i rest L hopen, bracketWord_open hopen]
          cases L with
          -- the early exit: the bracket at `p` was matched before
          | nil =>
              have hnot : ¬ (!lifo.isEmpty [] || i == p) = true := by
                simp [lifo]
                omega
              refine ⟨false, [], s, ?_, rfl, ScanKeeps.refl _ s⟩
              rw [if_neg hnot]
              rfl
          | cons k L =>
              rcases ih hnext (e :: k :: L) s with ⟨flag, S, s', hrun, hflag, hkeeps⟩
              refine ⟨flag, S, s', ?_, hflag, hkeeps.imp (ClosesWrong.later fun ts => ?_)⟩
              · have hpush : (!lifo.isEmpty (k :: L) || i == p) = true := by simp [lifo]
                rw [if_pos hpush]
                exact hrun
              · rw [bracketWord_open hopen, scan]
      | false =>
          cases hclose : e.opener? with
          | some o =>
              rw [checkParenthesesLoop_close lifo p i rest L hclose, bracketWord_close hclose]
              rcases closeBracket_lifo o L s with
                ⟨L', rfl, hpop⟩ | ⟨hne, L', s', hpop, hbus, hsuccess⟩
              · rcases ih hnext L' s with ⟨flag, S, s', hrun, hflag, hkeeps⟩
                refine ⟨flag, S, s', ?_, ?_, hkeeps.imp (ClosesWrong.later fun ts => ?_)⟩
                · rw [bind_ok hpop]
                  exact hrun
                · rw [hflag, closesLast, if_pos rfl]
                · rw [bracketWord_close hclose, scan, if_pos rfl]
              · refine ⟨false, L', s', by rw [bind_ok hpop]; rfl, ?_, hbus,
                  Or.inr ⟨hsuccess, ClosesWrong.here hclose hne rest⟩⟩
                cases L with
                | nil => rfl
                | cons k L =>
                    have hk : k ≠ o := by simpa using hne
                    rw [closesLast, if_neg hk]
                    rfl
          | none =>
              rw [checkParenthesesLoop_other lifo p i rest L hopen hclose,
                bracketWord_other hopen hclose]
              rcases ih hnext L s with ⟨flag, S, s', hrun, hflag, hkeeps⟩
              refine ⟨flag, S, s', hrun, hflag, hkeeps.imp (ClosesWrong.later fun ts => ?_)⟩
              rw [bracketWord_other hopen hclose]

/-! ## The whole test -/

theorem outerMatched_iff {tokens : Nat → Token} {p q : Nat} (hpq : p < q)
    (hfirst : (tokens p).type = .lparen) (hlast : (tokens q).type = .rparen) :
    OuterMatched tokens p q ↔
      closesLast (bracketWord ((segment tokens ((p : Int) + 1) q).map Token.type))
        [.lparen] = true := by
  have hword : bracketsOf tokens p q =
      opening .lparen :: bracketWord ((segment tokens ((p : Int) + 1) q).map Token.type) := by
    rw [bracketsOf, segment_cons (by omega), List.map_cons, Int.toNat_natCast, hfirst]
    exact bracketWord_open rfl _
  rw [closesLast_iff, ← matches_ends_iff]
  constructor
  · intro h
    have houter := h.outer
    rwa [hword, List.length_cons, Nat.add_sub_cancel] at houter
  · intro h
    refine ⟨hfirst, hlast, ?_, ?_⟩
    · rw [hword]
      exact balanced_of_matches_ends h
    · rwa [hword, List.length_cons, Nat.add_sub_cancel]

theorem badClosing_of_closesWrong {tokens : Nat → Token} {p q : Nat}
    (hfirst : (tokens p).type = .lparen) (hlast : (tokens q).type = .rparen)
    (h : ClosesWrong ((segment tokens p q).map Token.type) []) : BadClosing tokens p q := by
  rcases h with ⟨before, c, after, o, S, hts, hc, hS, hne⟩
  -- the wrong bracket stands at the index `p + before.length`
  have hlen : before.length < ((q : Int) + 1 - p).toNat := by
    have hall := congrArg List.length hts
    rw [List.length_map, length_segment, List.length_append, List.length_cons] at hall
    omega
  have hindex : ((p : Int) + before.length).toNat = p + before.length := by omega
  have hat : (tokens (p + before.length)).type = c := by
    have hget := congrArg (fun ts => ts[before.length]?) hts
    simpa [getElem?_segment hlen, hindex] using hget
  have hprefix : (segment tokens p ((p + before.length : Nat) - 1 : Int)).map Token.type =
      before := by
    have htake := congrArg (List.take before.length) hts
    rw [← List.map_take, segment_take (by omega), List.take_left] at htake
    rwa [Int.natCast_add]
  refine ⟨hfirst, hlast, p + before.length, o, S, by omega, by omega, by rw [hat, hc], ?_, hne⟩
  rw [bracketsOf, hprefix, hS]

/-- `check_parentheses` with an unbounded stack returns true exactly when the brackets of its
range are properly nested and the first one is matched by the last one, and it clears the flag
only at a closing bracket that does not match. -/
theorem checkParentheses_outerMatched (tokens : Nat → Token) {p q : Nat} (hpq : p < q)
    (s : EvalState) :
    ∃ surrounded s', checkParenthesesWith lifo tokens p q s = .ok surrounded s' ∧
      (surrounded = true ↔ OuterMatched tokens p q) ∧ s'.bus = s.bus ∧
      (s'.success = s.success ∨ s'.success = 0 ∧ BadClosing tokens p q) := by
  have hends : ((tokens p).type ≠ .lparen ∨ (tokens q).type ≠ .rparen) ∨
      (tokens p).type = .lparen ∧ (tokens q).type = .rparen := by
    by_cases hfirst : (tokens p).type = .lparen
    · by_cases hlast : (tokens q).type = .rparen
      · exact Or.inr ⟨hfirst, hlast⟩
      · exact Or.inl (Or.inr hlast)
    · exact Or.inl (Or.inl hfirst)
  rcases hends with hends | ⟨hfirst, hlast⟩
  · refine ⟨false, s, by simp only [checkParenthesesWith, Int.toNat_natCast, if_pos hends]; rfl,
      ⟨nofun, fun h => ?_⟩, rfl, Or.inl rfl⟩
    exact (hends.elim (fun hne => hne h.first) fun hne => hne h.last).elim
  · have hsegment : (segment tokens p q).map Token.type =
        .lparen :: (segment tokens ((p : Int) + 1) q).map Token.type := by
      rw [segment_cons (by omega), List.map_cons, Int.toNat_natCast, hfirst]
    rcases checkParenthesesLoop_lifo (p := p) (i := p + 1) (by omega)
        ((segment tokens ((p : Int) + 1) q).map Token.type) [.lparen] s with
      ⟨flag, S, s', hrun, hflag, hkeeps⟩
    -- the bracket at `p` is pushed although the stack is empty
    have hloop : checkParenthesesLoop lifo p p ((segment tokens p q).map Token.type) lifo.init s =
        .ok (flag, S) s' := by
      have hpush : (!lifo.isEmpty lifo.init || (p : Int) == p) = true := by simp
      rw [hsegment, checkParenthesesLoop_open lifo p p _ _ rfl, if_pos hpush]
      exact hrun
    have hwrong : ClosesWrong ((segment tokens ((p : Int) + 1) q).map Token.type) [.lparen] →
        BadClosing tokens p q := by
      intro h
      refine badClosing_of_closesWrong hfirst hlast ?_
      rw [hsegment]
      exact h.later fun ts => by rw [bracketWord_open rfl, scan]
    refine ⟨flag && lifo.isEmpty S, s', ?_, ?_, hkeeps.bus, (hkeeps.imp hwrong).success⟩
    · simp only [checkParenthesesWith, Int.toNat_natCast, hfirst, hlast, ne_eq, not_true, or_self,
        if_false]
      rw [bind_ok hloop]
      rfl
    · rw [hflag, outerMatched_iff hpq hfirst hlast]

theorem checkParentheses_outerMatched_pair :
    0 < 1 ∧ ∃ surrounded s',
      checkParenthesesWith lifo (tokensOf [⟨.lparen, ['(']⟩, ⟨.rparen, [')']⟩]) (0 : Nat) (1 : Nat)
          (EvalState.start .zero) = .ok surrounded s' ∧
      (surrounded = true ↔
        OuterMatched (tokensOf [⟨.lparen, ['(']⟩, ⟨.rparen, [')']⟩]) 0 1) ∧
      s'.bus = (EvalState.start .zero).bus ∧
      (s'.success = (EvalState.start .zero).success ∨
        s'.success = 0 ∧ BadClosing (tokensOf [⟨.lparen, ['(']⟩, ⟨.rparen, [')']⟩]) 0 1) :=
  ⟨by decide, checkParentheses_outerMatched _ (by decide) _⟩

end Nemu
