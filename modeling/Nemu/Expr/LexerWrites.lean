import Nemu.Lib.Recording
import Nemu.Expr.Lexing

/-!
# The writes of the lexer

Every store of `make_token` to `token_str`, to `tokens` and to the `str` of a token, in the order in
which the source makes them.  A store outside its array is the last thing that a run does.
`makeToken_inBounds_iff` says for which texts there is none.
-/

namespace Nemu

open StateRules

/-! ## Stores -/

/-- The place that is written: `tokens[i].type`, `token_str[j]` or `tokens[i].str[j]`. -/
inductive LexerWrite
  | type (i : Nat)
  | tokenStr (j : Nat)
  | str (i j : Nat)
  deriving DecidableEq

/-- Both indices are inside the arrays. -/
def LexerWrite.InBounds : LexerWrite → Prop
  | .type i => i < tokensSize
  | .tokenStr j => j < tokenStrSize
  | .str i j => i < tokensSize ∧ j < tokenStrSize

instance : DecidablePred LexerWrite.InBounds := fun w =>
  match w with
  | .type i => inferInstanceAs (Decidable (i < tokensSize))
  | .tokenStr j => inferInstanceAs (Decidable (j < tokenStrSize))
  | .str i j => inferInstanceAs (Decidable (i < tokensSize ∧ j < tokenStrSize))

/-- The stores of the `switch`.  `strncpy` writes `substr_len` characters, and one more follows. -/
def switchWrites (buf : TokenBuf) (type : TokenType) (substrLen : Nat) : List LexerWrite :=
  match type with
  | .times => if buf.starType = .deref then [.type buf.nrToken] else []
  | .tkGpr | .tkHexadecimal | .tkDecimal =>
      (List.range substrLen).map (.str buf.nrToken) ++ [.str buf.nrToken substrLen]
  | _ => []

/-- The stores for one match.  The copying loop writes the terminator in each of its turns. -/
def matchWrites (buf : TokenBuf) (type : TokenType) (substrLen : Nat) : List LexerWrite :=
  .type buf.nrToken ::
    (List.range substrLen).flatMap (fun j => [.tokenStr j, .tokenStr substrLen]) ++
      switchWrites buf type substrLen

abbrev OnLexer := Recorder Fault TokenBuf LexerWrite

/-- Stores one after the other, up to the first one outside its array. -/
def writeAll : List LexerWrite → OnLexer Unit
  | [] => return ()
  | w :: rest => do
      emit w
      if w.InBounds then writeAll rest else unrecorded (throw .bounds)

/-! ## make_token -/

/-- `addToken` with its stores one by one. -/
def addTokenRecorded (type : TokenType) (substr : List Char) : OnLexer Unit := do
  let buf ← unrecorded get
  writeAll (matchWrites buf type substr.length)
  unrecorded (set ((buf.setType type).record type substr))

def makeTokenLoopRecorded : Nat → List Char → OnLexer Bool
  | _, [] => return true
  | 0, _ :: _ => outOfFuel
  | fuel + 1, c :: s =>
      match matchRule (c :: s) with
      | some (type, substrLen) => do
          addTokenRecorded type ((c :: s).take substrLen)
          makeTokenLoopRecorded fuel ((c :: s).drop substrLen)
      | none => return false

def makeTokenRecorded (e : List Char) : OnLexer Bool := do
  unrecorded (modify fun buf => { buf with nrToken := 0 })
  makeTokenLoopRecorded e.length e

/-- The stores of `make_token(e)`. -/
def lexerWrites (e : List Char) (buf : TokenBuf) : List LexerWrite :=
  (final (makeTokenRecorded e { state := buf, events := [] })).events

/-! ## The text -/

/-- The matches of the rules from the left to the right, up to where no rule matches. -/
def matchesFrom : Nat → List Char → List (TokenType × List Char)
  | _, [] => []
  | 0, _ :: _ => []
  | fuel + 1, c :: s =>
      match matchRule (c :: s) with
      | some (type, substrLen) =>
          (type, (c :: s).take substrLen) :: matchesFrom fuel ((c :: s).drop substrLen)
      | none => []

def ruleMatches (e : List Char) : List (TokenType × List Char) := matchesFrom e.length e

/-- Every match is shorter than the arrays for its text, and fewer matches than `tokens` has entries
are tokens before the last match. -/
def FitsArrays (ms : List (TokenType × List Char)) : Prop :=
  (∀ m ∈ ms, m.2.length < tokenStrSize) ∧
    ms.dropLast.countP (fun m => m.1 ≠ .tkNotype) < tokensSize

instance (ms : List (TokenType × List Char)) : Decidable (FitsArrays ms) :=
  inferInstanceAs (Decidable ((∀ m ∈ ms, m.2.length < tokenStrSize) ∧
    ms.dropLast.countP (fun m => m.1 ≠ .tkNotype) < tokensSize))

/-! ## Matches -/

/-- A match comes from one of the rules, and no rule matches the empty text. -/
theorem matchRule_some {s : List Char} {type : TokenType} {n : Nat}
    (h : matchRule s = some (type, n)) :
    0 < n ∧ n ≤ s.length ∧ type ≠ .null ∧ type ≠ .deref := by
  rw [matchRule_eq] at h
  rcases List.exists_of_findSome?_eq_some h with ⟨rule, hmem, hrule⟩
  rcases Option.map_eq_some_iff.1 hrule with ⟨k, hlong, hk⟩
  obtain ⟨rfl, rfl⟩ := Prod.mk.inj hk
  rcases Ere.longest_some hlong with ⟨hle, hmatch, -⟩
  have hrules : ∀ rule ∈ rules, Ere.nullable rule.regex = false ∧ rule.tokenType ≠ .null ∧
      rule.tokenType ≠ .deref := by
    decide
  rcases hrules rule hmem with ⟨hnull, htype⟩
  refine ⟨Nat.pos_of_ne_zero fun hzero => ?_, hle, htype⟩
  rw [hzero, List.take_zero] at hmatch
  rw [(Ere.nullable_iff _).2 hmatch] at hnull
  cases hnull

/-- Every match but one of spaces is a token. -/
theorem TokenBuf.record_count (buf : TokenBuf) {type : TokenType} (str : List Char)
    (hnull : type ≠ .null) (hderef : type ≠ .deref) :
    (buf.record type str).nrToken = buf.nrToken + if type = .tkNotype then 0 else 1 := by
  cases type <;> simp [TokenBuf.record] at hnull hderef ⊢

/-! ## Stores of one match -/

theorem mem_switchWrites {buf : TokenBuf} {type : TokenType} {n : Nat} {w : LexerWrite}
    (h : w ∈ switchWrites buf type n) :
    w = .type buf.nrToken ∨ ∃ j, j ≤ n ∧ w = .str buf.nrToken j := by
  cases type with
  | times =>
      by_cases hstar : buf.starType = .deref
      · simp only [switchWrites, if_pos hstar, List.mem_singleton] at h
        exact Or.inl h
      · simp [switchWrites, hstar] at h
  | tkGpr | tkHexadecimal | tkDecimal =>
      simp only [switchWrites, List.mem_append, List.mem_map, List.mem_range,
        List.mem_singleton] at h
      rcases h with ⟨j, hj, rfl⟩ | rfl
      · exact Or.inr ⟨j, Nat.le_of_lt hj, rfl⟩
      · exact Or.inr ⟨n, Nat.le_refl n, rfl⟩
  | _ => cases h

theorem matchWrites_inBounds (buf : TokenBuf) (type : TokenType) (n : Nat) :
    (∀ w ∈ matchWrites buf type n, w.InBounds) ↔ buf.nrToken < tokensSize ∧ n < tokenStrSize := by
  constructor
  · intro h
    refine ⟨h (.type buf.nrToken) (by simp [matchWrites]), ?_⟩
    -- the terminator is stored in the first turn of the copying loop
    by_cases hn : n = 0
    · rw [hn]
      decide
    · have hmem : LexerWrite.tokenStr n ∈ matchWrites buf type n := by
        simp only [matchWrites, List.mem_append, List.mem_cons, List.mem_flatMap, List.mem_range]
        exact Or.inl (Or.inr ⟨0, Nat.pos_of_ne_zero hn, by simp⟩)
      exact h _ hmem
  · rintro ⟨hnr, hn⟩ w hw
    simp only [matchWrites, List.mem_append, List.mem_cons, List.mem_flatMap, List.mem_range] at hw
    rcases hw with (rfl | ⟨j, hj, rfl | rfl | hw⟩) | hw
    · exact hnr
    · exact Nat.lt_trans hj hn
    · exact hn
    · cases hw
    · rcases mem_switchWrites hw with rfl | ⟨j, hj, rfl⟩
      · exact hnr
      · exact ⟨hnr, Nat.lt_of_le_of_lt hj hn⟩

theorem writeAll_ok {ws : List LexerWrite} (h : ∀ w ∈ ws, w.InBounds)
    (s : Recording TokenBuf LexerWrite) :
    writeAll ws s = .ok () { s with events := s.events ++ ws } := by
  induction ws generalizing s with
  | nil =>
      rw [List.append_nil]
      rfl
  | cons w ws ih =>
      rcases List.forall_mem_cons.1 h with ⟨hw, hws⟩
      rw [writeAll, bind_ok (emit_run w s), if_pos hw, ih hws, List.append_assoc]
      rfl

/-- A store outside its array ends the run and is recorded. -/
theorem writeAll_bounds {ws : List LexerWrite} (h : ¬ ∀ w ∈ ws, w.InBounds)
    (s : Recording TokenBuf LexerWrite) :
    ∃ events, (∃ w ∈ events, ¬ w.InBounds) ∧
      writeAll ws s = .error (some .bounds) { s with events := s.events ++ events } := by
  induction ws generalizing s with
  | nil =>
      exact absurd (by simp) h
  | cons w ws ih =>
      by_cases hw : w.InBounds
      · have hws : ¬ ∀ w ∈ ws, w.InBounds := fun hws => h (List.forall_mem_cons.2 ⟨hw, hws⟩)
        rcases ih hws { s with events := s.events ++ [w] } with ⟨events, ⟨v, hv, hout⟩, hrun⟩
        refine ⟨w :: events, ⟨v, List.mem_cons_of_mem w hv, hout⟩, ?_⟩
        rw [writeAll, bind_ok (emit_run w s), if_pos hw, hrun, List.append_assoc]
        rfl
      · refine ⟨[w], ⟨w, List.mem_singleton_self w, hw⟩, ?_⟩
        rw [writeAll, bind_ok (emit_run w s), if_neg hw]
        rfl

section Match

variable {type : TokenType} {substr : List Char} (s : Recording TokenBuf LexerWrite)

theorem addTokenRecorded_ok (hnr : s.state.nrToken < tokensSize)
    (hlen : substr.length < tokenStrSize) :
    addTokenRecorded type substr s =
      .ok () {
        state := (s.state.setType type).record type substr
        events := s.events ++ matchWrites s.state type substr.length } := by
  have hall := (matchWrites_inBounds s.state type substr.length).2 ⟨hnr, hlen⟩
  have hget : (unrecorded get : OnLexer TokenBuf) s = .ok s.state s := rfl
  rw [addTokenRecorded, bind_ok hget, bind_ok (writeAll_ok hall s)]
  rfl

theorem addTokenRecorded_bounds (h : ¬ (s.state.nrToken < tokensSize ∧
    substr.length < tokenStrSize)) :
    ∃ events, (∃ w ∈ events, ¬ w.InBounds) ∧
      addTokenRecorded type substr s =
        .error (some .bounds) { s with events := s.events ++ events } := by
  have hout := mt (matchWrites_inBounds s.state type substr.length).1 h
  have hget : (unrecorded get : OnLexer TokenBuf) s = .ok s.state s := rfl
  rcases writeAll_bounds hout s with ⟨events, hmem, hrun⟩
  refine ⟨events, hmem, ?_⟩
  rw [addTokenRecorded, bind_ok hget, bind_error hrun]

end Match

/-! ## The loop makes the stores of make_token -/

theorem addTokenRecorded_records (type : TokenType) (substr : List Char) :
    Records (fun _ => True) (addTokenRecorded type substr) (addToken type substr) := by
  intro s
  by_cases h : s.state.nrToken < tokensSize ∧ substr.length < tokenStrSize
  · refine ⟨matchWrites s.state type substr.length, by simp, ?_⟩
    rw [addTokenRecorded_ok s h.1 h.2, addToken_ok h.1 h.2]
    rfl
  · rcases addTokenRecorded_bounds s h with ⟨events, -, hrun⟩
    refine ⟨events, by simp, ?_⟩
    rw [hrun, addToken_bounds h]
    rfl

theorem makeTokenLoopRecorded_records {fuel : Nat} {s : List Char} (hfuel : s.length ≤ fuel) :
    Records (fun _ => True) (makeTokenLoopRecorded fuel s) (makeTokenLoop fuel s) := by
  induction fuel generalizing s with
  | zero =>
      rw [List.length_eq_zero_iff.1 (Nat.le_zero.1 hfuel)]
      exact Records.pure true
  | succ fuel ih =>
      cases s with
      | nil => exact Records.pure true
      | cons c s =>
          cases hm : matchRule (c :: s) with
          | none =>
              simp only [makeTokenLoopRecorded, makeTokenLoop, hm]
              exact Records.pure false
          | some m =>
              obtain ⟨type, n⟩ := m
              have hpos := (matchRule_some hm).1
              have hrest : ((c :: s).drop n).length ≤ fuel := by
                rw [List.length_drop]
                omega
              simp only [makeTokenLoopRecorded, makeTokenLoop, hm]
              exact (addTokenRecorded_records type _).bind fun _ => ih hrest

/-- Apart from the record, the run is that of `make_token`, and its fuel is enough. -/
theorem makeTokenRecorded_records (e : List Char) :
    Records (fun _ => True) (makeTokenRecorded e) (makeToken e) :=
  (Records.unrecorded _).bind fun _ => makeTokenLoopRecorded_records (Nat.le_refl _)

/-! ## When every store is in bounds -/

/-- `FitsArrays` for matches that follow `n` tokens. -/
def FitsFrom (n : Nat) (ms : List (TokenType × List Char)) : Prop :=
  (∀ m ∈ ms, m.2.length < tokenStrSize) ∧
    (ms ≠ [] → n + ms.dropLast.countP (fun m => m.1 ≠ .tkNotype) < tokensSize)

theorem fitsFrom_zero (ms : List (TokenType × List Char)) : FitsFrom 0 ms ↔ FitsArrays ms := by
  cases ms with
  | nil => simp [FitsFrom, FitsArrays, tokensSize]
  | cons m ms => simp [FitsFrom, FitsArrays]

theorem fitsFrom_cons (n : Nat) (m : TokenType × List Char) (ms : List (TokenType × List Char)) :
    FitsFrom n (m :: ms) ↔ (n < tokensSize ∧ m.2.length < tokenStrSize) ∧
      FitsFrom (n + if m.1 = .tkNotype then 0 else 1) ms := by
  cases ms with
  | nil => simp [FitsFrom, and_comm]
  | cons m' ms =>
      have hcount : n + (m :: m' :: ms).dropLast.countP (fun m => m.1 ≠ .tkNotype) =
          n + (if m.1 = .tkNotype then 0 else 1) +
            (m' :: ms).dropLast.countP (fun m => m.1 ≠ .tkNotype) := by
        rw [List.dropLast_cons_of_ne_nil (by simp), List.countP_cons]
        by_cases hm : m.1 = .tkNotype
        · simp [hm]
        · simp only [ne_eq, hm, not_false_eq_true, decide_true, if_true, if_false]
          omega
      unfold FitsFrom
      rw [List.forall_mem_cons, hcount]
      constructor
      · rintro ⟨⟨hm, hms⟩, hn⟩
        have hn' := hn (by simp)
        exact ⟨⟨by omega, hm⟩, hms, fun _ => hn'⟩
      · rintro ⟨⟨-, hm⟩, hms, hn⟩
        exact ⟨⟨hm, hms⟩, fun _ => hn (by simp)⟩

/-- The first match of a text decides together with the rest. -/
theorem fitsFrom_match {fuel k n : Nat} {s : List Char} {type : TokenType} (hs : s ≠ [])
    (hm : matchRule s = some (type, n)) :
    FitsFrom k (matchesFrom (fuel + 1) s) ↔
      (k < tokensSize ∧ (s.take n).length < tokenStrSize) ∧
        FitsFrom (k + if type = .tkNotype then 0 else 1) (matchesFrom fuel (s.drop n)) := by
  cases s with
  | nil => exact absurd rfl hs
  | cons c s =>
      simp only [matchesFrom, hm]
      exact fitsFrom_cons k _ _

/-- A run of the lexer that returns was on a text that fits. -/
theorem makeTokenLoop_ok_fits {fuel : Nat} {s : List Char} {buf buf' : TokenBuf} {b : Bool}
    (h : makeTokenLoop fuel s buf = .ok b buf') : FitsFrom buf.nrToken (matchesFrom fuel s) := by
  have hnone : FitsFrom buf.nrToken [] := ⟨by simp, by simp⟩
  induction fuel generalizing s buf with
  | zero =>
      cases s with
      | nil => exact hnone
      | cons c s => cases h
  | succ fuel ih =>
      cases s with
      | nil => exact hnone
      | cons c s =>
          cases hm : matchRule (c :: s) with
          | none =>
              simp only [matchesFrom, hm]
              exact hnone
          | some m =>
              obtain ⟨type, n⟩ := m
              rcases matchRule_some hm with ⟨-, -, hnull, hderef⟩
              rcases makeTokenLoop_ok_match (by simp) hm h with ⟨hnr, hlen, hrun⟩
              have hrest := ih hrun ⟨by simp, by simp⟩
              rw [TokenBuf.record_count _ _ hnull hderef, TokenBuf.setType_nrToken] at hrest
              exact (fitsFrom_match (by simp) hm).2 ⟨⟨hnr, hlen⟩, hrest⟩

theorem makeTokenLoopRecorded_inBounds {fuel : Nat} {s : List Char} (hfuel : s.length ≤ fuel)
    {r : Recording TokenBuf LexerWrite} (hr : ∀ w ∈ r.events, w.InBounds) :
    (∀ w ∈ (final (makeTokenLoopRecorded fuel s r)).events, w.InBounds) ↔
      FitsFrom r.state.nrToken (matchesFrom fuel s) := by
  have hnone : FitsFrom r.state.nrToken [] := ⟨by simp, by simp⟩
  induction fuel generalizing s r with
  | zero =>
      rw [List.length_eq_zero_iff.1 (Nat.le_zero.1 hfuel)]
      exact iff_of_true hr hnone
  | succ fuel ih =>
      cases s with
      | nil => exact iff_of_true hr hnone
      | cons c s =>
          cases hm : matchRule (c :: s) with
          | none =>
              simp only [makeTokenLoopRecorded, matchesFrom, hm]
              exact iff_of_true hr hnone
          | some m =>
              obtain ⟨type, n⟩ := m
              rcases matchRule_some hm with ⟨hpos, -, hnull, hderef⟩
              have hfuel' : ((c :: s).drop n).length ≤ fuel := by
                rw [List.length_drop]
                omega
              simp only [makeTokenLoopRecorded, matchesFrom, hm]
              rw [fitsFrom_cons]
              by_cases hfit : r.state.nrToken < tokensSize ∧
                  ((c :: s).take n).length < tokenStrSize
              · -- the stores of this match are fine, and the rest of the text decides
                have hwrites := (matchWrites_inBounds r.state type _).2 hfit
                rw [bind_ok (addTokenRecorded_ok r hfit.1 hfit.2)]
                have hrest := ih hfuel' (r := {
                    state := (r.state.setType type).record type ((c :: s).take n)
                    events := r.events ++ matchWrites r.state type ((c :: s).take n).length })
                  (List.forall_mem_append.2 ⟨hr, hwrites⟩) ⟨by simp, by simp⟩
                rw [TokenBuf.record_count _ _ hnull hderef, TokenBuf.setType_nrToken] at hrest
                exact hrest.trans (and_iff_right hfit).symm
              · rcases @addTokenRecorded_bounds type _ r hfit with
                  ⟨events, ⟨w, hw, hout⟩, hrun⟩
                rw [bind_error hrun]
                refine iff_of_false (fun hall => ?_) fun h => hfit h.1
                exact hout (hall w (List.mem_append_right r.events hw))

theorem lexerWrites_inBounds (e : List Char) (buf : TokenBuf) :
    (∀ w ∈ lexerWrites e buf, w.InBounds) ↔ FitsFrom 0 (ruleMatches e) :=
  makeTokenLoopRecorded_inBounds (Nat.le_refl e.length)
    (r := { state := { buf with nrToken := 0 }, events := [] }) (by simp)

/-- Every store of `make_token` is inside its array exactly when each match of a rule is shorter
than 32 characters and at most 511 tokens come before the last match. -/
theorem makeToken_inBounds_iff (e : List Char) (buf : TokenBuf) :
    (∀ w ∈ lexerWrites e buf, w.InBounds) ↔ FitsArrays (ruleMatches e) :=
  (lexerWrites_inBounds e buf).trans (fitsFrom_zero _)

/-- A decimal literal of 32 digits: its terminator is stored behind `token_str`. -/
theorem makeToken_outOfBounds_decimal :
    ¬ ∀ w ∈ lexerWrites (List.replicate 32 '1') .zero, w.InBounds := by
  have hdec : ∀ c ∈ List.replicate 32 '1', isDecDigit c = true := by
    intro c hc
    rw [List.eq_of_mem_replicate hc]
    decide
  have hmatch := @matchRule_dec (List.replicate 32 '1') [] (by decide) hdec rfl
  rw [lexerWrites_inBounds]
  intro hfits
  have hlen := hfits.1 (.tkDecimal, List.replicate 32 '1') ?_
  · exact absurd hlen (by decide)
  · rw [List.append_nil] at hmatch
    change (TokenType.tkDecimal, List.replicate 32 '1') ∈
      matchesFrom 32 ('1' :: List.replicate 31 '1')
    simp only [matchesFrom, show matchRule ('1' :: List.replicate 31 '1') = _ from hmatch]
    exact List.mem_cons_self

end Nemu
