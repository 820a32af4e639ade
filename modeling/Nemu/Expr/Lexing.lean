import Nemu.Expr.Lexeme

/-!
# Lexing printed tokens

What `make_token` stores for the lexemes of an expression.  The rule for registers reaches as far
to the right as it can, so that lexing undoes printing exactly when no register is followed,
however far behind, by a register or a hexadecimal literal.
-/

namespace Nemu

open Ere StateRules

/-! ## One token -/

/-- The buffer after a lexeme. -/
def TokenBuf.add (buf : TokenBuf) (x : Lexeme) : TokenBuf :=
  (buf.setType x.type).record x.type x.text

theorem addToken_ok {type : TokenType} {substr : List Char} {buf : TokenBuf}
    (hnr : buf.nrToken < tokensSize) (hlen : substr.length < tokenStrSize) :
    addToken type substr buf = .ok () ((buf.setType type).record type substr) := by
  simp only [addToken, bind_ok (get_run buf), if_neg (Nat.not_le.2 hnr), if_neg (Nat.not_le.2 hlen)]
  rfl

theorem addToken_bounds {type : TokenType} {substr : List Char} {buf : TokenBuf}
    (h : ¬ (buf.nrToken < tokensSize ∧ substr.length < tokenStrSize)) :
    addToken type substr buf = .error .bounds buf := by
  rw [addToken, bind_ok (get_run buf)]
  by_cases hnr : tokensSize ≤ buf.nrToken
  · rw [if_pos hnr]
    rfl
  · have hlen : tokenStrSize ≤ substr.length :=
      Nat.not_lt.1 fun hlen => h ⟨Nat.not_le.1 hnr, hlen⟩
    rw [if_neg hnr, if_pos hlen]
    rfl

/-- A token is only added inside the two arrays. -/
theorem addToken_eq_ok {type : TokenType} {substr : List Char} {buf buf' : TokenBuf}
    (h : addToken type substr buf = .ok () buf') :
    buf.nrToken < tokensSize ∧ substr.length < tokenStrSize ∧
      buf' = (buf.setType type).record type substr := by
  by_cases hfit : buf.nrToken < tokensSize ∧ substr.length < tokenStrSize
  · rw [addToken_ok hfit.1 hfit.2] at h
    cases h
    exact ⟨hfit.1, hfit.2, rfl⟩
  · rw [addToken_bounds hfit] at h
    cases h

section Frame

variable (buf : TokenBuf) (type : TokenType) (str : List Char) {i : Nat}

/-- Recording touches the current slot alone. -/
theorem TokenBuf.record_of_ne (h : i ≠ buf.nrToken) :
    (buf.record type str).tokens i = buf.tokens i := by
  cases type <;> simp [TokenBuf.record, TokenBuf.setType_of_ne, TokenBuf.setStr_of_ne, h]

theorem TokenBuf.record_nrToken :
    buf.nrToken ≤ (buf.record type str).nrToken ∧
      (buf.record type str).nrToken ≤ buf.nrToken + 1 := by
  cases type <;> simp [TokenBuf.record]

end Frame

theorem TokenBuf.add_nrToken (buf : TokenBuf) (x : Lexeme) :
    (buf.add x).nrToken = buf.nrToken + 1 := by
  cases x with
  | sym s => cases s <;> rfl
  | dec _ _ _ | hex _ _ _ | reg _ _ => rfl

/-- What `make_token` owes to a lexeme: its type, a `*` also being recorded as a dereference, and
the text of a literal or register. -/
structure Lexeme.RecordedBy (x : Lexeme) (t : Token) : Prop where
  type : t.type = x.type ∨ (x.type = .times ∧ t.type = .deref)
  str : (∀ s, x ≠ .sym s) → t.str = x.text

theorem TokenBuf.starType_cases (buf : TokenBuf) : buf.starType = .times ∨ buf.starType = .deref := by
  unfold TokenBuf.starType
  split
  · exact Or.inr rfl
  · split <;> simp

section Slot

variable (buf : TokenBuf)

theorem TokenBuf.add_text {x : Lexeme} (h : ∀ s, x ≠ .sym s) :
    (buf.add x).tokens buf.nrToken = ⟨x.type, x.text⟩ := by
  cases x with
  | sym s => exact absurd rfl (h s)
  | dec _ _ _ | hex _ _ _ | reg _ _ =>
      simp [TokenBuf.add, TokenBuf.record, TokenBuf.setType, TokenBuf.setStr, TokenBuf.next,
        Lexeme.type]

theorem TokenBuf.add_sym {s : Symbol} (h : s ≠ .times) :
    ((buf.add (.sym s)).tokens buf.nrToken).type = s.type := by
  cases s with
  | times => exact absurd rfl h
  | plus | minus | divide | lparen | rparen | lbracket | rbracket | lbrace | rbrace | eq | ne
  | and | or =>
      simp [TokenBuf.add, TokenBuf.record, TokenBuf.setType, TokenBuf.next, Lexeme.type,
        Symbol.type]

theorem TokenBuf.add_times :
    ((buf.add (.sym .times)).tokens buf.nrToken).type = buf.starType := by
  change (((buf.setType .times).setType (buf.setType .times).starType).next.tokens
    buf.nrToken).type = buf.starType
  rw [TokenBuf.starType_setType]
  simp [TokenBuf.setType, TokenBuf.next]

theorem TokenBuf.add_recordedBy (x : Lexeme) :
    x.RecordedBy ((buf.add x).tokens buf.nrToken) := by
  cases x with
  | dec _ _ _ | hex _ _ _ | reg _ _ =>
      rw [TokenBuf.add_text buf (by simp)]
      exact ⟨Or.inl rfl, fun _ => rfl⟩
  | sym s =>
      refine ⟨?_, fun h => absurd rfl (h s)⟩
      by_cases hs : s = .times
      · subst hs
        rw [TokenBuf.add_times]
        rcases buf.starType_cases with h | h
        · exact Or.inl h
        · exact Or.inr ⟨rfl, h⟩
      · exact Or.inl (TokenBuf.add_sym buf hs)

end Slot

/-! ## One iteration of the loop -/

section Loop

variable {fuel : Nat} {s : List Char} {buf buf' : TokenBuf}

theorem makeTokenLoop_match {type : TokenType} {n : Nat} (hs : s ≠ [])
    (hm : matchRule s = some (type, n)) (hnr : buf.nrToken < tokensSize)
    (hlen : (s.take n).length < tokenStrSize) :
    makeTokenLoop (fuel + 1) s buf =
      makeTokenLoop fuel (s.drop n) ((buf.setType type).record type (s.take n)) := by
  cases s with
  | nil => exact absurd rfl hs
  | cons c s =>
      simp only [makeTokenLoop, hm]
      rw [bind_ok (addToken_ok hnr hlen)]

theorem Lexeme.text_ne_nil (x : Lexeme) : x.text ≠ [] := by
  cases x with
  | dec _ hne _ => exact hne
  | hex _ _ _ => simp [Lexeme.text]
  | reg _ _ => simp [Lexeme.text]
  | sym s => cases s <;> simp [Lexeme.text, Symbol.text]

/-- The loop takes one lexeme. -/
theorem makeTokenLoop_lexeme (x : Lexeme) (h : x.Delimits s) (hnr : buf.nrToken < tokensSize)
    (hlen : x.text.length < tokenStrSize) :
    makeTokenLoop (fuel + 1) (x.text ++ s) buf = makeTokenLoop fuel s (buf.add x) := by
  have hne : x.text ++ s ≠ [] := by simp [x.text_ne_nil]
  have htake : (x.text ++ s).take x.text.length = x.text := by simp
  have hdrop : (x.text ++ s).drop x.text.length = s := by simp
  rw [makeTokenLoop_match hne (matchRule_lexeme x h) hnr (htake.symm ▸ hlen), htake, hdrop]
  rfl

/-- The loop takes a single space. -/
theorem makeTokenLoop_space (h : s.head? ≠ some ' ') (hnr : buf.nrToken < tokensSize) :
    makeTokenLoop (fuel + 1) (' ' :: s) buf = makeTokenLoop fuel s (buf.setType .tkNotype) := by
  have hlen : ((' ' :: s).take 1).length < tokenStrSize := by
    rw [List.length_take]
    exact Nat.lt_of_le_of_lt (Nat.min_le_left _ _) (by decide)
  rw [makeTokenLoop_match (by simp) (matchRule_space h) hnr hlen]
  rfl

/-- A run that returns has gone through its first token. -/
theorem makeTokenLoop_ok_match {type : TokenType} {n : Nat} {b : Bool} (hs : s ≠ [])
    (hm : matchRule s = some (type, n)) (h : makeTokenLoop (fuel + 1) s buf = .ok b buf') :
    buf.nrToken < tokensSize ∧ (s.take n).length < tokenStrSize ∧
      makeTokenLoop fuel (s.drop n) ((buf.setType type).record type (s.take n)) = .ok b buf' := by
  cases s with
  | nil => exact absurd rfl hs
  | cons c s =>
      simp only [makeTokenLoop, hm] at h
      rcases bind_eq_ok.1 h with ⟨_, buf₁, hadd, hrest⟩
      rcases addToken_eq_ok hadd with ⟨hnr, hlen, rfl⟩
      exact ⟨hnr, hlen, hrest⟩

/-- A run that returns leaves the tokens that were stored before. -/
theorem makeTokenLoop_frame {b : Bool} (h : makeTokenLoop fuel s buf = .ok b buf') :
    buf.nrToken ≤ buf'.nrToken ∧ ∀ i < buf.nrToken, buf'.tokens i = buf.tokens i := by
  induction fuel generalizing s buf with
  | zero =>
      cases s with
      | nil =>
          cases h
          exact ⟨Nat.le_refl _, fun _ _ => rfl⟩
      | cons c s => cases h
  | succ fuel ih =>
      cases s with
      | nil =>
          cases h
          exact ⟨Nat.le_refl _, fun _ _ => rfl⟩
      | cons c s =>
          cases hm : matchRule (c :: s) with
          | none =>
              simp only [makeTokenLoop, hm] at h
              cases h
              exact ⟨Nat.le_refl _, fun _ _ => rfl⟩
          | some m =>
              obtain ⟨type, n⟩ := m
              -- a rule writes at `nr_token` and nowhere below
              rcases makeTokenLoop_ok_match (by simp) hm h with ⟨-, -, hrest⟩
              rcases ih hrest with ⟨hle, hframe⟩
              have hnr := (TokenBuf.record_nrToken (buf.setType type) type ((c :: s).take n)).1
              have htype : (buf.setType type).nrToken = buf.nrToken := rfl
              refine ⟨by omega, fun i hi => ?_⟩
              rw [hframe i (by omega), TokenBuf.record_of_ne _ _ _ (by omega),
                TokenBuf.setType_of_ne _ _ (by omega)]

end Loop

/-! ## Printed lexemes -/

/-- The texts joined by single spaces. -/
def printed (ls : List Lexeme) : List Char := [' '].intercalate (ls.map Lexeme.text)

theorem printed_cons_cons (x y : Lexeme) (ls : List Lexeme) :
    printed (x :: y :: ls) = x.text ++ ' ' :: printed (y :: ls) := by
  simp [printed, List.intercalate]

theorem printed_singleton (x : Lexeme) : printed [x] = x.text := by
  simp [printed, List.intercalate]

theorem Lexeme.head?_text (x : Lexeme) : x.text.head? ≠ some ' ' := by
  cases x with
  | dec digits hne hall =>
      cases digits with
      | nil => exact absurd rfl hne
      | cons d ds =>
          intro h
          have hd := hall d (by simp)
          simp only [Lexeme.text, List.head?_cons, Option.some.injEq] at h
          rw [h] at hd
          exact absurd hd (by decide)
  | hex _ _ _ => simp [Lexeme.text]
  | reg _ _ => simp [Lexeme.text]
  | sym s => cases s <;> simp [Lexeme.text, Symbol.text]

theorem head?_printed (x : Lexeme) (ls : List Lexeme) : (printed (x :: ls)).head? ≠ some ' ' := by
  have hhead : (printed (x :: ls)).head? = x.text.head? := by
    cases ls with
    | nil => rw [printed_singleton]
    | cons y ls =>
        cases hx : x.text with
        | nil => exact absurd hx x.text_ne_nil
        | cons c t => rw [printed_cons_cons, hx, List.cons_append, List.head?_cons, List.head?_cons]
  rw [hhead]
  exact x.head?_text

/-- A lexeme that continues a register: a register or a hexadecimal literal. -/
def Lexeme.ContinuesGpr (x : Lexeme) : Prop := x.type = .tkGpr ∨ x.type = .tkHexadecimal

/-- No register is followed by a lexeme that continues it. -/
def GprsSeparate (ls : List Lexeme) : Prop :=
  ls.Pairwise fun x y => x.type = .tkGpr → ¬ y.ContinuesGpr

theorem Lexeme.isGprLast_text (x : Lexeme) :
    (∃ c ∈ x.text, isGprLast c = true) ↔ x.ContinuesGpr := by
  cases x with
  | dec digits hne hall =>
      simp only [Lexeme.text, Lexeme.ContinuesGpr, Lexeme.type, reduceCtorEq, or_self, iff_false]
      rintro ⟨c, hc, hlast⟩
      have hd := hall c hc
      simp only [isGprLast, Bool.or_eq_true, beq_iff_eq] at hlast
      rcases hlast with ((((rfl | rfl) | rfl) | rfl) | rfl) | rfl <;> exact absurd hd (by decide)
  | hex digits _ _ =>
      simp only [Lexeme.ContinuesGpr, Lexeme.type, or_true, iff_true]
      exact ⟨'x', by simp [Lexeme.text], rfl⟩
  | reg name hmem =>
      simp only [Lexeme.ContinuesGpr, Lexeme.type, true_or, iff_true]
      rcases registerNames_shape hmem with ⟨c, u, a, rfl, -, ha⟩
      exact ⟨a, by simp [Lexeme.text], ha⟩
  | sym s =>
      cases s <;> simp [Lexeme.text, Lexeme.ContinuesGpr, Lexeme.type, Symbol.text, Symbol.type,
        isGprLast]

theorem mem_printed {c : Char} {ls : List Lexeme} (hc : c ≠ ' ') :
    c ∈ printed ls ↔ ∃ x ∈ ls, c ∈ x.text := by
  induction ls with
  | nil => simp [printed, List.intercalate]
  | cons x ls ih =>
      cases ls with
      | nil => simp [printed_singleton]
      | cons y ls =>
          rw [printed_cons_cons, List.mem_append, List.mem_cons, ih]
          simp [hc]

theorem isGprLast_printed {ls : List Lexeme} :
    (∃ c ∈ printed ls, isGprLast c = true) ↔ ∃ x ∈ ls, x.ContinuesGpr := by
  have hne : ∀ {c}, isGprLast c = true → c ≠ ' ' := by
    rintro c hc rfl
    cases hc
  constructor
  · rintro ⟨c, hc, hlast⟩
    rcases (mem_printed (hne hlast)).1 hc with ⟨x, hx, hcx⟩
    exact ⟨x, hx, x.isGprLast_text.1 ⟨c, hcx, hlast⟩⟩
  · rintro ⟨x, hx, hcont⟩
    rcases x.isGprLast_text.2 hcont with ⟨c, hcx, hlast⟩
    exact ⟨c, (mem_printed (hne hlast)).2 ⟨x, hx, hcx⟩, hlast⟩

/-- A space delimits every lexeme but a register. -/
theorem Lexeme.delimits_space (x : Lexeme) {s : List Char}
    (h : x.type = .tkGpr → ∀ c ∈ s, isGprLast c = false) : x.Delimits (' ' :: s) := by
  cases x with
  | dec _ _ _ | hex _ _ _ => rfl
  | reg _ _ =>
      intro c hc
      rcases List.mem_cons.1 hc with rfl | hc
      · rfl
      · exact h rfl c hc
  | sym _ => trivial

theorem Lexeme.delimits_nil (x : Lexeme) : x.Delimits [] := by
  cases x with
  | dec _ _ _ | hex _ _ _ => rfl
  | reg _ _ =>
      intro c hc
      cases hc
  | sym _ => trivial

/-! ## Runs -/

section Runs

variable {fuel : Nat} {ls : List Lexeme} {buf : TokenBuf}

/-- The buffer after a lexeme and the space behind it. -/
def TokenBuf.addSpaced (buf : TokenBuf) (x : Lexeme) : TokenBuf :=
  (buf.add x).setType .tkNotype

theorem TokenBuf.addSpaced_nrToken (buf : TokenBuf) (x : Lexeme) :
    (buf.addSpaced x).nrToken = buf.nrToken + 1 := by
  rw [TokenBuf.addSpaced, TokenBuf.setType_nrToken, TokenBuf.add_nrToken]

theorem TokenBuf.addSpaced_tokens (buf : TokenBuf) (x : Lexeme) {i : Nat} (h : i ≤ buf.nrToken) :
    (buf.addSpaced x).tokens i = (buf.add x).tokens i := by
  refine TokenBuf.setType_of_ne _ _ ?_
  rw [TokenBuf.add_nrToken]
  omega

/-- The loop takes a lexeme and the space behind it. -/
theorem makeTokenLoop_spaced (x y : Lexeme) (ls : List Lexeme)
    (h : x.type = .tkGpr → ∀ z ∈ y :: ls, ¬ z.ContinuesGpr) (hnr : buf.nrToken + 1 < tokensSize)
    (hlen : x.text.length < tokenStrSize) :
    makeTokenLoop (fuel + 2) (printed (x :: y :: ls)) buf =
      makeTokenLoop fuel (printed (y :: ls)) (buf.addSpaced x) := by
  have hdelim : x.Delimits (' ' :: printed (y :: ls)) := by
    refine x.delimits_space fun hx c hc => ?_
    cases hlast : isGprLast c with
    | false => rfl
    | true =>
        rcases isGprLast_printed.1 ⟨c, hc, hlast⟩ with ⟨z, hz, hcont⟩
        exact absurd hcont (h hx z hz)
  rw [printed_cons_cons, makeTokenLoop_lexeme x hdelim (by omega) hlen,
    makeTokenLoop_space (head?_printed y ls) (by rw [TokenBuf.add_nrToken]; exact hnr)]
  rfl

theorem length_printed_cons_cons (x y : Lexeme) (ls : List Lexeme) :
    (printed (y :: ls)).length + 2 ≤ (printed (x :: y :: ls)).length := by
  have hpos := List.length_pos_iff.2 x.text_ne_nil
  rw [printed_cons_cons, List.length_append, List.length_cons]
  omega

/-- What lexing owes to a list of lexemes: the tokens from index `k` on record them. -/
structure Stores (ls : List Lexeme) (k : Nat) (buf : TokenBuf) : Prop where
  nrToken : buf.nrToken = k + ls.length
  tokens : ∀ j (h : j < ls.length), ls[j].RecordedBy (buf.tokens (k + j))

/-- The slot of the first lexeme, and the rest. -/
theorem Stores.cons {x : Lexeme} {k : Nat} {buf : TokenBuf} (hx : x.RecordedBy (buf.tokens k))
    (h : Stores ls (k + 1) buf) : Stores (x :: ls) k buf := by
  constructor
  · rw [h.nrToken, List.length_cons]
    omega
  · intro j hj
    cases j with
    | zero => exact hx
    | succ j =>
        have hrest := h.tokens j (Nat.lt_of_succ_lt_succ hj)
        have hidx : k + 1 + j = k + (j + 1) := by omega
        rwa [hidx] at hrest

/-- Separate lexemes are stored one by one. -/
theorem makeTokenLoop_printed (hsep : GprsSeparate ls)
    (htext : ∀ x ∈ ls, x.text.length < tokenStrSize) (hnr : buf.nrToken + ls.length ≤ tokensSize)
    (hfuel : (printed ls).length ≤ fuel) :
    ∃ buf', makeTokenLoop fuel (printed ls) buf = .ok true buf' ∧ Stores ls buf.nrToken buf' := by
  induction ls generalizing fuel buf with
  -- on the lexemes: one is read, then the blank behind it, and what was recorded stays
  | nil =>
      refine ⟨buf, ?_, ⟨rfl, fun j hj => absurd hj (Nat.not_lt_zero j)⟩⟩
      cases fuel <;> rfl
  | cons x ls ih =>
      rw [List.length_cons] at hnr
      have hx : x.text.length < tokenStrSize := htext x (by simp)
      rcases List.pairwise_cons.1 hsep with ⟨hfirst, hrest⟩
      cases ls with
      | nil =>
          rw [printed_singleton] at hfuel ⊢
          obtain ⟨f, rfl⟩ : ∃ f, fuel = f + 1 := by
            have hpos := List.length_pos_iff.2 x.text_ne_nil
            exact ⟨fuel - 1, by omega⟩
          refine ⟨buf.add x, ?_, .cons (buf.add_recordedBy x) ⟨?_, ?_⟩⟩
          · have hstep := @makeTokenLoop_lexeme f [] buf x x.delimits_nil
              (Nat.lt_of_lt_of_le (Nat.lt_succ_self _) hnr) hx
            rw [List.append_nil] at hstep
            rw [hstep]
            cases f <;> rfl
          · rw [TokenBuf.add_nrToken]
            rfl
          · intro j hj
            exact absurd hj (Nat.not_lt_zero j)
      | cons y ls =>
          have hlong := length_printed_cons_cons x y ls
          obtain ⟨f, rfl⟩ : ∃ f, fuel = f + 2 := ⟨fuel - 2, by omega⟩
          have hnext := buf.addSpaced_nrToken x
          rw [List.length_cons] at hnr
          rcases @ih f (buf.addSpaced x) hrest
            (fun z hz => htext z (by simp [hz])) (by rw [hnext, List.length_cons]; omega) (by omega)
            with ⟨buf', hrun, hstores⟩
          refine ⟨buf', ?_, ?_⟩
          · rw [makeTokenLoop_spaced x y ls (fun hgpr z hz => hfirst z hz hgpr) (by omega) hx]
            exact hrun
          · rw [hnext] at hstores
            refine .cons ?_ hstores
            have hframe := (makeTokenLoop_frame hrun).2 buf.nrToken (by omega)
            rw [hframe, buf.addSpaced_tokens x (Nat.le_refl _)]
            exact buf.add_recordedBy x

/-- A register with a continuing lexeme behind it swallows what is between them. -/
theorem longest_swallows {name : List Char} (hmem : name ∈ registerNames) {s : List Char}
    (h : ∃ c ∈ s, isGprLast c = true) :
    ∃ n, longest gprRegex ('$' :: name ++ s) = some n ∧ name.length + 1 < n := by
  rcases registerNames_shape hmem with ⟨c, u, a, rfl, hc, -⟩
  rcases h with ⟨d, hd, hlast⟩
  rcases List.append_of_mem hd with ⟨s₁, s₂, rfl⟩
  have hassoc : '$' :: (c :: (u ++ [a])) ++ (s₁ ++ d :: s₂) =
      '$' :: c :: (u ++ [a] ++ s₁ ++ d :: s₂) := by simp
  rw [hassoc, longest_gprRegex _ _ hc]
  have htake : (u ++ [a] ++ s₁ ++ d :: s₂).take ((u ++ [a] ++ s₁).length + 1) =
      u ++ [a] ++ s₁ ++ [d] := by
    rw [List.take_append, List.take_of_length_le (by omega)]
    simp
  -- a match that ends at the later character is longer, and the longest one wins
  have hmatch := matches_any_one (p := isGprLast).2 ⟨u ++ [a] ++ s₁, d, hlast, rfl⟩
  rw [← htake] at hmatch
  have hbound : (u ++ [a] ++ s₁).length + 1 ≤ (u ++ [a] ++ s₁ ++ d :: s₂).length := by
    simp only [List.length_append, List.length_cons]
    omega
  cases hl : longest (.seq (Pattern.opt (.star (.one fun _ => true))) (.one isGprLast))
      (u ++ [a] ++ s₁ ++ d :: s₂) with
  | none =>
      exact absurd hmatch (longest_none hl hbound)
  | some n =>
      refine ⟨n + 2, rfl, ?_⟩
      rcases longest_some hl with ⟨-, -, hmax⟩
      have hle : (u ++ [a] ++ s₁).length + 1 ≤ n := by
        rcases Nat.lt_or_ge n ((u ++ [a] ++ s₁).length + 1) with hlt | hge
        · exact absurd hmatch (hmax _ hlt hbound)
        · exact hge
      simp only [List.length_append, List.length_cons, List.length_nil] at hle ⊢
      omega

/-- A register with a continuing lexeme behind it is not recorded: its token takes more. -/
theorem makeTokenLoop_swallows_first {x y : Lexeme} (hgpr : x.type = .tkGpr)
    (hz : ∃ z ∈ y :: ls, z.ContinuesGpr) {buf' : TokenBuf}
    (hrun : makeTokenLoop (fuel + 1) (printed (x :: y :: ls)) buf = .ok true buf') :
    ¬ x.RecordedBy (buf'.tokens buf.nrToken) := by
  intro hrec
  cases x with
  | dec _ _ _ | hex _ _ _ => cases hgpr
  | sym s => cases s <;> cases hgpr
  | reg name hmem =>
      rcases isGprLast_printed.2 hz with ⟨c, hc, hlast⟩
      rcases longest_swallows (s := ' ' :: printed (y :: ls)) hmem
        ⟨c, List.mem_cons_of_mem _ hc, hlast⟩ with ⟨n, hn, hlt⟩
      rw [printed_cons_cons] at hrun
      change makeTokenLoop (fuel + 1) ('$' :: name ++ ' ' :: printed (y :: ls)) buf = _ at hrun
      rcases makeTokenLoop_ok_match (by simp) (matchRule_dollar _ hn) hrun with ⟨-, -, hrun'⟩
      have hslot := (makeTokenLoop_frame hrun').2 buf.nrToken (Nat.lt_succ_self _)
      have hstr : (buf'.tokens buf.nrToken).str.length = n := by
        rw [hslot]
        simp only [TokenBuf.record, TokenBuf.next_tokens]
        rw [← TokenBuf.setType_nrToken buf .tkGpr, TokenBuf.setStr_self, List.length_take]
        exact Nat.min_eq_left (longest_some hn).1
      have hname := hrec.str (by simp)
      rw [hname] at hstr
      simp only [Lexeme.text, List.length_cons] at hstr
      omega

/-- Where a register is not separate, some lexeme is not recorded. -/
theorem makeTokenLoop_swallows (hsep : ¬ GprsSeparate ls)
    (htext : ∀ x ∈ ls, x.text.length < tokenStrSize) (hnr : buf.nrToken + ls.length ≤ tokensSize)
    (hfuel : (printed ls).length ≤ fuel) {buf' : TokenBuf}
    (hrun : makeTokenLoop fuel (printed ls) buf = .ok true buf') :
    ∃ j, ∃ h : j < ls.length, ¬ ls[j].RecordedBy (buf'.tokens (buf.nrToken + j)) := by
  induction ls generalizing fuel buf with
  | nil => exact absurd List.Pairwise.nil hsep
  | cons x ls ih =>
      rw [List.length_cons] at hnr
      cases ls with
      | nil => exact absurd (List.pairwise_singleton _ _) hsep
      | cons y ls =>
          have hlong := length_printed_cons_cons x y ls
          obtain ⟨f, rfl⟩ : ∃ f, fuel = f + 2 := ⟨fuel - 2, by omega⟩
          rw [List.length_cons] at hnr
          by_cases hcont : x.type = .tkGpr ∧ ∃ z ∈ y :: ls, z.ContinuesGpr
          · -- the first register takes more than its name
            rcases hcont with ⟨hgpr, hz⟩
            exact ⟨0, by simp, makeTokenLoop_swallows_first hgpr hz hrun⟩
          · have hstep := @makeTokenLoop_spaced f buf x y ls
              (fun hgpr z hz hc => hcont ⟨hgpr, z, hz, hc⟩) (by omega) (htext x (by simp))
            have hrest : ¬ GprsSeparate (y :: ls) := by
              intro hr
              refine hsep (List.pairwise_cons.2 ⟨fun z hz hgpr hc => ?_, hr⟩)
              exact hcont ⟨hgpr, z, hz, hc⟩
            rw [hstep] at hrun
            have hnext := buf.addSpaced_nrToken x
            rcases ih hrest (fun z hz => htext z (by simp [hz]))
              (by rw [hnext, List.length_cons]; omega) (by omega) hrun with ⟨j, hj, hnot⟩
            refine ⟨j + 1, Nat.succ_lt_succ hj, ?_⟩
            have hidx : buf.nrToken + (j + 1) = (buf.addSpaced x).nrToken + j := by omega
            rw [hidx]
            exact hnot

end Runs

/-! ## Lexing undoes printing -/

/-- Lexing stores exactly the printed lexemes, in order, if and only if no register is followed by
a register or a hexadecimal literal. -/
theorem makeToken_printed_iff (ls : List Lexeme) (hlen : ls.length < 512)
    (htext : ∀ x ∈ ls, x.text.length ≤ 31) (buf : TokenBuf) :
    (∃ buf', makeToken (printed ls) buf = .ok true buf' ∧ Stores ls 0 buf') ↔ GprsSeparate ls := by
  have hstart : makeToken (printed ls) buf =
      makeTokenLoop (printed ls).length (printed ls) { buf with nrToken := 0 } := rfl
  have hsize : ({ buf with nrToken := 0 } : TokenBuf).nrToken + ls.length ≤ tokensSize := by
    change 0 + ls.length ≤ 512
    omega
  have htext' : ∀ x ∈ ls, x.text.length < tokenStrSize := fun x hx => Nat.lt_succ_of_le (htext x hx)
  rw [hstart]
  constructor
  · rintro ⟨buf', hrun, hstores⟩
    by_contra hsep
    rcases makeTokenLoop_swallows hsep htext' hsize (Nat.le_refl _) hrun with ⟨j, hj, hnot⟩
    exact hnot (hstores.tokens j hj)
  · intro hsep
    exact makeTokenLoop_printed hsep htext' hsize (Nat.le_refl _)

/-- `0x1f * $eax` -/
theorem makeToken_printed_iff_product :
    (∃ buf', makeToken (printed [.hex ['1', 'f'] (by decide) (List.all_eq_true.1 rfl), .sym .times,
        .reg ['e', 'a', 'x'] (by decide)]) .zero = .ok true buf' ∧
      Stores [.hex ['1', 'f'] (by decide) (List.all_eq_true.1 rfl), .sym .times,
        .reg ['e', 'a', 'x'] (by decide)] 0 buf') :=
  (makeToken_printed_iff [.hex ['1', 'f'] (by decide) (List.all_eq_true.1 rfl), .sym .times,
    .reg ['e', 'a', 'x'] (by decide)] (by decide) (by simp [Lexeme.text, Symbol.text]) .zero).2
    (by simp [GprsSeparate, Lexeme.ContinuesGpr, Lexeme.type, Symbol.type])

/-- `$eax + $ebx` is one token. -/
theorem makeToken_swallows_sum :
    ¬ ∀ (ls : List Lexeme), ls.length < 512 → (∀ x ∈ ls, x.text.length ≤ 31) →
        ∀ buf, ∃ buf', makeToken (printed ls) buf = .ok true buf' ∧ Stores ls 0 buf' := by
  intro h
  rcases h [.reg ['e', 'a', 'x'] (by decide), .sym .plus, .reg ['e', 'b', 'x'] (by decide)]
    (by decide) (by simp [Lexeme.text, Symbol.text]) .zero with ⟨buf', hrun, hstores⟩
  have hone : (StateRules.final (makeToken ['$', 'e', 'a', 'x', ' ', '+', ' ', '$', 'e', 'b', 'x']
      .zero)).nrToken = 1 := by decide
  have hrun' : makeToken ['$', 'e', 'a', 'x', ' ', '+', ' ', '$', 'e', 'b', 'x'] .zero =
      .ok true buf' := hrun
  rw [hrun', final_ok, hstores.nrToken] at hone
  cases hone

end Nemu
