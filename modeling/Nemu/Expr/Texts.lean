import Nemu.Expr.Correct
import Nemu.Expr.GenExpr
import Nemu.Expr.Lexing
import Nemu.Lib.Linked

/-!
# Expressions without spaces

The generator puts nothing between its tokens.  In an expression without registers no space is
needed: an operand is always followed by a bracket or an operator, so that lexing still takes one
lexeme after the other, and every `*` has an operand before it, so that none becomes a dereference.
-/

namespace Nemu

open StateRules

/-! ## Neighbours -/

namespace TokenType

def StartsOperand (t : TokenType) : Prop := t = .tkDecimal ∨ t = .tkHexadecimal ∨ t = .lparen

def EndsOperand (t : TokenType) : Prop := t = .tkDecimal ∨ t = .tkHexadecimal ∨ t = .rparen

def IsText (t : TokenType) : Prop := t = .tkDecimal ∨ t = .tkHexadecimal ∨ t = .tkGpr

/-- What holds of neighbours in an expression. -/
structure Adjacent (t u : TokenType) : Prop where
  text : t.IsText → ¬ u.IsText
  times : u = .times → t.EndsOperand

theorem BinOp_not_isText (op : BinOp) : ¬ op.type.IsText := by
  cases op <;> simp [BinOp.type, IsText]

theorem StartsOperand.ne_times {t : TokenType} (h : t.StartsOperand) : t ≠ .times := by
  rintro rfl
  simp [StartsOperand] at h

end TokenType

/-- The neighbours and the ends of a spelling. -/
structure Spaceless (ts : List TokenType) : Prop where
  chain : ts.IsChain TokenType.Adjacent
  head : ∃ t, ts.head? = some t ∧ t.StartsOperand
  last : ∃ t, ts.getLast? = some t ∧ t.EndsOperand

namespace Spaceless

open TokenType

variable {ts us : List TokenType}

theorem linked_iff : Spaceless ts ↔ Linked Adjacent StartsOperand EndsOperand ts :=
  ⟨fun h => ⟨h.chain, h.head, h.last⟩, fun h => ⟨h.chain, h.head, h.last⟩⟩

theorem singleton {t : TokenType} (h : t.StartsOperand) (h' : t.EndsOperand) : Spaceless [t] :=
  linked_iff.2 (.singleton h h')

theorem paren (h : Spaceless ts) : Spaceless (.lparen :: (ts ++ [.rparen])) := by
  have hclose : ∀ t, EndsOperand t → Adjacent t .rparen := fun t _ =>
    ⟨fun _ => by simp [IsText], fun htimes => by cases htimes⟩
  have hopen : ∀ t, StartsOperand t → Adjacent .lparen t := fun t ht =>
    ⟨fun htext => by simp [IsText] at htext, fun htimes => absurd htimes ht.ne_times⟩
  have hinner := (linked_iff.1 h).concat hclose (Or.inr (Or.inr rfl))
  exact linked_iff.2 (hinner.cons (Or.inr (Or.inr rfl)) hopen)

theorem bin {op : BinOp} (h : Spaceless ts) (h' : Spaceless us) :
    Spaceless (ts ++ op.type :: us) := by
  have hleft : ∀ t, EndsOperand t → Adjacent t op.type := fun t ht =>
    ⟨fun _ => BinOp_not_isText op, fun _ => ht⟩
  have hright : ∀ t, StartsOperand t → Adjacent op.type t := fun t ht =>
    ⟨fun htext => absurd htext (BinOp_not_isText op), fun htimes => absurd htimes ht.ne_times⟩
  exact linked_iff.2 ((linked_iff.1 h).join hleft hright (linked_iff.1 h'))

end Spaceless

theorem Spells.spaceless {k : Nat} {e : Arith} {ts : List Token} (h : Spells k e ts) :
    Spaceless (ts.map Token.type) := by
  induction h with
  | dec ht _ _ =>
      simp only [List.map_cons, ht, List.map_nil]
      exact .singleton (Or.inl rfl) (Or.inl rfl)
  | hex ht _ _ _ =>
      simp only [List.map_cons, ht, List.map_nil]
      exact .singleton (Or.inr (Or.inl rfl)) (Or.inr (Or.inl rfl))
  | paren ho _ hc ih =>
      simp only [List.map_cons, List.map_append, ho, hc, List.map_nil]
      exact ih.paren
  | bin _ ht _ iha ihb =>
      simp only [List.map_append, List.map_cons, ht]
      exact iha.bin ihb
  | up _ ih => exact ih

/-! ## Lexing -/

/-- Tokens that agree on their type, and on their text where the type has one. -/
def SameToken (t u : Token) : Prop :=
  u.type = t.type ∧ (t.type.IsText → u.str = t.str)

theorem Lexeme.token_str {x : Lexeme} (h : ∀ s, x ≠ .sym s) : x.token = ⟨x.type, x.text⟩ := by
  cases x with
  | sym s => exact absurd rfl (h s)
  | dec _ _ _ | hex _ _ _ | reg _ _ => rfl

theorem Lexeme.sym_not_isText (s : Symbol) : ¬ (Lexeme.sym s).type.IsText := by
  cases s <;> simp [Lexeme.type, Symbol.type, TokenType.IsText]

theorem Lexeme.eq_sym {x : Lexeme} (h : ¬ x.type.IsText) : ∃ s, x = .sym s := by
  cases x with
  | sym s => exact ⟨s, rfl⟩
  | dec _ _ _ => exact absurd (Or.inl rfl) h
  | hex _ _ _ => exact absurd (Or.inr (Or.inl rfl)) h
  | reg _ _ => exact absurd (Or.inr (Or.inr rfl)) h

/-- A symbol starts with no digit and no letter. -/
theorem Symbol.head?_text (s : Symbol) (rest : List Char) :
    (s.text ++ rest).head?.all (fun c => !isDecDigit c && c != 'x') = true ∧
      (s.text ++ rest).head?.all (fun c => !isLowerHexDigit c) = true := by
  cases s <;> exact ⟨rfl, rfl⟩

/-- Neighbours in an expression need no space between them. -/
theorem Lexeme.delimits_texts {x : Lexeme} {ls : List Lexeme} (hx : x.type ≠ .tkGpr)
    (h : ∀ y ∈ ls.head?, TokenType.Adjacent x.type y.type) : x.Delimits (texts ls) := by
  cases ls with
  | nil => exact x.delimits_nil
  | cons y ls =>
      have hadj := h y rfl
      rw [texts_cons]
      -- only behind a literal does the next character matter
      cases x with
      | sym _ => trivial
      | reg _ _ => exact absurd rfl hx
      | dec _ _ _ =>
          obtain ⟨s, rfl⟩ := Lexeme.eq_sym (hadj.text (Or.inl rfl))
          exact (s.head?_text _).1
      | hex _ _ _ =>
          obtain ⟨s, rfl⟩ := Lexeme.eq_sym (hadj.text (Or.inr (Or.inl rfl)))
          exact (s.head?_text _).2

/-- The token that a lexeme leaves, when a `*` is not a dereference there. -/
theorem TokenBuf.add_sameToken (buf : TokenBuf) (x : Lexeme)
    (h : x.type = .times → buf.starType = .times) :
    SameToken x.token ((buf.add x).tokens buf.nrToken) := by
  cases x with
  | dec _ _ _ | hex _ _ _ | reg _ _ =>
      rw [TokenBuf.add_text buf (by simp), Lexeme.token_str (by simp)]
      exact ⟨rfl, fun _ => rfl⟩
  | sym s =>
      refine ⟨?_, fun htext => absurd htext (Lexeme.sym_not_isText s)⟩
      by_cases hs : s = .times
      · subst hs
        rw [TokenBuf.add_times]
        exact h rfl
      · exact TokenBuf.add_sym buf hs

/-- Behind an operand a `*` is a multiplication. -/
theorem TokenBuf.starType_add (buf : TokenBuf) {x : Lexeme} (h : x.type.EndsOperand) :
    (buf.add x).starType = .times := by
  have hnr := buf.add_nrToken x
  have hx : x.type ≠ .times := by
    intro htimes
    rw [htimes] at h
    simp [TokenType.EndsOperand] at h
  have htoken := buf.add_sameToken x fun htimes => absurd htimes hx
  have htype : ((buf.add x).tokens ((buf.add x).nrToken - 1)).type = x.type := by
    rw [hnr, Nat.add_sub_cancel, htoken.1, Lexeme.token_type]
  unfold TokenBuf.starType
  rw [if_neg (by omega), htype]
  rcases h with h | h | h <;> rw [h]

theorem makeTokenLoop_texts {ls : List Lexeme} {fuel : Nat} {buf : TokenBuf}
    (hchain : (ls.map Lexeme.type).IsChain TokenType.Adjacent)
    (hgpr : ∀ x ∈ ls, x.type ≠ .tkGpr) (htext : ∀ x ∈ ls, x.text.length < tokenStrSize)
    (hstar : ∀ x ∈ ls.head?, x.type = .times → buf.starType = .times)
    (hnr : buf.nrToken + ls.length ≤ tokensSize) (hfuel : (texts ls).length ≤ fuel) :
    ∃ buf', makeTokenLoop fuel (texts ls) buf = .ok true buf' ∧
      buf'.nrToken = buf.nrToken + ls.length ∧
      ∀ j (h : j < ls.length), SameToken ls[j].token (buf'.tokens (buf.nrToken + j)) := by
  induction ls generalizing fuel buf with
  -- on the lexemes, without blanks between them
  | nil =>
      refine ⟨buf, ?_, rfl, fun j hj => absurd hj (Nat.not_lt_zero j)⟩
      cases fuel <;> rfl
  | cons x ls ih =>
      rw [List.length_cons] at hnr
      rw [List.map_cons, List.isChain_cons] at hchain
      have hpos := List.length_pos_iff.2 x.text_ne_nil
      rw [texts_cons, List.length_append] at hfuel
      obtain ⟨f, rfl⟩ : ∃ f, fuel = f + 1 := ⟨fuel - 1, by omega⟩
      have hnext := buf.add_nrToken x
      -- the grammar puts an operator behind every literal
      have hadj : ∀ y ∈ ls.head?, TokenType.Adjacent x.type y.type := by
        intro y hy
        refine hchain.1 y.type ?_
        rw [List.head?_map, Option.mem_def.1 hy]
        rfl
      have hdelim : x.Delimits (texts ls) := Lexeme.delimits_texts (hgpr x (by simp)) hadj
      rcases @ih f (buf.add x) hchain.2 (fun y hy => hgpr y (by simp [hy]))
        (fun y hy => htext y (by simp [hy]))
        (fun y hy htimes => buf.starType_add ((hadj y hy).times htimes))
        (by omega) (by omega) with ⟨buf', hrun, hnr', htokens⟩
      refine ⟨buf', ?_, ?_, ?_⟩
      · rw [texts_cons, makeTokenLoop_lexeme x hdelim (by omega) (htext x (by simp))]
        exact hrun
      · rw [hnr', hnext, List.length_cons]
        omega
      · intro j hj
        cases j with
        | zero =>
            rw [Nat.add_zero, (makeTokenLoop_frame hrun).2 buf.nrToken (by omega)]
            exact buf.add_sameToken x (hstar x rfl)
        | succ j =>
            have hrest := htokens j (Nat.lt_of_succ_lt_succ hj)
            have hidx : (buf.add x).nrToken + j = buf.nrToken + (j + 1) := by omega
            rwa [hidx] at hrest

/-! ## Evaluation -/

/-- The spelling of a tree does not depend on the texts that the array keeps for operators. -/
theorem Spells.congr {k : Nat} {e : Arith} {ts us : List Token} (h : Spells k e ts)
    (hs : List.Forall₂ (fun u t => SameToken t u) us ts) : Spells k e us := by
  induction h generalizing us with
  | @dec t ht hne hdigits =>
      rcases List.forall₂_cons_right_iff.1 hs with ⟨u, us', hu, hnil, rfl⟩
      cases hnil
      have hstr : u.str = t.str := hu.2 (Or.inl ht)
      rw [← hstr] at hne hdigits ⊢
      exact .dec (hu.1.trans ht) hne hdigits
  | @hex t digits ht hstr hne hdigits =>
      rcases List.forall₂_cons_right_iff.1 hs with ⟨u, us', hu, hnil, rfl⟩
      cases hnil
      exact .hex (hu.1.trans ht) ((hu.2 (Or.inr (Or.inl ht))).trans hstr) hne hdigits
  | @paren o c e ts ho _ hc ih =>
      rcases List.forall₂_cons_right_iff.1 hs with ⟨o', us', ho', hrest, rfl⟩
      have hin := List.forall₂_take_append us' ts [c] hrest
      rcases List.forall₂_cons_right_iff.1 (List.forall₂_drop_append us' ts [c] hrest) with
        ⟨c', vs, hc', hnil, hdrop⟩
      cases hnil
      rw [← List.take_append_drop ts.length us', hdrop]
      exact .paren (ho'.1.trans ho) (ih hin) (hc'.1.trans hc)
  | @bin op t a b ts₁ ts₂ _ ht _ iha ihb =>
      have hleft := List.forall₂_take_append us ts₁ (t :: ts₂) hs
      rcases List.forall₂_cons_right_iff.1 (List.forall₂_drop_append us ts₁ (t :: ts₂) hs) with
        ⟨u, vs, hu, hright, hdrop⟩
      rw [← List.take_append_drop ts₁.length us, hdrop]
      exact .bin (iha hleft) (hu.1.trans ht) (ihb hright)
  | up _ ih => exact .up (ih hs)

theorem Spells.no_gpr {k : Nat} {e : Arith} {ts : List Token} (h : Spells k e ts) :
    ∀ t ∈ ts, t.type ≠ .tkGpr := by
  induction h with
  | dec ht _ _ | hex ht _ _ _ => simp [ht]
  | paren ho _ hc ih =>
      intro t ht
      simp only [List.mem_cons, List.mem_append, List.not_mem_nil, or_false] at ht
      rcases ht with rfl | ht | rfl
      · simp [ho]
      · exact ih t ht
      · simp [hc]
  | @bin op _ _ _ _ _ _ hop _ iha ihb =>
      intro t ht
      simp only [List.mem_cons, List.mem_append] at ht
      rcases ht with ht | rfl | ht
      · exact iha t ht
      · rw [hop]
        cases op <;> simp [BinOp.type]
      · exact ihb t ht
  | up _ ih => exact ih

theorem expr_of_makeToken (cpu : CPUState) {e : List Char} {st : ExprState} {buf : TokenBuf}
    (h : makeToken e st.buf = .ok true buf) :
    expr cpu e st =
      liftEval (eval cpu buf.tokens 0 ((buf.nrToken : Int) - 1)) { st with buf } := by
  have hlift : liftTokens (makeToken e) st = .ok true { st with buf } := by
    simp only [liftTokens, h]
  rw [expr, bind_ok hlift, if_pos rfl, bind_ok (get_run _)]

/-- The tokens that the lexer stores from index 0 on are those of the lexemes. -/
theorem forall₂_segment {ls : List Lexeme} {buf : TokenBuf} (hnr : buf.nrToken = ls.length)
    (htokens : ∀ j (h : j < ls.length), SameToken ls[j].token (buf.tokens j)) :
    List.Forall₂ (fun u t => SameToken t u)
      (segment buf.tokens 0 ((buf.nrToken : Int) - 1)) (ls.map Lexeme.token) := by
  refine List.forall₂_iff_get.2 ⟨?_, fun i hi hi' => ?_⟩
  · rw [length_segment, List.length_map, hnr]
    omega
  · have hils : i < ls.length := by simpa using hi'
    have hget : (segment buf.tokens 0 ((buf.nrToken : Int) - 1))[i]? = some (buf.tokens i) := by
      rw [getElem?_segment (by omega)]
      simp
    rw [List.getElem?_eq_getElem hi, Option.some.injEq] at hget
    simp only [List.get_eq_getElem, hget, List.getElem_map]
    exact htokens i hils

theorem map_type_of_forall₂ {us ts : List Token}
    (h : List.Forall₂ (fun u t => SameToken t u) us ts) :
    us.map Token.type = ts.map Token.type := by
  rw [← List.forall₂_eq_eq_eq, List.forall₂_map_left_iff, List.forall₂_map_right_iff]
  exact h.imp fun _ _ hsame => hsame.1

/-- `expr` on the texts of a spelling evaluates a spelling of the same tree. -/
theorem expr_texts (cpu : CPUState) {e : Arith} {ls : List Lexeme}
    (he : Spells 0 e (ls.map Lexeme.token)) (hlen : ls.length ≤ tokensSize)
    (htext : ∀ x ∈ ls, x.text.length < tokenStrSize) (hnest : nesting 0 (ls.map Lexeme.type) < 100)
    (st : ExprState) :
    ∃ buf ts, Spells 0 e ts ∧
      expr cpu (texts ls) st = liftEval (evalSegment lifo cpu ts) { st with buf } := by
  have hspaceless := he.spaceless
  rw [Lexeme.map_token_type] at hspaceless
  have hgpr : ∀ x ∈ ls, x.type ≠ .tkGpr := by
    intro x hx
    rw [← x.token_type]
    exact he.no_gpr _ (List.mem_map_of_mem hx)
  -- an expression does not start with a multiplication
  have hstar : ∀ x ∈ ls.head?, x.type = .times →
      TokenBuf.starType { st.buf with nrToken := 0 } = .times := by
    intro x hx htimes
    rcases hspaceless.head with ⟨t, ht, hstart⟩
    rw [List.head?_map, Option.mem_def.1 hx] at ht
    cases ht
    exact absurd htimes hstart.ne_times
  rcases @makeTokenLoop_texts ls (texts ls).length { st.buf with nrToken := 0 }
    hspaceless.chain hgpr htext hstar (by simpa using hlen) (Nat.le_refl _) with
    ⟨buf, hrun, hnr, htokens⟩
  simp only [Nat.zero_add] at hnr htokens
  -- what the lexer stores and what the grammar speaks about differ in unread texts alone
  have hsegment := forall₂_segment hnr htokens
  have hspell := he.congr hsegment
  have hnest' : nesting 0 ((segment buf.tokens 0 ((buf.nrToken : Int) - 1)).map Token.type) < 100 := by
    rw [map_type_of_forall₂ hsegment, Lexeme.map_token_type]
    exact hnest
  refine ⟨buf, _, hspell, ?_⟩
  rw [expr_of_makeToken cpu hrun]
  simp only [liftEval, eval_of_nesting cpu buf.tokens 0 _ hnest']

end Nemu
