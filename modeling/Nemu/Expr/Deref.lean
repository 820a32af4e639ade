import Nemu.Expr.Layout
import Nemu.Expr.TermRuns

/-!
# Dereferences in expr

Whether `expr` evaluates an expression to its meaning, with one guest read for each unary `*`.  The
lexer looks at the token before a `*` and knows all the places of a unary one but those behind `&&`,
`||` and another unary `*`; there it stores a multiplication, and a read is missing.
-/

namespace Nemu

open StateRules

/-- The guest addresses that `expr` reads. -/
def guestReads (cpu : CPUState) (e : List Char) (st : ExprState) : List Word :=
  (final (exprReads cpu e { state := st, events := [] })).events

/-- `expr` returns the value of the reading, leaves its flag and makes its reads, with the machine
left alone. -/
def EvaluatesTo (cpu : CPUState) (e : List Char) (st : ExprState) (r : Reading) : Prop :=
  guestReads cpu e st = r.reads ∧
    ∃ st', expr cpu e st = .ok r.value st' ∧ st'.eval.success = r.success ∧
      st'.eval.bus = st.eval.bus

section Run

variable {cpu : CPUState} {text : List Char} {st : ExprState} {r : Reading}

/-- The run with its reads is the run and its reads. -/
theorem evaluatesTo_iff : EvaluatesTo cpu text st r ↔
    ∃ st', exprReads cpu text ⟨st, []⟩ = .ok r.value ⟨st', r.reads⟩ ∧
      st'.eval.success = r.success ∧ st'.eval.bus = st.eval.bus := by
  rcases exprReads_records cpu text ⟨st, []⟩ with ⟨events, -, hrun⟩
  rw [List.nil_append] at hrun
  unfold EvaluatesTo guestReads
  rw [hrun, final_withEvents]
  constructor
  · rintro ⟨rfl, st', hexpr, hst'⟩
    refine ⟨st', ?_, hst'⟩
    rw [hexpr]
    rfl
  · rintro ⟨st', hwith, hst'⟩
    cases hexpr : expr cpu text st with
    | ok v s =>
        rw [hexpr] at hwith
        cases hwith
        exact ⟨rfl, st', rfl, hst'⟩
    | error f s =>
        rw [hexpr] at hwith
        cases hwith

end Run

section Expression

variable {e : Term} {us : List Piece}

/-- No two literals or registers stand side by side. -/
theorem Spelled.chain_text {k : Nat} (h : Spelled k e us) :
    ((us.map Piece.lexeme).map Lexeme.type).IsChain fun t u => t.IsText → ¬ u.IsText := by
  have htext : ∀ u : Piece, u.lexeme.type.IsText → u.type.IsText := by
    intro u hu
    cases u with
    | star => exact absurd hu (Lexeme.sym_not_isText .times)
    | lex x => exact hu
  have hchain := (List.isChain_map _).1 h.linked.chain
  rw [List.isChain_map, List.isChain_map]
  exact hchain.imp fun u v hmeets hu hv => hmeets.text (htext u hu) (htext v hv)

variable {text : List Char}

/-- What `expr` does with a text that it lexes. -/
theorem exprReads_laid (cpu : CPUState) {k : Nat} (h : Spelled k e us)
    (hlaid : Laid (us.map Piece.lexeme) text) (hfits : FitsArrays (ruleMatches text))
    (st : ExprState) :
    ∃ buf, exprReads cpu text ⟨st, []⟩ =
      liftReads (evalReads codeStack cpu (lexed none (us.map Piece.lexeme))) ⟨{ st with buf }, []⟩ := by
  rcases makeToken_laid hlaid h.chain_text hfits st.buf with ⟨buf, hrun, hstored⟩
  refine ⟨buf, ?_⟩
  rw [exprReads_of_stored (s := ⟨st, []⟩) hrun, evalReads_congr codeStack cpu hstored]

variable {cpu : CPUState} {k : Nat} {st : ExprState}

/-- With every star in sight and room for the text, the meaning is what comes out. -/
theorem Spelled.evaluatesTo (h : Spelled k e us) (hlaid : Laid (us.map Piece.lexeme) text)
    (hin : ∀ a ∈ (e.reading cpu st.eval.bus.guestWord st.eval.success).reads,
      mapInside st.eval.bus.pmemMap a = true)
    (hseen : StarsSeen us) (hfits : FitsArrays (ruleMatches text))
    (hnest : nesting 0 (us.map Piece.type) < stackInitSize) :
    EvaluatesTo cpu text st (e.reading cpu st.eval.bus.guestWord st.eval.success) := by
  rcases exprReads_laid cpu h hlaid hfits st with ⟨buf, hreads⟩
  rcases h.gives hseen hin st.eval.messages [] with ⟨messages, hrun⟩
  rw [← Piece.map_token_type] at hnest
  rw [evaluatesTo_iff, hreads, h.lexed_of_starsSeen hseen, evalReads_of_nesting cpu hnest]
  exact ⟨_, liftReads_eq_ok.2 ⟨_, hrun, rfl⟩, rfl, rfl⟩

/-- One read for each star is meant, and one for each stored dereference can be made. -/
theorem Spelled.starsSeen_of_run (h : Spelled k e us) {mem : Word → Word} {w v : Word}
    {s u : Recording EvalState Word} (hs : s.events = [])
    (hrun : evalReads codeStack cpu (lexed none (us.map Piece.lexeme)) s = .ok v u)
    (hevents : u.events = (e.reading cpu mem w).reads) : StarsSeen us := by
  have hmost := (evalReads_atMost codeStack cpu _).length_le hrun
  have hmeant := Term.length_reads cpu mem e w
  rw [hevents, hmeant, hs, List.length_nil, Nat.zero_add, ← h.starCount_eq] at hmost
  exact h.starsSeen_of_derefCount hmost

/-- If the meaning comes out, every star was in sight and there was room. -/
theorem Spelled.fits_of_evaluatesTo (h : Spelled k e us) (hlaid : Laid (us.map Piece.lexeme) text)
    (heval : EvaluatesTo cpu text st (e.reading cpu st.eval.bus.guestWord st.eval.success)) :
    StarsSeen us ∧ FitsArrays (ruleMatches text) ∧
      nesting 0 (us.map Piece.type) < stackInitSize := by
  have hfits : FitsArrays (ruleMatches text) := by
    rcases heval.2 with ⟨st', hexpr, -⟩
    rcases expr_ok_makeToken hexpr with ⟨b, buf, hrun⟩
    exact makeToken_ok_fits hrun
  rcases exprReads_laid cpu h hlaid hfits st with ⟨buf, hreads⟩
  rcases evaluatesTo_iff.1 heval with ⟨st', hrun, -⟩
  rw [hreads] at hrun
  rcases liftReads_eq_ok.1 hrun with ⟨u, hrun', hu⟩
  have hevents := congrArg Recording.events hu
  have hseen := h.starsSeen_of_run rfl hrun' hevents.symm
  rw [h.lexed_of_starsSeen hseen] at hrun'
  exact ⟨hseen, hfits, h.nesting_of_ok hseen hrun'⟩

end Expression

/-- An expression is evaluated to its meaning, with a guest read for each of its dereferences,
exactly when no unary `*` stands behind `&&`, `||` or another unary `*` and the text fits into the
arrays of the lexer and the stack of the bracket test. -/
theorem expr_reads_iff (cpu : CPUState) {e : Term} {us : List Piece} {text : List Char}
    (h : Spelled 0 e us) (hlaid : Laid (us.map Piece.lexeme) text) (st : ExprState)
    (hin : ∀ a ∈ (e.reading cpu st.eval.bus.guestWord st.eval.success).reads,
      mapInside st.eval.bus.pmemMap a = true) :
    EvaluatesTo cpu text st (e.reading cpu st.eval.bus.guestWord st.eval.success) ↔
      StarsSeen us ∧ FitsArrays (ruleMatches text) ∧ nesting 0 (us.map Piece.type) < 100 :=
  ⟨h.fits_of_evaluatesTo hlaid,
    fun ⟨hseen, hfits, hnest⟩ => h.evaluatesTo hlaid hin hseen hfits hnest⟩

section Zero

def zeroDigit : Piece := .lex (.dec ['0'] (by decide) (List.all_eq_true.1 rfl))

theorem spelled_zero : Spelled 6 (.dec ['0']) [zeroDigit] :=
  .dec ['0'] (by decide) (List.all_eq_true.1 rfl)

/-- The first 128 MiB are inside. -/
theorem mapInside_zero {addr : Word} (h : addr.toNat < 134217728) :
    mapInside (registerPmem 0) addr = true := by
  have haddr : addr - 0 = addr := BitVec.sub_zero addr
  exact (mapInside_registerPmem (by decide)).2 (by rw [haddr, pmemSize_eq]; exact h)

/-- `0+*0` is a sum with one read. -/
theorem expr_reads_iff_sum :
    EvaluatesTo .zero ['0', '+', '*', '0'] ⟨.zero, .start .zero⟩ ⟨0, 1, [0]⟩ := by
  have hspelled : Spelled 0 (.bin .add (.dec ['0']) (.deref (.dec ['0'])))
      [zeroDigit, .lex (.sym .plus), .star, zeroDigit] :=
    (@Spelled.bin .add _ _ _ _ spelled_zero.up.up.up (Spelled.deref spelled_zero.up).up).up.up.up
  have hlaid := @Laid.of_texts [zeroDigit.lexeme, .sym .plus, .sym .times, zeroDigit.lexeme]
    (by decide)
  have hin : ∀ a ∈ [(0 : Word)], mapInside (registerPmem 0) a = true := by
    intro a ha
    rw [List.mem_singleton.1 ha]
    exact mapInside_zero (by decide)
  exact (expr_reads_iff .zero hspelled hlaid ⟨.zero, .start .zero⟩ hin).2
    ⟨by decide, by decide +kernel, by decide⟩

/-- A machine whose `pmem` holds ones. -/
def onesState : ExprState := ⟨.zero, .start { Bus.zero with pmem := fun _ => 1 }⟩

/-- `**0` over a `pmem` of ones means the word at 0x01010101, and this is not what `expr` returns. -/
theorem expr_misses_star :
    (Term.deref (.deref (.dec ['0']))).reading .zero onesState.eval.bus.guestWord 1 =
      ⟨0x01010101, 1, [0, 0x01010101]⟩ ∧
    (∀ a ∈ [(0 : Word), 0x01010101], mapInside onesState.eval.bus.pmemMap a = true) ∧
    ¬ EvaluatesTo .zero ['*', '*', '0'] onesState ⟨0x01010101, 1, [0, 0x01010101]⟩ := by
  have hspelled : Spelled 0 (.deref (.deref (.dec ['0']))) [.star, .star, zeroDigit] :=
    (Spelled.deref (Spelled.deref spelled_zero.up)).up.up.up.up.up
  have hlaid := @Laid.of_texts [.sym .times, .sym .times, zeroDigit.lexeme] (by decide)
  have hreading : (Term.deref (.deref (.dec ['0']))).reading .zero onesState.eval.bus.guestWord 1 =
      ⟨0x01010101, 1, [0, 0x01010101]⟩ := by
    rfl
  refine ⟨hreading, fun a ha => ?_, fun heval => ?_⟩
  · simp only [List.mem_cons, List.not_mem_nil, or_false] at ha
    rcases ha with rfl | rfl
    · exact mapInside_zero (by decide)
    · exact mapInside_zero (by decide)
  · have hseen := (hspelled.fits_of_evaluatesTo hlaid (hreading ▸ heval)).1
    exact absurd hseen (by decide)

end Zero

end Nemu
