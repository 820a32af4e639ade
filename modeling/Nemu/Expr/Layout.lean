import Nemu.Expr.LexerWrites
import Nemu.Expr.Terms

/-!
# Lexing an expression with dereferences

A text of an expression is its lexemes with blanks anywhere between them.  `lexed` is what
`make_token` stores for it, each `*` with the type that the token before it gives.  On the pieces of
an expression, `lexed` finds all the unary stars exactly when each of them stands where the lexer
looks for one.
-/

namespace Nemu

open StateRules

/-! ## The tokens of a list of lexemes -/

/-- The type of a `*` behind a token of the given type, or at the start. -/
def starAfter : Option TokenType → TokenType
  | none => .deref
  | some t =>
      match t with
      | .lparen | .plus | .minus | .times | .divide | .tkEq | .tkUeq => .deref
      | _ => .times

def lexedToken (prev : Option TokenType) (x : Lexeme) : Token :=
  if x.type = .times then ⟨starAfter prev, []⟩ else x.token

def lexed (prev : Option TokenType) : List Lexeme → List Token
  | [] => []
  | x :: ls => lexedToken prev x :: lexed (some (lexedToken prev x).type) ls

theorem length_lexed (prev : Option TokenType) (ls : List Lexeme) :
    (lexed prev ls).length = ls.length := by
  induction ls generalizing prev with
  | nil => rfl
  | cons x ls ih => rw [lexed, List.length_cons, List.length_cons, ih]

/-! ## Unary stars -/

open TokenType

theorem starAfter_endsTerm {t : TokenType} (h : t.EndsTerm) : starAfter (some t) = .times := by
  rcases h with (rfl | rfl | rfl) | rfl <;> rfl

/-- Where a unary star can stand, the lexer sees it or the token before hides it. -/
theorem starAfter_opensTerm {t : TokenType} (h : t.OpensTerm) :
    starAfter (some t) = .deref ↔ ¬ (t = .tkAnd ∨ t = .tkOr ∨ t = .deref) := by
  rcases h with rfl | rfl | ⟨op, rfl⟩
  · simp [starAfter]
  · simp [starAfter]
  · cases op <;> simp [starAfter, BinOp.type]

/-- A lexeme that is not a `*` keeps its type. -/
theorem lexedToken_of_ne {x : Lexeme} (h : x.type ≠ .times) (prev : Option TokenType) :
    lexedToken prev x = x.token := if_neg h

theorem Lexeme.eq_times {x : Lexeme} (h : x.type = .times) : x = .sym .times := by
  cases x with
  | dec _ _ _ | hex _ _ _ | reg _ _ => cases h
  | sym s => cases s <;> first | rfl | cases h

theorem Lexeme.type_ne_deref (x : Lexeme) : x.type ≠ .deref := by
  cases x with
  | dec _ _ _ | hex _ _ _ | reg _ _ => simp [Lexeme.type]
  | sym s => cases s <;> simp [Lexeme.type, Symbol.type]

theorem Lexeme.type_ne_notype (x : Lexeme) : x.type ≠ .tkNotype := by
  cases x with
  | dec _ _ _ | hex _ _ _ | reg _ _ => simp [Lexeme.type]
  | sym s => cases s <;> simp [Lexeme.type, Symbol.type]

section Pieces

variable {u : Piece} {us : List Piece}

/-- With every unary star in sight the lexer stores the tokens that are meant. -/
theorem lexed_of_starsSeen (hmeets : ((u :: us).map Piece.type).IsChain Meets)
    (hseen : StarsSeen (u :: us)) :
    lexed (some u.type) (us.map Piece.lexeme) = us.map Piece.token := by
  induction us generalizing u with
  | nil => rfl
  | cons v us ih =>
      have hfirst : Meets u.type v.type := (List.isChain_cons_cons.1 hmeets).1
      have hstar : v.type = .deref → ¬ u.HidesStar := (List.isChain_cons_cons.1 hseen).1
      have hrest := ih (List.isChain_cons_cons.1 hmeets).2 (List.isChain_cons_cons.1 hseen).2
      have htoken : lexedToken (some u.type) v.lexeme = v.token := by
        cases v with
        | star =>
            have hafter := (starAfter_opensTerm (hfirst.deref rfl)).2 (hstar rfl)
            simp [lexedToken, Piece.lexeme, Lexeme.type, Symbol.type, Piece.token, hafter]
        | lex x =>
            by_cases hx : x.type = .times
            · obtain rfl := Lexeme.eq_times hx
              have hafter := starAfter_endsTerm (hfirst.times rfl)
              simp [lexedToken, Piece.lexeme, Lexeme.type, Symbol.type, Piece.token, Lexeme.token,
                hafter]
            · exact lexedToken_of_ne hx _
      rw [List.map_cons, List.map_cons, lexed, htoken, v.token_type, hrest]

/-- Whatever is no unary star is stored with its type.  `p` is the type that the piece before was
stored with. -/
theorem lexedToken_type {p : TokenType} {v : Piece} (hmeets : Meets u.type v.type)
    (hp : u.type.EndsTerm → p = u.type) (hv : v.type ≠ .deref) :
    (lexedToken (some p) v.lexeme).type = v.type := by
  cases v with
  | star => exact absurd rfl hv
  | lex x =>
      by_cases hx : x.type = .times
      · have hends := hmeets.times hx
        obtain rfl := Lexeme.eq_times hx
        rw [hp hends]
        simp [lexedToken, Piece.lexeme, Lexeme.type, Symbol.type, starAfter_endsTerm hends]
      · exact (congrArg Token.type (lexedToken_of_ne hx _)).trans x.token_type

theorem derefCount_lexed_le {p : TokenType} (hmeets : ((u :: us).map Piece.type).IsChain Meets)
    (hp : u.type.EndsTerm → p = u.type) :
    derefCount (lexed (some p) (us.map Piece.lexeme)) ≤ starCount us := by
  induction us generalizing u p with
  | nil => exact Nat.le_refl 0
  | cons v us ih =>
      have hfirst : Meets u.type v.type := (List.isChain_cons_cons.1 hmeets).1
      have hrest := @ih v (lexedToken (some p) v.lexeme).type (List.isChain_cons_cons.1 hmeets).2
        fun hends => lexedToken_type hfirst hp hends.ne_deref
      rw [List.map_cons, lexed, derefCount_cons, starCount_cons]
      by_cases hv : v.type = .deref
      · rw [if_pos hv]
        split <;> omega
      · rw [if_neg hv, if_neg (by rw [lexedToken_type hfirst hp hv]; exact hv)]
        exact hrest

/-- If as many dereferences are stored as are meant, each unary star is in sight. -/
theorem starsSeen_of_derefCount (hmeets : ((u :: us).map Piece.type).IsChain Meets)
    (hcount : starCount us ≤ derefCount (lexed (some u.type) (us.map Piece.lexeme))) :
    StarsSeen (u :: us) := by
  induction us generalizing u with
  | nil => exact .singleton u
  | cons v us ih =>
      have hfirst : Meets u.type v.type := (List.isChain_cons_cons.1 hmeets).1
      have hmeets' := (List.isChain_cons_cons.1 hmeets).2
      rw [List.map_cons, lexed, derefCount_cons, starCount_cons] at hcount
      by_cases hv : v.type = .deref
      · -- the rest makes up for no star that is missed here
        have hrest := @derefCount_lexed_le v us (lexedToken (some u.type) v.lexeme).type hmeets'
          fun hends => absurd hv hends.ne_deref
        have htype : (lexedToken (some u.type) v.lexeme).type = .deref := by
          by_contra hne
          rw [if_pos hv, if_neg hne] at hcount
          omega
        rw [if_pos hv, if_pos htype, htype, ← hv] at hcount
        have hlexeme : v.lexeme = .sym .times := by
          cases v with
          | star => rfl
          | lex x => exact absurd hv x.type_ne_deref
        have hafter : starAfter (some u.type) = .deref := by
          rwa [hlexeme] at htype
        have hseen := (starAfter_opensTerm (hfirst.deref hv)).1 hafter
        exact List.isChain_cons_cons.2 ⟨fun _ => hseen, ih hmeets' (by omega)⟩
      · have htype := lexedToken_type hfirst (fun _ => rfl) hv
        rw [if_neg hv, if_neg (by rw [htype]; exact hv), htype] at hcount
        exact List.isChain_cons_cons.2 ⟨fun hderef => absurd hderef hv, ih hmeets' hcount⟩

end Pieces

section Expression

variable {k : Nat} {e : Term} {us : List Piece}

/-- The first lexeme of an expression: a `*` is a unary one there. -/
theorem Spelled.lexed_start (h : Spelled k e us) :
    ∃ u vs, us = u :: vs ∧ lexed none (us.map Piece.lexeme) =
      u.token :: lexed (some u.type) (vs.map Piece.lexeme) := by
  cases us with
  | nil => exact absurd rfl h.ne_nil
  | cons u vs =>
      refine ⟨u, vs, rfl, ?_⟩
      rcases h.linked.head with ⟨t, ht, hstart⟩
      have htype : u.type = t := Option.some.inj ht
      have htoken : lexedToken none u.lexeme = u.token := by
        cases u with
        | star => rfl
        | lex x =>
            have hne : x.type ≠ .times := fun hx => hstart.ne_times (htype.symm.trans hx)
            exact lexedToken_of_ne hne none
      rw [List.map_cons, lexed, htoken, u.token_type]

theorem Spelled.lexed_of_starsSeen (h : Spelled k e us) (hseen : StarsSeen us) :
    lexed none (us.map Piece.lexeme) = us.map Piece.token := by
  rcases h.lexed_start with ⟨u, vs, rfl, hlexed⟩
  rw [hlexed, Nemu.lexed_of_starsSeen h.linked.chain hseen, List.map_cons]

theorem Spelled.starsSeen_of_derefCount (h : Spelled k e us)
    (hcount : starCount us ≤ derefCount (lexed none (us.map Piece.lexeme))) : StarsSeen us := by
  rcases h.lexed_start with ⟨u, vs, rfl, hlexed⟩
  rw [hlexed, starCount_cons, derefCount_cons, u.token_type] at hcount
  exact Nemu.starsSeen_of_derefCount h.linked.chain (by omega)

end Expression

/-! ## Texts -/

/-- `s` is the text of the lexemes with blanks anywhere between them.  The rule for registers takes
all that is up to the last of its closing characters, so that none of them may follow. -/
inductive Laid : List Lexeme → List Char → Prop where
  | done (n : Nat) : Laid [] (List.replicate n ' ')
  | step (n : Nat) {x : Lexeme} {ls : List Lexeme} {s : List Char} :
      (x.type = .tkGpr → ∀ c ∈ s, isGprLast c = false) → Laid ls s →
        Laid (x :: ls) (List.replicate n ' ' ++ (x.text ++ s))

/-- Without registers the lexemes can follow one another without blanks. -/
theorem Laid.of_texts {ls : List Lexeme} (h : ∀ x ∈ ls, x.type ≠ .tkGpr) : Laid ls (texts ls) := by
  induction ls with
  | nil => exact .done 0
  | cons x ls ih =>
      rcases List.forall_mem_cons.1 h with ⟨hx, hls⟩
      rw [texts_cons]
      exact .step 0 (fun hgpr => absurd hgpr hx) (ih hls)

/-- Behind a lexeme of an expression the text does not continue it. -/
theorem Laid.delimits {x : Lexeme} {ls : List Lexeme} {s : List Char}
    (hgpr : x.type = .tkGpr → ∀ c ∈ s, isGprLast c = false) (hlaid : Laid ls s)
    (hnext : ∀ y ∈ ls.head?, x.type.IsText → ¬ y.type.IsText) : x.Delimits s := by
  cases hlaid with
  | done n =>
      cases n with
      | zero => exact x.delimits_nil
      | succ n =>
          cases x with
          | sym _ => trivial
          | reg _ _ => exact hgpr rfl
          | dec _ _ _ | hex _ _ _ => rfl
  | @step n y ls s hy hlaid =>
      -- a literal is followed by a blank or a symbol
      cases x with
      | sym _ => trivial
      | reg _ _ => exact hgpr rfl
      | dec _ _ _ =>
          obtain ⟨z, rfl⟩ := Lexeme.eq_sym (hnext y rfl (Or.inl rfl))
          cases n with
          | zero => exact (z.head?_text s).1
          | succ n => rfl
      | hex _ _ _ =>
          obtain ⟨z, rfl⟩ := Lexeme.eq_sym (hnext y rfl (Or.inr (Or.inl rfl)))
          cases n with
          | zero => exact (z.head?_text s).2
          | succ n => rfl

namespace TokenBuf

/-- The type of the last token, if there is one. -/
def lastType (buf : TokenBuf) : Option TokenType :=
  if buf.nrToken = 0 then none else some (buf.tokens (buf.nrToken - 1)).type

theorem starType_lastType (buf : TokenBuf) : buf.starType = starAfter buf.lastType := by
  unfold starType lastType
  by_cases h : buf.nrToken = 0
  · rw [if_pos h, if_pos h]
    rfl
  · rw [if_neg h, if_neg h]
    rfl

/-- A lexeme is stored as the token before it says. -/
theorem add_lexedToken (buf : TokenBuf) (x : Lexeme) :
    SameToken (lexedToken buf.lastType x) ((buf.add x).tokens buf.nrToken) := by
  by_cases hx : x.type = .times
  · obtain rfl := Lexeme.eq_times hx
    have hstar : lexedToken buf.lastType (.sym .times) = ⟨buf.starType, []⟩ := by
      rw [starType_lastType]
      rfl
    rw [hstar]
    refine ⟨buf.add_times, fun htext => ?_⟩
    rcases buf.starType_cases with h | h <;> rw [h] at htext <;> simp [IsText] at htext
  · rw [lexedToken_of_ne hx]
    exact buf.add_sameToken x fun htimes => absurd htimes hx

theorem lastType_add (buf : TokenBuf) (x : Lexeme) :
    (buf.add x).lastType = some (lexedToken buf.lastType x).type := by
  have hnr := buf.add_nrToken x
  have hpos : (buf.add x).nrToken ≠ 0 := by omega
  have hlast : (buf.add x).nrToken - 1 = buf.nrToken := by omega
  rw [lastType, if_neg hpos, hlast, (buf.add_lexedToken x).1]

end TokenBuf

/-! ## Running the lexer -/

section Loop

variable {fuel : Nat} {buf : TokenBuf}

/-- Blanks are skipped. -/
theorem makeTokenLoop_blanks (n : Nat) {s : List Char} (hs : s.head? ≠ some ' ')
    (hfuel : (List.replicate n ' ' ++ s).length ≤ fuel)
    (hfits : FitsFrom buf.nrToken (matchesFrom fuel (List.replicate n ' ' ++ s))) :
    ∃ fuel' buf', makeTokenLoop fuel (List.replicate n ' ' ++ s) buf = makeTokenLoop fuel' s buf' ∧
      s.length ≤ fuel' ∧ FitsFrom buf'.nrToken (matchesFrom fuel' s) ∧
      buf'.nrToken = buf.nrToken ∧ buf'.lastType = buf.lastType := by
  cases n with
  | zero => exact ⟨fuel, buf, rfl, hfuel, hfits, rfl, rfl⟩
  | succ n =>
      have hne : List.replicate (n + 1) ' ' ++ s ≠ [] := by simp [List.replicate_succ]
      have hm := matchRule_blanks n hs
      have hdrop : (List.replicate (n + 1) ' ' ++ s).drop (n + 1) = s := by simp
      rw [List.length_append, List.length_replicate] at hfuel
      obtain ⟨f, rfl⟩ : ∃ f, fuel = f + 1 := ⟨fuel - 1, by omega⟩
      rcases (fitsFrom_match hne hm).1 hfits with ⟨⟨hnr, hlen⟩, hrest⟩
      rw [hdrop] at hrest
      refine ⟨f, buf.setType .tkNotype, ?_, by omega, hrest, rfl, ?_⟩
      · rw [makeTokenLoop_match hne hm hnr hlen, hdrop]
        rfl
      · unfold TokenBuf.lastType
        by_cases h : buf.nrToken = 0
        · rw [TokenBuf.setType_nrToken, if_pos h, if_pos h]
        · rw [TokenBuf.setType_nrToken, if_neg h, if_neg h,
            TokenBuf.setType_of_ne buf _ (by omega)]

/-- A lexeme that fits is stored, and what is behind it fits as well. -/
theorem makeTokenLoop_next (x : Lexeme) {s : List Char} (hdelim : x.Delimits s)
    (hfits : FitsFrom buf.nrToken (matchesFrom (fuel + 1) (x.text ++ s))) :
    makeTokenLoop (fuel + 1) (x.text ++ s) buf = makeTokenLoop fuel s (buf.add x) ∧
      FitsFrom (buf.add x).nrToken (matchesFrom fuel s) := by
  have hne : x.text ++ s ≠ [] := by simp [x.text_ne_nil]
  have htake : (x.text ++ s).take x.text.length = x.text := by simp
  have hdrop : (x.text ++ s).drop x.text.length = s := by simp
  rcases (fitsFrom_match hne (matchRule_lexeme x hdelim)).1 hfits with ⟨⟨hnr, hlen⟩, hrest⟩
  rw [htake] at hlen
  rw [hdrop, if_neg x.type_ne_notype, ← buf.add_nrToken] at hrest
  exact ⟨makeTokenLoop_lexeme x hdelim hnr hlen, hrest⟩

/-- The lexer stores `lexed` for a text that fits into its arrays. -/
theorem makeTokenLoop_laid {ls : List Lexeme} {s : List Char} (hlaid : Laid ls s)
    (hchain : (ls.map Lexeme.type).IsChain fun t u => t.IsText → ¬ u.IsText)
    (hfuel : s.length ≤ fuel) (hfits : FitsFrom buf.nrToken (matchesFrom fuel s)) :
    ∃ buf', makeTokenLoop fuel s buf = .ok true buf' ∧ buf'.nrToken = buf.nrToken + ls.length ∧
      ∀ j t, (lexed buf.lastType ls)[j]? = some t →
        SameToken t (buf'.tokens (buf.nrToken + j)) := by
  induction hlaid generalizing fuel buf with
  | done n =>
      rcases makeTokenLoop_blanks n (s := []) (by simp) (by simpa using hfuel)
        (by simpa using hfits) with ⟨f, buf', hrun, -, -, hnr, -⟩
      rw [List.append_nil] at hrun
      refine ⟨buf', ?_, hnr, fun j t ht => ?_⟩
      · rw [hrun]
        cases f <;> rfl
      · cases ht
  | @step n x ls s hgpr hlaid ih =>
      have hhead : (x.text ++ s).head? ≠ some ' ' := by
        rw [List.head?_append_of_ne_nil _ x.text_ne_nil]
        exact x.head?_text
      rcases makeTokenLoop_blanks n hhead hfuel hfits with
        ⟨f, buf₁, hrun₁, hfuel₁, hfits₁, hnr₁, hlast₁⟩
      rw [List.map_cons, List.isChain_cons] at hchain
      have hpos := List.length_pos_iff.2 x.text_ne_nil
      rw [List.length_append] at hfuel₁
      obtain ⟨f, rfl⟩ : ∃ f', f = f' + 1 := ⟨f - 1, by omega⟩
      have hnext : ∀ y ∈ ls.head?, x.type.IsText → ¬ y.type.IsText := by
        intro y hy
        refine hchain.1 y.type ?_
        rw [List.head?_map, Option.mem_def.1 hy]
        rfl
      have hdelim := Laid.delimits hgpr hlaid hnext
      -- the blanks, the lexeme, and then the rest
      have hnr₂ := buf₁.add_nrToken x
      rcases makeTokenLoop_next x hdelim hfits₁ with ⟨hrun₂, hfits₂⟩
      rcases ih hchain.2 (by omega) hfits₂ with ⟨buf', hrun, hnr', htokens⟩
      refine ⟨buf', ?_, ?_, ?_⟩
      · exact (hrun₁.trans hrun₂).trans hrun
      · rw [hnr', hnr₂, hnr₁, List.length_cons]
        omega
      · intro j t ht
        rw [← hlast₁, lexed] at ht
        rw [← hnr₁]
        cases j with
        | zero =>
            cases ht
            rw [Nat.add_zero, (makeTokenLoop_frame hrun).2 buf₁.nrToken (by omega)]
            exact buf₁.add_lexedToken x
        | succ j =>
            rw [List.getElem?_cons_succ, ← TokenBuf.lastType_add] at ht
            have hidx : (buf₁.add x).nrToken + j = buf₁.nrToken + (j + 1) := by omega
            have hrest := htokens j t ht
            rwa [hidx] at hrest

end Loop

/-- Of a text that fits into its arrays, `make_token` stores the tokens that the lexer makes of its
lexemes, and it returns on no other one. -/
theorem makeToken_laid {ls : List Lexeme} {s : List Char} (hlaid : Laid ls s)
    (hchain : (ls.map Lexeme.type).IsChain fun t u => t.IsText → ¬ u.IsText)
    (hfits : FitsArrays (ruleMatches s)) (buf : TokenBuf) :
    ∃ buf', makeToken s buf = .ok true buf' ∧
      List.Forall₂ SameToken (lexed none ls) buf'.stored := by
  have hempty : TokenBuf.lastType { buf with nrToken := 0 } = none := rfl
  rcases @makeTokenLoop_laid _ { buf with nrToken := 0 } _ _ hlaid hchain (Nat.le_refl _)
    ((fitsFrom_zero _).2 hfits) with ⟨buf', hrun, hnr, htokens⟩
  rw [hempty] at htokens
  simp only [Nat.zero_add] at hnr htokens
  refine ⟨buf', hrun, List.forall₂_iff_get.2 ⟨?_, fun i hi hi' => ?_⟩⟩
  · rw [TokenBuf.stored_eq, List.length_map, List.length_range, length_lexed, hnr]
  · have hget := htokens i _ (List.getElem?_eq_getElem hi)
    simpa [TokenBuf.stored_eq] using hget

theorem makeToken_ok_fits {s : List Char} {buf buf' : TokenBuf} {b : Bool}
    (h : makeToken s buf = .ok b buf') : FitsArrays (ruleMatches s) :=
  (fitsFrom_zero _).1 (@makeTokenLoop_ok_fits _ _ { buf with nrToken := 0 } _ _ h)

end Nemu
