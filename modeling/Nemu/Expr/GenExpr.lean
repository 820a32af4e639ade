import Nemu.Expr.Grammar
import Nemu.Expr.Lexeme

/-!
# The expression generator

`gen_rand_expr` of `tools/gen-expr/gen-expr.c`, and the program that `main` builds around an
expression to get its value: `unsigned result = <expr>`, in the `int` arithmetic of C.

The generator knows nothing of precedence.  `GenRandExpr.spells` says that what it builds can
nevertheless be read as a C expression, and by `Spells.unique` in only one way.
-/

namespace Nemu

/-! ## Generation -/

/-- The choices of `gen_rand_op`. -/
def genRandOp : List Symbol := [.plus, .minus, .times, .divide]

/-- `GenRandExpr buf ls buf'`: one call can append the text of the lexemes `ls` and turn `buf` into
`buf'`.  The constructors are the cases of the `switch`, for every outcome of `choose`. -/
inductive GenRandExpr : List Char → List Lexeme → List Char → Prop where
  | num {buf num : List Char} {ne : num ≠ []} {all : ∀ c ∈ num, isDecDigit c = true} (n : Nat) :
      n < 100 → num = Nat.toDigits 10 n → GenRandExpr buf [.dec num ne all] (buf ++ num)
  | paren {buf buf' : List Char} {ls : List Lexeme} :
      GenRandExpr (buf ++ ['(']) ls buf' →
        GenRandExpr buf (.sym .lparen :: (ls ++ [.sym .rparen])) (buf' ++ [')'])
  | op {buf buf₁ buf₂ : List Char} {ls ls' : List Lexeme} {o : Symbol} :
      GenRandExpr buf ls buf₁ → o ∈ genRandOp → GenRandExpr (buf₁ ++ o.text) ls' buf₂ →
        GenRandExpr buf (ls ++ .sym o :: ls') buf₂

/-- The texts of lexemes with nothing between them. -/
def texts (ls : List Lexeme) : List Char := ls.flatMap Lexeme.text

@[simp] theorem texts_nil : texts [] = [] := rfl

@[simp] theorem texts_cons (x : Lexeme) (ls : List Lexeme) :
    texts (x :: ls) = x.text ++ texts ls := by
  simp [texts]

/-! ## Reading as a C expression -/

/-- The token of a lexeme. -/
def Lexeme.token : Lexeme → Token
  | .sym s => ⟨s.type, []⟩
  | x => ⟨x.type, x.text⟩

theorem Lexeme.token_type (x : Lexeme) : x.token.type = x.type := by
  cases x <;> rfl

theorem Lexeme.map_token_type (ls : List Lexeme) :
    (ls.map Lexeme.token).map Token.type = ls.map Lexeme.type := by
  rw [List.map_map]
  exact List.map_congr_left fun x _ => x.token_type

/-- An expression, an operator and a primary expression can be read as one expression: the
operator takes its place on the right spine of the tree. -/
theorem Spells.append_primary {k : Nat} {e p : Arith} {op : BinOp} {t : Token} {ts us : List Token}
    (h : Spells k e ts) (ht : t.type = op.type) (hk : k ≤ op.level) (hp : Spells 5 p us) :
    ∃ e', Spells k e' (ts ++ t :: us) := by
  have hlevel := op.level_le
  have hright : Spells (op.level + 1) p us := hp.lower (Nat.succ_le_succ hlevel)
  induction h with
  | dec _ _ _ | hex _ _ _ _ | paren _ _ _ _ =>
      exact absurd hk (by omega)
  | @bin op' t' a b ts₁ ts₂ ha ht' hb _ ihb =>
      rcases Nat.lt_or_eq_of_le hk with hlt | heq
      · -- the operator binds tighter than the root: it goes into the right operand
        rcases ihb hlt with ⟨b', hb'⟩
        refine ⟨.bin op' a b', ?_⟩
        rw [List.append_assoc, List.cons_append]
        exact .bin ha ht' hb'
      · refine ⟨.bin op (.bin op' a b) p, ?_⟩
        rw [heq]
        exact .bin (heq ▸ Spells.bin ha ht' hb) ht hright
  | @up k e ts h ih =>
      rcases Nat.lt_or_eq_of_le hk with hlt | heq
      · rcases ih hlt with ⟨e', he'⟩
        exact ⟨e', .up he'⟩
      · refine ⟨.bin op e p, ?_⟩
        rw [heq]
        exact .bin (heq ▸ Spells.up h) ht hright

/-- Primary expressions with operators between them, read without precedence. -/
inductive OperandChain : List Token → Prop where
  | one {e : Arith} {ts : List Token} : Spells 5 e ts → OperandChain ts
  | snoc {op : BinOp} {t : Token} {e : Arith} {ts us : List Token} :
      OperandChain ts → t.type = op.type → Spells 5 e us → OperandChain (ts ++ t :: us)

theorem OperandChain.spells {ts : List Token} (h : OperandChain ts) : ∃ e, Spells 0 e ts := by
  induction h with
  | one h => exact ⟨_, h.lower (Nat.zero_le 5)⟩
  | snoc _ ht hp ih =>
      rcases ih with ⟨e, he⟩
      exact he.append_primary ht (Nat.zero_le _) hp

theorem OperandChain.append {op : BinOp} {t : Token} {ts us : List Token} (h : OperandChain ts)
    (ht : t.type = op.type) (h' : OperandChain us) : OperandChain (ts ++ t :: us) := by
  induction h' with
  | one hp => exact .snoc h ht hp
  | @snoc op' t' e us₁ us₂ _ ht' hp ih =>
      have hassoc : ts ++ t :: (us₁ ++ t' :: us₂) = (ts ++ t :: us₁) ++ t' :: us₂ := by simp
      rw [hassoc]
      exact .snoc ih ht' hp

theorem genRandOp_type {o : Symbol} (h : o ∈ genRandOp) :
    ∃ op : BinOp, o.type = op.type ∧ (op = .add ∨ op = .sub ∨ op = .mul ∨ op = .div) := by
  simp only [genRandOp, List.mem_cons, List.not_mem_nil, or_false] at h
  rcases h with rfl | rfl | rfl | rfl
  · exact ⟨.add, rfl, by simp⟩
  · exact ⟨.sub, rfl, by simp⟩
  · exact ⟨.mul, rfl, by simp⟩
  · exact ⟨.div, rfl, by simp⟩

theorem GenRandExpr.operandChain {buf buf' : List Char} {ls : List Lexeme}
    (h : GenRandExpr buf ls buf') : OperandChain (ls.map Lexeme.token) := by
  induction h with
  | @num buf num hne hall n _ _ =>
      exact .one (.dec (t := ⟨.tkDecimal, num⟩) rfl hne hall)
  | paren _ ih =>
      rcases ih.spells with ⟨e, he⟩
      rw [List.map_cons, List.map_append]
      exact .one (.paren rfl he rfl)
  | op _ ho _ ih ih' =>
      rcases genRandOp_type ho with ⟨op, hop, -⟩
      rw [List.map_append, List.map_cons]
      exact @OperandChain.append op _ _ _ ih hop ih'

/-- What the generator builds is a C expression. -/
theorem GenRandExpr.spells {buf buf' : List Char} {ls : List Lexeme}
    (h : GenRandExpr buf ls buf') : ∃ e, Spells 0 e (ls.map Lexeme.token) :=
  h.operandChain.spells

/-! ## The value in C -/

/-- A result in `int`; outside its range the behaviour is undefined. -/
def cInt (v : Int) : Option Int :=
  if -2147483648 ≤ v ∧ v < 2147483648 then some v else none

/-- A literal of type `int`.  A leading 0 makes it octal. -/
def cLiteral (digits : List Char) : Option Int :=
  match digits with
  | '0' :: rest => if rest.all (fun c => decide (c < '8')) then cInt (numeral 8 rest) else none
  | digits => cInt (numeral 10 digits)

/-- The `int` operators that `gen_rand_op` appends; `none` where C leaves the behaviour
undefined, and for the other operators. -/
def BinOp.cApply : BinOp → Int → Int → Option Int
  | add, x, y => cInt (x + y)
  | sub, x, y => cInt (x - y)
  | mul, x, y => cInt (x * y)
  | div, x, y => if y = 0 then none else cInt (x.tdiv y)
  | _, _, _ => none

namespace Arith

/-- The value of the expression in the generated program, before the conversion to `unsigned`. -/
def cValue : Arith → Option Int
  | dec digits => cLiteral digits
  | hex digits => cInt (numeral 16 digits)
  | paren e => e.cValue
  | bin op a b =>
      match a.cValue, b.cValue with
      | some x, some y => op.cApply x y
      | _, _ => none

end Arith

end Nemu
