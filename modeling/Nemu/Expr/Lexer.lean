import Nemu.Expr.Eval
import Nemu.Lib.Ere

/-!
# The lexer

The rule table and `make_token` of `src/monitor/debug/expr.c`, and `expr` over it.  A rule's
pattern is the syntax tree of its regular expression; `regexec` is the leftmost-longest search of
`Nemu.Lib.Ere`.
-/

namespace Nemu

open Ere StateRules

/-! ## Rules -/

structure Rule where
  regex : Pattern Char
  tokenType : TokenType

/-- The bracket expression at the end of the rule for registers; its commas are members. -/
def isGprLast (c : Char) : Bool :=
  c == 'x' || c == ',' || c == 'p' || c == 'i' || c == 'l' || c == 'h'

def isGprFirst (c : Char) : Bool :=
  c == 'e' || c == ',' || c == 'a' || c == 'b' || c == 'c' || c == 'd' || c == 's'

/-- `.*?` is an optional `.*`: in an extended expression `?` does not make the star lazy. -/
def gprRegex : Pattern Char :=
  .seq (.one (· == '$')) (.seq (.one isGprFirst)
    (.seq (Pattern.opt (.star (.one fun _ => true))) (.one isGprLast)))

def hexRegex : Pattern Char :=
  .seq (.one (· == '0')) (.seq (.one (· == 'x')) (Pattern.plus (.one isLowerHexDigit)))

def rules : List Rule :=
  [⟨Pattern.plus (.one (· == ' ')), .tkNotype⟩,
    ⟨hexRegex, .tkHexadecimal⟩,
    ⟨gprRegex, .tkGpr⟩,
    ⟨Pattern.text ['+'], .plus⟩,
    ⟨Pattern.text ['-'], .minus⟩,
    ⟨Pattern.text ['*'], .times⟩,
    ⟨Pattern.text ['/'], .divide⟩,
    ⟨Pattern.text ['('], .lparen⟩,
    ⟨Pattern.text [')'], .rparen⟩,
    ⟨Pattern.text ['['], .lbracket⟩,
    ⟨Pattern.text [']'], .rbracket⟩,
    ⟨Pattern.text ['{'], .lbrace⟩,
    ⟨Pattern.text ['}'], .rbrace⟩,
    ⟨Pattern.text ['=', '='], .tkEq⟩,
    ⟨Pattern.text ['!', '='], .tkUeq⟩,
    ⟨Pattern.plus (.one isDecDigit), .tkDecimal⟩,
    ⟨Pattern.text ['&', '&'], .tkAnd⟩,
    ⟨Pattern.text ['|', '|'], .tkOr⟩]

/-- The rule at which the `for` loop stops, with `substr_len`: the first one whose match starts at
the current position. -/
def matchRule (s : List Char) : Option (TokenType × Nat) :=
  rules.findSome? fun rule =>
    match search rule.regex s with
    | some (0, rmEo) => some (rule.tokenType, rmEo)
    | _ => none

/-! ## make_token -/

abbrev OnTokens := EStateM Fault TokenBuf

def tokensSize : Nat := 512

/-- The size of `token_str` and of a token's `str`. -/
def tokenStrSize : Nat := 32

namespace TokenBuf

/-- `tokens[nr_token].type = type` -/
def setType (buf : TokenBuf) (type : TokenType) : TokenBuf :=
  { buf with
    tokens := fun i => if i = buf.nrToken then { buf.tokens i with type } else buf.tokens i }

def setStr (buf : TokenBuf) (str : List Char) : TokenBuf :=
  { buf with
    tokens := fun i => if i = buf.nrToken then { buf.tokens i with str } else buf.tokens i }

/-- `nr_token += 1` -/
def next (buf : TokenBuf) : TokenBuf := { buf with nrToken := buf.nrToken + 1 }

/-- A `*` is a dereference at the start and after the tokens that are tested for here. -/
def starType (buf : TokenBuf) : TokenType :=
  if buf.nrToken = 0 then .deref
  else
    match (buf.tokens (buf.nrToken - 1)).type with
    | .lparen | .plus | .minus | .times | .divide | .tkEq | .tkUeq => .deref
    | _ => .times

section Fields

variable (buf : TokenBuf) (type : TokenType) (str : List Char) {i : Nat}

@[simp] theorem setType_nrToken : (buf.setType type).nrToken = buf.nrToken := rfl

@[simp] theorem setStr_nrToken : (buf.setStr str).nrToken = buf.nrToken := rfl

@[simp] theorem next_nrToken : buf.next.nrToken = buf.nrToken + 1 := rfl

@[simp] theorem next_tokens : buf.next.tokens = buf.tokens := rfl

@[simp] theorem setType_self :
    (buf.setType type).tokens buf.nrToken = { buf.tokens buf.nrToken with type } := by
  simp [setType]

@[simp] theorem setStr_self :
    (buf.setStr str).tokens buf.nrToken = { buf.tokens buf.nrToken with str } := by
  simp [setStr]

theorem setType_of_ne (h : i ≠ buf.nrToken) : (buf.setType type).tokens i = buf.tokens i := by
  simp [setType, h]

theorem setStr_of_ne (h : i ≠ buf.nrToken) : (buf.setStr str).tokens i = buf.tokens i := by
  simp [setStr, h]

/-- The type of a `*` depends on the token before it alone. -/
@[simp] theorem starType_setType : (buf.setType type).starType = buf.starType := by
  by_cases h : buf.nrToken = 0
  · simp [starType, h]
  · simp [starType, h, setType_of_ne buf type (i := buf.nrToken - 1) (by omega)]

end Fields

/-- The `switch` on the type of the rule, `token_str` being the text matched. -/
def record (buf : TokenBuf) (type : TokenType) (tokenStr : List Char) : TokenBuf :=
  match type with
  | .tkNotype | .null | .deref => buf
  | .times => (buf.setType buf.starType).next
  | .tkGpr | .tkHexadecimal | .tkDecimal => (buf.setStr tokenStr).next
  | _ => buf.next

end TokenBuf

/-- The body of the `for` loop at the rule that matches.  A text of 32 characters runs out of
`token_str`, and a 513th token out of the array. -/
def addToken (type : TokenType) (substr : List Char) : OnTokens Unit := do
  let buf ← get
  if tokensSize ≤ buf.nrToken then
    throw .bounds
  else if tokenStrSize ≤ substr.length then
    throw .bounds
  else
    set ((buf.setType type).record type substr)

/-- The `while` loop; the list holds `e` from `position` on.  Every match takes a character, so
the length of `e` is fuel enough. -/
def makeTokenLoop : Nat → List Char → OnTokens Bool
  | _, [] => return true
  | 0, _ :: _ => throw .diverge
  | fuel + 1, c :: s =>
      match matchRule (c :: s) with
      | some (type, substrLen) => do
          addToken type ((c :: s).take substrLen)
          makeTokenLoop fuel ((c :: s).drop substrLen)
      | none => return false

def makeToken (e : List Char) : OnTokens Bool := do
  modify fun buf => { buf with nrToken := 0 }
  makeTokenLoop e.length e

/-! ## expr -/

/-- What `expr` works on: the statics of `expr.c`, and what an evaluation works on. -/
structure ExprState where
  buf : TokenBuf
  eval : EvalState

abbrev OnExpr := EStateM Fault ExprState

def liftTokens {α : Type} (x : OnTokens α) : OnExpr α := fun s =>
  match x s.buf with
  | .ok a buf => .ok a { s with buf }
  | .error e buf => .error e { s with buf }

theorem final_liftTokens {α : Type} (x : OnTokens α) (s : ExprState) :
    final (liftTokens x s) = { s with buf := final (x s.buf) } := by
  unfold liftTokens
  cases x s.buf <;> rfl

def liftEval {α : Type} (x : OnEval α) : OnExpr α := fun s =>
  match x s.eval with
  | .ok a eval => .ok a { s with eval }
  | .error e eval => .error e { s with eval }

theorem final_liftEval {α : Type} (x : OnEval α) (s : ExprState) :
    final (liftEval x s) = { s with eval := final (x s.eval) } := by
  unfold liftEval
  cases x s.eval <;> rfl

def expr (cpu : CPUState) (e : List Char) : OnExpr Word := do
  if ← liftTokens (makeToken e) then
    let s ← get
    liftEval (eval cpu s.buf.tokens 0 ((s.buf.nrToken : Int) - 1))
  else
    liftEval (log .makeTokenFailed)
    liftEval clearSuccess
    return 0

end Nemu
