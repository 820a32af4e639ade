import Nemu.Expr.Lexer

/-!
# Lexemes

The lexemes of the expression language with their text, and what `make_token` does at a lexeme:
when the text behind it does not continue it, exactly this lexeme is taken.
-/

namespace Nemu

open Ere StateRules

/-! ## Lexemes -/

inductive Symbol
  | plus
  | minus
  | times
  | divide
  | lparen
  | rparen
  | lbracket
  | rbracket
  | lbrace
  | rbrace
  | eq
  | ne
  | and
  | or
  deriving DecidableEq, Repr

namespace Symbol

def text : Symbol → List Char
  | plus => ['+']
  | minus => ['-']
  | times => ['*']
  | divide => ['/']
  | lparen => ['(']
  | rparen => [')']
  | lbracket => ['[']
  | rbracket => [']']
  | lbrace => ['{']
  | rbrace => ['}']
  | eq => ['=', '=']
  | ne => ['!', '=']
  | and => ['&', '&']
  | or => ['|', '|']

def type : Symbol → TokenType
  | plus => .plus
  | minus => .minus
  | times => .times
  | divide => .divide
  | lparen => .lparen
  | rparen => .rparen
  | lbracket => .lbracket
  | rbracket => .rbracket
  | lbrace => .lbrace
  | rbrace => .rbrace
  | eq => .tkEq
  | ne => .tkUeq
  | and => .tkAnd
  | or => .tkOr

end Symbol

def registerNames : List (List Char) := regsl ++ regsw ++ regsb

inductive Lexeme
  | dec (digits : List Char) (ne : digits ≠ []) (all : ∀ c ∈ digits, isDecDigit c = true)
  | hex (digits : List Char) (ne : digits ≠ []) (all : ∀ c ∈ digits, isLowerHexDigit c = true)
  | reg (name : List Char) (mem : name ∈ registerNames)
  | sym (s : Symbol)

namespace Lexeme

def text : Lexeme → List Char
  | dec digits _ _ => digits
  | hex digits _ _ => '0' :: 'x' :: digits
  | reg name _ => '$' :: name
  | sym s => s.text

def type : Lexeme → TokenType
  | dec _ _ _ => .tkDecimal
  | hex _ _ _ => .tkHexadecimal
  | reg _ _ => .tkGpr
  | sym s => s.type

/-- The text behind a lexeme does not continue it. -/
def Delimits : Lexeme → List Char → Prop
  | dec _ _ _, s => s.head?.all (fun c => !isDecDigit c && c != 'x') = true
  | hex _ _ _, s => s.head?.all (fun c => !isLowerHexDigit c) = true
  | reg _ _, s => ∀ c ∈ s, isGprLast c = false
  | sym _, _ => True

end Lexeme

/-! ## The rule that matches at a lexeme -/

theorem matchRule_eq (s : List Char) :
    matchRule s = rules.findSome? fun rule =>
      (longest rule.regex s).map fun n => (rule.tokenType, n) := by
  unfold matchRule
  congr 1
  funext rule
  cases h : longest rule.regex s with
  | some n =>
      rw [search_eq_zero.2 h]
      rfl
  | none =>
      -- the source asks for a match at the very start (`rm_so == 0`)
      have hnot : ∀ n, search rule.regex s ≠ some (0, n) := by
        intro n hn
        rw [search_eq_zero, h] at hn
        cases hn
      cases hs : search rule.regex s with
      | none => rfl
      | some m =>
          obtain ⟨i, j⟩ := m
          cases i with
          | zero => exact absurd hs (hnot j)
          | succ i => rfl

theorem matchRule_symbol (x : Symbol) (s : List Char) :
    matchRule (x.text ++ s) = some (x.type, x.text.length) := by
  rw [matchRule_eq]
  cases x <;>
    simp [rules, Symbol.text, Symbol.type, hexRegex, gprRegex, longest_plus_one_cons,
      longest_one_seq_cons, longest_text_cons, longest_text_nil, isDecDigit]

/-- Members of a class are taken up to a text that does not start with one. -/
theorem takeWhile_class {p : Char → Bool} {l s : List Char} (hl : ∀ c ∈ l, p c = true)
    (hs : s.head?.all (fun c => !p c) = true) : (l ++ s).takeWhile p = l := by
  have hrest : s.takeWhile p = [] := by
    cases s with
    | nil => rfl
    | cons c s =>
        have hc : ¬ p c = true := by simpa using hs
        rw [List.takeWhile_cons_of_neg hc]
  rw [List.takeWhile_append_of_pos hl, hrest, List.append_nil]

/-- Behind a `0` there is no `x`, so that the rule for hexadecimal literals fails. -/
theorem longest_hexRegex_dec {d : Char} {ds s : List Char} (hds : ∀ c ∈ ds, isDecDigit c = true)
    (hs : s.head?.all (· != 'x') = true) : longest hexRegex (d :: (ds ++ s)) = none := by
  have hx : longest (.seq (.one (· == 'x')) (Pattern.plus (.one isLowerHexDigit))) (ds ++ s) =
      none := by
    cases ds with
    | nil =>
        cases s with
        | nil => exact longest_one_seq_nil
        | cons c s =>
            simp only [List.head?_cons, Option.all_some, bne_iff_ne] at hs
            rw [List.nil_append, longest_one_seq_cons, if_neg (by simpa using hs)]
    | cons c ds =>
        have hc : (c == 'x') = false := by
          rw [beq_eq_false_iff_ne]
          rintro rfl
          exact absurd (hds 'x' (by simp)) (by decide)
        rw [List.cons_append, longest_one_seq_cons, hc]
        rfl
  rw [hexRegex, longest_one_seq_cons, hx]
  cases d == '0' <;> rfl

theorem matchRule_dec {digits s : List Char} (hne : digits ≠ [])
    (hall : ∀ c ∈ digits, isDecDigit c = true)
    (hs : s.head?.all (fun c => !isDecDigit c && c != 'x') = true) :
    matchRule (digits ++ s) = some (.tkDecimal, digits.length) := by
  cases digits with
  | nil => exact absurd rfl hne
  | cons d ds =>
      have hd : isDecDigit d = true := hall d (by simp)
      have hds : ∀ c ∈ ds, isDecDigit c = true := fun c hc => hall c (by simp [hc])
      have hother : ∀ k, isDecDigit k = false → (d == k) = false := by
        intro k hk
        rw [beq_eq_false_iff_ne]
        rintro rfl
        rw [hd] at hk
        cases hk
      have hbehind : s.head?.all (fun c => !isDecDigit c) = true ∧ s.head?.all (· != 'x') = true := by
        cases s with
        | nil => exact ⟨rfl, rfl⟩
        | cons c s =>
            simp only [List.head?_cons, Option.all_some, Bool.and_eq_true] at hs ⊢
            exact hs
      have hhex := longest_hexRegex_dec (d := d) hds hbehind.2
      rw [matchRule_eq]
      simp (disch := decide) [rules, List.findSome?_cons, hhex, gprRegex, longest_plus_one_cons,
        longest_one_seq_cons, longest_text_cons, hother, hd, takeWhile_class hds hbehind.1]

theorem matchRule_hex {digits s : List Char} (hne : digits ≠ [])
    (hall : ∀ c ∈ digits, isLowerHexDigit c = true)
    (hs : s.head?.all (fun c => !isLowerHexDigit c) = true) :
    matchRule ('0' :: 'x' :: digits ++ s) = some (.tkHexadecimal, digits.length + 2) := by
  cases digits with
  | nil => exact absurd rfl hne
  | cons d ds =>
      have hd : isLowerHexDigit d = true := hall d (by simp)
      have hds : ∀ c ∈ ds, isLowerHexDigit c = true := fun c hc => hall c (by simp [hc])
      rw [matchRule_eq]
      simp [rules, hexRegex, longest_plus_one_cons, longest_one_seq_cons, hd,
        takeWhile_class hds hs]

/-- A register name starts and ends as the rule for registers asks for. -/
theorem registerNames_shape {name : List Char} (h : name ∈ registerNames) :
    ∃ c u a, name = c :: (u ++ [a]) ∧ isGprFirst c = true ∧ isGprLast a = true := by
  have hall : ∀ name ∈ registerNames, name.head?.any isGprFirst = true ∧ 2 ≤ name.length ∧
      name.getLast?.any isGprLast = true := by decide
  rcases hall name h with ⟨hfirst, hlen, hlast⟩
  cases name with
  | nil => cases hfirst
  | cons c t =>
      rcases List.eq_nil_or_concat t with rfl | ⟨u, a, rfl⟩
      · exact absurd hlen (Nat.not_succ_le_self 1)
      · refine ⟨c, u, a, by rw [List.concat_eq_append], hfirst, ?_⟩
        rw [List.concat_eq_append, ← List.cons_append, List.getLast?_concat] at hlast
        exact hlast

theorem longest_gprRegex (c : Char) (s : List Char) (hc : isGprFirst c = true) :
    longest gprRegex ('$' :: c :: s) =
      (longest (.seq (Pattern.opt (.star (.one fun _ => true))) (.one isGprLast)) s).map (· + 2) := by
  rw [gprRegex, longest_one_seq_cons, longest_one_seq_cons, if_pos (by rfl), if_pos hc,
    Option.map_map]
  rfl

theorem matchRule_dollar (s : List Char) {n : Nat} (h : longest gprRegex ('$' :: s) = some n) :
    matchRule ('$' :: s) = some (.tkGpr, n) := by
  rw [matchRule_eq]
  simp [rules, h, hexRegex, longest_plus_one_cons, longest_one_seq_cons]

theorem matchRule_reg {name s : List Char} (hmem : name ∈ registerNames)
    (hs : ∀ c ∈ s, isGprLast c = false) :
    matchRule ('$' :: name ++ s) = some (.tkGpr, name.length + 1) := by
  rcases registerNames_shape hmem with ⟨c, u, a, rfl, hc, ha⟩
  have hassoc : '$' :: (c :: (u ++ [a])) ++ s = '$' :: c :: (u ++ a :: s) := by simp
  rw [hassoc]
  refine matchRule_dollar _ ?_
  rw [longest_gprRegex _ _ hc, longest_any_one ha hs]
  simp

/-- At a lexeme that the text behind it does not continue, its rule matches its text. -/
theorem matchRule_lexeme (x : Lexeme) {s : List Char} (h : x.Delimits s) :
    matchRule (x.text ++ s) = some (x.type, x.text.length) := by
  cases x with
  | dec digits hne hall => exact matchRule_dec hne hall h
  | hex digits hne hall => exact matchRule_hex hne hall h
  | reg name hmem => exact matchRule_reg hmem h
  | sym x => exact matchRule_symbol x s

/-- A run of blanks is one match. -/
theorem matchRule_blanks (n : Nat) {s : List Char} (h : s.head? ≠ some ' ') :
    matchRule (List.replicate (n + 1) ' ' ++ s) = some (.tkNotype, n + 1) := by
  have hall : ∀ c ∈ List.replicate n ' ', (c == ' ') = true := by
    intro c hc
    rw [List.eq_of_mem_replicate hc]
    rfl
  have hbehind : s.head?.all (fun c => !(c == ' ')) = true := by
    cases s with
    | nil => rfl
    | cons c s => simpa using h
  have hrun := takeWhile_class hall hbehind
  rw [List.replicate_succ, List.cons_append, matchRule_eq]
  simp [rules, longest_plus_one_cons, hrun]

/-- A single space is taken as one. -/
theorem matchRule_space {s : List Char} (h : s.head? ≠ some ' ') :
    matchRule (' ' :: s) = some (.tkNotype, 1) :=
  matchRule_blanks 0 h

end Nemu
