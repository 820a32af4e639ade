import Nemu.Common

/-!
# Tokens of the expression evaluator

The token codes and the static token array of `src/monitor/debug/expr.c`.
-/

namespace Nemu

/-- The codes a token's `type` can hold: the enumeration `TK_NOTYPE` .. `DEREF` and the character
codes of the rule table.  `null` is the 0 of a token that was never written. -/
inductive TokenType
  | null
  | tkNotype
  | tkEq
  | tkGpr
  | tkHexadecimal
  | tkDecimal
  | tkAnd
  | tkOr
  | tkUeq
  | deref
  | plus
  | minus
  | times
  | divide
  | lparen
  | rparen
  | lbracket
  | rbracket
  | lbrace
  | rbrace
  deriving DecidableEq, Repr

/-! ## Characters -/

def isDecDigit (c : Char) : Bool := decide ('0' ≤ c) && decide (c ≤ '9')

/-- The digits that the lexer takes into a hexadecimal literal. -/
def isLowerHexDigit (c : Char) : Bool :=
  isDecDigit c || (decide ('a' ≤ c) && decide (c ≤ 'f'))

def isHexDigit (c : Char) : Bool :=
  isLowerHexDigit c || (decide ('A' ≤ c) && decide (c ≤ 'F'))

/-! ## The token array -/

/-- `str` is the string in the 32-byte field, up to its terminator. -/
structure Token where
  type : TokenType
  str : List Char
  deriving DecidableEq, Repr

/-- The statics `tokens` and `nr_token`. -/
structure TokenBuf where
  tokens : Nat → Token
  nrToken : Nat

/-- The zeroed array before the first expression. -/
def TokenBuf.zero : TokenBuf :=
  { tokens := fun _ => ⟨.null, []⟩, nrToken := 0 }

/-- The array that holds the tokens of a list from index 0 on. -/
def tokensOf (l : List Token) (i : Nat) : Token := l.getD i ⟨.null, []⟩

/-- `tokens[p .. q]` as a list. -/
def segment (tokens : Nat → Token) (p q : Int) : List Token :=
  (List.range (q + 1 - p).toNat).map (fun k : Nat => tokens (p + k).toNat)

/-! ## Segments -/

theorem length_segment (tokens : Nat → Token) (p q : Int) :
    (segment tokens p q).length = (q + 1 - p).toNat := by
  simp [segment]

theorem segment_nil {tokens : Nat → Token} {p q : Int} (h : q < p) : segment tokens p q = [] := by
  have hlen : (q + 1 - p).toNat = 0 := by omega
  simp [segment, hlen]

theorem segment_cons {tokens : Nat → Token} {p q : Int} (h : p ≤ q) :
    segment tokens p q = tokens p.toNat :: segment tokens (p + 1) q := by
  have hlen : (q + 1 - p).toNat = (q + 1 - (p + 1)).toNat + 1 := by omega
  have hshift : ∀ k : Nat, p + 1 + (k : Int) = p + (k + 1) := by
    intro k
    omega
  simp [segment, hlen, List.range_succ_eq_map, hshift]

theorem segment_singleton (tokens : Nat → Token) (p : Int) :
    segment tokens p p = [tokens p.toNat] := by
  rw [segment_cons (Int.le_refl p), segment_nil (by omega)]

theorem getElem?_segment {tokens : Nat → Token} {p q : Int} {k : Nat}
    (h : k < (q + 1 - p).toNat) : (segment tokens p q)[k]? = some (tokens (p + k).toNat) := by
  simp [segment, h]

/-- A segment is cut in two at any index. -/
theorem segment_take {tokens : Nat → Token} {p q : Int} {k : Nat} (h : p + k ≤ q + 1) :
    (segment tokens p q).take k = segment tokens p (p + k - 1) := by
  have hlen : (p + k - 1 + 1 - p).toNat = k := by omega
  have hmin : min k (q + 1 - p).toNat = k := by omega
  rw [segment, segment, ← List.map_take, List.take_range, hmin, hlen]

theorem segment_drop {tokens : Nat → Token} {p q : Int} {k : Nat} (h : p + k ≤ q + 1) :
    (segment tokens p q).drop k = segment tokens (p + k) q := by
  induction k generalizing p with
  | zero =>
      simp
  | succ k ih =>
      have hpq : p ≤ q := by omega
      have hstep : p + ((k + 1 : Nat) : Int) = p + 1 + k := by omega
      rw [segment_cons hpq, List.drop_succ_cons, ih (by omega), hstep]

end Nemu
