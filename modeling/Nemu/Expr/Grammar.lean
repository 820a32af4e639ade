import Nemu.Expr.Nested

/-!
# Arithmetic expressions

The expressions without registers and dereferences: their trees, the C grammar that spells a tree
as a list of tokens, and the value of a tree in arithmetic modulo 2^32.
-/

namespace Nemu

/-! ## Trees -/

inductive BinOp
  | add
  | sub
  | mul
  | div
  | eq
  | ne
  | and
  | or
  deriving DecidableEq, Repr

inductive Arith
  | dec (digits : List Char)
  | hex (digits : List Char)
  | paren (e : Arith)
  | bin (op : BinOp) (a b : Arith)
  deriving DecidableEq, Repr

namespace BinOp

def type : BinOp → TokenType
  | add => .plus
  | sub => .minus
  | mul => .times
  | div => .divide
  | eq => .tkEq
  | ne => .tkUeq
  | and => .tkAnd
  | or => .tkOr

/-- The level of the operator in the C grammar, `||` binding loosest. -/
def level : BinOp → Nat
  | or => 0
  | and => 1
  | eq | ne => 2
  | add | sub => 3
  | mul | div => 4

theorem priority_type (op : BinOp) : op.type.priority = some op.level := by
  cases op <;> rfl

theorem level_le (op : BinOp) : op.level ≤ 4 := by
  cases op <;> decide

/-- The value of the operator on two words; `none` for a zero divisor. -/
def apply : BinOp → Word → Word → Option Word
  | add, x, y => some (x + y)
  | sub, x, y => some (x - y)
  | mul, x, y => some (x * y)
  | div, x, y => if y = 0 then none else some (x / y)
  | eq, x, y => some (if x = y then 1 else 0)
  | ne, x, y => some (if x = y then 0 else 1)
  | and, x, y => some (if x ≠ 0 ∧ y ≠ 0 then 1 else 0)
  | or, x, y => some (if x ≠ 0 ∨ y ≠ 0 then 1 else 0)

end BinOp

/-! ## Literals -/

/-- The value of a decimal or hexadecimal digit of either case. -/
def digitValue (c : Char) : Nat :=
  if c ≤ '9' then c.toNat - 48 else if c ≤ 'F' then c.toNat - 55 else c.toNat - 87

/-- The number that a list of digits denotes. -/
def numeral (base : Nat) (digits : List Char) : Nat :=
  digits.foldl (fun n c => n * base + digitValue c) 0

/-! ## Values -/

namespace Arith

/-- The value modulo 2^32, both operands always being evaluated; `none` when some division has a
zero divisor. -/
def value : Arith → Option Word
  | dec digits => some (BitVec.ofNat 32 (numeral 10 digits))
  | hex digits => some (BitVec.ofNat 32 (numeral 16 digits))
  | paren e => e.value
  | bin op a b =>
      match a.value, b.value with
      | some x, some y => op.apply x y
      | _, _ => none

end Arith

/-! ## Spelling -/

/-- `Spells k e ts`: the tokens `ts` spell `e` under the C grammar, at level `k`.  Levels 0 to 4
are those of the binary operators, all left-associative, and level 5 is that of the primary
expressions. -/
inductive Spells : Nat → Arith → List Token → Prop where
  | dec {t : Token} :
      t.type = .tkDecimal → t.str ≠ [] → (∀ c ∈ t.str, isDecDigit c = true) →
        Spells 5 (.dec t.str) [t]
  | hex {t : Token} {digits : List Char} :
      t.type = .tkHexadecimal → t.str = '0' :: 'x' :: digits → digits ≠ [] →
        (∀ c ∈ digits, isHexDigit c = true) → Spells 5 (.hex digits) [t]
  | paren {o c : Token} {e : Arith} {ts : List Token} :
      o.type = .lparen → Spells 0 e ts → c.type = .rparen →
        Spells 5 (.paren e) (o :: (ts ++ [c]))
  | bin {op : BinOp} {t : Token} {a b : Arith} {ts us : List Token} :
      Spells op.level a ts → t.type = op.type → Spells (op.level + 1) b us →
        Spells op.level (.bin op a b) (ts ++ t :: us)
  | up {k : Nat} {e : Arith} {ts : List Token} :
      Spells (k + 1) e ts → Spells k e ts

theorem Spells.nested {k : Nat} {e : Arith} {ts : List Token} (h : Spells k e ts) :
    Nested k (ts.map Token.type) := by
  induction h with
  | dec ht _ _ =>
      simp only [List.map_cons, ht, List.map_nil]
      exact .token rfl rfl (by simp [TokenType.priority]) (.nil 5)
  | hex ht _ _ _ =>
      simp only [List.map_cons, ht, List.map_nil]
      exact .token rfl rfl (by simp [TokenType.priority]) (.nil 5)
  | paren ho _ hc ih =>
      simp only [List.map_cons, List.map_append, ho, hc, List.map_nil]
      exact ih.surround 5
  | @bin op t a b ts us _ ht _ iha ihb =>
      rw [List.map_append, List.map_cons]
      exact iha.operator (ht ▸ op.priority_type) (ihb.mono (Nat.le_succ _))
  | up _ ih =>
      exact ih.mono (Nat.le_succ _)

theorem Spells.ne_nil {k : Nat} {e : Arith} {ts : List Token} (h : Spells k e ts) : ts ≠ [] := by
  induction h with
  | dec _ _ _ => simp
  | hex _ _ _ _ => simp
  | paren _ _ _ _ => simp
  | bin _ _ _ _ _ => simp
  | up _ ih => exact ih

/-- A spelling at a level is one at every lower level. -/
theorem Spells.lower {j k : Nat} {e : Arith} {ts : List Token} (hjk : j ≤ k) (h : Spells k e ts) :
    Spells j e ts := by
  induction hjk with
  | refl => exact h
  | step _ ih => exact ih (.up h)

/-! ## Unique reading -/

/-- What a spelling is made of, whatever its level. -/
theorem Spells.cases_top {k : Nat} {e : Arith} {ts : List Token} (h : Spells k e ts) :
    (∃ t, ts = [t] ∧ ((t.type = .tkDecimal ∧ e = .dec t.str) ∨
      ∃ digits, t.type = .tkHexadecimal ∧ t.str = '0' :: 'x' :: digits ∧ e = .hex digits)) ∨
    (∃ o c e₁ us, ts = o :: (us ++ [c]) ∧ o.type = .lparen ∧ c.type = .rparen ∧
      e = .paren e₁ ∧ Spells 0 e₁ us) ∨
    (∃ op t a b us vs, ts = us ++ t :: vs ∧ t.type = BinOp.type op ∧ e = .bin op a b ∧
      Spells op.level a us ∧ Spells (op.level + 1) b vs) := by
  induction h with
  | dec ht _ _ => exact Or.inl ⟨_, rfl, Or.inl ⟨ht, rfl⟩⟩
  | hex ht hstr _ _ => exact Or.inl ⟨_, rfl, Or.inr ⟨_, ht, hstr, rfl⟩⟩
  | paren ho hin hc _ => exact Or.inr (Or.inl ⟨_, _, _, _, rfl, ho, hc, rfl, hin⟩)
  | bin ha ht hb _ _ => exact Or.inr (Or.inr ⟨_, _, _, _, _, _, rfl, ht, rfl, ha, hb⟩)
  | up _ ih => exact ih

theorem BinOp.type_injective {op op' : BinOp} (h : op.type = op'.type) : op = op' := by
  cases op <;> cases op' <;> simp [BinOp.type] at h <;> rfl

theorem BinOp.type_scan (op : BinOp) :
    op.type.isOpen = false ∧ op.type.opener? = none ∧ op.type ≠ .deref := by
  cases op <;> decide

section TopLevel

variable {op : BinOp} {t : Token} {a b : Arith} {us vs : List Token}

/-- The scan for the dominated operator finds the operator at the root. -/
theorem Spells.dominatedOffset_eq (ha : Spells op.level a us) (ht : t.type = op.type)
    (hb : Spells (op.level + 1) b vs) : dominatedOffset (us ++ t :: vs) = us.length :=
  dominatedOffset_split (ht ▸ op.priority_type) ha.nested hb.nested

theorem Spells.checkSegment_bin (ha : Spells op.level a us) (ht : t.type = op.type)
    (hb : Spells (op.level + 1) b vs) (s : EvalState) :
    checkSegment lifo ((us ++ t :: vs).map Token.type) s = .ok false s := by
  rcases op.type_scan with ⟨hopen, hclose, -⟩
  rw [List.map_append, List.map_cons]
  exact checkSegment_split ha.nested (ht ▸ hopen) (ht ▸ hclose) hb.nested s

theorem Spells.checkSegment_paren {o c : Token} (ho : o.type = .lparen) (h : Spells 0 a us)
    (hc : c.type = .rparen) (s : EvalState) :
    checkSegment lifo ((o :: (us ++ [c])).map Token.type) s = .ok true s := by
  have htypes : (o :: (us ++ [c])).map Token.type =
      .lparen :: (us.map Token.type ++ [.rparen]) := by simp [ho, hc]
  rw [htypes]
  exact checkSegment_surround h.nested s

/-- A list is not both bracketed and split at an operator. -/
theorem Spells.paren_ne_bin {o c : Token} {e : Arith} {ts : List Token} (ho : o.type = .lparen)
    (h : Spells 0 e ts) (hc : c.type = .rparen) (ha : Spells op.level a us)
    (ht : t.type = op.type) (hb : Spells (op.level + 1) b vs) :
    o :: (ts ++ [c]) ≠ us ++ t :: vs := by
  intro heq
  have htrue := Spells.checkSegment_paren ho h hc (.start .zero)
  rw [heq, Spells.checkSegment_bin ha ht hb] at htrue
  cases htrue

theorem Spells.bin_length (ha : Spells op.level a us) : 2 ≤ (us ++ t :: vs).length := by
  have hpos := List.length_pos_iff.2 ha.ne_nil
  simp only [List.length_append, List.length_cons]
  omega

theorem Spells.leaf_ne_bin {t' : Token} (ha : Spells op.level a us) : [t'] ≠ us ++ t :: vs := by
  intro heq
  have hlen := @Spells.bin_length _ t _ _ vs ha
  rw [← heq] at hlen
  exact absurd hlen (Nat.not_succ_le_self 1)

end TopLevel

/-- The grammar is unambiguous: a token list spells at most one tree. -/
theorem Spells.unique {k k' : Nat} {e e' : Arith} {ts : List Token} (h : Spells k e ts)
    (h' : Spells k' e' ts) : e = e' := by
  induction h generalizing k' e' with
  | @dec t ht _ _ =>
      rcases h'.cases_top with ⟨t', heq, hleaf⟩ | ⟨o, c, e₁, us, heq, -⟩ |
        ⟨op, t', a, b, us, vs, heq, -, -, ha, -⟩
      · cases heq
        rcases hleaf with ⟨-, rfl⟩ | ⟨digits, ht', -⟩
        · rfl
        · rw [ht] at ht'
          cases ht'
      · simp at heq
      · exact absurd heq ha.leaf_ne_bin
  | @hex t digits ht hstr _ _ =>
      rcases h'.cases_top with ⟨t', heq, hleaf⟩ | ⟨o, c, e₁, us, heq, -⟩ |
        ⟨op, t', a, b, us, vs, heq, -, -, ha, -⟩
      · cases heq
        rcases hleaf with ⟨ht', -⟩ | ⟨digits', -, hstr', rfl⟩
        · rw [ht] at ht'
          cases ht'
        · rw [hstr] at hstr'
          cases hstr'
          rfl
      · simp at heq
      · exact absurd heq ha.leaf_ne_bin
  | @paren o c e ts ho hin hc ih =>
      rcases h'.cases_top with ⟨t', heq, -⟩ | ⟨o', c', e₁, us, heq, -, -, rfl, hin'⟩ |
        ⟨op, t', a, b, us, vs, heq, ht', -, ha, hb⟩
      · simp at heq
      · simp only [List.cons.injEq] at heq
        rcases List.append_inj' heq.2 rfl with ⟨rfl, -⟩
        rw [ih hin']
      · exact absurd heq (Spells.paren_ne_bin ho hin hc ha ht' hb)
  | @bin op t a b ts us ha ht hb iha ihb =>
      rcases h'.cases_top with ⟨t', heq, -⟩ | ⟨o, c, e₁, vs, heq, ho, hc, -, hin⟩ |
        ⟨op', t', a', b', ts', us', heq, ht', rfl, ha', hb'⟩
      · exact absurd heq.symm ha.leaf_ne_bin
      · exact absurd heq.symm (Spells.paren_ne_bin ho hin hc ha ht hb)
      · -- both split at the dominated operator
        have hlen : ts.length = ts'.length := by
          rw [← Spells.dominatedOffset_eq ha ht hb, heq, Spells.dominatedOffset_eq ha' ht' hb']
        rcases List.append_inj heq hlen with ⟨rfl, hrest⟩
        simp only [List.cons.injEq] at hrest
        rcases hrest with ⟨rfl, rfl⟩
        have hop : op = op' := BinOp.type_injective (ht.symm.trans ht')
        rw [hop, iha ha', ihb hb']
  | up _ ih => exact ih h'

end Nemu
