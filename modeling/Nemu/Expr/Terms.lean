import Nemu.Lib.Linked
import Nemu.Expr.Reads
import Mathlib.Data.List.Iterate

/-!
# Expressions with dereferences

The expressions that a user can mean: literals, registers, brackets, the binary operators and the
unary `*`, which binds tighter than all of them.  `Term.reading` is their meaning, with the guest
reads in order, and `Spelled` the grammar over lexemes in which a unary `*` is told from a
multiplication.
-/

namespace Nemu

/-! ## Meaning -/

inductive Term
  | dec (digits : List Char)
  | hex (digits : List Char)
  | reg (name : List Char)
  | paren (e : Term)
  | deref (e : Term)
  | bin (op : BinOp) (a b : Term)
  deriving DecidableEq, Repr

/-- What an evaluation comes to: the value, the flag, and the addresses that it reads. -/
structure Reading where
  value : Word
  success : Word
  reads : List Word
  deriving DecidableEq

namespace Term

/-- The meaning of a term over a guest memory of words, evaluated from the left to the right with
the flag `w` at its start.  A zero divisor and an unknown register clear the flag and count as 0. -/
def reading (cpu : CPUState) (mem : Word → Word) : Term → Word → Reading
  | dec digits, w => ⟨BitVec.ofNat 32 (numeral 10 digits), w, []⟩
  | hex digits, w => ⟨BitVec.ofNat 32 (numeral 16 digits), w, []⟩
  | reg name, w =>
      match gprOf cpu ('$' :: name) with
      | some v => ⟨readAs w v, w, []⟩
      | none => ⟨0, 0, []⟩
  | paren e, w => e.reading cpu mem w
  | deref e, w =>
      let a := e.reading cpu mem w
      ⟨mem a.value, a.success, a.reads ++ [a.value]⟩
  | bin op a b, w =>
      let x := a.reading cpu mem w
      let y := b.reading cpu mem x.success
      match op.apply x.value y.value with
      | some v => ⟨v, y.success, x.reads ++ y.reads⟩
      | none => ⟨0, 0, x.reads ++ y.reads⟩

theorem reads_bin (cpu : CPUState) (mem : Word → Word) (op : BinOp) (a b : Term) (w : Word) :
    ((bin op a b).reading cpu mem w).reads =
      (a.reading cpu mem w).reads ++ (b.reading cpu mem (a.reading cpu mem w).success).reads := by
  simp only [reading]
  cases op.apply _ _ <;> rfl

/-- The number of dereferences. -/
def stars : Term → Nat
  | dec _ | hex _ | reg _ => 0
  | paren e => e.stars
  | deref e => e.stars + 1
  | bin _ a b => a.stars + b.stars

/-- Every dereference is one read. -/
theorem length_reads (cpu : CPUState) (mem : Word → Word) (e : Term) (w : Word) :
    (e.reading cpu mem w).reads.length = e.stars := by
  induction e generalizing w with
  | dec digits | hex digits => rfl
  | reg name =>
      simp only [reading, stars]
      cases gprOf cpu ('$' :: name) <;> rfl
  | paren e ih => exact ih w
  | deref e ih => simp only [reading, stars, List.length_append, ih, List.length_singleton]
  | bin op a b iha ihb =>
      rw [reads_bin, List.length_append, iha, ihb, stars]

/-- `k` stars in front of an operand are `k` reads, each at what the one before it gives. -/
theorem reading_derefs (cpu : CPUState) (mem : Word → Word) (e : Term) (w : Word) (k : Nat) :
    (deref^[k] e).reading cpu mem w =
      ⟨mem^[k] (e.reading cpu mem w).value, (e.reading cpu mem w).success,
        (e.reading cpu mem w).reads ++ List.iterate mem (e.reading cpu mem w).value k⟩ := by
  induction k with
  | zero =>
      rw [List.iterate, List.append_nil]
      rfl
  | succ k ih =>
      rw [Function.iterate_succ_apply', reading, ih, List.iterate_add, Function.iterate_succ_apply',
        List.append_assoc]
      rfl

end Term

/-- The word of guest memory at an address of `pmem`. -/
def Bus.guestWord (bus : Bus) (addr : Word) : Word :=
  LittleEndian.load bus.pmem (addr - bus.pmemMap.low).toNat 4

/-! ## Spelling -/

namespace BinOp

def symbol : BinOp → Symbol
  | add => .plus
  | sub => .minus
  | mul => .times
  | div => .divide
  | eq => .eq
  | ne => .ne
  | and => .and
  | or => .or

theorem symbol_type (op : BinOp) : op.symbol.type = op.type := by
  cases op <;> rfl

end BinOp

/-- A lexeme of an expression; a unary `*` is written like a multiplication. -/
inductive Piece
  | star
  | lex (x : Lexeme)

namespace Piece

def lexeme : Piece → Lexeme
  | star => .sym .times
  | lex x => x

/-- The token that the piece stands for. -/
def token : Piece → Token
  | star => ⟨.deref, []⟩
  | lex x => x.token

def type : Piece → TokenType
  | star => .deref
  | lex x => x.type

@[simp] theorem type_star : star.type = .deref := rfl

@[simp] theorem type_lex (x : Lexeme) : (lex x).type = x.type := rfl

theorem type_symbol (op : BinOp) : (lex (.sym op.symbol)).type = op.type := op.symbol_type

theorem token_type (u : Piece) : u.token.type = u.type := by
  cases u with
  | star => rfl
  | lex x => exact x.token_type

end Piece

/-- `Spelled k e us`: the pieces `us` spell `e` at level `k` of the grammar.  Levels 0 to 4 are
those of the binary operators, level 5 has the dereferences and level 6 the primary expressions. -/
inductive Spelled : Nat → Term → List Piece → Prop where
  | dec (digits : List Char) (ne : digits ≠ []) (all : ∀ c ∈ digits, isDecDigit c = true) :
      Spelled 6 (.dec digits) [.lex (.dec digits ne all)]
  | hex (digits : List Char) (ne : digits ≠ []) (all : ∀ c ∈ digits, isLowerHexDigit c = true) :
      Spelled 6 (.hex digits) [.lex (.hex digits ne all)]
  | reg (name : List Char) (mem : name ∈ registerNames) :
      Spelled 6 (.reg name) [.lex (.reg name mem)]
  | paren {e : Term} {us : List Piece} :
      Spelled 0 e us →
        Spelled 6 (.paren e) (.lex (.sym .lparen) :: (us ++ [.lex (.sym .rparen)]))
  | deref {e : Term} {us : List Piece} : Spelled 5 e us → Spelled 5 (.deref e) (.star :: us)
  | bin {op : BinOp} {a b : Term} {us vs : List Piece} :
      Spelled op.level a us → Spelled (op.level + 1) b vs →
        Spelled op.level (.bin op a b) (us ++ .lex (.sym op.symbol) :: vs)
  | up {k : Nat} {e : Term} {us : List Piece} : Spelled (k + 1) e us → Spelled k e us

/-- The number of unary stars. -/
def starCount (us : List Piece) : Nat := us.countP fun u => u.type = .deref

theorem starCount_cons (u : Piece) (us : List Piece) :
    starCount (u :: us) = starCount us + if u.type = .deref then 1 else 0 := by
  simp [starCount, List.countP_cons]

theorem starCount_append (us vs : List Piece) :
    starCount (us ++ vs) = starCount us + starCount vs := List.countP_append

/-- A unary `*` directly behind the piece is not seen as one. -/
def Piece.HidesStar (u : Piece) : Prop := u.type = .tkAnd ∨ u.type = .tkOr ∨ u.type = .deref

instance : DecidablePred Piece.HidesStar := fun u =>
  inferInstanceAs (Decidable (u.type = .tkAnd ∨ u.type = .tkOr ∨ u.type = .deref))

/-- No unary `*` stands directly behind `&&`, `||` or another unary `*`. -/
def StarsSeen (us : List Piece) : Prop :=
  us.IsChain fun u v => v.type = .deref → ¬ u.HidesStar

instance (us : List Piece) : Decidable (StarsSeen us) :=
  inferInstanceAs (Decidable (us.IsChain fun u v => v.type = .deref → ¬ u.HidesStar))

namespace Spelled

variable {k : Nat} {e : Term} {us : List Piece}

theorem ne_nil (h : Spelled k e us) : us ≠ [] := by
  induction h with
  | dec _ _ _ | hex _ _ _ | reg _ _ | paren _ _ | deref _ _ | bin _ _ _ _ => simp
  | up _ ih => exact ih

/-- The types of the pieces, with unary stars of the highest operator priority. -/
theorem nested (h : Spelled k e us) : Nested k (us.map Piece.type) := by
  induction h with
  | dec digits ne all | hex digits ne all | reg name mem =>
      exact .token rfl rfl (by simp [Piece.type, Lexeme.type, TokenType.priority]) (.nil 6)
  | paren _ ih =>
      rw [List.map_cons, List.map_append]
      exact ih.surround 6
  | deref _ ih =>
      refine .token rfl rfl (fun j hj => ?_) ih
      cases hj
      exact Nat.le_refl 5
  | @bin op a b us vs _ _ iha ihb =>
      rw [List.map_append, List.map_cons]
      rw [Piece.type_symbol]
      exact iha.operator op.priority_type (ihb.mono (Nat.le_succ _))
  | up _ ih => exact ih.mono (Nat.le_succ _)

theorem starCount_eq (h : Spelled k e us) : starCount us = e.stars := by
  induction h with
  | dec _ _ _ | hex _ _ _ | reg _ _ => rfl
  | paren _ ih =>
      rw [starCount_cons, starCount_append, ih]
      rfl
  | deref _ ih =>
      rw [starCount_cons, ih]
      rfl
  | @bin op a b us vs _ _ iha ihb =>
      rw [starCount_append, starCount_cons, iha, ihb, Piece.type_symbol, if_neg op.type_scan.2.2]
      rfl
  | up _ ih => exact ih

end Spelled

/-! ## Neighbours -/

namespace TokenType

def StartsTerm (t : TokenType) : Prop := t.IsText ∨ t = .lparen ∨ t = .deref

def EndsTerm (t : TokenType) : Prop := t.IsText ∨ t = .rparen

/-- What a unary `*` can stand behind. -/
def OpensTerm (t : TokenType) : Prop := t = .lparen ∨ t = .deref ∨ ∃ op, t = BinOp.type op

/-- What holds of neighbours in an expression. -/
structure Meets (t u : TokenType) : Prop where
  text : t.IsText → ¬ u.IsText
  times : u = .times → t.EndsTerm
  deref : u = .deref → t.OpensTerm

theorem StartsTerm.ne_times {t : TokenType} (h : t.StartsTerm) : t ≠ .times := by
  rintro rfl
  simp [StartsTerm, IsText] at h

theorem EndsTerm.ne_deref {t : TokenType} (h : t.EndsTerm) : t ≠ .deref := by
  rintro rfl
  simp [EndsTerm, IsText] at h

theorem OpensTerm.meets {t u : TokenType} (h : t.OpensTerm) (hu : u.StartsTerm) : Meets t u := by
  have ht : ¬ t.IsText := by
    rcases h with rfl | rfl | ⟨op, rfl⟩
    · simp [IsText]
    · simp [IsText]
    · exact BinOp_not_isText op
  exact ⟨fun htext => absurd htext ht, fun htimes => absurd htimes hu.ne_times, fun _ => h⟩

theorem EndsTerm.meets {t u : TokenType} (h : t.EndsTerm) (hu : ¬ u.IsText) (hne : u ≠ .deref) :
    Meets t u :=
  ⟨fun _ => hu, fun _ => h, fun hderef => absurd hderef hne⟩

end TokenType

open TokenType in
/-- The neighbours and the ends of an expression. -/
theorem Spelled.linked {k : Nat} {e : Term} {us : List Piece} (h : Spelled k e us) :
    Linked Meets StartsTerm EndsTerm (us.map Piece.type) := by
  induction h with
  | dec _ _ _ => exact .singleton (Or.inl (Or.inl rfl)) (Or.inl (Or.inl rfl))
  | hex _ _ _ => exact .singleton (Or.inl (Or.inr (Or.inl rfl))) (Or.inl (Or.inr (Or.inl rfl)))
  | reg _ _ => exact .singleton (Or.inl (Or.inr (Or.inr rfl))) (Or.inl (Or.inr (Or.inr rfl)))
  | paren _ ih =>
      have hopen : OpensTerm .lparen := Or.inl rfl
      have hclose : ¬ IsText .rparen := by simp [IsText]
      rw [List.map_cons, List.map_append]
      exact (ih.concat (fun t ht => ht.meets hclose (by simp)) (Or.inr rfl)).cons (Or.inr (Or.inl rfl))
        fun t ht => hopen.meets ht
  | deref _ ih =>
      have hopen : OpensTerm .deref := Or.inr (Or.inl rfl)
      exact ih.cons (Or.inr (Or.inr rfl)) fun t ht => hopen.meets ht
  | @bin op a b us vs _ _ iha ihb =>
      have hopen : OpensTerm op.type := Or.inr (Or.inr ⟨op, rfl⟩)
      rw [List.map_append, List.map_cons, Piece.type_symbol]
      exact iha.join (fun t ht => ht.meets (BinOp_not_isText op) op.type_scan.2.2)
        (fun t ht => hopen.meets ht) ihb
  | up _ ih => exact ih

end Nemu
