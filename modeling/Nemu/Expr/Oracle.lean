import Nemu.Expr.Texts

/-!
# The evaluator and its test oracle

`eval` computes modulo 2^32 and divides without sign; the generated C program computes in `int` and
converts at the end.  Sums, differences and products do not notice.  A quotient does, unless the
two divisions of its operands happen to agree (`DivAgrees`).
-/

namespace Nemu

open StateRules

/-! ## Signed and unsigned division -/

/-- The operands on which the signed and the unsigned quotient are the same word. -/
def DivAgrees (x y : Int) : Prop :=
  (0 ≤ x ∧ 0 < y) ∨ (0 ≤ x ∧ y < 0 ∧ x < -y) ∨ (x < 0 ∧ y = 1) ∨ (x < 0 ∧ x = y)

instance (x y : Int) : Decidable (DivAgrees x y) := by
  unfold DivAgrees
  infer_instance

section Division

variable {a b : Nat}

theorem toNat_ofInt_natCast (h : a < 4294967296) : (BitVec.ofInt 32 (a : Int)).toNat = a := by
  rw [BitVec.toNat_ofInt]
  omega

theorem toNat_ofInt_neg (hpos : 0 < a) (h : a < 4294967296) :
    (BitVec.ofInt 32 (-(a : Int))).toNat = 4294967296 - a := by
  rw [BitVec.toNat_ofInt]
  omega

theorem toNat_ofInt_neg_le (h : a < 4294967296) :
    (BitVec.ofInt 32 (-(a : Int))).toNat = if a = 0 then 0 else 4294967296 - a := by
  by_cases ha : a = 0
  · subst ha
    rfl
  · rw [if_neg ha, toNat_ofInt_neg (by omega) h]

theorem div_agrees_pos_neg (ha : a < 2147483648) (hpos : 0 < b) (hb : b ≤ 2147483648) :
    BitVec.ofInt 32 (a : Int) / BitVec.ofInt 32 (-(b : Int)) =
      BitVec.ofInt 32 (Int.tdiv a (-(b : Int))) ↔ a < b := by
  have hquot : a / b ≤ a := Nat.div_le_self a b
  have hzero : a / b = 0 ↔ a < b := Nat.div_eq_zero_iff.trans (by omega)
  have hleft : a / (4294967296 - b) = 0 := Nat.div_eq_of_lt (by omega)
  rw [Int.tdiv_neg, ← Int.ofNat_tdiv, ← BitVec.toNat_inj, BitVec.toNat_udiv,
    toNat_ofInt_natCast (by omega), toNat_ofInt_neg hpos (by omega),
    toNat_ofInt_neg_le (by omega), hleft, ← hzero]
  generalize a / b = q at hquot ⊢
  by_cases h : q = 0
  · simp [h]
  · simp only [h, if_false, iff_false]
    omega

theorem div_agrees_neg_pos (hapos : 0 < a) (ha : a ≤ 2147483648) (hpos : 0 < b)
    (hb : b < 2147483648) :
    BitVec.ofInt 32 (-(a : Int)) / BitVec.ofInt 32 (b : Int) =
      BitVec.ofInt 32 (Int.tdiv (-(a : Int)) b) ↔ b = 1 := by
  have hquot : a / b ≤ a := Nat.div_le_self a b
  rw [Int.neg_tdiv, ← Int.ofNat_tdiv, ← BitVec.toNat_inj, BitVec.toNat_udiv,
    toNat_ofInt_natCast (by omega), toNat_ofInt_neg hapos (by omega),
    toNat_ofInt_neg_le (by omega)]
  constructor
  · intro h
    by_contra hne
    have htwo : 2 ≤ b := by omega
    -- the unsigned quotient lies below 2^31 and is not 0
    have hsmall : (4294967296 - a) / b ≤ (4294967296 - a) / 2 :=
      Nat.div_le_div_left htwo (by decide)
    have hbig : 0 < (4294967296 - a) / b := Nat.div_pos (by omega) hpos
    have hhalf : a / b ≤ a / 2 := Nat.div_le_div_left htwo (by decide)
    by_cases hq : a / b = 0
    · rw [if_pos hq] at h
      omega
    · rw [if_neg hq] at h
      omega
  · rintro rfl
    rw [Nat.div_one, Nat.div_one, if_neg (by omega)]

theorem div_agrees_neg_neg (hapos : 0 < a) (ha : a ≤ 2147483648) (hpos : 0 < b)
    (hb : b ≤ 2147483648) :
    BitVec.ofInt 32 (-(a : Int)) / BitVec.ofInt 32 (-(b : Int)) =
      BitVec.ofInt 32 (Int.tdiv (-(a : Int)) (-(b : Int))) ↔ a = b := by
  have hquot : a / b ≤ a := Nat.div_le_self a b
  rw [Int.neg_tdiv_neg, ← Int.ofNat_tdiv, ← BitVec.toNat_inj, BitVec.toNat_udiv,
    toNat_ofInt_neg hpos (by omega), toNat_ofInt_neg hapos (by omega),
    toNat_ofInt_natCast (by omega)]
  constructor
  · intro h
    rcases Nat.lt_trichotomy a b with hlt | heq | hgt
    · -- the unsigned quotient is 1, the signed one 0
      have hone : 0 < (4294967296 - a) / (4294967296 - b) := Nat.div_pos (by omega) (by omega)
      rw [Nat.div_eq_of_lt hlt] at h
      omega
    · exact heq
    · have hzero : (4294967296 - a) / (4294967296 - b) = 0 := Nat.div_eq_of_lt (by omega)
      have hone : 0 < a / b := Nat.div_pos (by omega) hpos
      omega
  · rintro rfl
    rw [Nat.div_self (by omega), Nat.div_self hpos]

end Division

/-- The unsigned quotient is the signed one exactly on the operands of `DivAgrees`. -/
theorem udiv_ofInt_iff {x y : Int} (hx : -2147483648 ≤ x ∧ x < 2147483648)
    (hy : -2147483648 ≤ y ∧ y < 2147483648) (hne : y ≠ 0) :
    BitVec.ofInt 32 x / BitVec.ofInt 32 y = BitVec.ofInt 32 (x.tdiv y) ↔ DivAgrees x y := by
  rcases Int.eq_nat_or_neg x with ⟨a, rfl | rfl⟩
  · rcases Int.eq_nat_or_neg y with ⟨b, rfl | rfl⟩
    · -- unsigned and signed division agree on what is not negative
      have hagree : DivAgrees (a : Int) b := Or.inl (by omega)
      have hquot : a / b ≤ a := Nat.div_le_self a b
      simp only [hagree, iff_true]
      rw [← Int.ofNat_tdiv, ← BitVec.toNat_inj, BitVec.toNat_udiv, toNat_ofInt_natCast (by omega),
        toNat_ofInt_natCast (by omega), toNat_ofInt_natCast (by omega)]
    · rw [div_agrees_pos_neg (by omega) (by omega) (by omega)]
      unfold DivAgrees
      omega
  · -- a negative dividend, unless it is 0
    rcases Nat.eq_zero_or_pos a with rfl | hapos
    · have hzero : -((0 : Nat) : Int) = 0 := rfl
      have hagree : DivAgrees 0 y := by
        unfold DivAgrees
        omega
      simp only [hzero, hagree, iff_true, Int.zero_tdiv]
      exact BitVec.zero_udiv
    · rcases Int.eq_nat_or_neg y with ⟨b, rfl | rfl⟩
      · rw [div_agrees_neg_pos hapos (by omega) (by omega) (by omega)]
        unfold DivAgrees
        omega
      · rw [div_agrees_neg_neg hapos (by omega) (by omega) (by omega)]
        unfold DivAgrees
        omega

/-! ## Values -/

namespace Arith

/-- The trees of generated expressions. -/
def Generated : Arith → Prop
  | dec digits => ∃ n < 100, digits = Nat.toDigits 10 n
  | hex _ => False
  | paren e => e.Generated
  | bin op a b => (op = .add ∨ op = .sub ∨ op = .mul ∨ op = .div) ∧ a.Generated ∧ b.Generated

/-- Every division with defined operands has operands on which the two divisions agree. -/
def DivisionsAgree : Arith → Prop
  | dec _ | hex _ => True
  | paren e => e.DivisionsAgree
  | bin op a b =>
      a.DivisionsAgree ∧ b.DivisionsAgree ∧
        (op = .div → ∀ x y, a.cValue = some x → b.cValue = some y → DivAgrees x y)

inductive SubExpr : Arith → Arith → Prop where
  | refl (e : Arith) : SubExpr e e
  | paren {e f : Arith} : SubExpr e f → SubExpr e (.paren f)
  | left {op : BinOp} {e a b : Arith} : SubExpr e a → SubExpr e (.bin op a b)
  | right {op : BinOp} {e a b : Arith} : SubExpr e b → SubExpr e (.bin op a b)

end Arith

theorem cInt_eq_some {v w : Int} (h : cInt v = some w) :
    w = v ∧ -2147483648 ≤ v ∧ v < 2147483648 := by
  unfold cInt at h
  by_cases hr : -2147483648 ≤ v ∧ v < 2147483648
  · rw [if_pos hr] at h
    cases h
    exact ⟨rfl, hr⟩
  · rw [if_neg hr] at h
    cases h

theorem literal_value {n : Nat} (h : n < 100) :
    cLiteral (Nat.toDigits 10 n) = some (n : Int) ∧ numeral 10 (Nat.toDigits 10 n) = n := by
  have hall : ∀ n < 100, cLiteral (Nat.toDigits 10 n) = some (n : Int) ∧
      numeral 10 (Nat.toDigits 10 n) = n := by decide +kernel
  exact hall n h

theorem Arith.cValue_bin {op : BinOp} {a b : Arith} {v : Int}
    (hv : (Arith.bin op a b).cValue = some v) :
    ∃ x y, a.cValue = some x ∧ b.cValue = some y ∧ op.cApply x y = some v := by
  simp only [Arith.cValue] at hv
  cases ha : a.cValue with
  | none => simp [ha] at hv
  | some x =>
      cases hb : b.cValue with
      | none => simp [ha, hb] at hv
      | some y =>
          simp only [ha, hb] at hv
          exact ⟨x, y, rfl, rfl, hv⟩

/-- A defined value lies in the range of `int`. -/
theorem Arith.cValue_range {e : Arith} (hg : e.Generated) {v : Int} (hv : e.cValue = some v) :
    -2147483648 ≤ v ∧ v < 2147483648 := by
  induction e generalizing v with
  | dec digits =>
      rcases hg with ⟨n, hn, rfl⟩
      rw [Arith.cValue, (literal_value hn).1] at hv
      cases hv
      omega
  | hex digits => exact hg.elim
  | paren e ih => exact ih hg hv
  | bin op a b _ _ =>
      rcases Arith.cValue_bin hv with ⟨x, y, -, -, hv⟩
      cases op with
      | add | sub | mul =>
          rcases cInt_eq_some hv with ⟨rfl, hrange⟩
          exact hrange
      | div =>
          by_cases hy : y = 0
          · simp [BinOp.cApply, hy] at hv
          · simp only [BinOp.cApply, if_neg hy] at hv
            rcases cInt_eq_some hv with ⟨rfl, hrange⟩
            exact hrange
      | eq | ne | and | or => cases hv

theorem ofInt_ne_zero {y : Int} (hy : -2147483648 ≤ y ∧ y < 2147483648) (hne : y ≠ 0) :
    BitVec.ofInt 32 y ≠ 0 := by
  intro h
  have hnat := congrArg BitVec.toNat h
  rw [BitVec.toNat_ofInt] at hnat
  change (y % 4294967296).toNat = 0 at hnat
  omega

/-- One operator: the words of the operands give the word of the result, for a division exactly
when the two divisions agree. -/
theorem BinOp.apply_ofInt {op : BinOp} {x y v : Int} (hx : -2147483648 ≤ x ∧ x < 2147483648)
    (hy : -2147483648 ≤ y ∧ y < 2147483648) (hv : op.cApply x y = some v) :
    op.apply (BitVec.ofInt 32 x) (BitVec.ofInt 32 y) = some (BitVec.ofInt 32 v) ↔
      (op = .div → DivAgrees x y) := by
  cases op with
  | add =>
      rcases cInt_eq_some hv with ⟨rfl, -⟩
      simp [BinOp.apply, BitVec.ofInt_add]
  | sub =>
      rcases cInt_eq_some hv with ⟨rfl, -⟩
      simp [BinOp.apply, Int.sub_eq_add_neg, BitVec.ofInt_add, BitVec.ofInt_neg,
        BitVec.sub_eq_add_neg]
  | mul =>
      rcases cInt_eq_some hv with ⟨rfl, -⟩
      simp [BinOp.apply, BitVec.ofInt_mul]
  | div =>
      by_cases hne : y = 0
      · simp [BinOp.cApply, hne] at hv
      · simp only [BinOp.cApply, if_neg hne] at hv
        rcases cInt_eq_some hv with ⟨rfl, -⟩
        rw [BinOp.apply, if_neg (ofInt_ne_zero hy hne), Option.some.injEq, udiv_ofInt_iff hx hy hne]
        simp
  | eq | ne | and | or => cases hv

theorem Arith.forall_subExpr_paren {P : Arith → Prop} {e : Arith} :
    (∀ f : Arith, f.SubExpr (.paren e) → P f) ↔ (∀ f : Arith, f.SubExpr e → P f) ∧ P (.paren e) := by
  constructor
  · intro h
    exact ⟨fun f hsub => h f (.paren hsub), h _ (.refl _)⟩
  · rintro ⟨hin, hself⟩ f hsub
    cases hsub with
    | refl => exact hself
    | paren hsub => exact hin f hsub

theorem Arith.forall_subExpr_bin {P : Arith → Prop} {op : BinOp} {a b : Arith} :
    (∀ f : Arith, f.SubExpr (.bin op a b) → P f) ↔
      (∀ f : Arith, f.SubExpr a → P f) ∧ (∀ f : Arith, f.SubExpr b → P f) ∧ P (.bin op a b) := by
  constructor
  · intro h
    exact ⟨fun f hsub => h f (.left hsub), fun f hsub => h f (.right hsub), h _ (.refl _)⟩
  · rintro ⟨hleft, hright, hself⟩ f hsub
    cases hsub with
    | refl => exact hself
    | left hsub => exact hleft f hsub
    | right hsub => exact hright f hsub

/-- Every sub-expression has the word of its C value exactly when all divisions agree. -/
theorem Arith.value_ofInt_iff {e : Arith} (hg : e.Generated) {v : Int} (hv : e.cValue = some v) :
    (∀ f : Arith, f.SubExpr e → ∀ w, f.cValue = some w → f.value = some (BitVec.ofInt 32 w)) ↔
      e.DivisionsAgree := by
  induction e generalizing v with
  | dec digits =>
      rcases hg with ⟨n, hn, rfl⟩
      simp only [Arith.DivisionsAgree, iff_true]
      intro f hsub w hw
      cases hsub with
      | refl =>
          rw [Arith.cValue, (literal_value hn).1] at hw
          cases hw
          rw [Arith.value, (literal_value hn).2, BitVec.ofInt_natCast]
  | hex digits => exact hg.elim
  | paren e ih =>
      rw [Arith.DivisionsAgree, ← ih hg hv, Arith.forall_subExpr_paren]
      -- a bracket has the values of what it holds
      exact and_iff_left_of_imp fun h => h e (.refl e)
  | bin op a b iha ihb =>
      rcases hg with ⟨-, hga, hgb⟩
      rcases Arith.cValue_bin hv with ⟨x, y, ha, hb, happly⟩
      have hop := BinOp.apply_ofInt (a.cValue_range hga ha) (b.cValue_range hgb hb) happly
      rw [Arith.DivisionsAgree, ← iha hga ha, ← ihb hgb hb, Arith.forall_subExpr_bin]
      -- given the values of the operands, the operator decides
      refine and_congr_right fun hsa => and_congr_right fun hsb => ?_
      have hva := hsa a (.refl a) x ha
      have hvb := hsb b (.refl b) y hb
      have hvalue : (Arith.bin op a b).value = op.apply (BitVec.ofInt 32 x) (BitVec.ofInt 32 y) := by
        simp only [Arith.value, hva, hvb]
      rw [hvalue]
      constructor
      · intro h hdiv x' y' hx' hy'
        cases hx'.symm.trans ha
        cases hy'.symm.trans hb
        exact hop.1 (h v hv) hdiv
      · intro hdiv w hw
        cases hw.symm.trans hv
        exact hop.2 fun h => hdiv h x y ha hb

/-! ## Generated expressions -/

/-- The lexemes that `gen_rand_expr` appends. -/
def Lexeme.Generated (x : Lexeme) : Prop :=
  (∃ n < 100, x.type = .tkDecimal ∧ x.text = Nat.toDigits 10 n) ∨
    (∃ s, x = .sym s ∧ (s ∈ genRandOp ∨ s = .lparen ∨ s = .rparen))

theorem GenRandExpr.generated {buf buf' : List Char} {ls : List Lexeme}
    (h : GenRandExpr buf ls buf') : ∀ x ∈ ls, x.Generated := by
  induction h with
  | @num buf num hne hall n hn hnum =>
      intro x hx
      rw [List.mem_singleton] at hx
      subst hx
      exact Or.inl ⟨n, hn, rfl, hnum⟩
  | paren _ ih =>
      intro x hx
      simp only [List.mem_cons, List.mem_append, List.not_mem_nil, or_false] at hx
      rcases hx with rfl | hx | rfl
      · exact Or.inr ⟨_, rfl, Or.inr (Or.inl rfl)⟩
      · exact ih x hx
      · exact Or.inr ⟨_, rfl, Or.inr (Or.inr rfl)⟩
  | op _ ho _ ih ih' =>
      intro x hx
      simp only [List.mem_cons, List.mem_append] at hx
      rcases hx with hx | rfl | hx
      · exact ih x hx
      · exact Or.inr ⟨_, rfl, Or.inl ho⟩
      · exact ih' x hx

theorem Lexeme.Generated.text_length {x : Lexeme} (h : x.Generated) :
    x.text.length < tokenStrSize := by
  have hall : ∀ n < 100, (Nat.toDigits 10 n).length < tokenStrSize := by decide +kernel
  rcases h with ⟨n, hn, -, htext⟩ | ⟨s, rfl, -⟩
  · rw [htext]
    exact hall n hn
  · cases s <;> decide

/-- A generated lexeme whose token is a decimal one is the text of a number below 100. -/
theorem Lexeme.Generated.dec {x : Lexeme} (h : x.Generated) (ht : x.token.type = .tkDecimal) :
    ∃ n < 100, x.token.str = Nat.toDigits 10 n := by
  rcases h with ⟨n, hn, htype, htext⟩ | ⟨s, rfl, -⟩
  · refine ⟨n, hn, ?_⟩
    rw [Lexeme.token_str, htext]
    rintro s rfl
    cases s <;> cases htype
  · cases s <;> cases ht

theorem Lexeme.Generated.not_hex {x : Lexeme} (h : x.Generated) : x.token.type ≠ .tkHexadecimal := by
  intro ht
  rw [Lexeme.token_type] at ht
  rcases h with ⟨n, -, htype, -⟩ | ⟨s, rfl, -⟩
  · rw [ht] at htype
    cases htype
  · cases s <;> cases ht

/-- A generated lexeme that spells an operator is one of `gen_rand_op`. -/
theorem Lexeme.Generated.op {x : Lexeme} (h : x.Generated) {op : BinOp}
    (ht : x.token.type = op.type) : op = .add ∨ op = .sub ∨ op = .mul ∨ op = .div := by
  rw [Lexeme.token_type] at ht
  rcases h with ⟨n, -, htype, -⟩ | ⟨s, rfl, hs⟩
  · rw [htype] at ht
    cases op <;> cases ht
  · have htype : s.type = op.type := ht
    rcases hs with hs | rfl | rfl
    · rcases genRandOp_type hs with ⟨op', hop', hcases⟩
      rw [hop'] at htype
      rw [← BinOp.type_injective htype]
      exact hcases
    · cases op <;> cases htype
    · cases op <;> cases htype

theorem Spells.generated {k : Nat} {e : Arith} {ts : List Token} (h : Spells k e ts) :
    ∀ {ls : List Lexeme}, ls.map Lexeme.token = ts → (∀ x ∈ ls, x.Generated) → e.Generated := by
  induction h with
  | @dec t ht hne hdigits =>
      intro ls hls hg
      rcases List.map_eq_singleton_iff.1 hls with ⟨x, rfl, rfl⟩
      exact (hg x (by simp)).dec ht
  | @hex t digits ht _ _ _ =>
      intro ls hls hg
      rcases List.map_eq_singleton_iff.1 hls with ⟨x, rfl, rfl⟩
      exact absurd ht (hg x (by simp)).not_hex
  | @paren o c e ts _ _ _ ih =>
      intro ls hls hg
      rcases List.map_eq_cons_iff.1 hls with ⟨x, ls', rfl, -, hrest⟩
      rcases List.map_eq_append_iff.1 hrest with ⟨ls₁, ls₂, rfl, hin, -⟩
      exact ih hin fun y hy => hg y (by simp [hy])
  | @bin op t a b ts us _ ht _ iha ihb =>
      intro ls hls hg
      rcases List.map_eq_append_iff.1 hls with ⟨ls₁, ls₂, rfl, hleft, hrest⟩
      rcases List.map_eq_cons_iff.1 hrest with ⟨x, ls₃, rfl, rfl, hright⟩
      exact ⟨(hg x (by simp)).op ht, iha hleft fun y hy => hg y (by simp [hy]),
        ihb hright fun y hy => hg y (by simp [hy])⟩
  | up _ ih => exact ih

/-- A sub-expression is spelled by a part of the tokens. -/
theorem Spells.subExpr {k : Nat} {e f : Arith} {ts : List Token} (h : Spells k e ts)
    (hsub : f.SubExpr e) : ∃ us, us <:+: ts ∧ Spells 0 f us := by
  induction h with
  | dec ht hne hdigits =>
      cases hsub
      exact ⟨_, List.infix_rfl, (Spells.dec ht hne hdigits).lower (Nat.zero_le 5)⟩
  | hex ht hstr hne hdigits =>
      cases hsub
      exact ⟨_, List.infix_rfl, (Spells.hex ht hstr hne hdigits).lower (Nat.zero_le 5)⟩
  | @paren o c e ts ho hin hc ih =>
      cases hsub with
      | refl => exact ⟨_, List.infix_rfl, (Spells.paren ho hin hc).lower (Nat.zero_le 5)⟩
      | paren hsub =>
          rcases ih hsub with ⟨us, hus, hf⟩
          exact ⟨us, hus.trans ⟨[o], [c], by simp⟩, hf⟩
  | @bin op t a b ts us ha ht hb iha ihb =>
      cases hsub with
      | refl => exact ⟨_, List.infix_rfl, (Spells.bin ha ht hb).lower (Nat.zero_le _)⟩
      | left hsub =>
          rcases iha hsub with ⟨vs, hvs, hf⟩
          exact ⟨vs, hvs.trans ⟨[], t :: us, by simp⟩, hf⟩
      | right hsub =>
          rcases ihb hsub with ⟨vs, hvs, hf⟩
          exact ⟨vs, hvs.trans ⟨ts ++ [t], [], by simp⟩, hf⟩
  | up _ ih => exact ih hsub

/-! ## Agreement -/

/-- What the test owes to an expression with text `s`: when its value in C is defined, `expr`
returns the same word and leaves the flag set. -/
def AgreesWithOracle (e : Arith) (s : List Char) : Prop :=
  ∀ v, e.cValue = some v → ∀ (cpu : CPUState) (st : ExprState), st.eval.success = 1 →
    ∃ st', expr cpu s st = .ok (BitVec.ofInt 32 v) st' ∧ st'.eval.success = 1

theorem agreesWithOracle_iff {e : Arith} {ls : List Lexeme}
    (he : Spells 0 e (ls.map Lexeme.token)) (hlen : ls.length ≤ tokensSize)
    (htext : ∀ x ∈ ls, x.text.length < tokenStrSize)
    (hnest : nesting 0 (ls.map Lexeme.type) < 100) :
    AgreesWithOracle e (texts ls) ↔ ∀ v, e.cValue = some v → e.value = some (BitVec.ofInt 32 v) := by
  constructor
  · intro h v hv
    -- it is enough to look at a run from the statics at the start
    have hstart : (⟨.zero, .start .zero⟩ : ExprState).eval.success = 1 := rfl
    rcases h v hv .zero _ hstart with ⟨st', hrun, hflag⟩
    rcases expr_texts .zero he hlen htext hnest ⟨.zero, .start .zero⟩ with ⟨buf, ts, hts, heval⟩
    have hvalue := hts.evaluates .zero
    rw [heval] at hrun
    cases hw : e.value with
    | some w =>
        simp only [liftEval, hvalue.some w hw] at hrun
        cases hrun
        rfl
    -- without a value the evaluation clears `success`
    | none =>
        rcases hvalue.none hw (.start .zero) with ⟨w, s', hrun', hzero, -⟩
        simp only [liftEval, hrun'] at hrun
        cases hrun
        rw [hzero] at hflag
        cases hflag
  · intro h v hv cpu st hst
    rcases expr_texts cpu he hlen htext hnest st with ⟨buf, ts, hts, heval⟩
    refine ⟨{ st with buf }, ?_, hst⟩
    rw [heval, liftEval, (hts.evaluates cpu).some _ (h v hv)]

/-- A generated expression with a defined value is evaluated right, together with all its
sub-expressions, exactly when all its divisions have operands on which the signed and the
unsigned quotient agree. -/
theorem expr_genRandExpr_iff (ls : List Lexeme) (hgen : GenRandExpr [] ls (texts ls))
    (hlen : ls.length ≤ 512) (hnest : nesting 0 (ls.map Lexeme.type) < 100) :
    ∃ e, Spells 0 e (ls.map Lexeme.token) ∧
      (e.DivisionsAgree → AgreesWithOracle e (texts ls)) ∧
      ∀ v, e.cValue = some v →
        ((∀ f ls', f.SubExpr e → ls' <:+: ls → Spells 0 f (ls'.map Lexeme.token) →
            AgreesWithOracle f (texts ls')) ↔ e.DivisionsAgree) := by
  rcases hgen.spells with ⟨e, he⟩
  have hgenerated := hgen.generated
  have hpart : ∀ f ls', ls' <:+: ls → Spells 0 f (ls'.map Lexeme.token) →
      (AgreesWithOracle f (texts ls') ↔
        ∀ v, f.cValue = some v → f.value = some (BitVec.ofInt 32 v)) := by
    intro f ls' hpiece hf
    have hdeep := nesting_le_of_sublist (hpiece.map Lexeme.token)
    rw [Lexeme.map_token_type, Lexeme.map_token_type] at hdeep
    refine agreesWithOracle_iff hf (Nat.le_trans hpiece.length_le hlen) (fun x hx => ?_) (by omega)
    exact (hgenerated x (hpiece.subset hx)).text_length
  have hiff : ∀ v, e.cValue = some v →
      ((∀ f ls', f.SubExpr e → ls' <:+: ls → Spells 0 f (ls'.map Lexeme.token) →
        AgreesWithOracle f (texts ls')) ↔ e.DivisionsAgree) := by
    intro v hv
    rw [← Arith.value_ofInt_iff (he.generated rfl hgenerated) hv]
    constructor
    · intro h f hsub w hw
      rcases he.subExpr hsub with ⟨us, ⟨us₁, us₂, hus⟩, hf⟩
      -- the part of the tokens comes from a part of the lexemes
      rcases List.map_eq_append_iff.1 hus.symm with ⟨l₁, l₂, rfl, hl₁, -⟩
      rcases List.map_eq_append_iff.1 hl₁ with ⟨l₀, ls', rfl, -, rfl⟩
      have hpiece : ls' <:+: l₀ ++ ls' ++ l₂ := ⟨l₀, l₂, rfl⟩
      exact (hpart f ls' hpiece hf).1 (h f ls' hsub hpiece hf) w hw
    · intro h f ls' hsub hpiece hf
      exact (hpart f ls' hpiece hf).2 fun w hw => h f hsub w hw
  refine ⟨e, he, fun hdiv v hv => ?_, hiff⟩
  exact (hiff v hv).2 hdiv e ls (.refl e) List.infix_rfl he v hv

/-- The lexemes of `(1-3)/n`. -/
def differenceOver (n : List Char) (ne : n ≠ []) (all : ∀ c ∈ n, isDecDigit c = true) :
    List Lexeme :=
  [.sym .lparen, .dec ['1'] (by decide) (List.all_eq_true.1 rfl), .sym .minus,
    .dec ['3'] (by decide) (List.all_eq_true.1 rfl), .sym .rparen, .sym .divide, .dec n ne all]

theorem differenceOver_gen {n : List Char} {ne : n ≠ []} {all : ∀ c ∈ n, isDecDigit c = true}
    {k : Nat} (hk : k < 100) (hn : n = Nat.toDigits 10 k) :
    GenRandExpr [] (differenceOver n ne all) (texts (differenceOver n ne all)) := by
  have one : GenRandExpr ['('] [.dec ['1'] (by decide) (List.all_eq_true.1 rfl)] ['(', '1'] :=
    .num 1 (by decide) rfl
  have three : GenRandExpr ['(', '1', '-'] [.dec ['3'] (by decide) (List.all_eq_true.1 rfl)]
      ['(', '1', '-', '3'] := .num 3 (by decide) rfl
  have hdiff := @GenRandExpr.paren [] _ _ (one.op (o := .minus) (by decide) three)
  have htexts : texts (differenceOver n ne all) = ['(', '1', '-', '3', ')', '/'] ++ n := by
    simp [differenceOver, Lexeme.text, Symbol.text]
  rw [htexts]
  exact .op hdiff (o := .divide) (by decide) (.num k hk hn)

theorem differenceOver_spells (n : List Char) (ne : n ≠ []) (all : ∀ c ∈ n, isDecDigit c = true) :
    Spells 0 (.bin .div (.paren (.bin .sub (.dec ['1']) (.dec ['3']))) (.dec n))
      ((differenceOver n ne all).map Lexeme.token) := by
  have one : Spells 5 (.dec ['1']) [⟨.tkDecimal, ['1']⟩] :=
    .dec (t := ⟨.tkDecimal, ['1']⟩) rfl (by decide) (List.all_eq_true.1 rfl)
  have three : Spells 5 (.dec ['3']) [⟨.tkDecimal, ['3']⟩] :=
    .dec (t := ⟨.tkDecimal, ['3']⟩) rfl (by decide) (List.all_eq_true.1 rfl)
  have last : Spells 5 (.dec n) [⟨.tkDecimal, n⟩] := .dec (t := ⟨.tkDecimal, n⟩) rfl ne all
  have diff := @Spells.bin .sub ⟨.minus, []⟩ _ _ _ _ one.up.up rfl three.up
  have group := Spells.paren (o := ⟨.lparen, []⟩) (c := ⟨.rparen, []⟩) rfl diff.up.up.up rfl
  exact (@Spells.bin .div ⟨.divide, []⟩ _ _ _ _ group.up rfl last).lower (Nat.zero_le _)

/-- `(1-3)/1` agrees with the C program. -/
theorem expr_genRandExpr_iff_over_one :
    AgreesWithOracle (.bin .div (.paren (.bin .sub (.dec ['1']) (.dec ['3']))) (.dec ['1']))
      ['(', '1', '-', '3', ')', '/', '1'] := by
  rcases expr_genRandExpr_iff (differenceOver ['1'] (by decide) (List.all_eq_true.1 rfl))
    (differenceOver_gen (k := 1) (by decide) rfl) (by decide) (by decide) with ⟨e, he, hagrees, -⟩
  rw [← he.unique (differenceOver_spells ['1'] (by decide) (List.all_eq_true.1 rfl))]
  refine hagrees ?_
  rw [he.unique (differenceOver_spells ['1'] (by decide) (List.all_eq_true.1 rfl))]
  refine ⟨⟨trivial, trivial, fun h => by cases h⟩, trivial, ?_⟩
  intro _ x y hx hy
  have hdiff : (Arith.paren (.bin .sub (.dec ['1']) (.dec ['3']))).cValue = some (-2) := by decide
  have hone : (Arith.dec ['1']).cValue = some 1 := by decide
  rw [hdiff] at hx
  rw [hone] at hy
  cases hx
  cases hy
  decide

/-- `(1-3)/2` is -1 in C and 0x7fffffff here. -/
theorem expr_differs_on_negative_dividend :
    ¬ ∀ ls, GenRandExpr [] ls (texts ls) → ls.length ≤ 512 →
        nesting 0 (ls.map Lexeme.type) < 100 →
        ∀ e, Spells 0 e (ls.map Lexeme.token) → AgreesWithOracle e (texts ls) := by
  intro h
  have hagrees := h (differenceOver ['2'] (by decide) (List.all_eq_true.1 rfl))
    (differenceOver_gen (k := 2) (by decide) rfl) (by decide) (by decide) _
    (differenceOver_spells ['2'] (by decide) (List.all_eq_true.1 rfl))
  rw [agreesWithOracle_iff (differenceOver_spells ['2'] (by decide) (List.all_eq_true.1 rfl)) (by decide)
    (by simp [differenceOver, Lexeme.text, Symbol.text, tokenStrSize]) (by decide)] at hagrees
  exact absurd (hagrees (-1) (by decide)) (by decide)

end Nemu
