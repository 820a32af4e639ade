import Nemu.Expr.Flag
import Nemu.Expr.Texts

/-!
# What the evaluator accepts

`expr` reports a malformed expression by clearing a flag, and some branches forget to.  This file
compares two predicates on the stored tokens:

* `WellFormed`: the tokens are generated by the expression grammar;
* `operandsComplete`: in the ranges that `eval` descends to, no operand is missing.

For an input that is accepted the two say the same (`expr_accepts_iff`).  A missing operand is
therefore the one thing that the flag does not report.
-/

namespace Nemu

open StateRules

/-! ## Well-formed expressions -/

/-- The register names that `get_gpr` knows. -/
def knownRegisters : List (List Char) := [nameEax, nameEcx, nameEdx, nameEbx]

/-- The token lists of the expression grammar, with the unary `*` recorded as a dereference. -/
inductive WellFormed : List Token → Prop where
  | literal {t : Token} : t.type = .tkDecimal ∨ t.type = .tkHexadecimal → WellFormed [t]
  | register {t : Token} : t.type = .tkGpr → t.str ∈ knownRegisters → WellFormed [t]
  | paren {o c : Token} {ts : List Token} :
      o.type = .lparen → WellFormed ts → c.type = .rparen → WellFormed (o :: (ts ++ [c]))
  | deref {t : Token} {ts : List Token} : t.type = .deref → WellFormed ts → WellFormed (t :: ts)
  | bin {op : BinOp} {t : Token} {ts us : List Token} :
      WellFormed ts → t.type = op.type → WellFormed us → WellFormed (ts ++ t :: us)

/-! ## The bracket test as a function -/

/-- The answer of `check_parentheses`, which does not depend on the state. -/
def surrounded (ts : List TokenType) : Bool :=
  match checkSegment lifo ts (.start .zero) with
  | .ok b _ => b
  | .error _ _ => false

/-- `x` returns the same value from every state. -/
def Steady {α : Type} (x : OnEval α) : Prop := ∃ a, ∀ s, ∃ s', x s = .ok a s'

theorem Steady.pure {α : Type} (a : α) : Steady (Pure.pure a : OnEval α) :=
  ⟨a, fun s => ⟨s, rfl⟩⟩

theorem Steady.bind {α β : Type} {x : OnEval α} {f : α → OnEval β} (hx : Steady x)
    (hf : ∀ a, Steady (f a)) : Steady (x >>= f) := by
  rcases hx with ⟨a, ha⟩
  rcases hf a with ⟨b, hb⟩
  refine ⟨b, fun s => ?_⟩
  rcases ha s with ⟨s₁, h₁⟩
  rcases hb s₁ with ⟨s₂, h₂⟩
  exact ⟨s₂, (bind_ok h₁).trans h₂⟩

theorem closeBracket_steady (opener : TokenType) (L : List TokenType) :
    Steady (closeBracket lifo opener L) := by
  cases L with
  | nil => exact ⟨(false, []), fun s => ⟨_, rfl⟩⟩
  | cons m L =>
      by_cases h : m = opener
      · refine ⟨(true, L), fun s => ⟨s, ?_⟩⟩
        simp only [closeBracket, lifo, liftStack, pure_bind, h, if_true]
        rfl
      · refine ⟨(false, L), fun s => ⟨{ s with success := 0 }, ?_⟩⟩
        simp only [closeBracket, lifo, liftStack, pure_bind, h, if_false]
        rfl

theorem checkParenthesesLoop_steady (p i : Int) (ts L : List TokenType) :
    Steady (checkParenthesesLoop lifo p i ts L) := by
  induction ts generalizing i L with
  -- each token opens a bracket, closes one, or leaves the stack alone
  | nil => exact Steady.pure _
  | cons e rest ih =>
      cases hopen : e.isOpen with
      | true =>
          rw [checkParenthesesLoop_open lifo p i rest L hopen]
          by_cases hc : (!lifo.isEmpty L || i == p) = true
          · rw [if_pos hc]
            exact ih (i + 1) (e :: L)
          · rw [if_neg hc]
            exact Steady.pure _
      | false =>
          cases hclose : e.opener? with
          | some o =>
              rw [checkParenthesesLoop_close lifo p i rest L hclose]
              refine (closeBracket_steady o L).bind fun r => ?_
              cases hr : r.1 with
              | true => simpa using ih (i + 1) r.2
              | false => simpa using Steady.pure (false, r.2)
          | none =>
              rw [checkParenthesesLoop_other lifo p i rest L hopen hclose]
              exact ih (i + 1) L

theorem checkSegment_steady (ts : List TokenType) : Steady (checkSegment lifo ts) := by
  unfold checkSegment
  by_cases hends : ts.head? ≠ some .lparen ∨ ts.getLast? ≠ some .rparen
  · rw [if_pos hends]
    exact Steady.pure false
  · rw [if_neg hends]
    exact (checkParenthesesLoop_steady 0 0 ts lifo.init).bind fun r => Steady.pure _

theorem checkSegment_surrounded (ts : List TokenType) (s : EvalState) :
    ∃ s', checkSegment lifo ts s = .ok (surrounded ts) s' := by
  rcases checkSegment_steady ts with ⟨b, hb⟩
  rcases hb (.start .zero) with ⟨s₀, h₀⟩
  rcases hb s with ⟨s', h⟩
  have hval : surrounded ts = b := by simp only [surrounded, h₀]
  exact ⟨s', hval ▸ h⟩

theorem surrounded_of_run {ts : List TokenType} {b : Bool}
    (h : ∀ s, checkSegment lifo ts s = .ok b s) : surrounded ts = b := by
  simp only [surrounded, h]

/-- Only a list that starts and ends with round brackets is surrounded. -/
theorem surrounded_ends {ts : List TokenType} (h : surrounded ts = true) :
    ts.head? = some .lparen ∧ ts.getLast? = some .rparen := by
  by_cases hends : ts.head? ≠ some .lparen ∨ ts.getLast? ≠ some .rparen
  · have hfalse : surrounded ts = false := by
      refine surrounded_of_run fun s => ?_
      simp only [checkSegment, if_pos hends]
      rfl
    rw [hfalse] at h
    cases h
  · simpa only [not_or, not_not, ne_eq] using hends

/-! ## Missing operands -/

/-- Along the recursion of `eval`: no range is empty, a single token is an operand, and in front of
the `*` at which a range is dereferenced there is nothing but further `*`. -/
def operandsComplete : List Token → Bool
  | [] => false
  | [t] => t.type == .tkDecimal || t.type == .tkHexadecimal || t.type == .tkGpr
  | t :: u :: rest =>
      let l := t :: u :: rest
      if surrounded (l.map Token.type) then
        operandsComplete l.tail.dropLast
      else
        match l[dominatedOffset l]? with
        | none => false
        | some op =>
            operandsComplete (l.drop (dominatedOffset l + 1)) &&
              if op.type = .deref then
                (l.take (dominatedOffset l)).all fun t => t.type == .deref
              else
                operandsComplete (l.take (dominatedOffset l))
termination_by l => l.length
decreasing_by
  · simp only [List.tail_cons, List.length_dropLast, List.length_cons]
    omega
  · rw [List.length_drop, List.length_cons]
    omega
  · have hlt := dominatedOffset_lt (l := t :: u :: rest) (by simp)
    rw [List.length_take]
    omega

theorem operandsComplete_surrounded {l : List Token} (h : 2 ≤ l.length)
    (hs : surrounded (l.map Token.type) = true) :
    operandsComplete l = operandsComplete l.tail.dropLast := by
  match l, h with
  | t :: u :: rest, _ => rw [operandsComplete, if_pos hs]

theorem operandsComplete_split {l : List Token} (h : 2 ≤ l.length)
    (hs : surrounded (l.map Token.type) = false) {op : Token}
    (hop : l[dominatedOffset l]? = some op) :
    operandsComplete l = (operandsComplete (l.drop (dominatedOffset l + 1)) &&
      if op.type = .deref then (l.take (dominatedOffset l)).all fun t => t.type == .deref
      else operandsComplete (l.take (dominatedOffset l))) := by
  match l, h with
  | t :: u :: rest, _ =>
      rw [operandsComplete, if_neg (by simpa using hs)]
      simp only [hop]

/-! ## An accepted evaluation -/

theorem getGpr_known {cpu : CPUState} {str : List Char} {v : Word} {s s' : EvalState}
    (h : getGpr cpu str s = .ok v s') (hs' : s'.success = 1) : str ∈ knownRegisters := by
  unfold getGpr at h
  cases hfind : (getGprTable cpu).find? fun row => str == row.1 with
  | some row =>
      -- every row of the table carries one of the four names
      have hrow := List.find?_some hfind
      have hmem : row.1 ∈ (getGprTable cpu).map Prod.fst :=
        List.mem_map_of_mem (List.mem_of_find?_eq_some hfind)
      have hnames : ∀ n ∈ (getGprTable cpu).map Prod.fst, n ∈ knownRegisters := by
        simp [getGprTable, knownRegisters]
      rw [eq_of_beq hrow]
      exact hnames _ hmem
  | none =>
      rw [hfind] at h
      cases h
      cases hs'

theorem evalLeaf_gpr {cpu : CPUState} {t : Token} {v : Word} {s s' : EvalState}
    (ht : t.type = .tkGpr) (h : evalLeaf cpu t s = .ok v s') (hs' : s'.success = 1) :
    t.str ∈ knownRegisters := by
  simp only [evalLeaf, ht] at h
  rcases bind_eq_ok.1 h with ⟨w, s₁, hgpr, hrest⟩
  have hlater : Later s₁ s' :=
    (Within.get.bind fun s => Within.ite (Within.pure _) (Within.pure _)).ok hrest
  exact getGpr_known hgpr (hlater.set_before hs')

/-- With the flag still set, the operator applied was a binary one. -/
theorem applyOp_binary {type : TokenType} {x y v : Word} {s s' : EvalState}
    (h : applyOp type x y s = .ok v s') (hs' : s'.success = 1) : ∃ op : BinOp, type = op.type := by
  cases type with
  | plus => exact ⟨.add, rfl⟩
  | minus => exact ⟨.sub, rfl⟩
  | times => exact ⟨.mul, rfl⟩
  | divide => exact ⟨.div, rfl⟩
  | tkEq => exact ⟨.eq, rfl⟩
  | tkUeq => exact ⟨.ne, rfl⟩
  | tkAnd => exact ⟨.and, rfl⟩
  | tkOr => exact ⟨.or, rfl⟩
  | null | tkNotype | tkGpr | tkHexadecimal | tkDecimal | deref | lparen | rparen | lbracket
  | rbracket | lbrace | rbrace =>
      cases h
      cases hs'

theorem WellFormed.derefs {ds ts : List Token} (hds : ∀ d ∈ ds, d.type = .deref)
    (h : WellFormed ts) : WellFormed (ds ++ ts) := by
  induction ds with
  | nil => exact h
  | cons d ds ih => exact .deref (hds d (by simp)) (ih fun d hd => hds d (by simp [hd]))

theorem take_getElem?_drop {l : List Token} {k : Nat} {op : Token} (h : l[k]? = some op) :
    l.take k ++ op :: l.drop (k + 1) = l := by
  rcases List.getElem?_eq_some_iff.1 h with ⟨hk, rfl⟩
  rw [← List.drop_eq_getElem_cons hk, List.take_append_drop]

/-- A list is its first element, the part between, and its last element. -/
theorem exists_ends {l : List Token} (h : 2 ≤ l.length) :
    ∃ o c, l = o :: (l.tail.dropLast ++ [c]) ∧ l.head? = some o ∧ l.getLast? = some c := by
  cases l with
  | nil => simp at h
  | cons o rest =>
      have hne : rest ≠ [] := by
        rintro rfl
        simp at h
      refine ⟨o, rest.getLast hne, ?_, rfl, ?_⟩
      · rw [List.tail_cons, List.dropLast_append_getLast]
      · rw [List.getLast?_cons, List.getLast?_eq_some_getLast hne]
        rfl

/-- A list that is accepted and has no missing operand is well-formed. -/
theorem wellFormed_of_accepted (cpu : CPUState) (l : List Token) {v : Word} {s s' : EvalState}
    (h : evalSegment lifo cpu l s = .ok v s') (hs' : s'.success = 1)
    (hcomplete : operandsComplete l = true) : WellFormed l := by
  induction l using segment_induction generalizing v s s' with
  | nil =>
      simp [operandsComplete] at hcomplete
  | single t =>
      rw [evalSegment] at h
      simp only [operandsComplete, Bool.or_eq_true, beq_iff_eq] at hcomplete
      rcases hcomplete with hliteral | hgpr
      · exact .literal hliteral
      · exact .register hgpr (evalLeaf_gpr hgpr h hs')
  | split l hlen ihIn ihLeft ihRight =>
      rcases exists_dominated hlen with ⟨op, hop⟩
      rcases checkSegment_surrounded (l.map Token.type) s with ⟨s₁, hcheck⟩
      rw [evalSegment_split lifo cpu hlen hop, bind_ok hcheck] at h
      cases hsur : surrounded (l.map Token.type) with
      | true =>
          rw [hsur, if_pos rfl] at h
          rw [operandsComplete_surrounded hlen hsur] at hcomplete
          have hin := ihIn h hs' hcomplete
          rcases surrounded_ends hsur with ⟨hhead, hlast⟩
          rcases exists_ends hlen with ⟨o, c, hl, hfirst, hend⟩
          rw [List.head?_map, hfirst] at hhead
          rw [List.getLast?_map, hend] at hlast
          rw [hl]
          exact .paren (Option.some.inj hhead) hin (Option.some.inj hlast)
      | false =>
          rw [hsur, if_neg (by simp)] at h
          rw [operandsComplete_split hlen hsur hop, Bool.and_eq_true] at hcomplete
          rcases hcomplete with ⟨hright, hleft⟩
          rw [← take_getElem?_drop hop]
          by_cases hderef : op.type = .deref
          · rw [if_neg (not_not.2 hderef)] at h
            rw [if_pos hderef, List.all_eq_true] at hleft
            rcases bind_eq_ok.1 h with ⟨val1, s₂, hrun, hread⟩
            have hflag := ((Later.liftBus _).ok hread).set_before hs'
            refine .derefs (fun d hd => eq_of_beq (hleft d hd)) (.deref hderef ?_)
            exact ihRight hrun hflag hright
          · rw [if_pos hderef] at h
            rw [if_neg hderef] at hleft
            rcases bind_eq_ok.1 h with ⟨val1, s₂, hrunLeft, hrest⟩
            rcases bind_eq_ok.1 hrest with ⟨val2, s₃, hrunRight, happly⟩
            -- the flag at the end was set after each operand
            have hflag₃ := ((applyOp_within (R := Later) _ _ _).ok happly).set_before hs'
            have hflag₂ := ((evalSegment_within (R := Later) lifo cpu _).ok hrunRight).set_before hflag₃
            rcases applyOp_binary happly hs' with ⟨o, ho⟩
            exact .bin (ihLeft hrunLeft hflag₂ hleft) ho (ihRight hrunRight hflag₃ hright)

/-! ## The grammar with precedence -/

/-- `Leveled k ts`: the grammar with a level for each operator.  Levels 0 to 4 are those of the
binary operators, level 5 has the dereferences and level 6 the primary expressions. -/
inductive Leveled : Nat → List Token → Prop where
  | literal {t : Token} : t.type = .tkDecimal ∨ t.type = .tkHexadecimal → Leveled 6 [t]
  | register {t : Token} : t.type = .tkGpr → Leveled 6 [t]
  | paren {o c : Token} {ts : List Token} :
      o.type = .lparen → Leveled 0 ts → c.type = .rparen → Leveled 6 (o :: (ts ++ [c]))
  | derefs {ds ts : List Token} :
      (∀ d ∈ ds, d.type = .deref) → Leveled 6 ts → Leveled 5 (ds ++ ts)
  | bin {op : BinOp} {t : Token} {ts us : List Token} :
      Leveled op.level ts → t.type = op.type → Leveled (op.level + 1) us →
        Leveled op.level (ts ++ t :: us)
  | up {k : Nat} {ts : List Token} : Leveled (k + 1) ts → Leveled k ts

theorem Nested.derefs {k : Nat} {ds : List Token} {ts : List TokenType}
    (hds : ∀ d ∈ ds, d.type = .deref) (hk : k ≤ 5) (h : Nested k ts) :
    Nested k (ds.map Token.type ++ ts) := by
  induction ds with
  | nil => exact h
  | cons d ds ih =>
      rw [List.map_cons, hds d (by simp)]
      refine .token rfl rfl (fun j hj => ?_) (ih fun d hd => hds d (by simp [hd]))
      cases hj
      exact hk

namespace Leveled

theorem nested {k : Nat} {ts : List Token} (h : Leveled k ts) : Nested k (ts.map Token.type) := by
  induction h with
  | @literal t ht =>
      have hleaf : Nested 6 [t.type] := by
        rcases ht with ht | ht <;> rw [ht] <;>
          exact .token rfl rfl (by simp [TokenType.priority]) (.nil 6)
      exact hleaf
  | @register t ht =>
      have hleaf : Nested 6 [t.type] := by
        rw [ht]
        exact .token rfl rfl (by simp [TokenType.priority]) (.nil 6)
      exact hleaf
  | paren ho _ hc ih =>
      simp only [List.map_cons, List.map_append, ho, hc, List.map_nil]
      exact ih.surround 6
  -- a `*` in front has the priority of a multiplication
  | derefs hds _ ih =>
      rw [List.map_append]
      exact Nested.derefs hds (Nat.le_refl 5) (ih.mono (Nat.le_succ 5))
  -- the operator binds less tightly than anything on its right
  | @bin op t ts us _ ht _ iha ihb =>
      rw [List.map_append, List.map_cons]
      exact iha.operator (ht ▸ op.priority_type) (ihb.mono (Nat.le_succ _))
  | up _ ih =>
      exact ih.mono (Nat.le_succ _)

theorem ne_nil {k : Nat} {ts : List Token} (h : Leveled k ts) : ts ≠ [] := by
  induction h with
  | literal _ | register _ | paren _ _ _ _ | bin _ _ _ _ _ => simp
  | derefs _ _ ih => simp [ih]
  | up _ ih => exact ih

theorem lower {j k : Nat} {ts : List Token} (hjk : j ≤ k) (h : Leveled k ts) : Leveled j ts := by
  induction hjk with
  | refl => exact h
  | step _ ih => exact ih (.up h)

/-- An operator and a unary expression behind a list take their place by precedence. -/
theorem append_unary {k : Nat} {op : BinOp} {t : Token} {ts us : List Token} (h : Leveled k ts)
    (ht : t.type = op.type) (hk : k ≤ op.level) (hus : Leveled 5 us) :
    Leveled k (ts ++ t :: us) := by
  have hlevel := op.level_le
  have hright : Leveled (op.level + 1) us := hus.lower (Nat.succ_le_succ hlevel)
  induction h with
  | literal _ | register _ | paren _ _ _ _ | derefs _ _ _ =>
      exact absurd hk (by omega)
  | @bin op' t' ts₁ ts₂ ha ht' hb _ ihb =>
      rcases Nat.lt_or_eq_of_le hk with hlt | heq
      · -- the operator binds tighter than the one at the root
        rw [List.append_assoc, List.cons_append]
        exact .bin ha ht' (ihb hlt)
      · rw [heq]
        exact .bin (heq ▸ Leveled.bin ha ht' hb) ht hright
  | @up k ts h ih =>
      rcases Nat.lt_or_eq_of_le hk with hlt | heq
      · exact .up (ih hlt)
      · rw [heq]
        exact .bin (heq ▸ Leveled.up h) ht hright

end Leveled

/-- Unary expressions with operators between them, read without precedence. -/
inductive UnaryChain : List Token → Prop where
  | one {ds ts : List Token} :
      (∀ d ∈ ds, d.type = .deref) → Leveled 6 ts → UnaryChain (ds ++ ts)
  | snoc {op : BinOp} {t : Token} {ts us : List Token} :
      UnaryChain ts → t.type = op.type → Leveled 5 us → UnaryChain (ts ++ t :: us)

namespace UnaryChain

theorem primary {ts : List Token} (h : Leveled 6 ts) : UnaryChain ts :=
  @one [] ts (by simp) h

theorem leveled {ts : List Token} (h : UnaryChain ts) : Leveled 0 ts := by
  induction h with
  | one hds h => exact (Leveled.derefs hds h).lower (Nat.zero_le 5)
  | snoc _ ht hus ih => exact ih.append_unary ht (Nat.zero_le _) hus

/-- A dereference in front of a chain belongs to its first operand. -/
theorem deref {t : Token} {ts : List Token} (ht : t.type = .deref) (h : UnaryChain ts) :
    UnaryChain (t :: ts) := by
  induction h with
  | @one ds ts hds h =>
      rw [← List.cons_append]
      exact .one (List.forall_mem_cons.2 ⟨ht, hds⟩) h
  | snoc _ ho hus ih =>
      rw [← List.cons_append]
      exact .snoc ih ho hus

theorem append {op : BinOp} {t : Token} {ts us : List Token} (h : UnaryChain ts)
    (ht : t.type = op.type) (h' : UnaryChain us) : UnaryChain (ts ++ t :: us) := by
  induction h' with
  | one hds hp => exact .snoc h ht (.derefs hds hp)
  | @snoc op' t' us₁ us₂ _ ht' hus ih =>
      have hassoc : ts ++ t :: (us₁ ++ t' :: us₂) = (ts ++ t :: us₁) ++ t' :: us₂ := by simp
      rw [hassoc]
      exact .snoc ih ht' hus

end UnaryChain

theorem WellFormed.chain {ts : List Token} (h : WellFormed ts) : UnaryChain ts := by
  induction h with
  | literal ht => exact .primary (.literal ht)
  | register ht _ => exact .primary (.register ht)
  | paren ho _ hc ih => exact .primary (.paren ho ih.leveled hc)
  | deref ht _ ih => exact ih.deref ht
  | bin _ ht _ ih ih' => exact ih.append ht ih'

/-! ## Well-formed lists have no missing operand -/

/-- A list split at the operator that the scan finds. -/
theorem operandsComplete_at {ts us : List Token} {t : Token} {k : Nat}
    (ht : t.type.priority = some k) (h : Nested k (ts.map Token.type))
    (h' : Nested (k + 1) (us.map Token.type)) (hus : us ≠ []) :
    operandsComplete (ts ++ t :: us) = (operandsComplete us &&
      if t.type = .deref then ts.all fun t => t.type == .deref else operandsComplete ts) := by
  have hopen : t.type.isOpen = false ∧ t.type.opener? = none := by
    cases hty : t.type <;> rw [hty] at ht <;> simp [TokenType.priority] at ht <;> exact ⟨rfl, rfl⟩
  have hlen : 2 ≤ (ts ++ t :: us).length := by
    have hpos := List.length_pos_iff.2 hus
    simp only [List.length_append, List.length_cons]
    omega
  have hsur : surrounded ((ts ++ t :: us).map Token.type) = false := by
    refine surrounded_of_run fun s => ?_
    rw [List.map_append, List.map_cons]
    exact checkSegment_split h hopen.1 hopen.2 h' s
  have hoffset := dominatedOffset_split ht h h'
  have hop : (ts ++ t :: us)[dominatedOffset (ts ++ t :: us)]? = some t := by
    rw [hoffset]
    simp
  rw [operandsComplete_split hlen hsur hop, hoffset]
  simp

theorem Leveled.operandsComplete {k : Nat} {ts : List Token} (h : Leveled k ts) :
    operandsComplete ts = true := by
  induction h with
  | literal ht =>
      rcases ht with ht | ht <;> simp [Nemu.operandsComplete, ht]
  | register ht =>
      simp [Nemu.operandsComplete, ht]
  | @paren o c ts ho hin hc ih =>
      have hlen : 2 ≤ (o :: (ts ++ [c])).length := by
        simp only [List.length_cons, List.length_append, List.length_nil]
        omega
      have hsur : surrounded ((o :: (ts ++ [c])).map Token.type) = true := by
        refine surrounded_of_run fun s => ?_
        simp only [List.map_cons, List.map_append, ho, hc, List.map_nil]
        exact checkSegment_surround hin.nested s
      rw [operandsComplete_surrounded hlen hsur]
      simpa using ih
  | @derefs ds ts hds hp ih =>
      cases List.eq_nil_or_concat ds with
      | inl hnil =>
          rw [hnil]
          exact ih
      | inr hconcat =>
          -- the scan takes the last dereference
          rcases hconcat with ⟨ds', d, rfl⟩
          have hd : d.type = .deref := hds d (by simp)
          have hds' : ∀ d ∈ ds', d.type = .deref := fun d hd => hds d (by simp [hd])
          have hleft : Nested 5 (ds'.map Token.type) := by
            simpa using Nested.derefs hds' (Nat.le_refl 5) (.nil 5)
          rw [List.concat_eq_append, List.append_assoc, List.singleton_append,
            operandsComplete_at (by rw [hd]; rfl) hleft hp.nested hp.ne_nil, ih, if_pos hd]
          simpa using hds'
  | @bin op t ts us ha ht hb iha ihb =>
      have hne : t.type ≠ .deref := ht ▸ op.type_scan.2.2
      rw [operandsComplete_at (ht ▸ op.priority_type) ha.nested hb.nested hb.ne_nil, if_neg hne,
        iha, ihb]
      rfl
  | up _ ih => exact ih

/-! ## expr -/

/-- The tokens that the array holds. -/
def TokenBuf.stored (buf : TokenBuf) : List Token := segment buf.tokens 0 ((buf.nrToken : Int) - 1)

theorem TokenBuf.stored_eq (buf : TokenBuf) :
    buf.stored = (List.range buf.nrToken).map buf.tokens := by
  simp [TokenBuf.stored, segment]

/-- The conclusion about an accepted input: the tokens are well-formed and the evaluation from `s`
to `s'` has divided nothing by zero. -/
def RightlyAccepted (tokens : List Token) (s s' : EvalState) : Prop :=
  WellFormed tokens ∧ ∃ ms, s'.messages = s.messages ++ ms ∧ .divisionByZero ∉ ms

theorem expr_of_stored {cpu : CPUState} {e : List Char} {st : ExprState} {buf : TokenBuf}
    (h : makeToken e st.buf = .ok true buf) :
    expr cpu e st = liftEval (evalSegment codeStack cpu buf.stored) { st with buf } := by
  rw [expr_of_makeToken cpu h, eval_eq_evalSegment, TokenBuf.stored]

/-- A run of `expr` that returns has gone through `make_token`. -/
theorem expr_ok_makeToken {cpu : CPUState} {e : List Char} {st st' : ExprState} {v : Word}
    (h : expr cpu e st = .ok v st') : ∃ b buf, makeToken e st.buf = .ok b buf := by
  cases hrun : makeToken e st.buf with
  | ok b buf => exact ⟨b, buf, rfl⟩
  | error f buf =>
      have hlift : liftTokens (makeToken e) st = .error f { st with buf } := by
        simp only [liftTokens, hrun]
      rw [expr, bind_error hlift] at h
      cases h

/-- What an accepted input went through. -/
theorem expr_accepted {cpu : CPUState} {e : List Char} {st st' : ExprState} {v : Word}
    (h : expr cpu e st = .ok v st') (hs' : st'.eval.success = 1) :
    ∃ buf, makeToken e st.buf = .ok true buf ∧
      evalSegment lifo cpu buf.stored st.eval = .ok v st'.eval := by
  rcases expr_ok_makeToken h with ⟨b, buf, hrun⟩
  cases b with
  | false =>
      have hlift : liftTokens (makeToken e) st = .ok false { st with buf } := by
        simp only [liftTokens, hrun]
      rw [expr, bind_ok hlift] at h
      cases h
      cases hs'
  | true =>
      refine ⟨buf, hrun, ?_⟩
      rw [expr_of_stored hrun, liftEval] at h
      -- a run that returns is the run over the unbounded stack
      rcases evalSegment_agrees cpu buf.stored st.eval with heq | ⟨-, s', herr⟩
      · rw [← heq]
        cases heval : evalSegment codeStack cpu buf.stored st.eval with
        | ok w s' =>
            rw [heval] at h
            cases h
            rfl
        | error f s' =>
            rw [heval] at h
            cases h
      · rw [herr] at h
        cases h

/-- An accepted input is well-formed, and evaluated without a division by zero, exactly when no
operand is missing in it. -/
theorem expr_accepts_iff (cpu : CPUState) (e : List Char) (st st' : ExprState) (v : Word)
    (h : expr cpu e st = .ok v st') (hs' : st'.eval.success = 1) :
    ∃ buf, makeToken e st.buf = .ok true buf ∧
      (RightlyAccepted buf.stored st.eval st'.eval ↔ operandsComplete buf.stored = true) := by
  rcases expr_accepted h hs' with ⟨buf, hrun, heval⟩
  refine ⟨buf, hrun, fun hright => hright.1.chain.leveled.operandsComplete, fun hcomplete => ?_⟩
  refine ⟨wellFormed_of_accepted cpu _ heval hs' hcomplete, ?_⟩
  rcases ((evalSegment_within (R := Later) lifo cpu _).ok heval).logged with ⟨ms, hms, hdiv⟩
  refine ⟨ms, hms, fun hmem => ?_⟩
  rw [hdiv hmem] at hs'
  cases hs'

/-- The tokens of `1+*0x100`. -/
def onePlusWord : List Token :=
  [⟨.tkDecimal, ['1']⟩, ⟨.plus, []⟩, ⟨.deref, []⟩, ⟨.tkHexadecimal, ['0', 'x', '1', '0', '0']⟩]

/-- The tokens of `2*(1+*0x100)`. -/
def twiceOnePlusWord : List Token :=
  [⟨.tkDecimal, ['2']⟩, ⟨.times, []⟩, ⟨.lparen, []⟩] ++ onePlusWord ++ [⟨.rparen, []⟩]

theorem evalSegment_onePlusWord :
    evalSegment codeStack .zero onePlusWord (.start .zero) = .ok 1 (.start .zero) := by
  have hone : evalSegment codeStack .zero (onePlusWord.take 1) (.start .zero) =
      .ok 1 (.start .zero) := by
    rw [show onePlusWord.take 1 = [⟨.tkDecimal, ['1']⟩] from rfl, evalSegment]
    rfl
  have haddr : evalSegment codeStack .zero (onePlusWord.drop 3) (.start .zero) =
      .ok 0x100 (.start .zero) := by
    rw [show onePlusWord.drop 3 = [⟨.tkHexadecimal, ['0', 'x', '1', '0', '0']⟩] from rfl,
      evalSegment]
    rfl
  have hword : evalSegment codeStack .zero (onePlusWord.drop 2) (.start .zero) =
      .ok 0 (.start .zero) := by
    have hop : (onePlusWord.drop 2)[dominatedOffset (onePlusWord.drop 2)]? = some ⟨.deref, []⟩ := by
      decide
    rw [evalSegment_deref (by decide) hop rfl rfl haddr]
    rfl
  have hop : onePlusWord[dominatedOffset onePlusWord]? = some ⟨.plus, []⟩ := by decide
  rw [evalSegment_binary (by decide) hop rfl (by decide) hone hword]
  rfl

theorem evalSegment_twiceOnePlusWord :
    evalSegment codeStack .zero twiceOnePlusWord (.start .zero) = .ok 2 (.start .zero) := by
  have htwo : evalSegment codeStack .zero (twiceOnePlusWord.take 1) (.start .zero) =
      .ok 2 (.start .zero) := by
    rw [show twiceOnePlusWord.take 1 = [⟨.tkDecimal, ['2']⟩] from rfl, evalSegment]
    rfl
  have hgroup : evalSegment codeStack .zero (twiceOnePlusWord.drop 2) (.start .zero) =
      .ok 1 (.start .zero) := by
    rw [evalSegment_group (by decide) rfl]
    exact evalSegment_onePlusWord
  have hop : twiceOnePlusWord[dominatedOffset twiceOnePlusWord]? = some ⟨.times, []⟩ := by decide
  rw [evalSegment_binary (by decide) hop rfl (by decide) htwo hgroup]
  rfl

/-- `2*(1+*0x100)` is accepted and has all its operands. -/
theorem expr_accepts_iff_word :
    ∃ buf, makeToken "2*(1+*0x100)".toList TokenBuf.zero = .ok true buf ∧
      (RightlyAccepted buf.stored (.start .zero) (.start .zero) ↔
        operandsComplete buf.stored = true) := by
  have hstored : (final (makeToken "2*(1+*0x100)".toList TokenBuf.zero)).stored =
      twiceOnePlusWord := by decide +kernel
  have hmade : ∃ buf, makeToken "2*(1+*0x100)".toList TokenBuf.zero = .ok true buf := by
    have hok : (match makeToken "2*(1+*0x100)".toList TokenBuf.zero with
        | .ok made _ => made
        | .error _ _ => false) = true := by decide +kernel
    cases hrun : makeToken "2*(1+*0x100)".toList TokenBuf.zero with
    | ok made buf =>
        rw [hrun] at hok
        cases hok
        exact ⟨buf, rfl⟩
    | error e buf =>
        rw [hrun] at hok
        cases hok
  rcases hmade with ⟨buf, hrun⟩
  rw [hrun, final_ok] at hstored
  have hexpr := @expr_of_stored .zero _ ⟨.zero, .start .zero⟩ _ hrun
  rw [hstored, liftEval, evalSegment_twiceOnePlusWord] at hexpr
  exact expr_accepts_iff .zero _ ⟨.zero, .start .zero⟩ _ 2 hexpr rfl

/-- The tokens of `1+`. -/
def onePlus : List Token := [⟨.tkDecimal, ['1']⟩, ⟨.plus, []⟩]

/-- The range behind the operator of `1+` is empty; it has the value 0 and leaves the flag set. -/
theorem evalSegment_onePlus : evalSegment codeStack .zero onePlus (.start .zero) =
    .ok 1 { EvalState.start .zero with messages := [.startBiggerThanEnd] } := by
  have hone : evalSegment codeStack .zero (onePlus.take 1) (.start .zero) =
      .ok 1 (.start .zero) := by
    rw [show onePlus.take 1 = [⟨.tkDecimal, ['1']⟩] from rfl, evalSegment]
    rfl
  have hnothing : evalSegment codeStack .zero (onePlus.drop 2) (.start .zero) =
      .ok 0 { EvalState.start .zero with messages := [.startBiggerThanEnd] } := by
    rw [show onePlus.drop 2 = [] from rfl, evalSegment]
    rfl
  have hop : onePlus[dominatedOffset onePlus]? = some ⟨.plus, []⟩ := by decide
  rw [evalSegment_binary (by decide) hop rfl (by decide) hone hnothing]
  rfl

theorem onePlus_not_wellFormed : ¬ WellFormed onePlus := by
  intro h
  have hcomplete := h.chain.leveled.operandsComplete
  have hsur : surrounded (onePlus.map Token.type) = false := rfl
  have hop : onePlus[dominatedOffset onePlus]? = some ⟨.plus, []⟩ := by decide
  have hright : onePlus.drop (dominatedOffset onePlus + 1) = [] := by decide
  rw [operandsComplete_split (by decide) hsur hop, hright] at hcomplete
  simp [operandsComplete] at hcomplete

/-- `1+` is accepted. -/
theorem expr_accepts_missing_operand :
    ¬ ∀ (cpu : CPUState) (e : List Char) (st st' : ExprState) (v : Word),
        expr cpu e st = .ok v st' → st'.eval.success = 1 →
        ∃ buf, makeToken e st.buf = .ok true buf ∧
          RightlyAccepted buf.stored st.eval st'.eval := by
  intro h
  have hrun : makeToken ['1', '+'] TokenBuf.zero =
      .ok true (final (makeToken ['1', '+'] TokenBuf.zero)) := rfl
  have hstored : (final (makeToken ['1', '+'] TokenBuf.zero)).stored = onePlus := by decide
  have hexpr := @expr_of_stored .zero _ ⟨.zero, .start .zero⟩ _ hrun
  rw [hstored, liftEval, evalSegment_onePlus] at hexpr
  rcases h _ _ _ _ _ hexpr rfl with ⟨buf, hbuf, hright⟩
  rw [hrun] at hbuf
  cases hbuf
  rw [hstored] at hright
  exact onePlus_not_wellFormed hright.1

end Nemu
