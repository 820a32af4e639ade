import Nemu.Expr.Nested

/-!
# The recursion of eval over its parts

`evalOver` is the recursion of `eval` with what it does at a leaf, at an operator and at a
dereference as a parameter, in any monad.  `evalSegment` is one instance; a second one records what
it reads.  On a well-bracketed list both split where its brackets and operators say.
-/

namespace Nemu

open StateRules

/-! ## The recursion -/

/-- What an evaluation does at each of its places. -/
structure EvalOps (m : Type → Type) where
  empty : m Word
  leaf : Token → m Word
  check : List TokenType → m Bool
  apply : TokenType → Word → Word → m Word
  read : Word → m Word

section Recursion

variable {m : Type → Type} [Monad m]

/-- The recursion of `eval` on the list of the tokens in its range. -/
def evalOver (o : EvalOps m) : List Token → m Word
  | [] => o.empty
  | [t] => o.leaf t
  | t :: u :: rest => do
      let l := t :: u :: rest
      let surrounded ← o.check (l.map Token.type)
      if surrounded then
        evalOver o l.tail.dropLast
      else
        match l[dominatedOffset l]? with
        | none => return 0
        | some op =>
            if op.type ≠ .deref then do
              let val1 ← evalOver o (l.take (dominatedOffset l))
              let val2 ← evalOver o (l.drop (dominatedOffset l + 1))
              o.apply op.type val1 val2
            else do
              let val1 ← evalOver o (l.drop (dominatedOffset l + 1))
              o.read val1
termination_by l => l.length
decreasing_by
  · simp only [List.tail_cons, List.length_dropLast, List.length_cons]
    omega
  · have hlt := dominatedOffset_lt (l := t :: u :: rest) (by simp)
    rw [List.length_take]
    omega
  · rw [List.length_drop, List.length_cons]
    omega
  · rw [List.length_drop, List.length_cons]
    omega

theorem evalOver_split (o : EvalOps m) {l : List Token} (h : 2 ≤ l.length) {op : Token}
    (hop : l[dominatedOffset l]? = some op) :
    evalOver o l =
      o.check (l.map Token.type) >>= fun surrounded =>
        if surrounded then evalOver o l.tail.dropLast
        else if op.type ≠ .deref then
          evalOver o (l.take (dominatedOffset l)) >>= fun val1 =>
            evalOver o (l.drop (dominatedOffset l + 1)) >>= fun val2 => o.apply op.type val1 val2
        else evalOver o (l.drop (dominatedOffset l + 1)) >>= fun val1 => o.read val1 := by
  match l, h with
  | t :: u :: rest, _ =>
      rw [evalOver]
      simp only [hop]

/-! ## Well-bracketed lists -/

/-- An operator or dereference with no lower priority before it and only higher ones behind it is
where the recursion splits. -/
theorem evalOver_at (o : EvalOps m) {ts us : List Token} {t : Token} {k : Nat}
    (ht : t.type.priority = some k) (h : Nested k (ts.map Token.type))
    (h' : Nested (k + 1) (us.map Token.type)) (hus : us ≠ []) :
    evalOver o (ts ++ t :: us) =
      o.check ((ts ++ t :: us).map Token.type) >>= fun surrounded =>
        if surrounded then evalOver o (ts ++ t :: us).tail.dropLast
        else if t.type ≠ .deref then
          evalOver o ts >>= fun val1 => evalOver o us >>= fun val2 => o.apply t.type val1 val2
        else evalOver o us >>= fun val1 => o.read val1 := by
  have hoffset := dominatedOffset_split ht h h'
  have hlen : 2 ≤ (ts ++ t :: us).length := by
    have hpos := List.length_pos_iff.2 hus
    simp only [List.length_append, List.length_cons]
    omega
  have hop : (ts ++ t :: us)[dominatedOffset (ts ++ t :: us)]? = some t := by
    rw [hoffset]
    simp
  have htake : (ts ++ t :: us).take ts.length = ts := by simp
  have hdrop : (ts ++ t :: us).drop (ts.length + 1) = us := by simp
  rw [evalOver_split o hlen hop, hoffset, htake, hdrop]

/-- What is tested for surrounding brackets is evaluated without them, if it has them. -/
theorem evalOver_paren (o : EvalOps m) (ob cb : Token) (ts : List Token) :
    ∃ f, evalOver o (ob :: (ts ++ [cb])) =
      o.check ((ob :: (ts ++ [cb])).map Token.type) >>= fun surrounded =>
        if surrounded then evalOver o ts else f := by
  have hlen : 2 ≤ (ob :: (ts ++ [cb])).length := by simp
  have hinner : (ob :: (ts ++ [cb])).tail.dropLast = ts := by simp
  rcases exists_dominated hlen with ⟨op, hop⟩
  have hsplit := evalOver_split o hlen hop
  rw [hinner] at hsplit
  exact ⟨_, hsplit⟩

end Recursion

/-! ## evalSegment -/

def plainOps {σ : Type} (ops : StackOps σ) (cpu : CPUState) : EvalOps OnEval where
  empty := do
    log .startBiggerThanEnd
    return 0
  leaf := evalLeaf cpu
  check := checkSegment ops
  apply := applyOp
  read addr := liftBus (vaddrRead addr 4)

theorem evalSegment_eq_evalOver {σ : Type} (ops : StackOps σ) (cpu : CPUState) (l : List Token) :
    evalSegment ops cpu l = evalOver (plainOps ops cpu) l := by
  induction l using segment_induction with
  | nil => rw [evalSegment, evalOver, plainOps]
  | single t => rw [evalSegment, evalOver, plainOps]
  | split l hlen ihIn ihLeft ihRight =>
      rcases exists_dominated hlen with ⟨op, hop⟩
      rw [evalSegment_split ops cpu hlen hop, evalOver_split _ hlen hop, ihIn, ihLeft, ihRight]
      rfl

/-! ## Registers under a flag -/

/-- What `get_gpr` finds. -/
def gprOf (cpu : CPUState) (str : List Char) : Option Word :=
  ((getGprTable cpu).find? fun row => str == row.1).map Prod.snd

/-- The value of a register token under the flag `w`. -/
def readAs (w v : Word) : Word := if w = 1 then v else 0

theorem evalLeaf_gprOf (cpu : CPUState) {t : Token} (ht : t.type = .tkGpr) (s : EvalState) :
    evalLeaf cpu t s =
      match gprOf cpu t.str with
      | some v => .ok (readAs s.success v) s
      | none => .ok 0 { s with success := 0, messages := s.messages ++ [.noSuchRegister] } := by
  simp only [evalLeaf, ht, getGpr, gprOf]
  cases (getGprTable cpu).find? fun row => t.str == row.1 with
  | none => rfl
  | some row =>
      simp only [pure_bind, Option.map_some, readAs]
      rw [bind_ok (get_run s)]
      by_cases hs : s.success = 1
      · rw [if_pos hs, if_pos hs]
        rfl
      · rw [if_neg hs, if_neg hs]
        rfl

end Nemu
