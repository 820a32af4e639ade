import Mathlib.Tactic.Common

/-!
# Regular expressions with leftmost-longest search

Regular expressions over an arbitrary alphabet whose atoms are classes of symbols, and the search
of POSIX: the leftmost place where the expression matches, and there the longest match.

- `Matches r s`  : the language of `r`
- `deriv`        : the derivative by a symbol
- `longest r s`  : the length of the longest match at the start of `s`
- `search r s`   : start and end of the leftmost-longest match in `s`
-/

namespace Ere

variable {α : Type}

inductive Pattern (α : Type) where
  | never
  | empty
  | one (p : α → Bool)
  | seq (r s : Pattern α)
  | alt (r s : Pattern α)
  | star (r : Pattern α)

namespace Pattern

/-- `r+` -/
def plus (r : Pattern α) : Pattern α := .seq r (.star r)

/-- `r?` -/
def opt (r : Pattern α) : Pattern α := .alt r .empty

/-- A fixed text. -/
def text [BEq α] : List α → Pattern α
  | [] => .empty
  | a :: l => .seq (.one (fun b => b == a)) (text l)

end Pattern

/-! ## Languages -/

inductive Matches : Pattern α → List α → Prop where
  | empty : Matches .empty []
  | one {p : α → Bool} {a : α} : p a = true → Matches (.one p) [a]
  | seq {r s : Pattern α} {u v : List α} :
      Matches r u → Matches s v → Matches (.seq r s) (u ++ v)
  | altLeft {r s : Pattern α} {u : List α} : Matches r u → Matches (.alt r s) u
  | altRight {r s : Pattern α} {u : List α} : Matches s u → Matches (.alt r s) u
  | starNil {r : Pattern α} : Matches (.star r) []
  | starCons {r : Pattern α} {u v : List α} :
      Matches r u → Matches (.star r) v → Matches (.star r) (u ++ v)

section Languages

variable {r s : Pattern α} {p : α → Bool} {a : α} {w : List α}

@[simp] theorem matches_never : ¬ Matches (.never : Pattern α) w := by
  intro h
  cases h

@[simp] theorem matches_empty : Matches (.empty : Pattern α) w ↔ w = [] := by
  constructor
  · intro h
    cases h
    rfl
  · rintro rfl
    exact .empty

@[simp] theorem matches_one : Matches (.one p) w ↔ ∃ a, p a = true ∧ w = [a] := by
  constructor
  · intro h
    cases h with
    | one ha => exact ⟨_, ha, rfl⟩
  · rintro ⟨a, ha, rfl⟩
    exact .one ha

@[simp] theorem matches_seq :
    Matches (.seq r s) w ↔ ∃ u v, w = u ++ v ∧ Matches r u ∧ Matches s v := by
  constructor
  · intro h
    cases h with
    | seq hr hs => exact ⟨_, _, rfl, hr, hs⟩
  · rintro ⟨u, v, rfl, hr, hs⟩
    exact .seq hr hs

@[simp] theorem matches_alt : Matches (.alt r s) w ↔ Matches r w ∨ Matches s w := by
  constructor
  · intro h
    cases h with
    | altLeft hr => exact Or.inl hr
    | altRight hs => exact Or.inr hs
  · rintro (hr | hs)
    · exact .altLeft hr
    · exact .altRight hs

/-- A nonempty match of a star starts with a nonempty match of its body. -/
theorem matches_star_cons :
    Matches (.star r) (a :: w) ↔
      ∃ u v, w = u ++ v ∧ Matches r (a :: u) ∧ Matches (.star r) v := by
  constructor
  · intro h
    generalize hq : Pattern.star r = q at h
    generalize hx : a :: w = x at h
    induction h with
    | @starCons r' u v hu hv _ ihv =>
        cases hq
        cases u with
        | nil => exact ihv rfl hx
        | cons b u =>
            cases hx
            exact ⟨u, v, rfl, hu, hv⟩
    | starNil => cases hx
    | empty | one _ | seq _ _ _ _ | altLeft _ _ | altRight _ _ => cases hq
  · rintro ⟨u, v, rfl, hu, hv⟩
    exact .starCons (u := a :: u) hu hv

/-- A star of a class matches exactly the lists of members. -/
theorem matches_star_one : Matches (.star (.one p)) w ↔ ∀ a ∈ w, p a = true := by
  induction w with
  | nil =>
      simpa using Matches.starNil
  | cons b w ih =>
      rw [matches_star_cons]
      constructor
      · rintro ⟨u, v, rfl, hb, hv⟩
        rcases matches_one.1 hb with ⟨c, hc, heq⟩
        cases heq
        intro a ha
        rcases List.mem_cons.1 ha with rfl | ha
        · exact hc
        · exact ih.1 hv a ha
      · intro h
        exact ⟨[], w, rfl, .one (h b (by simp)), ih.2 fun a ha => h a (by simp [ha])⟩

end Languages

/-! ## Derivatives -/

def nullable : Pattern α → Bool
  | .never => false
  | .empty => true
  | .one _ => false
  | .seq r s => nullable r && nullable s
  | .alt r s => nullable r || nullable s
  | .star _ => true

theorem nullable_iff (r : Pattern α) : nullable r = true ↔ Matches r [] := by
  induction r with
  | never => simp [nullable]
  | empty => simp [nullable]
  | one p => simp [nullable]
  | seq r s ihr ihs =>
      simp only [nullable, Bool.and_eq_true, ihr, ihs, matches_seq]
      constructor
      · rintro ⟨hr, hs⟩
        exact ⟨[], [], rfl, hr, hs⟩
      · rintro ⟨u, v, huv, hr, hs⟩
        rcases List.append_eq_nil_iff.1 huv.symm with ⟨rfl, rfl⟩
        exact ⟨hr, hs⟩
  | alt r s ihr ihs => simp [nullable, ihr, ihs]
  | star r _ =>
      simp only [nullable, true_iff]
      exact .starNil

/-- The derivative by `a`: it matches what follows an `a` in a match of the pattern. -/
def deriv (a : α) : Pattern α → Pattern α
  | .never => .never
  | .empty => .never
  | .one p => if p a then .empty else .never
  | .seq r s =>
      if nullable r then .alt (.seq (deriv a r) s) (deriv a s) else .seq (deriv a r) s
  | .alt r s => .alt (deriv a r) (deriv a s)
  | .star r => .seq (deriv a r) (.star r)

/-- A match of a sequence that starts with `a` starts in one of the two parts. -/
theorem matches_seq_cons {r s : Pattern α} {a : α} {w : List α} :
    Matches (.seq r s) (a :: w) ↔
      (∃ u v, w = u ++ v ∧ Matches r (a :: u) ∧ Matches s v) ∨
        (Matches r [] ∧ Matches s (a :: w)) := by
  rw [matches_seq]
  constructor
  · rintro ⟨u, v, huv, hr, hs⟩
    cases u with
    | nil =>
        rw [List.nil_append] at huv
        exact Or.inr ⟨hr, huv ▸ hs⟩
    | cons b u =>
        cases huv
        exact Or.inl ⟨u, v, rfl, hr, hs⟩
  · rintro (⟨u, v, rfl, hr, hs⟩ | ⟨hr, hs⟩)
    · exact ⟨a :: u, v, rfl, hr, hs⟩
    · exact ⟨[], a :: w, rfl, hr, hs⟩

theorem matches_deriv (a : α) (r : Pattern α) (w : List α) :
    Matches (deriv a r) w ↔ Matches r (a :: w) := by
  induction r generalizing w with
  | never => simp [deriv]
  | empty => simp [deriv]
  | one p =>
      by_cases h : p a = true
      · simp [deriv, h]
      · simp only [deriv, h, Bool.false_eq_true, if_false, matches_never, matches_one, false_iff]
        rintro ⟨b, hb, heq⟩
        cases heq
        exact h hb
  | seq r s ihr ihs =>
      rw [matches_seq_cons, ← nullable_iff]
      by_cases h : nullable r = true
      · simp only [deriv, h, if_true, matches_alt, matches_seq, ihr, ihs, true_and]
      · simp only [deriv, h, if_false, matches_seq, ihr, false_and, or_false,
          Bool.false_eq_true]
  | alt r s ihr ihs => simp [deriv, ihr, ihs]
  | star r ihr => simp only [deriv, matches_seq, ihr, matches_star_cons]

/-! ## Longest match at the start -/

def longest : Pattern α → List α → Option Nat
  | r, [] => if nullable r then some 0 else none
  | r, a :: s =>
      match longest (deriv a r) s with
      | some n => some (n + 1)
      | none => if nullable r then some 0 else none

theorem longest_none {r : Pattern α} {s : List α} (h : longest r s = none) {n : Nat}
    (hn : n ≤ s.length) : ¬ Matches r (s.take n) := by
  induction s generalizing r n with
  | nil =>
      intro hm
      rw [List.take_nil, ← nullable_iff] at hm
      simp [longest, hm] at h
  | cons a s ih =>
      cases hd : longest (deriv a r) s with
      | some k => simp [longest, hd] at h
      | none =>
          intro hm
          cases n with
          | zero =>
              rw [List.take_zero, ← nullable_iff] at hm
              simp [longest, hd, hm] at h
          | succ n =>
              rw [List.take_succ_cons, ← matches_deriv] at hm
              exact ih hd (Nat.le_of_succ_le_succ hn) hm

/-- `longest` gives a match, and no longer one exists. -/
theorem longest_some {r : Pattern α} {s : List α} {n : Nat} (h : longest r s = some n) :
    n ≤ s.length ∧ Matches r (s.take n) ∧
      ∀ m, n < m → m ≤ s.length → ¬ Matches r (s.take m) := by
  induction s generalizing r n with
  | nil =>
      by_cases hr : nullable r = true
      · simp only [longest, hr, if_true, Option.some.injEq] at h
        subst h
        refine ⟨Nat.le_refl 0, ?_, ?_⟩
        · exact (nullable_iff r).1 hr
        · intro m hm hle
          exact absurd hle (Nat.not_le.2 hm)
      · simp [longest, hr] at h
  | cons a s ih =>
      -- a match that goes on behind `a` is longer than one that stops in front of it
      cases hd : longest (deriv a r) s with
      | some k =>
          simp only [longest, hd, Option.some.injEq] at h
          subst h
          rcases ih hd with ⟨hle, hmatch, hmax⟩
          refine ⟨Nat.succ_le_succ hle, ?_, ?_⟩
          · rw [List.take_succ_cons, ← matches_deriv]
            exact hmatch
          · intro m hm hle'
            cases m with
            | zero => exact absurd hm (Nat.not_lt_zero _)
            | succ m =>
                rw [List.take_succ_cons, ← matches_deriv]
                exact hmax m (Nat.lt_of_succ_lt_succ hm) (Nat.le_of_succ_le_succ hle')
      | none =>
          by_cases hr : nullable r = true
          · simp only [longest, hd, hr, if_true, Option.some.injEq] at h
            subst h
            refine ⟨Nat.zero_le _, (nullable_iff r).1 hr, ?_⟩
            intro m hm hle
            cases m with
            | zero => exact absurd hm (Nat.lt_irrefl 0)
            | succ m =>
                rw [List.take_succ_cons, ← matches_deriv]
                exact longest_none hd (Nat.le_of_succ_le_succ hle)
          · simp [longest, hd, hr] at h

/-- The longest match is the one that no longer one exceeds. -/
theorem longest_eq_some {r : Pattern α} {s : List α} {n : Nat} (hn : n ≤ s.length)
    (hmatch : Matches r (s.take n)) (hmax : ∀ m, n < m → m ≤ s.length → ¬ Matches r (s.take m)) :
    longest r s = some n := by
  cases h : longest r s with
  | none =>
      exact absurd hmatch (longest_none h hn)
  | some k =>
      rcases longest_some h with ⟨hk, hkmatch, hkmax⟩
      rcases Nat.lt_trichotomy n k with hlt | heq | hgt
      · exact absurd hkmatch (hmax k hlt hk)
      · rw [heq]
      · exact absurd hmatch (hkmax n hgt hn)

theorem longest_eq_none {r : Pattern α} {s : List α}
    (h : ∀ n, n ≤ s.length → ¬ Matches r (s.take n)) : longest r s = none := by
  cases hk : longest r s with
  | none => rfl
  | some k =>
      rcases longest_some hk with ⟨hle, hmatch, -⟩
      exact absurd hmatch (h k hle)

/-! ## Longest matches of patterns that start with a class -/

section Atoms

variable {p : α → Bool} {r : Pattern α} {a : α} {s : List α}

theorem longest_never (s : List α) : longest (.never : Pattern α) s = none :=
  longest_eq_none fun _ _ => matches_never

theorem longest_empty (s : List α) : longest (.empty : Pattern α) s = some 0 := by
  refine longest_eq_some (Nat.zero_le _) (by simp) fun m hm hle hmatch => ?_
  have hlen := congrArg List.length (matches_empty.1 hmatch)
  rw [List.length_take, List.length_nil] at hlen
  omega

/-- Two patterns with the same language have the same longest matches. -/
theorem longest_congr {r r' : Pattern α} (h : ∀ w, Matches r w ↔ Matches r' w) (s : List α) :
    longest r s = longest r' s := by
  cases hr' : longest r' s with
  | none =>
      exact longest_eq_none fun n hn hm => longest_none hr' hn ((h _).1 hm)
  | some n =>
      rcases longest_some hr' with ⟨hle, hmatch, hmax⟩
      exact longest_eq_some hle ((h _).2 hmatch) fun m hm hle' hm' => hmax m hm hle' ((h _).1 hm')

theorem longest_one_seq_nil : longest (.seq (.one p) r) [] = none := by
  simp [longest, nullable]

theorem longest_one_seq_cons :
    longest (.seq (.one p) r) (a :: s) =
      if p a then (longest r s).map (· + 1) else none := by
  have hnull : nullable (.seq (.one p) r) = false := rfl
  by_cases h : p a = true
  · have hderiv : ∀ w, Matches (deriv a (.seq (.one p) r)) w ↔ Matches r w := by
      intro w
      rw [matches_deriv, matches_seq_cons]
      simp [h]
    rw [longest, longest_congr hderiv s, hnull, if_pos h]
    cases longest r s <;> rfl
  · have hderiv : ∀ w, Matches (deriv a (.seq (.one p) r)) w ↔ Matches (.never : Pattern α) w := by
      intro w
      rw [matches_deriv, matches_seq_cons]
      simp [h]
    rw [longest, longest_congr hderiv s, longest_never, hnull, if_neg h]
    rfl

/-- A star of a class takes all the members at the start. -/
theorem longest_star_one (p : α → Bool) (s : List α) :
    longest (.star (.one p)) s = some (s.takeWhile p).length := by
  induction s with
  | nil => rfl
  | cons a s ih =>
      by_cases h : p a = true
      · have hderiv : ∀ w, Matches (deriv a (.star (.one p))) w ↔ Matches (.star (.one p)) w := by
          intro w
          rw [matches_deriv, matches_star_one, matches_star_one]
          simp [h]
        rw [longest, longest_congr hderiv s, ih, List.takeWhile_cons_of_pos h]
        rfl
      · have hderiv : ∀ w, Matches (deriv a (.star (.one p))) w ↔
            Matches (.never : Pattern α) w := by
          intro w
          rw [matches_deriv, matches_star_one]
          simp [h]
        rw [longest, longest_congr hderiv s, longest_never, List.takeWhile_cons_of_neg h]
        rfl

theorem longest_plus_one_cons :
    longest (Pattern.plus (.one p)) (a :: s) =
      if p a then some ((s.takeWhile p).length + 1) else none := by
  rw [Pattern.plus, longest_one_seq_cons, longest_star_one]
  rfl

theorem longest_text_nil [BEq α] : longest (Pattern.text ([] : List α)) s = some 0 :=
  longest_empty s

theorem longest_text_cons [BEq α] {l : List α} :
    longest (Pattern.text (a :: l)) s =
      match s with
      | [] => none
      | b :: s => if b == a then (longest (Pattern.text l) s).map (· + 1) else none := by
  cases s with
  | nil => exact longest_one_seq_nil
  | cons b s => exact longest_one_seq_cons

/-- `.*` and then a member of a class: the words that end with a member. -/
theorem matches_any_one {w : List α} :
    Matches (.seq (Pattern.opt (.star (.one fun _ => true))) (.one p)) w ↔
      ∃ u a, p a = true ∧ w = u ++ [a] := by
  have hany : ∀ u : List α, Matches (Pattern.opt (.star (.one fun _ => true))) u := by
    intro u
    exact .altLeft (matches_star_one.2 fun _ _ => rfl)
  simp only [matches_seq, matches_one]
  constructor
  · rintro ⟨u, v, rfl, -, a, ha, rfl⟩
    exact ⟨u, a, ha, rfl⟩
  · rintro ⟨u, a, ha, rfl⟩
    exact ⟨u, [a], rfl, hany u, a, ha, rfl⟩

/-- Its longest match reaches to the last member of the class. -/
theorem longest_any_one {u : List α} (ha : p a = true) (hs : ∀ b ∈ s, p b = false) :
    longest (.seq (Pattern.opt (.star (.one fun _ => true))) (.one p)) (u ++ a :: s) =
      some (u.length + 1) := by
  have hlen : (u ++ a :: s).length = u.length + 1 + s.length := by
    simp only [List.length_append, List.length_cons]
    omega
  have htake : (u ++ a :: s).take (u.length + 1) = u ++ [a] := by
    rw [List.take_append, List.take_of_length_le (by omega)]
    simp
  refine longest_eq_some (by omega) ?_ fun m hm hle hmatch => ?_
  · rw [htake]
    exact matches_any_one.2 ⟨u, a, ha, rfl⟩
  · -- a longer match would end with a member of the class inside `s`
    rcases matches_any_one.1 hmatch with ⟨w, b, hb, heq⟩
    have hsplit : (u ++ a :: s).take m = u ++ a :: s.take (m - u.length - 1) := by
      have hm' : m - u.length = (m - u.length - 1) + 1 := by omega
      rw [List.take_append, List.take_of_length_le (by omega), hm', List.take_succ_cons]
      rfl
    have hne : s.take (m - u.length - 1) ≠ [] := by
      intro hnil
      have hzero := congrArg List.length hnil
      rw [List.length_take, List.length_nil] at hzero
      omega
    have hlast : b ∈ s.take (m - u.length - 1) := by
      have hb' : (u ++ a :: s.take (m - u.length - 1)).getLast? = some b := by
        rw [← hsplit, heq, List.getLast?_concat]
      cases hx : s.take (m - u.length - 1) with
      | nil => exact absurd hx hne
      | cons x t =>
          have hsome : (x :: t).getLast? = some ((x :: t).getLast (by simp)) :=
            List.getLast?_eq_some_getLast _
          rw [hx, List.getLast?_append, List.getLast?_cons_cons, hsome, Option.some_or,
            Option.some.injEq] at hb'
          rw [← hb']
          exact List.getLast_mem _
    have hfalse := hs b (List.mem_of_mem_take hlast)
    rw [hb] at hfalse
    cases hfalse

end Atoms

/-! ## Search -/

/-- Start and end of the leftmost match, the longest one there. -/
def search (r : Pattern α) : List α → Option (Nat × Nat)
  | [] => (longest r []).map fun n => (0, n)
  | a :: s =>
      match longest r (a :: s) with
      | some n => some (0, n)
      | none => (search r s).map fun (i, j) => (i + 1, j + 1)

/-- A match at the start is found at the start. -/
theorem search_eq_zero {r : Pattern α} {s : List α} {n : Nat} :
    search r s = some (0, n) ↔ longest r s = some n := by
  cases s with
  | nil => simp [search]
  | cons a s =>
      cases h : longest r (a :: s) with
      | some k => simp [search, h]
      | none =>
          simp only [search, h]
          constructor
          · intro hmap
            rcases Option.map_eq_some_iff.1 hmap with ⟨⟨i, j⟩, -, heq⟩
            cases heq
          · intro hnone
            cases hnone

end Ere
