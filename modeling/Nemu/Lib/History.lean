import Mathlib.Tactic.Common

/-!
# Histories of writes

A memory is a function, and a write covers some of its arguments and gives each of them a value.
`latest f ws` reads a history: the value that the most recent write to cover the argument gave it,
or the initial one.  `foldl_apply` says that this is what carrying out the writes one after the
other leaves.
-/

namespace History

variable {α β : Type*}

structure Write (α β : Type*) where
  covers : α → Bool
  value : α → β

/-- One write carried out. -/
def Write.apply (f : α → β) (w : Write α β) : α → β :=
  fun a => if w.covers a then w.value a else f a

/-- The value of the most recent write to cover `a`. -/
def latest (f : α → β) (ws : List (Write α β)) (a : α) : β :=
  match ws.reverse.find? (fun w => w.covers a) with
  | some w => w.value a
  | none => f a

@[simp] theorem latest_nil (f : α → β) : latest f [] = f := rfl

/-- The first write of a history is what the others are written over. -/
theorem latest_cons (f : α → β) (w : Write α β) (ws : List (Write α β)) :
    latest f (w :: ws) = latest (w.apply f) ws := by
  funext a
  unfold latest
  rw [List.reverse_cons, List.find?_append]
  cases ws.reverse.find? (fun w => w.covers a) with
  | some w' => rfl
  | none =>
      cases hw : w.covers a with
      | true => simp [Write.apply, hw]
      | false => simp [Write.apply, hw]

theorem foldl_apply (f : α → β) (ws : List (Write α β)) :
    ws.foldl Write.apply f = latest f ws := by
  induction ws generalizing f with
  | nil => rfl
  | cons w ws ih => rw [List.foldl_cons, ih, latest_cons]

theorem latest_append (f : α → β) (ws us : List (Write α β)) :
    latest f (ws ++ us) = latest (latest f ws) us := by
  rw [← foldl_apply, List.foldl_append, foldl_apply, foldl_apply]

theorem latest_of_not_covered {ws : List (Write α β)} {a : α} (h : ∀ w ∈ ws, ¬ w.covers a)
    (f : α → β) : latest f ws a = f a := by
  have hnone : ws.reverse.find? (fun w => w.covers a) = none :=
    List.find?_eq_none.2 fun w hw => h w (List.mem_reverse.1 hw)
  rw [latest, hnone]

end History
