import Nemu.Monitor.WatchpointExact

/-!
# The command `w`

`new_wp` links the node, copies at most 32 characters of the text into it, and evaluates the text
itself.  So the node watches that expression only if the copy is complete and terminated, and a
failed evaluation leaves a watchpoint behind.
-/

namespace Nemu

open Chain StateRules

/-! ## Filling in the node -/

section Watch

variable {cpu : CPUState} {args : List Char} {p : Nat} {d : Debugger}

@[simp] theorem WpState.setExp_self (s : WpState) (i : Nat) (exp : List Char) :
    (s.setExp i exp).pool i = { s.pool i with exp } := by
  simp [WpState.setExp]

@[simp] theorem WpState.setValue_self (s : WpState) (i : Nat) (value : Word) :
    (s.setValue i value).pool i = { s.pool i with value } := by
  simp [WpState.setValue]

/-- A node of the pool gets the first 32 characters and the value, whether or not the flag has been
kept. -/
theorem watch_run {r : Word × Byte} {d₀ d₁ : Debugger} (hp : p < nrWp) (hview : SameView d₀ d)
    (h : callExpr cpu args 1 d₀ = .ok r d₁) :
    ∃ d', watch cpu (some args) (some p) d = .ok ⟨⟩ d' ∧
      d'.wp = (d.wp.setExp p (args.take lenWpName)).setValue p r.1 := by
  let d₂ : Debugger := { d with wp := d.wp.setExp p (args.take lenWpName) }
  have hview₂ : SameView d₀ d₂ := ⟨hview.bus, hview.behind⟩
  rcases callExpr_congr hview₂ h with ⟨d₃, hcall, hwp, -⟩
  let d₄ : Debugger := { d₃ with wp := d₃.wp.setValue p r.1 }
  refine ⟨{ d₄ with messages := d₄.messages ++
    [.built (d₄.wp.pool p).no (d₄.wp.pool p).cstr (d₄.wp.pool p).value] }, ?_, ?_⟩
  · unfold watch
    refine (bind_ok (modify_run _ d)).trans ((bind_ok hcall).trans ?_)
    refine (bind_ok (modify_run _ d₃)).trans ((bind_ok (node_run d₄ hp)).trans ?_)
    rfl
  · change d₃.wp.setValue p r.1 = _
    rw [hwp]

/-- Without a value there is no new watchpoint to return with. -/
theorem value_of_watch {d₀ d' : Debugger} (hview : SameView d d₀)
    (h : watch cpu (some args) (some p) d = .ok ⟨⟩ d') : ∃ u, valueOf cpu args d₀ = some u := by
  rcases bind_eq_ok.1 h with ⟨⟨⟩, d₁, hexp, h₁⟩
  rcases bind_eq_ok.1 h₁ with ⟨⟨u, success⟩, d₂, hcall, -⟩
  cases hexp
  have hview₁ : SameView { d with wp := d.wp.setExp p (args.take lenWpName) } d₀ :=
    ⟨hview.bus, hview.behind⟩
  rcases callExpr_congr hview₁ hcall with ⟨d₃, hcall', -⟩
  exact ⟨u, valueOf_eq_some.2 ⟨success, d₃, hcall'⟩⟩

end Watch

/-! ## The text that is watched -/

/-- What a check reads from the node: the text, inside its field, and an expression that has the
stored value in the machine with this memory, over these bytes behind the flag. -/
structure Watches (cpu : CPUState) (bus : Bus) (behind : Nat → BitVec 24) (args : List Char)
    (wp : WP) (d : Debugger) : Prop where
  text : wp.exp = args
  inside : wp.exp.length < lenWpName
  value : valueOf cpu wp.cstr { d with bus, behind } = some wp.value

section NewWp

variable {cpu : CPUState} {args : List Char} {p : Nat} {active free : List Nat} {d d₁ : Debugger}
  {v : Word}

/-- The node behind `new_wp`. -/
theorem newWp_node (h : d.wp.Lists active (p :: free)) {success : Byte}
    (hcall : callExpr cpu args 1 d = .ok (v, success) d₁) :
    ∃ d', newWp cpu (some args) d = .ok ⟨⟩ d' ∧ d'.wp.Lists (active ++ [p]) free ∧
      (d'.wp.pool p).exp = args.take lenWpName ∧ (d'.wp.pool p).value = v := by
  have hp : p < nrWp := h.lt_of_mem (by simp)
  rcases newWp_run h cpu (some args) with ⟨s, hrun, hlists, hbus, hbehind⟩
  rcases watch_run hp ⟨hbus, hbehind⟩ hcall with ⟨d', hwatch, hwp⟩
  have hlinks : SameLinks s d' := (watch_within cpu (some args) (some p)).ok hwatch
  refine ⟨d', hrun.trans hwatch, hlinks.lists hlists, ?_, ?_⟩
  · rw [hwp, WpState.setValue_self, WpState.setExp_self]
  · rw [hwp, WpState.setValue_self]

/-- What it stores is the value of the text. -/
theorem newWp_stored (h : d.wp.Lists active (p :: free)) {d' : Debugger}
    (hrun : newWp cpu (some args) d = .ok ⟨⟩ d') :
    (d'.wp.pool p).exp = args.take lenWpName ∧
      valueOf cpu args d = some (d'.wp.pool p).value := by
  rcases newWp_run h cpu (some args) with ⟨s, hnew, -, hbus, hbehind⟩
  have hview : SameView s d := ⟨hbus.symm, hbehind.symm⟩
  rcases value_of_watch hview (hnew.symm.trans hrun) with ⟨u, hu⟩
  rcases valueOf_eq_some.1 hu with ⟨success, d₁, hcall⟩
  rcases newWp_node h hcall with ⟨d'', hrun', -, hexp, hvalue⟩
  cases hrun.symm.trans hrun'
  exact ⟨hexp, hvalue ▸ hu⟩

/-- The node watches the expression if and only if the text fits in it with its terminator and has
one value with the registers as `new_wp` and as the later evaluation sees them.  Over zeros behind
both flags that is the value of the expression. -/
theorem newWp_watches_iff (h : d.wp.Lists active (p :: free))
    (hcall : callExpr cpu args 1 d.clear = .ok (v, 1) d₁) (behind : Nat → BitVec 24) :
    ((∃ d', newWp cpu (some args) d = .ok ⟨⟩ d' ∧
        Watches cpu d.bus behind args (d'.wp.pool p) d') ↔
      args.length < 32 ∧
        ∃ u, valueOf (cpu.seenOver (d.behind 0)) args d.clear = some u ∧
          valueOf (cpu.seenOver (behind 0)) args d.clear = some u) ∧
    valueOf (cpu.seenOver 0) args d.clear = some v := by
  have hlater : ∀ d' : Debugger, valueOf cpu args { d' with bus := d.bus, behind } =
      valueOf (cpu.seenOver (behind 0)) args d.clear := fun d' =>
    (valueOf_seenOver _ _ _).trans (valueOf_congr ⟨rfl, rfl⟩)
  -- the registers may be read otherwise at the two times
  refine ⟨⟨?_, ?_⟩, ?_⟩
  · rintro ⟨d', hrun, hwatches⟩
    have hinside := hwatches.inside
    have hcstr : (d'.wp.pool p).cstr = args := by
      rw [WP.cstr, if_pos hinside, hwatches.text]
    have hvalue := hwatches.value
    rw [hcstr, hlater] at hvalue
    rw [hwatches.text] at hinside
    exact ⟨hinside, _, (valueOf_seenOver _ _ _).symm.trans (newWp_stored h hrun).2, hvalue⟩
  · rintro ⟨hlen, u, hnow, hthen⟩
    rw [← valueOf_seenOver] at hnow
    rcases valueOf_eq_some.1 hnow with ⟨success, d₂, hrun⟩
    rcases newWp_node h hrun with ⟨d', hnew, -, hexp, hvalue⟩
    have htext : (d'.wp.pool p).exp = args := by
      rw [hexp]
      exact List.take_of_length_le (Nat.le_of_lt hlen)
    have hinside : (d'.wp.pool p).exp.length < lenWpName := by
      rw [htext]
      exact hlen
    have hcstr : (d'.wp.pool p).cstr = args := by
      rw [WP.cstr, if_pos hinside, htext]
    refine ⟨d', hnew, htext, hinside, ?_⟩
    rw [hcstr, hvalue, hlater]
    exact hthen
  · rw [CPUState.seenOver, if_pos rfl]
    exact valueOf_eq_some.2 ⟨1, d₁, hcall⟩

/-- The pool behind `init_wp_pool`, in which node 0 is the first free one. -/
theorem initWpPool_first : (final (initWpPool .zero)).wp.Lists [] (0 :: List.range' 1 31) :=
  initWpPool_lists .zero

/-- `w *0x100` with 5 at that address, over different bytes at the start and at the check. -/
theorem newWp_watches_iff_word :
    let d := (final (initWpPool .zero)).over (.word 5 fun _ => 1)
    ∃ d', newWp .zero (some starWord) d = .ok ⟨⟩ d' ∧
      Watches .zero d.bus (fun _ => 2) starWord (d'.wp.pool 0) d' := by
  intro d
  rcases callExpr_word .zero 1 d.clear rfl with ⟨buf, hcall⟩
  have hvalue : ∀ cpu, valueOf cpu starWord d.clear =
      some (LittleEndian.load d.clear.bus.pmem 0x100 4) := by
    intro cpu
    rcases callExpr_word cpu 1 d.clear rfl with ⟨buf', hcall'⟩
    exact valueOf_eq_some.2 ⟨1, _, hcall'⟩
  exact (newWp_watches_iff (d := d) initWpPool_first hcall _).1.2
    ⟨by decide, _, hvalue _, hvalue _⟩

/-- A `1` behind 31 blanks. -/
def blanksOne : List Char := List.replicate 31 ' ' ++ ['1']

theorem callExpr_blanksOne (cpu : CPUState) (d : Debugger) :
    ∃ buf, callExpr cpu blanksOne 1 d = .ok (1, 1) (d.called buf) := by
  refine callExpr_token (t := ⟨.tkDecimal, ['1']⟩) 1 ⟨_, rfl, ?_⟩ fun _ => rfl
  simp [TokenBuf.stored, segment, TokenBuf.record, TokenBuf.next, TokenBuf.setStr,
    TokenBuf.setType]

/-- The copy of `blanksOne` fills the field, and has no terminator in it. -/
theorem newWp_unterminated :
    ¬ ∀ (cpu : CPUState) (args : List Char) (p : Nat) (active free : List Nat) (d d₁ : Debugger)
        (v : Word), d.wp.Lists active (p :: free) →
        callExpr cpu args 1 d.clear = .ok (v, 1) d₁ →
        ∃ d', newWp cpu (some args) d = .ok ⟨⟩ d' ∧
          Watches cpu d.bus (fun _ => 0) args (d'.wp.pool p) d' := by
  intro h
  let d := final (initWpPool .zero)
  rcases callExpr_blanksOne .zero d.clear with ⟨buf, hcall⟩
  rcases h _ _ _ _ _ d _ _ initWpPool_first hcall with ⟨d', -, hwatches⟩
  have hinside := hwatches.inside
  rw [hwatches.text] at hinside
  exact absurd hinside (by decide)

/-! ## A failed evaluation -/

/-- Nothing of the pool has changed. -/
structure Kept (wp wp' : WpState) : Prop where
  head : wp'.head = wp.head
  free : wp'.free_ = wp.free_
  node : ∀ i < nrWp, (wp'.pool i).next = (wp.pool i).next ∧ (wp'.pool i).exp = (wp.pool i).exp ∧
    (wp'.pool i).value = (wp.pool i).value

theorem Kept.refl (wp : WpState) : Kept wp wp := ⟨rfl, rfl, fun _ _ => ⟨rfl, rfl, rfl⟩⟩

theorem Kept.active_eq {wp wp' : WpState} {active' free' : List Nat} (hkept : Kept wp wp')
    (h : wp.Lists active free) (h' : wp'.Lists active' free') : active' = active := by
  have hpath : Path wp'.next wp.head active none :=
    h.headPath.congr fun i hi => (hkept.node i (h.lt_of_mem (List.mem_append_left _ hi))).1
  rw [← hkept.head] at hpath
  exact h'.headPath.unique hpath

/-- Without a free node, `new_wp` gives up before it changes anything. -/
theorem newWp_full (h : d.wp.Lists active []) (args : Option (List Char)) :
    newWp cpu args d = .error .abort d := by
  rw [newWp_eq]
  exact bind_error (linkNew_full h)

/-- A failed evaluation leaves the pool as it was if and only if no node is free. -/
theorem newWp_failed_kept_iff (h : d.wp.Lists active free)
    (hcall : callExpr cpu args 1 d = .ok (v, 0) d₁) :
    Kept d.wp (final (newWp cpu (some args) d)).wp ↔ free = [] := by
  cases free with
  | nil =>
      rw [newWp_full h]
      exact iff_of_true (Kept.refl _) rfl
  | cons p rest =>
      -- it returns, with one more active watchpoint
      rcases newWp_node h hcall with ⟨d', hrun, hlists, -, -⟩
      rw [hrun]
      refine iff_of_false (fun hkept => ?_) (List.cons_ne_nil p rest)
      have hlength := congrArg List.length (hkept.active_eq h hlists)
      rw [List.length_append, List.length_singleton] at hlength
      omega

/-- `w ?` in an empty pool. -/
theorem callExpr_question :
    ∃ d, callExpr .zero ['?'] 1 (final (initWpPool .zero)) = .ok (0, 0) d := ⟨_, rfl⟩

theorem newWp_failed_kept_iff_question :
    ¬ Kept (final (initWpPool .zero)).wp
      (final (newWp .zero (some ['?']) (final (initWpPool .zero)))).wp := by
  rcases callExpr_question with ⟨d, hcall⟩
  rw [newWp_failed_kept_iff initWpPool_first hcall]
  exact List.cons_ne_nil _ _

/-- The failed `w ?` leaves a watchpoint. -/
theorem newWp_not_atomic :
    ¬ ∀ (cpu : CPUState) (args : List Char) (active free : List Nat) (d d₁ : Debugger) (v : Word),
        d.wp.Lists active free → callExpr cpu args 1 d = .ok (v, 0) d₁ →
        Kept d.wp (final (newWp cpu (some args) d)).wp := by
  intro h
  rcases callExpr_question with ⟨d, hcall⟩
  have hkept := h _ _ _ _ _ _ _ initWpPool_first hcall
  rcases newWp_node initWpPool_first hcall with ⟨d', hrun, hlists, -, -⟩
  rw [hrun] at hkept
  cases hkept.active_eq initWpPool_first hlists

end NewWp

end Nemu
