import Nemu.Expr.CallerFlag
import Nemu.Monitor.WatchpointPool

/-!
# Watchpoint checks over runs

`check` compares the value of every active watchpoint but the last one with the value stored when
the watchpoint was set, and stores nothing.  The values are those that `expr` returns one after the
other with one flag, over whatever lies behind it.

So its answers are those that the watchpoints are for as long as no watched value has moved away from
the stored one, and no longer.
-/

namespace Nemu

open Chain StateRules

/-! ## One evaluation -/

/-- The pool and the heads of the lists are the same. -/
def SameWp (d d' : Debugger) : Prop := d'.wp = d.wp

instance : IsPreorder Debugger SameWp where
  refl _ := rfl
  trans _ _ _ h h' := h'.trans h

theorem callExpr_sameWp (cpu : CPUState) (e : List Char) (success : Byte) :
    Within SameWp (callExpr cpu e success) := by
  intro d
  rw [final_callExpr]
  exact rfl

theorem check_sameWp (cpu : CPUState) : Within SameWp (Nemu.check cpu) :=
  Within.get.bind fun _ =>
    checkLoop_within (fun e success => callExpr_sameWp cpu e success) (fun _ _ => rfl) _ _ _ _

/-- What an evaluation reads of a debugger. -/
structure SameView (d d' : Debugger) : Prop where
  bus : d'.bus = d.bus
  behind : d'.behind = d.behind

theorem SameView.symm {d d' : Debugger} (h : SameView d d') : SameView d' d :=
  ⟨h.bus.symm, h.behind.symm⟩

/-- Nothing else that the debugger works on makes a difference. -/
theorem callExpr_congr {cpu : CPUState} {e : List Char} {success : Byte} {d₁ d₂ d₁' : Debugger}
    {r : Word × Byte} (hview : SameView d₁ d₂) (h : callExpr cpu e success d₁ = .ok r d₁') :
    ∃ d₂', callExpr cpu e success d₂ = .ok r d₂' ∧ d₂'.wp = d₂.wp ∧ SameView d₁' d₂' := by
  unfold callExpr at h ⊢
  rw [hview.behind]
  cases hrun : expr cpu e
    ⟨d₁.buf, ⟨flagWord (d₁.behind 0) success, d₁.bus, d₁.evalMessages⟩⟩ with
  | error f st =>
      rw [hrun] at h
      cases h
  | ok v st =>
      rw [hrun] at h
      cases h
      have hstart : SameMachine ⟨flagWord (d₁.behind 0) success, d₁.bus, d₁.evalMessages⟩
          ⟨flagWord (d₁.behind 0) success, d₂.bus, d₂.evalMessages⟩ := ⟨rfl, hview.bus⟩
      rcases expr_sameMachine cpu e _ ⟨d₂.buf, _⟩ v st hstart hrun with
        ⟨w, st', hrun', rfl, hsame⟩
      refine ⟨{ d₂ with
        buf := st'.buf, bus := st'.eval.bus, evalMessages := st'.eval.messages,
        behind := fun n => d₁.behind (n + 1) }, ?_, rfl, hsame.bus, rfl⟩
      rw [hrun']
      dsimp only
      rw [hsame.success]

/-- The value of an expression, from a flag that is set. -/
def valueOf (cpu : CPUState) (e : List Char) (d : Debugger) : Option Word :=
  match callExpr cpu e 1 d with
  | .ok (v, _) _ => some v
  | .error _ _ => none

section ValueOf

variable {cpu : CPUState} {e : List Char} {d d₁ d₂ : Debugger} {v : Word}

theorem valueOf_eq_some : valueOf cpu e d = some v ↔
    ∃ success d', callExpr cpu e 1 d = .ok (v, success) d' := by
  unfold valueOf
  cases callExpr cpu e 1 d with
  | ok r d' =>
      rcases r with ⟨w, success⟩
      simp
  | error f d' => simp

theorem valueOf_congr (hview : SameView d₁ d₂) : valueOf cpu e d₂ = valueOf cpu e d₁ := by
  refine Option.ext fun v => ?_
  rw [valueOf_eq_some, valueOf_eq_some]
  constructor
  · rintro ⟨success, d', hcall⟩
    rcases callExpr_congr hview.symm hcall with ⟨d₁', hcall', -⟩
    exact ⟨success, d₁', hcall'⟩
  · rintro ⟨success, d', hcall⟩
    rcases callExpr_congr hview hcall with ⟨d₂', hcall', -⟩
    exact ⟨success, d₂', hcall'⟩

/-! Over anything but zeros, every register reads 0. -/

theorem flagWord_one_iff {behind : BitVec 24} : flagWord behind 1 = 1 ↔ behind = 0 := by
  have hone : (1 : Word) = (0 : BitVec 24) ++ (1 : Byte) := by decide
  rw [flagWord, hone, BitVec.append_left_inj]

/-- The registers as `expr` reads them beside a flag that is set. -/
def CPUState.seenOver (cpu : CPUState) (behind : BitVec 24) : CPUState :=
  if behind = 0 then cpu else .zero

theorem valueOf_seenOver (cpu : CPUState) (e : List Char) (d : Debugger) :
    valueOf cpu e d = valueOf (cpu.seenOver (d.behind 0)) e d.clear := by
  have hzero : flagWord 0 1 = 1 := flagWord_one_iff.2 rfl
  unfold CPUState.seenOver
  by_cases hbehind : d.behind 0 = 0
  · rw [if_pos hbehind]
    simp only [valueOf, callExpr, Debugger.clear, hbehind]
    cases expr cpu e ⟨d.buf, ⟨flagWord 0 1, d.bus, d.evalMessages⟩⟩ with
    | ok v st => rfl
    | error f st => rfl
  · rw [if_neg hbehind]
    simp only [valueOf, callExpr, Debugger.clear, hzero]
    rcases expr_zeroed cpu e d.buf d.buf d.bus (mt flagWord_one_iff.1 hbehind) d.evalMessages
      d.evalMessages with ⟨v, s, s', hrun, hclear, -⟩ | ⟨f, f', s, s', hrun, hclear⟩
    · simp only [hrun, hclear]
    · simp only [hrun, hclear]

end ValueOf

/-! ## Values in turn -/

/-- The values of the expressions of the nodes, evaluated one after the other with one flag. -/
def valuesInTurn (cpu : CPUState) : Byte → Debugger → List Nat → Option (List Word)
  | _, _, [] => some []
  | success, d, i :: l =>
      match callExpr cpu (d.wp.pool i).cstr success d with
      | .ok (v, success') d' => (valuesInTurn cpu success' d' l).map (v :: ·)
      | .error _ _ => none

section Values

variable {cpu : CPUState} {success success' : Byte} {d d' d₁ d₂ : Debugger} {i : Nat} {l : List Nat}
  {v : Word} {us : List Word}

theorem valuesInTurn_cons (h : callExpr cpu (d.wp.pool i).cstr success d = .ok (v, success') d') :
    valuesInTurn cpu success d (i :: l) = (valuesInTurn cpu success' d' l).map (v :: ·) := by
  rw [valuesInTurn]
  simp only [h]

theorem valuesInTurn_cons_eq_some : valuesInTurn cpu success d (i :: l) = some us ↔
    ∃ v success' d' vs, callExpr cpu (d.wp.pool i).cstr success d = .ok (v, success') d' ∧
      valuesInTurn cpu success' d' l = some vs ∧ us = v :: vs := by
  cases hcall : callExpr cpu (d.wp.pool i).cstr success d with
  | error f d' =>
      rw [valuesInTurn]
      simp [hcall]
  | ok r d' =>
      rcases r with ⟨v₀, success₀⟩
      rw [valuesInTurn_cons hcall, Option.map_eq_some_iff]
      constructor
      · rintro ⟨vs, hvs, rfl⟩
        exact ⟨v₀, success₀, d', vs, rfl, hvs, rfl⟩
      · rintro ⟨v, success', d'', vs, hrun, hvs, rfl⟩
        cases hrun
        exact ⟨vs, hvs, rfl⟩

/-- The values depend on the pool, the machine and the bytes behind the flags. -/
theorem valuesInTurn_congr (h : valuesInTurn cpu success d₁ l = some us) (hwp : d₂.wp = d₁.wp)
    (hview : SameView d₁ d₂) : valuesInTurn cpu success d₂ l = some us := by
  induction l generalizing d₁ d₂ success us with
  | nil => exact h
  | cons i l ih =>
      rcases valuesInTurn_cons_eq_some.1 h with ⟨v, success', d₁', vs, hcall, hrest, rfl⟩
      rcases callExpr_congr hview hcall with ⟨d₂', hcall', hwp', hview'⟩
      have hsame : d₁'.wp = d₁.wp := (callExpr_sameWp cpu _ _).ok hcall
      rw [← hwp] at hcall'
      refine valuesInTurn_cons_eq_some.2 ⟨v, success', d₂', vs, hcall', ?_, rfl⟩
      exact ih hrest (by rw [hwp', hwp, hsame]) hview'

theorem length_valuesInTurn (h : valuesInTurn cpu success d l = some us) :
    us.length = l.length := by
  induction l generalizing success d us with
  | nil =>
      cases h
      rfl
  | cons i l ih =>
      rcases valuesInTurn_cons_eq_some.1 h with ⟨v, success', d', vs, -, hrest, rfl⟩
      rw [List.length_cons, List.length_cons, ih hrest]

end Values

/-- One of the nodes has a current value that is not the stored one. -/
def Changed (wp : WpState) (l : List Nat) (vs : List Word) : Prop :=
  ∃ iv ∈ l.zip vs, iv.2 ≠ (wp.pool iv.1).value

instance (wp : WpState) (l : List Nat) (vs : List Word) : Decidable (Changed wp l vs) :=
  inferInstanceAs (Decidable (∃ iv ∈ l.zip vs, iv.2 ≠ (wp.pool iv.1).value))

theorem not_changed_nil (wp : WpState) (vs : List Word) : ¬ Changed wp [] vs := by
  rintro ⟨iv, hmem, -⟩
  cases hmem

theorem changed_cons {wp : WpState} {i : Nat} {l : List Nat} {v : Word} {vs : List Word} :
    Changed wp (i :: l) (v :: vs) ↔ v ≠ (wp.pool i).value ∨ Changed wp l vs := by
  simp [Changed]

/-- Nothing has changed when all the values are the stored ones. -/
theorem not_changed_iff {wp : WpState} {l : List Nat} {us : List Word}
    (h : us.length = l.length) :
    ¬ Changed wp l us ↔ us = l.map fun i => (wp.pool i).value := by
  induction l generalizing us with
  | nil => exact iff_of_true (not_changed_nil wp us) (List.length_eq_zero_iff.1 h)
  | cons i l ih =>
      cases us with
      | nil => cases h
      | cons v us =>
          rw [changed_cons, not_or, not_not, ih (Nat.succ_injective h), List.map_cons,
            List.cons.injEq]

/-! ## The loop -/

section Loop

variable {cpu : CPUState} {l : List Nat} {z fuel : Nat} {p : Option Nat} {success : Byte}
  {flag flag' : Bool} {d d' : Debugger} {us : List Word}

theorem path_next_ne_none {i : Nat} (h : Path d.wp.next (d.wp.next i) (l ++ [z]) none) :
    (d.wp.pool i).next ≠ none := by
  intro hnone
  change d.wp.next i = none at hnone
  rw [hnone] at h
  cases l with
  | nil => cases h.1
  | cons j l => cases h.1

/-- The last node is not evaluated: the loop stops where `next` is null. -/
theorem checkLoop_last (hz : z < nrWp) (hend : d.wp.next z = none) :
    checkLoop cpu (fuel + 1) (some z) success flag d = .ok flag d := by
  have hnone : (d.wp.pool z).next = none := hend
  rw [checkLoop, bind_ok (node_run d hz), if_neg (by simp [hnone])]
  rfl

/-- One round: a change is logged, and the answer stays positive. -/
theorem checkLoop_round {i : Nat} {v : Word} {success' : Byte} (hi : i < nrWp)
    (hnext : (d.wp.pool i).next ≠ none)
    (hcall : callExpr cpu (d.wp.pool i).cstr success d = .ok (v, success') d') :
    checkLoop cpu (fuel + 1) (some i) success flag d =
      (if v ≠ (d.wp.pool i).value then do
        logWp (.changed (d.wp.pool i).no (d.wp.pool i).value v)
        checkLoop cpu fuel (d.wp.pool i).next success' true
      else checkLoop cpu fuel (d.wp.pool i).next success' flag) d' := by
  rw [checkLoop, bind_ok (node_run d hi), if_pos hnext]
  exact bind_ok hcall

/-- The loop finds the changes among the nodes in front of the last one. -/
theorem checkLoop_finds (hpath : Path d.wp.next p (l ++ [z]) none) (hlt : ∀ i ∈ l ++ [z], i < nrWp)
    (hfuel : l.length < fuel) (h : valuesInTurn cpu success d l = some us) :
    ∃ flag' d', checkLoop cpu fuel p success flag d = .ok flag' d' ∧
      (flag' = true ↔ flag = true ∨ Changed d.wp l us) := by
  obtain ⟨f, rfl⟩ : ∃ f, fuel = f + 1 := ⟨fuel - 1, by omega⟩
  induction l generalizing f p success flag d us with
  | nil =>
      refine ⟨flag, d, ?_, (or_iff_left (not_changed_nil _ _)).symm⟩
      rw [hpath.1]
      exact checkLoop_last (hlt z (by simp)) hpath.2
  | cons i l ih =>
      rw [List.length_cons] at hfuel
      obtain ⟨f, rfl⟩ : ∃ g, f = g + 1 := ⟨f - 1, by omega⟩
      rcases valuesInTurn_cons_eq_some.1 h with ⟨v, success', d₁, vs, hcall, hrest, rfl⟩
      -- an evaluation leaves the pool as it is, so that the path goes on
      have hsame : d₁.wp = d.wp := (callExpr_sameWp cpu _ _).ok hcall
      have hnext : Path d₁.wp.next (d.wp.pool i).next (l ++ [z]) none := hsame ▸ hpath.2
      have hlt' : ∀ j ∈ l ++ [z], j < nrWp := fun j hj => hlt j (by simp_all)
      rw [hpath.1, checkLoop_round (hlt i (by simp)) (path_next_ne_none hpath.2) hcall, changed_cons]
      by_cases hv : v ≠ (d.wp.pool i).value
      · let d₂ : Debugger := { d₁ with
          messages := d₁.messages ++ [.changed (d.wp.pool i).no (d.wp.pool i).value v] }
        rcases @ih (d.wp.pool i).next success' true d₂ vs hnext hlt'
          (valuesInTurn_congr hrest rfl ⟨rfl, rfl⟩) f (by omega) with ⟨flag', d', hloop, hflag⟩
        refine ⟨flag', d', ?_, ?_⟩
        · rw [if_pos hv]
          exact (bind_ok (modify_run _ d₁)).trans hloop
        · simpa [hv] using hflag
      · rcases @ih (d.wp.pool i).next success' flag d₁ vs hnext hlt' hrest f (by omega) with
          ⟨flag', d', hloop, hflag⟩
        refine ⟨flag', d', ?_, ?_⟩
        · rw [if_neg hv]
          exact hloop
        · rw [hflag, hsame]
          simp [hv]

/-- A loop that returns has gone along a list of the pool, and all its evaluations have returned. -/
theorem list_of_checkLoop (h : checkLoop cpu fuel p success flag d = .ok flag' d') :
    ∃ l z us, Path d.wp.next p (l ++ [z]) none ∧ (∀ i ∈ l ++ [z], i < nrWp) ∧ l.length < fuel ∧
      valuesInTurn cpu success d l = some us := by
  induction fuel generalizing p success flag d with
  | zero => cases h
  | succ fuel ih =>
      rcases bind_eq_ok.1 h with ⟨wp, d₀, hnode, h₀⟩
      cases p with
      | none => cases hnode
      | some i =>
          by_cases hi : i < nrWp
          · cases (node_run d hi).symm.trans hnode
            by_cases hnext : (d.wp.pool i).next ≠ none
            · rw [if_pos hnext] at h₀
              rcases bind_eq_ok.1 h₀ with ⟨⟨v, success'⟩, d₁, hcall, h₁⟩
              have hsame : d₁.wp = d.wp := (callExpr_sameWp cpu _ _).ok hcall
              -- the rest of the loop, from a debugger with the same pool
              have hrest : ∃ flag₁ d₂, d₂.wp = d₁.wp ∧ SameView d₂ d₁ ∧
                  checkLoop cpu fuel (d.wp.pool i).next success' flag₁ d₂ = .ok flag' d' := by
                dsimp only at h₁
                split at h₁
                · rcases bind_eq_ok.1 h₁ with ⟨_, d₂, hlog, h₂⟩
                  cases hlog
                  exact ⟨true, { d₁ with messages := d₁.messages ++ [_] }, rfl, ⟨rfl, rfl⟩, h₂⟩
                · exact ⟨flag, d₁, rfl, ⟨rfl, rfl⟩, h₁⟩
              rcases hrest with ⟨flag₁, d₂, hwp, hview, hloop⟩
              rcases ih hloop with ⟨l, z, vs, hpath, hlt, hlength, hvalues⟩
              rw [hwp, hsame] at hpath
              refine ⟨i :: l, z, v :: vs, ⟨rfl, hpath⟩, ?_, Nat.succ_lt_succ hlength, ?_⟩
              · intro j hj
                rcases List.mem_cons.1 hj with rfl | hj
                · exact hi
                · exact hlt j hj
              · exact valuesInTurn_cons_eq_some.2
                  ⟨v, success', d₁, vs, hcall, valuesInTurn_congr hvalues hwp.symm hview, rfl⟩
            · rw [ne_eq, not_not] at hnext
              refine ⟨[], i, [], ⟨rfl, hnext⟩, ?_, Nat.succ_pos fuel, rfl⟩
              intro j hj
              rw [List.nil_append, List.mem_singleton] at hj
              rwa [hj]
          · simp only [node, if_neg hi] at hnode
            cases hnode

end Loop

/-! ## The check -/

/-- The list from `head` is `l` and one more node, and the expressions of `l` have these values in
turn. -/
structure Debugger.Finds (d : Debugger) (cpu : CPUState) (l : List Nat) (us : List Word) : Prop where
  path : ∃ z, Path d.wp.next d.wp.head (l ++ [z]) none ∧ ∀ i ∈ l ++ [z], i < nrWp
  length : l.length < nrWp
  values : valuesInTurn cpu 1 d l = some us

/-- A watched value in front of the last one is not the stored one. -/
def Debugger.ShowsChange (d : Debugger) (cpu : CPUState) : Prop :=
  ∃ l us, d.Finds cpu l us ∧ Changed d.wp l us

theorem check_iff {cpu : CPUState} {d : Debugger} {flag : Bool} :
    (∃ d', Nemu.check cpu d = .ok flag d') ↔
      ∃ l us, d.Finds cpu l us ∧ (flag = true ↔ Changed d.wp l us) := by
  have hcheck : Nemu.check cpu d = checkLoop cpu nrWp d.wp.head 1 false d := bind_ok (get_run d)
  rw [hcheck]
  constructor
  · rintro ⟨d', hrun⟩
    rcases list_of_checkLoop hrun with ⟨l, z, us, hpath, hlt, hlength, hvalues⟩
    rcases @checkLoop_finds _ _ _ _ _ _ false _ _ hpath hlt hlength hvalues with
      ⟨flag', d'', hrun', hflag⟩
    cases hrun.symm.trans hrun'
    exact ⟨l, us, ⟨⟨z, hpath, hlt⟩, hlength, hvalues⟩, by simpa using hflag⟩
  · rintro ⟨l, us, hfinds, hflag⟩
    rcases hfinds.path with ⟨z, hpath, hlt⟩
    rcases @checkLoop_finds _ _ _ _ _ _ false _ _ hpath hlt hfinds.length hfinds.values with
      ⟨flag', d', hrun, hflag'⟩
    have hsame : flag' = flag := by
      rw [Bool.eq_iff_iff, hflag', hflag]
      simp
    exact ⟨d', hsame ▸ hrun⟩

theorem check_true_iff {cpu : CPUState} {d : Debugger} :
    (∃ d', Nemu.check cpu d = .ok true d') ↔ d.ShowsChange cpu := by
  simp only [check_iff, Debugger.ShowsChange, true_iff]

section Check

variable {cpu : CPUState} {active free : List Nat} {d : Debugger} {l : List Nat} {us : List Word}

/-- With no watchpoint, the check follows a null pointer. -/
theorem check_nil (h : d.wp.Lists [] free) : Nemu.check cpu d = .error .null d := by
  have hhead : d.wp.head = none := h.headPath
  rw [Nemu.check, bind_ok (get_run d), hhead, nrWp]
  rfl

/-- In a pool whose lists share out its nodes, all active watchpoints but the last are looked at. -/
theorem finds_iff (h : d.wp.Lists active free) (hne : active ≠ []) :
    d.Finds cpu l us ↔ l = active.dropLast ∧ valuesInTurn cpu 1 d active.dropLast = some us := by
  constructor
  · intro hfinds
    rcases hfinds.path with ⟨z, hpath, -⟩
    have hl : l = active.dropLast := by
      rw [h.headPath.unique hpath, List.dropLast_concat]
    exact ⟨hl, hl ▸ hfinds.values⟩
  · rintro ⟨rfl, hvalues⟩
    have hlast := List.dropLast_append_getLast hne
    refine ⟨⟨active.getLast hne, hlast.symm ▸ h.headPath, fun i hi => ?_⟩, ?_, hvalues⟩
    · rw [hlast] at hi
      exact h.lt_of_mem (List.mem_append_left _ hi)
    · have hlength := h.length
      have hpos := List.length_pos_of_ne_nil hne
      rw [List.length_dropLast]
      omega

theorem check_lists_iff (h : d.wp.Lists active free) (hne : active ≠ []) {flag : Bool} :
    (∃ d', Nemu.check cpu d = .ok flag d') ↔
      ∃ us, valuesInTurn cpu 1 d active.dropLast = some us ∧
        (flag = true ↔ Changed d.wp active.dropLast us) := by
  rw [check_iff]
  constructor
  · rintro ⟨l, us, hfinds, hflag⟩
    rcases (finds_iff h hne).1 hfinds with ⟨rfl, hvalues⟩
    exact ⟨us, hvalues, hflag⟩
  · rintro ⟨us, hvalues, hflag⟩
    exact ⟨_, us, (finds_iff h hne).2 ⟨rfl, hvalues⟩, hflag⟩

end Check

/-! ## Checks over runs -/

/-- The value of the expression of a watchpoint: evaluated on its own, with zeros behind the flag. -/
def watchedValue (cpu : CPUState) (d : Debugger) (i : Nat) : Option Word :=
  valueOf cpu (d.wp.pool i).cstr d.clear

/-- What a check finds: the machine, and the bytes behind the flag of the check. -/
structure Moment where
  cpu : CPUState
  bus : Bus
  behind : Nat → BitVec 24

def Debugger.over (d : Debugger) (g : Moment) : Debugger :=
  { d with bus := g.bus, behind := g.behind }

/-- Every check in a sequence of machine states returns, leaves the current values stored, and
reports whether a value differs from the one at the check before. -/
def Reports (active : List Nat) : (Nat → Option Word) → Debugger → List Moment → Prop
  | _, _, [] => True
  | previous, d, g :: guests =>
      ∃ flag d', Nemu.check g.cpu (d.over g) = .ok flag d' ∧
        (∀ i ∈ active, watchedValue g.cpu (d.over g) i = some (d'.wp.pool i).value) ∧
        (flag = true ↔ ∃ i ∈ active, watchedValue g.cpu (d.over g) i ≠ previous i) ∧
        Reports active (watchedValue g.cpu (d.over g)) d' guests

/-- In every machine state of the sequence, some watchpoint is active, the expressions have the
stored values on their own, and all but the last have them in turn, over what lies behind the flag. -/
def Unmoved (active : List Nat) (d : Debugger) (guests : List Moment) : Prop :=
  ∀ g ∈ guests, active ≠ [] ∧
    (∀ i ∈ active, watchedValue g.cpu (d.over g) i = some (d.wp.pool i).value) ∧
    valuesInTurn g.cpu 1 (d.over g) active.dropLast =
      some (active.dropLast.map fun i => (d.wp.pool i).value)

theorem Reports.congr {active : List Nat} {previous previous' : Nat → Option Word} {d : Debugger}
    {guests : List Moment} (h : Reports active previous d guests)
    (heq : ∀ i ∈ active, previous' i = previous i) : Reports active previous' d guests := by
  cases guests with
  | nil => exact trivial
  | cons g guests =>
      rcases h with ⟨flag, d', hrun, hstored, hflag, hrest⟩
      refine ⟨flag, d', hrun, hstored, hflag.trans (exists_congr fun i => ?_), hrest⟩
      exact and_congr_right fun hi => by rw [heq i hi]

theorem unmoved_cons {active : List Nat} {d : Debugger} {g : Moment} {guests : List Moment} :
    Unmoved active d (g :: guests) ↔
      (active ≠ [] ∧
        (∀ i ∈ active, watchedValue g.cpu (d.over g) i = some (d.wp.pool i).value) ∧
        valuesInTurn g.cpu 1 (d.over g) active.dropLast =
          some (active.dropLast.map fun i => (d.wp.pool i).value)) ∧
      Unmoved active d guests := by
  simp [Unmoved]

theorem Unmoved.congr {active : List Nat} {d d' : Debugger} {guests : List Moment}
    (h : Unmoved active d guests) (hwp : d'.wp = d.wp) : Unmoved active d' guests := by
  intro g hg
  rcases h g hg with ⟨hne, hstored, hturn⟩
  have hvalue : ∀ i, watchedValue g.cpu (d'.over g) i = watchedValue g.cpu (d.over g) i := by
    intro i
    have htext : ((d'.over g).wp.pool i).cstr = ((d.over g).wp.pool i).cstr :=
      congrArg (fun wp : WpState => (wp.pool i).cstr) hwp
    rw [watchedValue, watchedValue, htext]
    exact valueOf_congr ⟨rfl, rfl⟩
  rw [hwp]
  refine ⟨hne, fun i hi => (hvalue i).trans (hstored i hi), ?_⟩
  exact valuesInTurn_congr hturn hwp ⟨rfl, rfl⟩

/-- The checks of a sequence of machine states do what the watchpoints are for if and only if no
watched value ever moves away from the stored one, and what lies behind the flag makes none of them
look so. -/
theorem check_reports_iff {d : Debugger} {active free : List Nat} (h : d.wp.Lists active free)
    (guests : List Moment) :
    Reports active (fun i => some (d.wp.pool i).value) d guests ↔ Unmoved active d guests := by
  induction guests generalizing d with
  | nil => exact iff_of_true trivial fun g hg => by cases hg
  | cons g guests ih =>
      have hover : (d.over g).wp.Lists active free := h
      rw [unmoved_cons]
      constructor
      · rintro ⟨flag, d', hrun, hstored, hflag, hreports⟩
        have hwp : d'.wp = d.wp := show d'.wp = (d.over g).wp from (check_sameWp _).ok hrun
        have hne : active ≠ [] := by
          rintro rfl
          rw [check_nil hover] at hrun
          cases hrun
        rw [hwp] at hstored
        -- the values were stored before, so that none has changed
        have hfalse : flag = false := by
          refine Bool.eq_false_iff.2 fun htrue => ?_
          rcases hflag.1 htrue with ⟨i, hi, hdiff⟩
          exact hdiff (hstored i hi)
        subst hfalse
        rcases (check_lists_iff hover hne).1 ⟨d', hrun⟩ with ⟨us, hvalues, hunchanged⟩
        -- what the check has read in turn is what is stored
        have hus := (not_changed_iff (length_valuesInTurn hvalues)).1 fun hc =>
          Bool.false_ne_true (hunchanged.2 hc)
        have hlists : d'.wp.Lists active free := hwp.symm ▸ h
        have hnext := hreports.congr fun i hi => (hstored i hi).symm
        rw [← hwp] at hnext
        exact ⟨⟨hne, hstored, hus ▸ hvalues⟩, ((ih hlists).1 hnext).congr hwp.symm⟩
      · rintro ⟨⟨hne, hstored, hturn⟩, hunmoved⟩
        have hsame : false = true ↔ Changed (d.over g).wp active.dropLast
            (active.dropLast.map fun i => (d.wp.pool i).value) :=
          iff_of_false Bool.false_ne_true ((not_changed_iff (List.length_map _)).2 rfl)
        rcases (check_lists_iff hover hne).2 ⟨_, hturn, hsame⟩ with ⟨d', hrun⟩
        have hwp : d'.wp = d.wp := show d'.wp = (d.over g).wp from (check_sameWp _).ok hrun
        have hlists : d'.wp.Lists active free := hwp.symm ▸ h
        refine ⟨false, d', hrun, ?_, ?_, ?_⟩
        · rw [hwp]
          exact hstored
        · refine iff_of_false Bool.false_ne_true ?_
          rintro ⟨i, hi, hdiff⟩
          exact hdiff (hstored i hi)
        · refine ((ih hlists).2 (hunmoved.congr hwp)).congr fun i hi => ?_
          rw [hwp]
          exact hstored i hi

/-! ## A watched word -/

/-- The debugger behind a call that has overwritten nothing but the token array. -/
def Debugger.called (d : Debugger) (buf : TokenBuf) : Debugger :=
  { d with buf, behind := fun n => d.behind (n + 1) }

section Calls

variable {cpu : CPUState} {e : List Char} {d : Debugger}

/-- An expression whose tokens do not touch the flag, whatever the array held and whatever lies
behind the flag. -/
theorem callExpr_stored {l : List Token} {v : Word} (success : Byte)
    (hstored : ∃ buf, makeToken e d.buf = .ok true buf ∧ buf.stored = l)
    (heval : ∀ st : EvalState, st.bus = d.bus → evalSegment codeStack cpu l st = .ok v st) :
    ∃ buf, callExpr cpu e success d = .ok (v, success) (d.called buf) := by
  rcases hstored with ⟨buf, hmake, rfl⟩
  let st : EvalState := ⟨flagWord (d.behind 0) success, d.bus, d.evalMessages⟩
  have hexpr := @expr_of_stored cpu e ⟨d.buf, st⟩ buf hmake
  rw [liftEval, heval st rfl] at hexpr
  have hflag : (flagWord (d.behind 0) success).setWidth 8 = success := by
    rw [flagWord, BitVec.setWidth_append]
    simp
  refine ⟨buf, ?_⟩
  unfold callExpr
  rw [hexpr]
  dsimp only [st]
  rw [hflag]
  rfl

theorem callExpr_token {t : Token} {v : Word} (success : Byte)
    (hstored : ∃ buf, makeToken e d.buf = .ok true buf ∧ buf.stored = [t])
    (hleaf : ∀ st, evalLeaf cpu t st = .ok v st) :
    ∃ buf, callExpr cpu e success d = .ok (v, success) (d.called buf) :=
  callExpr_stored success hstored fun st _ => by
    rw [evalSegment]
    exact hleaf st

theorem callExpr_one (cpu : CPUState) (success : Byte) (d : Debugger) :
    ∃ buf, callExpr cpu ['1'] success d = .ok (1, success) (d.called buf) := by
  refine callExpr_token (t := ⟨.tkDecimal, ['1']⟩) success ⟨_, rfl, ?_⟩ fun _ => rfl
  simp [TokenBuf.stored, segment, TokenBuf.record, TokenBuf.next, TokenBuf.setStr,
    TokenBuf.setType]

/-- `*0x100` -/
def starWord : List Char := ['*', '0', 'x', '1', '0', '0']

theorem callExpr_word (cpu : CPUState) (success : Byte) (d : Debugger)
    (hmap : d.bus.pmemMap = registerPmem 0) :
    ∃ buf, callExpr cpu starWord success d =
      .ok (LittleEndian.load d.bus.pmem 0x100 4, success) (d.called buf) := by
  let l : List Token :=
    [⟨.deref, (d.buf.tokens 0).str⟩, ⟨.tkHexadecimal, ['0', 'x', '1', '0', '0']⟩]
  refine callExpr_stored success (l := l) ⟨_, rfl, ?_⟩ fun st hbus => ?_
  · simp [TokenBuf.stored, segment, TokenBuf.record, TokenBuf.next, TokenBuf.setStr,
      TokenBuf.setType, TokenBuf.starType, List.range_succ, l]
  · have hin : mapInside st.bus.pmemMap 0x100 = true := by
      rw [hbus, hmap]
      decide
    have hread : vaddrRead 0x100 4 st.bus = .ok (LittleEndian.load d.bus.pmem 0x100 4) st.bus := by
      rw [vaddrRead, paddrRead_pmem 4 hin, hbus, hmap]
      exact congrArg (fun v => EStateM.Result.ok v d.bus)
        (LittleEndian.load_four_and_mask d.bus.pmem 0x100 4 (Nat.le_refl 4))
    have hop : l[dominatedOffset l]? = some ⟨.deref, (d.buf.tokens 0).str⟩ := rfl
    have haddr : evalSegment codeStack cpu (l.drop (dominatedOffset l + 1)) st = .ok 0x100 st := by
      change evalSegment codeStack cpu [⟨.tkHexadecimal, ['0', 'x', '1', '0', '0']⟩] st = _
      rw [evalSegment]
      rfl
    have hlen : 2 ≤ l.length := Nat.le_refl 2
    rw [evalSegment_deref hlen hop rfl rfl haddr, liftBus, hread]

end Calls

/-- The watchpoints `*0x100`, set when the word there was 0, and `1`. -/
def watchWord : WpState :=
  { pool := fun i =>
      if i = 0 then ⟨0, some 1, starWord, 0⟩
      else if i = 1 then ⟨1, none, ['1'], 1⟩
      else ⟨i, if i < nrWp - 1 then some (i + 1) else none, [], 0⟩
    head := some 0
    free_ := some 2 }

theorem watchWord_lists : watchWord.Lists [0, 1] (List.range' 2 30) where
  headPath := by decide
  freePath := by decide
  perm := by decide
  no := by decide

/-- Both of them in turn. -/
theorem valuesInTurn_word (cpu : CPUState) {d : Debugger} (hwp : d.wp = watchWord)
    (hmap : d.bus.pmemMap = registerPmem 0) :
    valuesInTurn cpu 1 d [0] = some [LittleEndian.load d.bus.pmem 0x100 4] := by
  rcases callExpr_word cpu 1 d hmap with ⟨buf, hcall⟩
  have htext : (d.wp.pool 0).cstr = starWord := hwp ▸ rfl
  exact valuesInTurn_cons (htext ▸ hcall)

theorem watchedValue_word (cpu : CPUState) {d : Debugger} (hwp : d.wp = watchWord)
    (hmap : d.bus.pmemMap = registerPmem 0) :
    watchedValue cpu d 0 = some (LittleEndian.load d.bus.pmem 0x100 4) ∧
      watchedValue cpu d 1 = some 1 := by
  have hword : (d.wp.pool 0).cstr = starWord := hwp ▸ rfl
  have hone : (d.wp.pool 1).cstr = ['1'] := hwp ▸ rfl
  rcases callExpr_word cpu 1 d.clear hmap with ⟨buf, hcall⟩
  rcases callExpr_one cpu 1 d.clear with ⟨buf', hcall'⟩
  rw [watchedValue, watchedValue, hword, hone]
  exact ⟨valueOf_eq_some.2 ⟨_, _, hcall⟩, valueOf_eq_some.2 ⟨_, _, hcall'⟩⟩

theorem changed_word_iff {v : Word} : Changed watchWord [0] [v] ↔ v ≠ 0 := by
  rw [changed_cons, or_iff_left (not_changed_nil _ _)]
  rfl

theorem showsChange_word_iff (cpu : CPUState) {d : Debugger} (hwp : d.wp = watchWord)
    (hmap : d.bus.pmemMap = registerPmem 0) :
    d.ShowsChange cpu ↔ LittleEndian.load d.bus.pmem 0x100 4 ≠ 0 := by
  have hlists : d.wp.Lists [0, 1] (List.range' 2 30) := hwp ▸ watchWord_lists
  have hturn := valuesInTurn_word cpu hwp hmap
  constructor
  · rintro ⟨l, us, hfinds, hchange⟩
    rcases (finds_iff hlists (List.cons_ne_nil _ _)).1 hfinds with ⟨rfl, hvalues⟩
    cases hturn.symm.trans hvalues
    rw [hwp] at hchange
    exact changed_word_iff.1 hchange
  · intro hne
    refine ⟨_, _, (finds_iff hlists (List.cons_ne_nil _ _)).2 ⟨rfl, hturn⟩, ?_⟩
    rw [hwp]
    exact changed_word_iff.2 hne

/-- A machine with `v` at 0x100 and these bytes behind the flag. -/
def Moment.word (v : Word) (behind : Nat → BitVec 24) : Moment :=
  ⟨.zero, { Bus.zero with pmem := LittleEndian.store (fun _ => 0) 0x100 4 v }, behind⟩

def wordDebugger : Debugger := { Debugger.zero with wp := watchWord }

/-- Two checks while the word is 0, over different bytes. -/
theorem check_reports_iff_word :
    Reports [0, 1] (fun i => some (watchWord.pool i).value) wordDebugger
      [.word 0 fun _ => 0, .word 0 fun n => BitVec.ofNat 24 (n + 1)] := by
  refine (check_reports_iff (d := wordDebugger) watchWord_lists _).2 fun g hg => ?_
  have hword : ∀ behind, Unmoved [0, 1] wordDebugger [.word 0 behind] := by
    intro behind g hg
    rw [List.mem_singleton.1 hg]
    let d := wordDebugger.over (.word 0 behind)
    have hload : LittleEndian.load d.bus.pmem 0x100 4 = 0 := LittleEndian.load_store _ _ _
    have hvalues := watchedValue_word .zero (d := d) rfl rfl
    have hturn := valuesInTurn_word .zero (d := d) rfl rfl
    rw [hload] at hvalues hturn
    refine ⟨by simp, fun i hi => ?_, hturn⟩
    rw [List.mem_cons, List.mem_singleton] at hi
    rcases hi with rfl | rfl
    · exact hvalues.1
    · exact hvalues.2
  rw [List.mem_cons, List.mem_singleton] at hg
  rcases hg with rfl | rfl
  · exact hword _ _ (List.mem_singleton.2 rfl)
  · exact hword _ _ (List.mem_singleton.2 rfl)

/-- After a check with 1 at 0x100, the stored value is still 0. -/
theorem check_keeps_old_value :
    ¬ Reports [0, 1] (fun i => some (watchWord.pool i).value) wordDebugger
      [.word 1 fun _ => 0, .word 1 fun _ => 0] := by
  rintro ⟨flag, d', hrun, hstored, -⟩
  have hwp : d'.wp = watchWord := (check_sameWp _).ok hrun
  let d := wordDebugger.over (.word 1 fun _ => 0)
  have hload : LittleEndian.load d.bus.pmem 0x100 4 = 1 := LittleEndian.load_store _ _ _
  have hvalue := (watchedValue_word .zero (d := d) rfl rfl).1
  rw [hload] at hvalue
  have hzero := (hstored 0 (by simp)).symm.trans hvalue
  rw [hwp] at hzero
  exact absurd hzero (by decide)

end Nemu
