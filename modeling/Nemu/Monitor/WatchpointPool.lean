import Nemu.Monitor.Watchpoint

/-!
# The watchpoint pool over whole runs

`Watchlist` says what the pool is for: the active watchpoints in the order of their creation, and
the free nodes.  `WpState.Lists` connects it with the linked lists of the source, and
`wpRun_lists` carries the connection through every run of `new_wp` and `delete_wp`.
-/

namespace Nemu

open Chain StateRules

/-! ## The two lists -/

/-- The lists from `head` and `free_` are `active` and `free`, and share out the pool. -/
structure WpState.Lists (s : WpState) (active free : List Nat) : Prop where
  headPath : Path s.next s.head active none
  freePath : Path s.next s.free_ free none
  perm : (active ++ free).Perm (List.range nrWp)
  no : ∀ i < nrWp, (s.pool i).no = i

namespace WpState.Lists

variable {s : WpState} {active free : List Nat}

theorem nodup (h : s.Lists active free) : (active ++ free).Nodup :=
  h.perm.nodup_iff.2 List.nodup_range

theorem lt_of_mem (h : s.Lists active free) {i : Nat} (hi : i ∈ active ++ free) : i < nrWp :=
  List.mem_range.1 (h.perm.subset hi)

theorem length (h : s.Lists active free) : active.length + free.length = nrWp := by
  rw [← List.length_append, h.perm.length_eq, List.length_range]

end WpState.Lists

/-- Nothing that the lists are read from has changed. -/
structure SameLinks (s s' : Debugger) : Prop where
  next : s'.wp.next = s.wp.next
  head : s'.wp.head = s.wp.head
  free : s'.wp.free_ = s.wp.free_
  no : ∀ i, (s'.wp.pool i).no = (s.wp.pool i).no

instance : IsPreorder Debugger SameLinks where
  refl _ := ⟨rfl, rfl, rfl, fun _ => rfl⟩
  trans _ _ _ h h' := ⟨h'.next.trans h.next, h'.head.trans h.head, h'.free.trans h.free,
    fun i => (h'.no i).trans (h.no i)⟩

theorem SameLinks.lists {s s' : Debugger} {active free : List Nat} (h : SameLinks s s')
    (hs : s.wp.Lists active free) : s'.wp.Lists active free := by
  refine ⟨?_, ?_, hs.perm, fun i hi => (h.no i).trans (hs.no i hi)⟩
  · rw [h.next, h.head]
    exact hs.headPath
  · rw [h.next, h.free]
    exact hs.freePath

/-! ## One access -/

section Access

variable {i : Nat} (s : Debugger)

theorem node_run (hi : i < nrWp) : node (some i) s = .ok (s.wp.pool i) s := by
  simp only [node, if_pos hi]

theorem storeNext_run (hi : i < nrWp) (p : Option Nat) :
    storeNext (some i) p s = .ok ⟨⟩ { s with wp := s.wp.setNext i p } := by
  rw [storeNext, bind_ok (node_run s hi)]
  rfl

theorem node_within {R : Debugger → Debugger → Prop} [IsPreorder Debugger R] (p : Option Nat) :
    Within R (node p) := by
  intro s
  cases p with
  | none => exact refl_of R s
  | some i =>
      by_cases hi : i < nrWp
      · rw [node_run s hi]
        exact refl_of R s
      · simp only [node, if_neg hi]
        exact refl_of R s

theorem logWp_within (m : WpMessage) : Within SameLinks (logWp m) :=
  fun _ => ⟨rfl, rfl, rfl, fun _ => rfl⟩

theorem callExpr_within (cpu : CPUState) (e : List Char) (success : Byte) :
    Within SameLinks (callExpr cpu e success) := by
  intro s
  rw [final_callExpr]
  exact ⟨rfl, rfl, rfl, fun _ => rfl⟩

/-- Filling in the node of a new watchpoint moves no link, whether or not it returns. -/
theorem watch_within (cpu : CPUState) (args : Option (List Char)) (p : Option Nat) :
    Within SameLinks (watch cpu args p) := by
  unfold watch
  cases args with
  | none => exact Within.throw _
  | some e =>
      refine Within.bind (fun s => ?_) fun _ => ?_
      · exact ⟨WpState.setExp_next _ _ _, rfl, rfl, fun i => WpState.setExp_no _ _ _ _⟩
      · refine (callExpr_within cpu e 1).bind fun r => Within.bind (fun s => ?_) fun _ => ?_
        · exact ⟨WpState.setValue_next _ _ _, rfl, rfl, fun i => WpState.setValue_no _ _ _ _⟩
        · exact (node_within p).bind fun wp => logWp_within _

/-- Whatever holds across an evaluation and a line of the log holds across the loop of `check`. -/
theorem checkLoop_within {R : Debugger → Debugger → Prop} [IsPreorder Debugger R] {cpu : CPUState}
    (hcall : ∀ e success, Within R (callExpr cpu e success)) (hlog : ∀ m, Within R (logWp m))
    (fuel : Nat) (p : Option Nat) (success : Byte) (flag : Bool) :
    Within R (checkLoop cpu fuel p success flag) := by
  induction fuel generalizing p success flag with
  | zero => exact Within.throw _
  | succ fuel ih =>
      refine (node_within p).bind fun wp => Within.ite ?_ (Within.pure _)
      refine (hcall _ _).bind fun r => Within.ite ?_ (ih _ _ _)
      exact (hlog _).bind fun _ => ih _ _ _

end Access

/-! ## Appending a node -/

theorem lastNode_run {s : Debugger} {q : Option Nat} {l : List Nat} {z : Nat}
    (h : Path s.wp.next q (l ++ [z]) none) (hlt : ∀ i ∈ l ++ [z], i < nrWp) {fuel : Nat}
    (hfuel : l.length < fuel) : lastNode fuel q s = .ok (some z) s := by
  induction l generalizing q fuel with
  | nil =>
      obtain ⟨f, rfl⟩ : ∃ f, fuel = f + 1 := ⟨fuel - 1, by omega⟩
      have hend : (s.wp.pool z).next = none := h.2
      rw [h.1, lastNode, bind_ok (node_run s (hlt z (by simp))), if_neg (by simp [hend])]
      rfl
  | cons a l ih =>
      rw [List.length_cons] at hfuel
      obtain ⟨f, rfl⟩ : ∃ f, fuel = f + 1 := ⟨fuel - 1, by omega⟩
      have hrest : Path s.wp.next (s.wp.pool a).next (l ++ [z]) none := h.2
      have hmore : (s.wp.pool a).next ≠ none := by
        intro hnone
        rw [hnone] at hrest
        cases l with
        | nil => cases hrest.1
        | cons b l => cases hrest.1
      rw [h.1, lastNode, bind_ok (node_run s (hlt a (by simp))), if_pos hmore]
      exact ih hrest (fun i hi => hlt i (by simp_all)) (by omega)

/-- A list together with where it starts. -/
structure Starts (s : Debugger) (p : Option Nat) (l : List Nat) : Prop where
  path : Path s.wp.next p l none
  lt : ∀ i ∈ l, i < nrWp
  length : l.length ≤ nrWp

/-- What appending `b` does: either it is the list now, or the last node points to it. -/
theorem appendNode_run {s : Debugger} {p : Option Nat} {l : List Nat} (h : Starts s p l) (b : Nat)
    (setList : Option Nat → OnDebugger Unit) :
    (l = [] ∧ appendNode p (some b) setList s = setList (some b) s) ∨
      ∃ l' z, l = l' ++ [z] ∧
        appendNode p (some b) setList s = .ok ⟨⟩ { s with wp := s.wp.setNext z (some b) } := by
  cases List.eq_nil_or_concat l with
  | inl hnil =>
      subst hnil
      have hp : p = none := h.path
      exact Or.inl ⟨rfl, by rw [appendNode, if_pos hp]⟩
  | inr hconcat =>
      rcases hconcat with ⟨l', z, rfl⟩
      rw [List.concat_eq_append] at h ⊢
      have hp : p ≠ none := by
        rintro rfl
        cases l' with
        | nil => cases h.path.1
        | cons a l' => cases h.path.1
      have hlength := h.length
      rw [List.length_append, List.length_singleton] at hlength
      -- the walk ends at the last node, and the new one is hung behind it
      have hlast := lastNode_run h.path h.lt (Nat.lt_of_succ_le hlength)
      refine Or.inr ⟨l', z, rfl, ?_⟩
      rw [appendNode, if_neg hp, bind_ok hlast]
      exact storeNext_run s (h.lt z (by simp)) _

/-! ## A node between the lists -/

/-- Node `b` is on neither list; the other nodes are shared out as in `WpState.Lists`. -/
structure WpState.Loose (s : WpState) (b : Nat) (active free : List Nat) : Prop where
  headPath : Path s.next s.head active none
  freePath : Path s.next s.free_ free none
  perm : (active ++ b :: free).Perm (List.range nrWp)
  no : ∀ i < nrWp, (s.pool i).no = i

namespace WpState.Loose

variable {s : Debugger} {b : Nat} {active free : List Nat}

theorem nodup {s : WpState} (h : s.Loose b active free) : (active ++ b :: free).Nodup :=
  h.perm.nodup_iff.2 List.nodup_range

theorem lt_of_mem {s : WpState} (h : s.Loose b active free) {i : Nat}
    (hi : i ∈ active ++ b :: free) : i < nrWp :=
  List.mem_range.1 (h.perm.subset hi)

theorem length {s : WpState} (h : s.Loose b active free) :
    active.length + free.length + 1 = nrWp := by
  have hlen := h.perm.length_eq
  rw [List.length_append, List.length_cons, List.length_range] at hlen
  omega

/-- A loose node points nowhere after its `next` is cleared. -/
theorem clear {s : WpState} (h : s.Loose b active free) : (s.setNext b none).Loose b active free := by
  have hnodup := h.nodup
  rw [List.nodup_append, List.nodup_cons] at hnodup
  refine ⟨?_, ?_, h.perm, fun i hi => ?_⟩
  · rw [WpState.setNext_next]
    exact h.headPath.update fun hmem => hnodup.2.2 b hmem b (by simp) rfl
  · rw [WpState.setNext_next]
    exact h.freePath.update hnodup.2.1.1
  · rw [WpState.setNext_no]
    exact h.no i hi

/-- The first half of `new_wp`: the first free node leaves its list. -/
theorem of_lists {s : WpState} (h : s.Lists active (b :: free)) :
    WpState.Loose ({ s with free_ := s.next b }.setNext b none) b active free := by
  have hloose : WpState.Loose { s with free_ := s.next b } b active free :=
    ⟨h.headPath, h.freePath.2, h.perm, h.no⟩
  exact hloose.clear

theorem append_head (h : s.wp.Loose b active free) (hend : s.wp.next b = none) :
    ∃ s', appendNode s.wp.head (some b) setHead s = .ok ⟨⟩ s' ∧
      s'.wp.Lists (active ++ [b]) free ∧ s'.bus = s.bus ∧ s'.behind = s.behind := by
  have hnodup := h.nodup
  have hlen := h.length
  have hperm : ((active ++ [b]) ++ free).Perm (List.range nrWp) := by simpa using h.perm
  have hstarts : Starts s s.wp.head active :=
    ⟨h.headPath, fun i hi => h.lt_of_mem (by simp [hi]), by omega⟩
  rcases appendNode_run hstarts b setHead with ⟨rfl, hrun⟩ | ⟨l, z, rfl, hrun⟩
  · exact ⟨_, hrun, ⟨⟨rfl, hend⟩, h.freePath, hperm, h.no⟩, rfl, rfl⟩
  · -- `z` is on the list from `head`, so the other list keeps its links
    have hb : b ∉ l ++ [z] := by
      rw [List.nodup_append] at hnodup
      exact fun hmem => hnodup.2.2 b hmem b (by simp) rfl
    have hz : z ∉ free := by
      rw [List.nodup_append] at hnodup
      exact fun hmem => hnodup.2.2 z (by simp) z (by simp [hmem]) rfl
    refine ⟨_, hrun, ⟨?_, ?_, hperm, fun i hi => ?_⟩, rfl, rfl⟩
    · have hsnoc := h.headPath.snoc hb hend
      simpa using hsnoc
    · have hupdate := @Path.update _ _ _ _ (some b) _ _ _ h.freePath hz
      simpa using hupdate
    · simpa using h.no i hi

theorem append_free (h : s.wp.Loose b active free) (hend : s.wp.next b = none) :
    ∃ s', appendNode s.wp.free_ (some b) setFree s = .ok ⟨⟩ s' ∧
      s'.wp.Lists active (free ++ [b]) := by
  have hnodup := h.nodup
  have hlen := h.length
  have hperm : (active ++ (free ++ [b])).Perm (List.range nrWp) := by
    refine List.Perm.trans (List.Perm.append_left _ ?_) h.perm
    exact List.perm_append_singleton b free
  have hstarts : Starts s s.wp.free_ free :=
    ⟨h.freePath, fun i hi => h.lt_of_mem (by simp [hi]), by omega⟩
  rw [List.nodup_append, List.nodup_cons] at hnodup
  rcases appendNode_run hstarts b setFree with ⟨rfl, hrun⟩ | ⟨l, z, rfl, hrun⟩
  · exact ⟨_, hrun, h.headPath, ⟨rfl, hend⟩, hperm, h.no⟩
  · have hz : z ∉ active := fun hmem => hnodup.2.2 z hmem z (by simp) rfl
    refine ⟨_, hrun, ?_, ?_, hperm, fun i hi => ?_⟩
    · have hupdate := @Path.update _ _ _ _ (some b) _ _ _ h.headPath hz
      simpa using hupdate
    · have hsnoc := h.freePath.snoc hnodup.2.1.1 hend
      simpa using hsnoc
    · simpa using h.no i hi

end WpState.Loose

/-! ## The three functions -/

/-- The first half of `new_wp`, up to the copy of the text. -/
def linkNew : OnDebugger (Option Nat) := do
  let s ← get
  if s.wp.free_ = none then
    throw .abort
  else
    let p := s.wp.free_
    let wp ← node p
    setFree wp.next
    storeNext p none
    let s ← get
    appendNode s.wp.head p setHead
    return p

theorem newWp_eq (cpu : CPUState) (args : Option (List Char)) :
    newWp cpu args = linkNew >>= watch cpu args := by
  funext s
  unfold newWp linkNew
  rw [bind_assoc, bind_ok (get_run s), bind_ok (get_run s)]
  by_cases hfree : s.wp.free_ = none
  · rw [if_pos hfree, if_pos hfree]
    rfl
  · rw [if_neg hfree, if_neg hfree]
    simp only [bind_assoc, pure_bind]

theorem linkNew_run {s : Debugger} {p : Nat} {active free : List Nat}
    (h : s.wp.Lists active (p :: free)) :
    ∃ s', linkNew s = .ok (some p) s' ∧ s'.wp.Lists (active ++ [p]) free ∧ s'.bus = s.bus ∧
      s'.behind = s.behind := by
  have hfree : s.wp.free_ = some p := h.freePath.1
  have hp : p < nrWp := h.lt_of_mem (by simp)
  have hloose := WpState.Loose.of_lists h
  have hend : ({ s.wp with free_ := s.wp.next p }.setNext p none).next p = none := by simp
  rcases @WpState.Loose.append_head
    { s with wp := { s.wp with free_ := s.wp.next p }.setNext p none } p active free hloose hend with
    ⟨s', hrun, hs'⟩
  refine ⟨s', ?_, hs'⟩
  rw [linkNew, bind_ok (get_run s), if_neg (by simp [hfree])]
  simp only [hfree]
  rw [bind_ok (node_run s hp), setFree, modifyWp, bind_ok (modify_run _ s),
    bind_ok (storeNext_run _ hp none), bind_ok (get_run _)]
  exact bind_ok hrun

/-- With no node left, `new_wp` panics. -/
theorem linkNew_full {s : Debugger} {active : List Nat} (h : s.wp.Lists active []) :
    linkNew s = .error .abort s := by
  have hfree : s.wp.free_ = none := h.freePath
  rw [linkNew, bind_ok (get_run s), if_pos hfree]
  rfl

/-- `new_wp` moves the first free node to the end of the active list, and then fills it in. -/
theorem newWp_run {s : Debugger} {p : Nat} {active free : List Nat}
    (h : s.wp.Lists active (p :: free)) (cpu : CPUState) (args : Option (List Char)) :
    ∃ s', newWp cpu args s = watch cpu args (some p) s' ∧ s'.wp.Lists (active ++ [p]) free ∧
      s'.bus = s.bus ∧ s'.behind = s.behind := by
  rcases linkNew_run h with ⟨s', hrun, hs'⟩
  refine ⟨s', ?_, hs'⟩
  rw [newWp_eq]
  exact bind_ok hrun

/-- `free_wp` moves a loose node to the end of the free list. -/
theorem freeWp_run {s : Debugger} {b : Nat} {active free : List Nat}
    (h : s.wp.Loose b active free) :
    ∃ s', freeWp (some b) s = .ok ⟨⟩ s' ∧ s'.wp.Lists active (free ++ [b]) := by
  have hb : b < nrWp := h.lt_of_mem (by simp)
  have hend : (s.wp.setNext b none).next b = none := by simp
  rcases @WpState.Loose.append_free
    { s with wp := s.wp.setNext b none, messages := s.messages ++ [.freed (s.wp.pool b).no] }
    b active free h.clear hend with ⟨s', hrun, hs'⟩
  refine ⟨s', ?_, hs'⟩
  rw [freeWp, bind_ok (node_run s hb), logWp, bind_ok (modify_run _ s),
    bind_ok (storeNext_run _ hb none), bind_ok (get_run _)]
  exact hrun

/-- The loop of `delete_wp` with the node `a` in hand finds nothing behind it. -/
theorem deleteLoop_not_found {s : Debugger} {num : Int} {a : Nat} {rest : List Nat}
    (h : Path s.wp.next (some a) (a :: rest) none) (hlt : ∀ i ∈ a :: rest, i < nrWp)
    (hno : ∀ i ∈ rest, (s.wp.pool i).no ≠ num) {fuel : Nat} (hfuel : rest.length < fuel) :
    deleteLoop num fuel (some a) s = .ok false s := by
  induction rest generalizing a fuel with
  | nil =>
      obtain ⟨f, rfl⟩ : ∃ f, fuel = f + 1 := ⟨fuel - 1, by omega⟩
      have hend : (s.wp.pool a).next = none := h.2
      rw [deleteLoop, bind_ok (node_run s (hlt a (by simp))), if_neg (by simp [hend])]
      rfl
  | cons b rest ih =>
      rw [List.length_cons] at hfuel
      obtain ⟨f, rfl⟩ : ∃ f, fuel = f + 1 := ⟨fuel - 1, by omega⟩
      have hnext : (s.wp.pool a).next = some b := h.2.1
      rw [deleteLoop, bind_ok (node_run s (hlt a (by simp))), if_pos (by simp [hnext]), hnext,
        bind_ok (node_run s (hlt b (by simp))), if_neg (hno b (by simp))]
      exact ih ⟨rfl, h.2.2⟩ (fun i hi => hlt i (by simp_all)) (fun i hi => hno i (by simp [hi]))
        (by omega)

/-- The loop of `delete_wp` stops at `z`, the node in front of the first one with the number. -/
theorem deleteLoop_found {s : Debugger} {num : Int} {a z b : Nat} {l rest rest' : List Nat}
    (h : Path s.wp.next (some a) (a :: (rest ++ b :: rest')) none)
    (hlt : ∀ i ∈ a :: (rest ++ b :: rest'), i < nrWp)
    (hno : ∀ i ∈ rest, (s.wp.pool i).no ≠ num) (hb : (s.wp.pool b).no = num)
    (hz : a :: rest = l ++ [z]) {fuel : Nat} (hfuel : rest.length < fuel) :
    deleteLoop num fuel (some a) s =
      (freeWp (some b) >>= fun _ => pure true) { s with wp := s.wp.setNext z (s.wp.next b) } := by
  -- on the nodes between the current one and the one to be deleted
  induction rest generalizing a l fuel with
  | nil =>
      obtain ⟨f, rfl⟩ : ∃ f, fuel = f + 1 := ⟨fuel - 1, by omega⟩
      have hnext : (s.wp.pool a).next = some b := h.2.1
      have haz : a = z := by
        cases l with
        | nil => simpa using hz
        | cons c l => simp at hz
      rw [deleteLoop, bind_ok (node_run s (hlt a (by simp))), if_pos (by simp [hnext]), hnext,
        bind_ok (node_run s (hlt b (by simp))), if_pos hb,
        bind_ok (storeNext_run s (hlt a (by simp)) _), haz]
      rfl
  | cons c rest ih =>
      rw [List.length_cons] at hfuel
      obtain ⟨f, rfl⟩ : ∃ f, fuel = f + 1 := ⟨fuel - 1, by omega⟩
      have hnext : (s.wp.pool a).next = some c := h.2.1
      rw [deleteLoop, bind_ok (node_run s (hlt a (by simp))), if_pos (by simp [hnext]), hnext,
        bind_ok (node_run s (hlt c (by simp))), if_neg (hno c (by simp))]
      cases l with
      | nil => simp at hz
      | cons d l =>
          rw [List.cons_append, List.cons.injEq] at hz
          exact ih ⟨rfl, h.2.2⟩ (fun i hi => hlt i (List.mem_cons_of_mem a hi))
            (fun i hi => hno i (by simp [hi])) hz.2 (by omega)

theorem filter_number {l m : List Nat} {b : Nat} {num : Int} (h : (l ++ b :: m).Nodup)
    (hb : (b : Int) = num) :
    (l ++ b :: m).filter (fun i : Nat => (i : Int) ≠ num) = l ++ m ∧
      (l ++ b :: m).filter (fun i : Nat => (i : Int) = num) = [b] := by
  subst hb
  rw [List.nodup_append, List.nodup_cons] at h
  have hl : ∀ i ∈ l, (i : Int) ≠ b := by
    intro i hi heq
    exact h.2.2 i hi b (by simp) (Int.ofNat.inj heq)
  have hm : ∀ i ∈ m, (i : Int) ≠ b := by
    intro i hi heq
    have hib : i = b := Int.ofNat.inj heq
    exact h.2.1.1 (hib ▸ hi)
  constructor
  · rw [List.filter_append, List.filter_cons_of_neg (by simp),
      List.filter_eq_self.2 (by simpa using hl), List.filter_eq_self.2 (by simpa using hm)]
  · rw [List.filter_append, List.filter_cons_of_pos (by simp),
      List.filter_eq_nil_iff.2 (by simpa using hl), List.filter_eq_nil_iff.2 (by simpa using hm),
      List.nil_append]

section Delete

variable {s : Debugger} {num : Int} {a : Nat} {active free : List Nat}

/-- The node in hand when `delete_wp` has read the head of the list. -/
theorem deleteWp_unfold (h : s.wp.Lists (a :: active) free) :
    deleteWp num s =
      if (a : Int) = num then
        (freeWp (some a) >>= fun _ => pure ⟨⟩)
          { s with wp := { s.wp with head := s.wp.next a } }
      else
        (deleteLoop num nrWp (some a) >>= fun isFound =>
          if isFound then pure ⟨⟩ else logWp (.notFound num)) s := by
  have ha : a < nrWp := h.lt_of_mem (by simp)
  have hhead : s.wp.head = some a := h.headPath.1
  rw [deleteWp, bind_ok (get_run s), hhead, bind_ok (node_run s ha), h.no a ha]
  by_cases hfirst : (a : Int) = num
  · rw [if_pos hfirst, if_pos hfirst, setHead, modifyWp, bind_ok (modify_run _ s)]
    rfl
  · rw [if_neg hfirst, if_neg hfirst]

/-- The head of the list goes. -/
theorem deleteWp_head (h : s.wp.Lists (a :: active) free) (hnum : (a : Int) = num) :
    ∃ s', deleteWp num s = .ok ⟨⟩ s' ∧ s'.wp.Lists active (free ++ [a]) := by
  have hloose : { s.wp with head := s.wp.next a }.Loose a active free :=
    ⟨h.headPath.2, h.freePath, List.perm_middle.trans h.perm, h.no⟩
  rcases @freeWp_run { s with wp := { s.wp with head := s.wp.next a } } a active free hloose with
    ⟨s', hrun, hs'⟩
  refine ⟨s', ?_, hs'⟩
  rw [deleteWp_unfold h, if_pos hnum]
  exact bind_ok hrun

/-- Once the node in front of it points behind it, `b` is loose. -/
theorem unlink_loose {z b : Nat} {l m : List Nat} (h : s.wp.Lists (l ++ z :: b :: m) free) :
    (s.wp.setNext z (s.wp.next b)).Loose b (l ++ z :: m) free := by
  have hzfree : z ∉ free := fun hfree =>
    (List.nodup_append.1 h.nodup).2.2 z (by simp) z hfree rfl
  refine ⟨?_, ?_, ?_, fun i hi => ?_⟩
  · have hunlink := h.headPath.unlink
    simpa using hunlink
  · have hupdate := @Path.update _ _ _ _ (s.wp.next b) _ _ _ h.freePath hzfree
    simpa using hupdate
  · refine List.Perm.trans ?_ h.perm
    rw [List.append_assoc, List.append_assoc]
    exact List.Perm.append_left _ (List.Perm.cons _ List.perm_middle)
  · rw [WpState.setNext_no]
    exact h.no i hi

/-- A node behind the head goes. -/
theorem deleteWp_middle {b : Nat} {l m : List Nat} (h : s.wp.Lists (a :: (l ++ b :: m)) free)
    (hb : (b : Int) = num) :
    ∃ s', deleteWp num s = .ok ⟨⟩ s' ∧ s'.wp.Lists (a :: (l ++ m)) (free ++ [b]) := by
  have hlt : ∀ i ∈ a :: (l ++ b :: m), i < nrWp :=
    fun i hi => h.lt_of_mem (List.mem_append_left _ hi)
  have hhead : s.wp.head = some a := h.headPath.1
  -- `b` is the only node with the number
  have hsplit : (a :: l ++ b :: m).Nodup := (List.nodup_append.1 h.nodup).1
  have hother : ∀ i ∈ a :: l, (i : Int) ≠ num := by
    intro i hi heq
    have hib : i = b := Int.ofNat.inj (heq.trans hb.symm)
    exact (List.nodup_append.1 hsplit).2.2 i hi b (by simp) hib
  -- `z` is the node in front of it
  obtain ⟨l', z, hz⟩ : ∃ l' z, a :: l = l' ++ [z] :=
    ⟨_, _, (List.dropLast_append_getLast (List.cons_ne_nil a l)).symm⟩
  have hlist : a :: (l ++ b :: m) = l' ++ z :: b :: m := by
    rw [← List.cons_append, hz, List.append_assoc, List.singleton_append]
  have hlist' : a :: (l ++ m) = l' ++ z :: m := by
    rw [← List.cons_append, hz, List.append_assoc, List.singleton_append]
  have hloose := unlink_loose (hlist ▸ h)
  rw [← hlist'] at hloose
  rcases @freeWp_run { s with wp := s.wp.setNext z (s.wp.next b) } b _ free hloose with
    ⟨s', hrun, hs'⟩
  refine ⟨s', ?_, hs'⟩
  have hno : ∀ i ∈ l, (s.wp.pool i).no ≠ num := by
    intro i hi
    rw [h.no i (hlt i (by simp [hi]))]
    exact hother i (by simp [hi])
  have hbno : (s.wp.pool b).no = num := (h.no b (hlt b (by simp))).trans hb
  have hfuel : l.length < nrWp := by
    have hlen := h.length
    rw [List.length_cons, List.length_append, List.length_cons] at hlen
    omega
  have hloop := deleteLoop_found (hhead ▸ h.headPath) hlt hno hbno hz hfuel
  rw [bind_ok hrun] at hloop
  rw [deleteWp_unfold h, if_neg (hother a (by simp))]
  exact bind_ok hloop

/-- No watchpoint has the number. -/
theorem deleteWp_missing (h : s.wp.Lists (a :: active) free)
    (hno : ∀ i ∈ a :: active, (i : Int) ≠ num) :
    ∃ s', deleteWp num s = .ok ⟨⟩ s' ∧ s'.wp.Lists (a :: active) free := by
  have hlt : ∀ i ∈ a :: active, i < nrWp := fun i hi => h.lt_of_mem (List.mem_append_left _ hi)
  have hhead : s.wp.head = some a := h.headPath.1
  have hlen := h.length
  rw [List.length_cons] at hlen
  have hnumber : ∀ i ∈ active, (s.wp.pool i).no ≠ num := by
    intro i hi
    rw [h.no i (hlt i (by simp [hi]))]
    exact hno i (by simp [hi])
  have hloop := @deleteLoop_not_found s num a active (hhead ▸ h.headPath) hlt hnumber nrWp
    (by omega)
  refine ⟨{ s with messages := s.messages ++ [.notFound num] }, ?_, h⟩
  rw [deleteWp_unfold h, if_neg (hno a (by simp)), bind_ok hloop]
  rfl

/-- `delete_wp` moves the node with the number, if it is active, to the end of the free list. -/
theorem deleteWp_run (h : s.wp.Lists active free) (hne : active ≠ []) (num : Int) :
    ∃ s', deleteWp num s = .ok ⟨⟩ s' ∧
      s'.wp.Lists (active.filter fun i : Nat => (i : Int) ≠ num)
        (free ++ active.filter fun i : Nat => (i : Int) = num) := by
  have hnodup := (List.nodup_append.1 h.nodup).1
  cases active with
  | nil => exact absurd rfl hne
  | cons a rest =>
      by_cases hmem : ∃ b ∈ a :: rest, (b : Int) = num
      · rcases hmem with ⟨b, hbmem, hb⟩
        rcases List.append_of_mem hbmem with ⟨l, m, hlist⟩
        rw [hlist] at hnodup ⊢
        rcases filter_number hnodup hb with ⟨hrest, hgone⟩
        rw [hrest, hgone]
        -- the head of the list has a case of its own in the source
        cases l with
        | nil =>
            rw [hlist] at h
            exact deleteWp_head h hb
        | cons c l =>
            rw [hlist] at h
            exact deleteWp_middle h hb
      · have hno : ∀ i ∈ a :: rest, (i : Int) ≠ num := fun i hi heq => hmem ⟨i, hi, heq⟩
        rw [List.filter_eq_self.2 (by simpa using hno),
          List.filter_eq_nil_iff.2 (by simpa using hno), List.append_nil]
        exact deleteWp_missing h hno

end Delete

/-! ## What the pool is for -/

/-- An active watchpoint, with the time of its creation. -/
structure Created where
  node : Nat
  time : Nat

/-- The active watchpoints in the order of their creation, and the free nodes. -/
structure Watchlist where
  active : List Created
  free : List Nat
  clock : Nat
  covers : (active.map Created.node ++ free).Perm (List.range nrWp)
  ordered : active.Pairwise fun c d => c.time < d.time
  past : ∀ c ∈ active, c.time < clock

namespace Watchlist

def init : Watchlist where
  active := []
  free := List.range nrWp
  clock := 0
  covers := List.Perm.refl _
  ordered := List.Pairwise.nil
  past := by simp

/-- Node `p` becomes the latest watchpoint. -/
def createAt (w : Watchlist) (p : Nat) (free : List Nat) (h : w.free = p :: free) : Watchlist where
  active := w.active ++ [⟨p, w.clock⟩]
  free := free
  clock := w.clock + 1
  covers := by
    have hcovers := w.covers
    rw [h] at hcovers
    simpa using hcovers
  ordered := by
    refine List.pairwise_append.2 ⟨w.ordered, List.pairwise_singleton _ _, fun c hc d hd => ?_⟩
    rw [List.mem_singleton.1 hd]
    exact w.past c hc
  past := by
    intro c hc
    rcases List.mem_append.1 hc with hold | hnew
    · exact Nat.lt_succ_of_lt (w.past c hold)
    · rw [List.mem_singleton.1 hnew]
      exact Nat.lt_succ_self _

/-- The first free node becomes the latest watchpoint. -/
def create (w : Watchlist) : Watchlist :=
  match h : w.free with
  | [] => w
  | p :: free => w.createAt p free h

theorem create_of_free {w : Watchlist} {p : Nat} {free : List Nat} (h : w.free = p :: free) :
    w.create = w.createAt p free h := by
  unfold create
  split
  · rename_i hnil
    rw [hnil] at h
    cases h
  · rename_i q free' hcons
    have heq := hcons.symm.trans h
    cases heq
    rfl

/-- The watchpoint with the number, if there is one, becomes the last free node. -/
def delete (w : Watchlist) (num : Int) : Watchlist where
  active := w.active.filter fun c => (c.node : Int) ≠ num
  free := w.free ++ (w.active.map Created.node).filter fun i : Nat => (i : Int) = num
  clock := w.clock
  covers := by
    have hkept : (w.active.filter fun c => (c.node : Int) ≠ num).map Created.node =
        (w.active.map Created.node).filter fun i : Nat => !decide ((i : Int) = num) := by
      rw [List.filter_map]
      simp [Function.comp_def]
    have hparts := List.filter_append_perm (fun i : Nat => decide ((i : Int) = num))
      (w.active.map Created.node)
    rw [hkept]
    refine List.Perm.trans ?_ w.covers
    refine List.Perm.trans ?_ (List.Perm.append_right w.free hparts)
    rw [← List.append_assoc]
    refine List.perm_append_comm.trans ?_
    rw [List.append_assoc]
  ordered := w.ordered.filter _
  past := fun c hc => w.past c (List.mem_filter.1 hc).1

end Watchlist

/-! ## Runs -/

/-- What can happen to the pool after `init_wp_pool`: the two commands, returning or not, each with
the list that it takes from not empty, and anything that moves no link. -/
inductive WpRun : Debugger → Watchlist → Prop where
  | init (s : Debugger) : WpRun (final (initWpPool s)) .init
  | other {s s' : Debugger} {w : Watchlist} : WpRun s w → SameLinks s s' → WpRun s' w
  | new {s : Debugger} {w : Watchlist} (cpu : CPUState) (args : Option (List Char)) :
      WpRun s w → s.wp.free_ ≠ none → WpRun (final (newWp cpu args s)) w.create
  | delete {s : Debugger} {w : Watchlist} (num : Int) :
      WpRun s w → s.wp.head ≠ none → WpRun (final (deleteWp num s)) (w.delete num)

/-- Each node is linked to the one behind it, and the last one to none. -/
theorem initWpPool_node (s : Debugger) {i : Nat} (hi : i < nrWp) :
    (final (initWpPool s)).wp.next i = (if i + 1 = nrWp then none else some (i + 1)) ∧
      ((final (initWpPool s)).wp.pool i).no = i := by
  have hsize : nrWp = 32 := rfl
  have hpool : (final (initWpPool s)).wp.pool i = if i = nrWp - 1 then
      { (if i < nrWp then ⟨i, some (i + 1), [], 0⟩ else s.wp.pool i : WP) with next := none }
    else if i < nrWp then ⟨i, some (i + 1), [], 0⟩ else s.wp.pool i := rfl
  rw [WpState.next, hpool, if_pos hi]
  by_cases hlast : i + 1 = nrWp
  · have hlast' : i = nrWp - 1 := by omega
    rw [if_pos hlast', if_pos hlast]
    exact ⟨rfl, rfl⟩
  · have hlast' : i ≠ nrWp - 1 := by omega
    rw [if_neg hlast', if_neg hlast]
    exact ⟨rfl, rfl⟩

/-- From node `i` on, the chain goes through the `n` nodes that are left. -/
theorem initWpPool_path (s : Debugger) (n i : Nat) (hi : i + n + 1 = nrWp) :
    Path (final (initWpPool s)).wp.next (some i) (List.range' i (n + 1)) none := by
  induction n generalizing i with
  | zero =>
      refine ⟨rfl, ?_⟩
      rw [(initWpPool_node s (by omega)).1, if_pos hi]
      rfl
  | succ n ih =>
      refine ⟨rfl, ?_⟩
      rw [(initWpPool_node s (by omega)).1, if_neg (by omega)]
      exact ih (i + 1) (by omega)

theorem initWpPool_lists (s : Debugger) :
    (final (initWpPool s)).wp.Lists [] (List.range nrWp) := by
  refine ⟨rfl, ?_, List.Perm.refl _, fun i hi => (initWpPool_node s hi).2⟩
  have hpath := initWpPool_path s 31 0 rfl
  rwa [← List.range_eq_range'] at hpath

/-- Every step keeps the linked lists and the abstract ones together. -/
theorem WpRun.lists {s : Debugger} {w : Watchlist} (h : WpRun s w) :
    s.wp.Lists (w.active.map Created.node) w.free := by
  induction h with
  | init s => exact initWpPool_lists s
  | other _ hsame ih => exact hsame.lists ih
  -- evaluating the expression of a new watchpoint leaves the lists alone
  | @new s w cpu args _ hfree ih =>
      cases hw : w.free with
      | nil =>
          rw [hw] at ih
          exact absurd ih.freePath hfree
      | cons p free =>
          rw [hw] at ih
          rcases newWp_run ih cpu args with ⟨s₁, hrun, hlists, -⟩
          rw [Watchlist.create_of_free hw, hrun]
          have hwatch := (watch_within cpu args (some p) s₁).lists hlists
          simpa [Watchlist.createAt] using hwatch
  | @delete s w num _ hhead ih =>
      have hne : w.active.map Created.node ≠ [] := by
        intro hnil
        rw [hnil] at ih
        exact hhead ih.headPath
      rcases deleteWp_run ih hne num with ⟨s₁, hrun, hlists⟩
      rw [hrun]
      have hkept : (w.delete num).active.map Created.node =
          (w.active.map Created.node).filter fun i : Nat => (i : Int) ≠ num := by
        rw [List.filter_map]
        rfl
      rw [hkept]
      exact hlists

/-- After any run, following `next` from `head` visits the active watchpoints in the order of their
creation and ends, following it from `free_` visits the free nodes and ends, each of the 32 nodes
is visited exactly once, and every node has its own number. -/
theorem wpRun_lists (s : Debugger) (w : Watchlist) (h : WpRun s w) :
    Path s.wp.next s.wp.head (w.active.map Created.node) none ∧
      Path s.wp.next s.wp.free_ w.free none ∧
      (w.active.map Created.node ++ w.free).Perm (List.range 32) ∧
      (∀ i < 32, (s.wp.pool i).no = i) ∧
      w.active.Pairwise (fun c d => c.time < d.time) :=
  ⟨h.lists.headPath, h.lists.freePath, w.covers, h.lists.no, w.ordered⟩

/-- The first watchpoint is created and deleted again: node 0 is now the last free one. -/
theorem wpRun_lists_create_delete :
    let s := final (deleteWp 0 (final (newWp .zero (some ['1']) (final (initWpPool .zero)))))
    Path s.wp.next s.wp.head [] none ∧
      Path s.wp.next s.wp.free_ (List.range' 1 31 ++ [0]) none := by
  have hnew : WpRun (final (newWp .zero (some ['1']) (final (initWpPool .zero))))
      Watchlist.init.create :=
    .new .zero (some ['1']) (.init .zero) (by simp [initWpPool_lists Debugger.zero |>.freePath.1])
  have hactive : Watchlist.init.create.active.map Created.node = [0] := rfl
  have hhead : (final (newWp .zero (some ['1']) (final (initWpPool .zero)))).wp.head ≠ none := by
    have hpath := hnew.lists.headPath
    rw [hactive] at hpath
    simp [hpath.1]
  rcases wpRun_lists _ _ (.delete 0 hnew hhead) with ⟨hpath, hfree, -⟩
  exact ⟨hpath, hfree⟩

end Nemu
