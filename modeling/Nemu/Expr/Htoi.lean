import Nemu.Expr.Correct

/-!
# Hexadecimal strings

`htoi` of `src/monitor/debug/expr.c` as a loop over the indices of a string, with every character
that it reads.  The test for `0x` stands inside the loop, so that a prefix is accepted in front of
every digit and not of the first one alone.
-/

namespace Nemu

/-! ## Strings -/

/-- What stands in front of the terminator of a C string. -/
structure CString where
  chars : List Char
  noNul : '\x00' ∉ chars

/-- `s[i]`.  The terminator is the last character that belongs to the string. -/
def CString.charAt (s : CString) (i : Nat) : Except Fault Char :=
  match s.chars[i]? with
  | some c => .ok c
  | none => if i = s.chars.length then .ok '\x00' else .error .bounds

/-! ## The loop -/

/-- Where the conversion goes on: two characters ahead of a `0x`. -/
def skipMark (s : CString) (i : Nat) : Except Fault Nat := do
  if (← s.charAt i) = '0' then
    let x ← s.charAt (i + 1)
    return if x = 'x' ∨ x = 'X' then i + 2 else i
  else
    return i

/-- The `while` loop of `htoi` with the number read so far, for at most `fuel` turns.  The index is
a natural number; the texts that are converted have at most 31 characters. -/
def htoiFrom (s : CString) : Nat → Word → Nat → Except Fault Word
  | 0, _, _ => .error .diverge
  | fuel + 1, n, i => do
      let c ← s.charAt i
      if c = '\x00' ∨ c = '\n' then
        return n
      else
        let i ← skipMark s i
        match hexDigit (← s.charAt i) with
        | some v => htoiFrom s fuel (n * 16 + v) (i + 1)
        | none => return -1

/-- `htoi(s)`: every turn moves on, so that the length is fuel enough. -/
def CString.htoi (s : CString) : Except Fault Word := htoiFrom s (s.chars.length + 1) 0 0

/-! ## Reads -/

section Reads

variable {s : CString} {i : Nat} {c : Char} {t : List Char}

theorem CString.charAt_cons (h : s.chars.drop i = c :: t) : s.charAt i = .ok c := by
  have hget : s.chars[i]? = some c := by
    have hhead := congrArg (fun l => l[0]?) h
    simpa using hhead
  rw [charAt, hget]

theorem CString.charAt_nil (hi : i ≤ s.chars.length) (h : s.chars.drop i = []) :
    s.charAt i = .ok '\x00' := by
  have hle := List.drop_eq_nil_iff.1 h
  have heq : i = s.chars.length := Nat.le_antisymm hi hle
  rw [charAt, List.getElem?_eq_none hle]
  exact if_pos heq

theorem drop_succ_of_cons (h : s.chars.drop i = c :: t) : s.chars.drop (i + 1) = t := by
  rw [← List.drop_drop, h, List.drop_one, List.tail_cons]

theorem lt_of_drop_cons (h : s.chars.drop i = c :: t) : i < s.chars.length := by
  by_contra hle
  rw [List.drop_eq_nil_iff.2 (Nat.not_lt.1 hle)] at h
  cases h

/-- No character in front of the terminator ends the string. -/
theorem CString.ne_nul_of_drop (h : s.chars.drop i = c :: t) : c ≠ '\x00' := by
  rintro rfl
  refine s.noNul (List.mem_of_mem_drop (i := i) ?_)
  rw [h]
  exact List.mem_cons_self

/-- The character after the next one can be read as long as the next one is not the terminator. -/
theorem CString.charAt_head (h : s.chars.drop i = c :: t) :
    s.charAt (i + 1) = .ok (t.head?.getD '\x00') := by
  have hrest := drop_succ_of_cons h
  cases t with
  | nil => exact s.charAt_nil (lt_of_drop_cons h) hrest
  | cons d t => exact s.charAt_cons hrest

end Reads

/-! ## The loop on the rest of the string -/

section Loop

variable {s : CString} {i : Nat} {c : Char} {t : List Char}

/-- The test of the loop of `htoi`: a `0` in front of an `x`. -/
def IsMark (c : Char) (t : List Char) : Prop :=
  c = '0' ∧ (t.head? = some 'x' ∨ t.head? = some 'X')

instance (c : Char) (t : List Char) : Decidable (IsMark c t) :=
  inferInstanceAs (Decidable (c = '0' ∧ (t.head? = some 'x' ∨ t.head? = some 'X')))

theorem head_eq_iff {t : List Char} {x : Char} (hx : x ≠ '\x00') :
    t.head?.getD '\x00' = x ↔ t.head? = some x := by
  cases t with
  | nil => simpa using hx.symm
  | cons d t => simp

theorem skipMark_eq (h : s.chars.drop i = c :: t) :
    skipMark s i = .ok (if IsMark c t then i + 2 else i) := by
  have hx : t.head?.getD '\x00' = 'x' ↔ t.head? = some 'x' := head_eq_iff (by decide)
  have hX : t.head?.getD '\x00' = 'X' ↔ t.head? = some 'X' := head_eq_iff (by decide)
  unfold skipMark
  rw [s.charAt_cons h, s.charAt_head h]
  by_cases hzero : c = '0'
  · have hmark : IsMark c t ↔ t.head? = some 'x' ∨ t.head? = some 'X' := and_iff_right hzero
    simp only [hmark, ← hx, ← hX]
    change (if c = '0' then _ else _ : Except Fault Nat) = _
    rw [if_pos hzero]
    rfl
  · have hmark : ¬ IsMark c t := fun hmark => hzero hmark.1
    change (if c = '0' then _ else _ : Except Fault Nat) = _
    rw [if_neg hzero, if_neg hmark]
    rfl

theorem IsMark.le_length (hmark : IsMark c t) (h : s.chars.drop i = c :: t) :
    i + 2 ≤ s.chars.length := by
  have hlen := congrArg List.length h
  rw [List.length_drop, List.length_cons] at hlen
  have hne : t ≠ [] := by
    rintro rfl
    simp [IsMark] at hmark
  have hpos := List.length_pos_iff.2 hne
  omega

/-- The conversion of the character at which a turn of the loop has arrived, and the turns behind
it. -/
def convert (n : Word) : List Char → Word
  | [] => -1
  | d :: rest =>
      match hexDigit d with
      | some v => htoiLoop (n * 16 + v) rest
      | none => -1

theorem htoiLoop_newline (n : Word) (t : List Char) : htoiLoop n ('\n' :: t) = n := by
  rw [htoiLoop.eq_def]
  exact if_pos rfl

theorem htoiLoop_cons (hnewline : c ≠ '\n') (n : Word) :
    htoiLoop n (c :: t) = convert n (if IsMark c t then t.tail else c :: t) := by
  rw [htoiLoop.eq_def]
  simp only [if_neg hnewline]
  by_cases hmark : IsMark c t
  · rw [if_pos hmark]
    refine (if_pos hmark).trans ?_
    rcases t with _ | ⟨x, _ | ⟨d, rest⟩⟩
    · rfl
    · rfl
    · rfl
  · rw [if_neg hmark]
    exact if_neg hmark

/-- The second half of a turn, at any index up to the terminator. -/
theorem convert_eq {fuel : Nat} {n : Word} (hi : i ≤ s.chars.length)
    (ih : ∀ {i : Nat}, i ≤ s.chars.length → s.chars.length - i < fuel → ∀ n,
      htoiFrom s fuel n i = .ok (htoiLoop n (s.chars.drop i)))
    (hfuel : s.chars.length - i ≤ fuel) :
    (do
      match hexDigit (← s.charAt i) with
      | some v => htoiFrom s fuel (n * 16 + v) (i + 1)
      | none => return -1) = Except.ok (convert n (s.chars.drop i)) := by
  cases hdrop : s.chars.drop i with
  | nil =>
      rw [s.charAt_nil hi hdrop]
      rfl
  | cons d rest =>
      have hlt := lt_of_drop_cons hdrop
      rw [s.charAt_cons hdrop, convert]
      change (match hexDigit d with
        | some v => htoiFrom s fuel (n * 16 + v) (i + 1)
        | none => return -1 : Except Fault Word) = _
      cases hexDigit d with
      | none => rfl
      | some v =>
          have hrest := ih (i := i + 1) (by omega) (by omega) (n * 16 + v)
          rwa [drop_succ_of_cons hdrop] at hrest

/-- From every index on, the loop reads within the string and computes `htoiLoop`. -/
theorem htoiFrom_eq {fuel : Nat} (hi : i ≤ s.chars.length) (hfuel : s.chars.length - i < fuel)
    (n : Word) : htoiFrom s fuel n i = .ok (htoiLoop n (s.chars.drop i)) := by
  induction fuel generalizing n i with
  | zero => omega
  | succ fuel ih =>
      unfold htoiFrom
      cases hdrop : s.chars.drop i with
      | nil =>
          rw [s.charAt_nil hi hdrop]
          rfl
      | cons c t =>
          have hlt := lt_of_drop_cons hdrop
          rw [s.charAt_cons hdrop]
          change (if c = '\x00' ∨ c = '\n' then _ else _ : Except Fault Word) = _
          by_cases hnewline : c = '\n'
          · rw [if_pos (Or.inr hnewline), hnewline, htoiLoop_newline]
            rfl
          · rw [if_neg (not_or.2 ⟨s.ne_nul_of_drop hdrop, hnewline⟩), skipMark_eq hdrop,
              htoiLoop_cons hnewline]
            by_cases hmark : IsMark c t
            · -- the mark has a second character, so that the index stays in the string
              have htail : s.chars.drop (i + 2) = t.tail := by
                rw [← List.drop_drop, hdrop, List.drop_succ_cons, List.drop_one]
              have hle : i + 2 ≤ s.chars.length := hmark.le_length hdrop
              rw [if_pos hmark, if_pos hmark, ← htail]
              exact convert_eq hle ih (by omega)
            · rw [if_neg hmark, if_neg hmark, ← hdrop]
              exact convert_eq hi ih (by omega)

theorem CString.htoi_eq (s : CString) : s.htoi = .ok (Nemu.htoi s.chars) :=
  htoiFrom_eq (Nat.zero_le _) (by omega) 0

end Loop

/-! ## Digits and marks -/

/-- `s` is an optional prefix and one or more digits, which are `ds`. -/
structure HexForm (s ds : List Char) : Prop where
  ne : ds ≠ []
  digits : ∀ c ∈ ds, isHexDigit c = true
  text : s = ds ∨ s = '0' :: 'x' :: ds ∨ s = '0' :: 'X' :: ds

/-- `s` consists of the digits `ds`, some of which have a mark `0x` or `0X` in front of them. -/
inductive Marked : List Char → List Char → Prop where
  | nil : Marked [] []
  | digit {c : Char} {s ds : List Char} :
      isHexDigit c = true → Marked s ds → Marked (c :: s) (c :: ds)
  | mark {x c : Char} {s ds : List Char} :
      x = 'x' ∨ x = 'X' → isHexDigit c = true → Marked s ds →
        Marked ('0' :: x :: c :: s) (c :: ds)

namespace Marked

variable {s ds : List Char}

theorem of_digits (h : ∀ c ∈ ds, isHexDigit c = true) : Marked ds ds := by
  induction ds with
  | nil => exact nil
  | cons c ds ih =>
      rcases List.forall_mem_cons.1 h with ⟨hc, hds⟩
      exact digit hc (ih hds)

end Marked

theorem HexForm.marked {s ds : List Char} (h : HexForm s ds) : Marked s ds := by
  rcases h with ⟨hne, hdigits, htext⟩
  cases ds with
  | nil => exact absurd rfl hne
  | cons c ds =>
      rcases List.forall_mem_cons.1 hdigits with ⟨hc, hds⟩
      have hrest := Marked.of_digits hds
      rcases htext with rfl | rfl | rfl
      · exact .digit hc hrest
      · exact .mark (Or.inl rfl) hc hrest
      · exact .mark (Or.inr rfl) hc hrest

/-! ## Exactness -/

theorem hexDigit_eq_none {c : Char} (h : isHexDigit c = false) : hexDigit c = none := by
  simp only [isHexDigit, isLowerHexDigit, isDecDigit, Bool.or_eq_false_iff,
    Bool.and_eq_false_iff, decide_eq_false_iff_not, ← not_and_or] at h
  rcases h with ⟨⟨hdec, hlower⟩, hupper⟩
  rw [hexDigit, if_neg hdec, if_neg hlower, if_neg hupper]

theorem convert_digit {c : Char} (hc : isHexDigit c = true) (n : Nat) (t : List Char) :
    convert (BitVec.ofNat 32 n) (c :: t) =
      htoiLoop (BitVec.ofNat 32 (n * 16 + digitValue c)) t := by
  have hstep : BitVec.ofNat 32 n * 16 + BitVec.ofNat 32 (digitValue c) =
      BitVec.ofNat 32 (n * 16 + digitValue c) := by
    rw [BitVec.ofNat_add, BitVec.ofNat_mul]
    rfl
  rw [convert, hexDigit_eq hc, ← hstep]

theorem convert_none {c : Char} (hc : isHexDigit c = false) (n : Word) (t : List Char) :
    convert n (c :: t) = -1 := by
  rw [convert, hexDigit_eq_none hc]

namespace Marked

variable {s ds : List Char}

theorem head_digit (h : Marked s ds) {a : Char} (ha : s.head? = some a) :
    isHexDigit a = true := by
  cases h with
  | nil => cases ha
  | digit hc _ =>
      cases ha
      exact hc
  | mark _ _ _ =>
      cases ha
      decide

theorem not_isMark (h : Marked s ds) (c : Char) : ¬ IsMark c s := by
  rintro ⟨-, hx | hx⟩
  · exact isHexDigit_ne (h.head_digit hx) (by decide) rfl
  · exact isHexDigit_ne (h.head_digit hx) (by decide) rfl

/-- The marks do not count, wherever they stand. -/
theorem htoiLoop_eq (h : Marked s ds) (n : Nat) :
    htoiLoop (BitVec.ofNat 32 n) s =
      BitVec.ofNat 32 (ds.foldl (fun n c => n * 16 + digitValue c) n) := by
  induction h generalizing n with
  | nil => rfl
  | digit hc hrest ih =>
      rw [htoiLoop_cons (isHexDigit_ne hc (by decide)), if_neg (hrest.not_isMark _),
        convert_digit hc, ih, List.foldl_cons]
  | @mark x c s ds hx hc _ ih =>
      have hmark : IsMark '0' (x :: c :: s) := by
        refine ⟨rfl, ?_⟩
        rcases hx with rfl | rfl
        · exact Or.inl rfl
        · exact Or.inr rfl
      rw [htoiLoop_cons (by decide), if_pos hmark, List.tail_cons, convert_digit hc, ih,
        List.foldl_cons]

theorem not_mem_newline (h : Marked s ds) : '\n' ∉ s := by
  induction h with
  | nil => simp
  | digit hc _ ih => simpa [ih] using (isHexDigit_ne hc (by decide)).symm
  | mark hx hc _ ih =>
      have hne := (isHexDigit_ne hc (by decide : isHexDigit '\n' = false)).symm
      rcases hx with rfl | rfl
      · simpa [ih] using hne
      · simpa [ih] using hne

theorem htoi_eq (h : Marked s ds) : htoi s = BitVec.ofNat 32 (numeral 16 ds) :=
  h.htoiLoop_eq 0

end Marked

/-- A string without a newline is marked digits, or the loop meets something else in it. -/
theorem marked_or_htoiLoop (s : List Char) (hnewline : '\n' ∉ s) :
    (∃ ds, Marked s ds) ∨ ∀ n, htoiLoop n s = -1 := by
  induction hlen : s.length using Nat.strongRecOn generalizing s with
  | ind k ih =>
      -- the turn that converts `d` leaves the shorter string `rest`
      have hconvert : ∀ (d : Char) (rest : List Char), '\n' ∉ rest → rest.length < k →
          (isHexDigit d = true ∧ ∃ ds, Marked rest ds) ∨ ∀ n, convert n (d :: rest) = -1 := by
        intro d rest hrest hlt
        cases hd : isHexDigit d with
        | false => exact Or.inr fun n => convert_none hd n rest
        | true =>
            rcases ih _ hlt rest hrest rfl with hmarked | hloop
            · exact Or.inl ⟨rfl, hmarked⟩
            · refine Or.inr fun n => ?_
              rw [convert, hexDigit_eq hd]
              exact hloop _
      cases s with
      | nil => exact Or.inl ⟨[], .nil⟩
      | cons c t =>
          have hc : c ≠ '\n' := fun h => hnewline (by simp [h])
          have ht : '\n' ∉ t := fun h => hnewline (List.mem_cons_of_mem c h)
          rw [List.length_cons] at hlen
          have hloop : ∀ n, htoiLoop n (c :: t) = convert n (if IsMark c t then t.tail else c :: t) :=
            htoiLoop_cons hc
          by_cases hmark : IsMark c t
          · rw [if_pos hmark] at hloop
            rcases t with _ | ⟨x, _ | ⟨d, rest⟩⟩
            · exact Or.inr hloop
            · exact Or.inr hloop
            · have hrest : '\n' ∉ rest := fun h => ht (by simp [h])
              rcases hconvert d rest hrest (by simp at hlen; omega) with ⟨hd, ds, hds⟩ | hall
              · have hx : x = 'x' ∨ x = 'X' := by simpa using hmark.2
                rw [hmark.1]
                exact Or.inl ⟨d :: ds, .mark hx hd hds⟩
              · exact Or.inr fun n => (hloop n).trans (hall n)
          · rw [if_neg hmark] at hloop
            rcases hconvert c t ht (by omega) with ⟨hd, ds, hds⟩ | hall
            · exact Or.inl ⟨c :: ds, .digit hd hds⟩
            · exact Or.inr fun n => (hloop n).trans (hall n)

/-! ## Values -/

theorem isMark_takeWhile (c : Char) (t : List Char) :
    IsMark c (t.takeWhile (· ≠ '\n')) ↔ IsMark c t := by
  cases t with
  | nil => rfl
  | cons d t =>
      by_cases hd : d = '\n'
      · subst hd
        simp [IsMark]
      · simp [IsMark, hd]

theorem IsMark.tail_takeWhile {c : Char} {t : List Char} (h : IsMark c t) :
    (t.takeWhile (· ≠ '\n')).tail = t.tail.takeWhile (· ≠ '\n') := by
  cases t with
  | nil => rfl
  | cons d t =>
      have hd : d ≠ '\n' := by
        rintro rfl
        simp [IsMark] at h
      simp [hd]

/-- A newline ends the conversion as the terminator does. -/
theorem htoiLoop_takeWhile (s : List Char) (n : Word) :
    htoiLoop n (s.takeWhile (· ≠ '\n')) = htoiLoop n s := by
  induction hlen : s.length using Nat.strongRecOn generalizing s n with
  | ind k ih =>
      -- the turn that converts the head of `t` leaves a string that is shorter than `s`
      have hconvert : ∀ t : List Char, t.length ≤ k →
          convert n (t.takeWhile (· ≠ '\n')) = convert n t := by
        intro t hle
        cases t with
        | nil => rfl
        | cons d rest =>
            by_cases hd : d = '\n'
            · subst hd
              rfl
            · have htake : (d :: rest).takeWhile (· ≠ '\n') = d :: rest.takeWhile (· ≠ '\n') := by
                simp [hd]
              rw [htake, convert, convert]
              cases hexDigit d with
              | none => rfl
              | some v => exact ih _ (Nat.lt_of_succ_le hle) rest _ rfl
      cases s with
      | nil => rfl
      | cons c t =>
          by_cases hc : c = '\n'
          · subst hc
            exact (htoiLoop_newline n t).symm
          · have htake : (c :: t).takeWhile (· ≠ '\n') = c :: t.takeWhile (· ≠ '\n') := by simp [hc]
            rw [List.length_cons] at hlen
            rw [htake, htoiLoop_cons hc, htoiLoop_cons hc]
            by_cases hmark : IsMark c t
            · rw [if_pos ((isMark_takeWhile c t).2 hmark), if_pos hmark, hmark.tail_takeWhile]
              exact hconvert t.tail (by rw [List.length_tail]; omega)
            · rw [if_neg fun h => hmark ((isMark_takeWhile c t).1 h), if_neg hmark, ← htake]
              exact hconvert (c :: t) (by rw [List.length_cons]; omega)

/-- The number that stands in front of the first newline of `s`: hexadecimal digits, of which the
marks do not count, or -1. -/
def HexDenotes (s : List Char) (v : Word) : Prop :=
  (∃ ds, Marked (s.takeWhile (· ≠ '\n')) ds ∧ v = BitVec.ofNat 32 (numeral 16 ds)) ∨
    (¬ ∃ ds, Marked (s.takeWhile (· ≠ '\n')) ds) ∧ v = -1

theorem hexDenotes_iff {s : List Char} {v : Word} : HexDenotes s v ↔ htoi s = v := by
  have hcut : htoi s = htoi (s.takeWhile (· ≠ '\n')) := (htoiLoop_takeWhile s 0).symm
  have hnewline : '\n' ∉ s.takeWhile (· ≠ '\n') := fun h => by
    simpa using List.all_eq_true.1 List.all_takeWhile _ h
  rw [hcut]
  constructor
  · rintro (⟨ds, hds, rfl⟩ | ⟨hnone, rfl⟩)
    · exact hds.htoi_eq
    · exact ((marked_or_htoiLoop _ hnewline).resolve_left hnone) 0
  · rintro rfl
    by_cases hmarked : ∃ ds, Marked (s.takeWhile (· ≠ '\n')) ds
    · rcases hmarked with ⟨ds, hds⟩
      exact Or.inl ⟨ds, hds, hds.htoi_eq⟩
    · exact Or.inr ⟨hmarked, ((marked_or_htoiLoop _ hnewline).resolve_left hmarked) 0⟩

/-! ## Strict conversion -/

/-- What a strict conversion owes to a string. -/
structure ConvertsStrictly (s : CString) : Prop where
  /-- No read lies behind the terminator, and the loop ends. -/
  inside : ∃ v, s.htoi = .ok v
  value : ∀ ds, HexForm s.chars ds → s.htoi = .ok (BitVec.ofNat 32 (numeral 16 ds))
  strict : s.chars ≠ [] → '\n' ∉ s.chars → (¬ ∃ ds, HexForm s.chars ds) → s.htoi = .ok (-1)

theorem ofNat_eq_neg_one_iff (n : Nat) :
    BitVec.ofNat 32 n = -1 ↔ n % 2 ^ 32 = 2 ^ 32 - 1 := by
  rw [← BitVec.toNat_inj, BitVec.toNat_ofNat]
  exact Iff.rfl

/-- `htoi` is strict except on digits with a mark that is not in front of the first of them, where
only the value -1 hides that they are converted. -/
theorem htoi_strict_iff (s : CString) :
    ConvertsStrictly s ↔
      ∀ ds, Marked s.chars ds → ds = [] ∨ (∃ es, HexForm s.chars es) ∨
        numeral 16 ds % 2 ^ 32 = 2 ^ 32 - 1 := by
  constructor
  · intro h ds hds
    by_cases hform : ∃ es, HexForm s.chars es
    · exact Or.inr (Or.inl hform)
    · by_cases hne : s.chars = []
      · rw [hne] at hds
        cases hds
        exact Or.inl rfl
      · have hstrict := h.strict hne hds.not_mem_newline hform
        rw [s.htoi_eq, hds.htoi_eq, Except.ok.injEq, ofNat_eq_neg_one_iff] at hstrict
        exact Or.inr (Or.inr hstrict)
  · intro h
    refine ⟨⟨_, s.htoi_eq⟩, fun ds hds => ?_, fun hne hnewline hform => ?_⟩
    · rw [s.htoi_eq, hds.marked.htoi_eq]
    · rw [s.htoi_eq, Except.ok.injEq]
      rcases marked_or_htoiLoop s.chars hnewline with ⟨ds, hds⟩ | hloop
      · rcases h ds hds with rfl | hexists | hvalue
        · -- no digits: the string is empty
          generalize s.chars = t at hds hne
          cases hds
          exact absurd rfl hne
        · exact absurd hexists hform
        · rw [hds.htoi_eq, ofNat_eq_neg_one_iff, hvalue]
      · exact hloop 0

/-- `10x5` is converted to 0x15. -/
theorem htoi_not_strict : ¬ ∀ s : CString, ConvertsStrictly s := by
  intro h
  have hvalue := (h ⟨['1', '0', 'x', '5'], by decide⟩).strict (by decide) (by decide) ?_
  · rw [CString.htoi_eq] at hvalue
    exact absurd hvalue (by decide)
  · rintro ⟨ds, -, hdigits, htext⟩
    rcases htext with rfl | htext | htext
    · exact absurd (hdigits 'x' (by decide)) (by decide)
    · simp at htext
    · simp at htext

end Nemu
