import Nemu.X86.HelperRules

/-!
# The trace of one instruction

Every byte that an instruction fetches adds three characters to `log_bytebuf`, and the instruction
adds one text to `log_asmbuf`.  Both buffers have been within their arrays all the time if and only
if they are at the end, because nothing in an instruction shortens them.
-/

namespace Nemu

open StateRules

/-! ## Growing buffers -/

/-- Both strings are within their arrays, and have been so far. -/
structure Trace.Fitting (t : Trace) : Prop where
  fits : t.fits = true
  bytebuf : t.bytebuf.length < logBufSize
  asmbuf : t.asmbuf.length < logBufSize

theorem Trace.Fitting.clear {t : Trace} (h : t.Fitting) : (t.ofBuffers [] []).Fitting where
  fits := by simp [Trace.ofBuffers, h.fits, logBufSize]
  bytebuf := by simp [Trace.ofBuffers, logBufSize]
  asmbuf := by simp [Trace.ofBuffers, logBufSize]

/-- The buffers have grown by `m` characters and by at most `k` characters. -/
structure Appends (m k : Nat) (t t' : Trace) : Prop where
  bytebuf : t'.bytebuf.length = t.bytebuf.length + m
  asmbuf_ge : t.asmbuf.length ≤ t'.asmbuf.length
  asmbuf_le : t'.asmbuf.length ≤ t.asmbuf.length + k
  mono : t'.fits = true → t.fits = true
  fits : t.Fitting →
    (t'.fits = true ↔ t'.bytebuf.length < logBufSize ∧ t'.asmbuf.length < logBufSize)

namespace Appends

variable {m n k l : Nat} {t t' t'' : Trace}

theorem of_eq (hbyte : t'.bytebuf = t.bytebuf) (hasm : t'.asmbuf = t.asmbuf)
    (hfits : t'.fits = t.fits) : Appends 0 0 t t' where
  bytebuf := by rw [hbyte, Nat.add_zero]
  asmbuf_ge := Nat.le_of_eq (by rw [hasm])
  asmbuf_le := Nat.le_of_eq (by rw [hasm, Nat.add_zero])
  mono h := hfits ▸ h
  fits h := by
    rw [hfits, hbyte, hasm]
    exact iff_of_true h.fits ⟨h.bytebuf, h.asmbuf⟩

theorem trans (h : Appends m k t t') (h' : Appends n l t' t'') :
    Appends (m + n) (k + l) t t'' where
  bytebuf := by rw [h'.bytebuf, h.bytebuf, Nat.add_assoc]
  asmbuf_ge := Nat.le_trans h.asmbuf_ge h'.asmbuf_ge
  asmbuf_le := by
    have hle := h.asmbuf_le
    have hle' := h'.asmbuf_le
    omega
  mono hfits := h.mono (h'.mono hfits)
  fits hfit := by
    have hbyte := h'.bytebuf
    have hasm := h'.asmbuf_ge
    constructor
    · intro hfits
      have hmid := h'.mono hfits
      have hlens := (h.fits hfit).1 hmid
      exact (h'.fits ⟨hmid, hlens.1, hlens.2⟩).1 hfits
    · rintro ⟨hb, ha⟩
      -- the buffers were no longer in between
      have hlens : t'.bytebuf.length < logBufSize ∧ t'.asmbuf.length < logBufSize := by omega
      exact (h'.fits ⟨(h.fits hfit).2 hlens, hlens.1, hlens.2⟩).2 ⟨hb, ha⟩

theorem ofBuffers (t : Trace) (x y : List Char) (hy : y.length ≤ k) :
    Appends x.length k t (t.ofBuffers (t.bytebuf ++ x) (t.asmbuf ++ y)) where
  bytebuf := List.length_append
  asmbuf_ge := by
    simp only [Trace.ofBuffers, List.length_append]
    omega
  asmbuf_le := by
    simp only [Trace.ofBuffers, List.length_append]
    omega
  mono h := by
    simp only [Trace.ofBuffers, Bool.and_eq_true] at h
    exact h.1.1
  fits hfit := by
    simp only [Trace.ofBuffers, hfit.fits, Bool.true_and, Bool.and_eq_true, decide_eq_true_eq]

end Appends

/-- The trace has grown by the bytes fetched, three characters each, and by a text of at most `k`
characters. -/
structure Grows (k : Nat) (t t' : Trace) : Prop where
  fetched : t.fetched ≤ t'.fetched
  appends : Appends (3 * (t'.fetched - t.fetched)) k t t'

theorem Grows.of_eq {t t' : Trace} (h : t' = t) : Grows 0 t t' := by
  subst h
  refine ⟨Nat.le_refl _, ?_⟩
  rw [Nat.sub_self]
  exact .of_eq rfl rfl rfl

theorem Grows.trans {k l : Nat} {t t' t'' : Trace} (h : Grows k t t') (h' : Grows l t' t'') :
    Grows (k + l) t t'' := by
  have hle := h.fetched
  have hle' := h'.fetched
  refine ⟨Nat.le_trans hle hle', ?_⟩
  have hsum : 3 * (t''.fetched - t.fetched) =
      3 * (t'.fetched - t.fetched) + 3 * (t''.fetched - t'.fetched) := by omega
  rw [hsum]
  exact h.appends.trans h'.appends

/-! ## The relation on machines -/

theorem checkTrace_eq_ok {s s' : Machine} {u : Unit} :
    checkTrace s = .ok u s' ↔ s' = s ∧ s.trace.fits = true := by
  unfold checkTrace
  cases s.trace.fits with
  | true => simp [eq_comm]
  | false => simp

def Machine.ShortTexts (s : Machine) : Prop :=
  ∀ op, (s.decinfo.operand op).str.length ≤ opTextMax

/-- The trace grows, and operand texts stay short. -/
def TraceRel (k : Nat) (s s' : Machine) : Prop :=
  s.ShortTexts → Grows k s.trace s'.trace ∧ s'.ShortTexts

theorem TraceRel.weaken {k l : Nat} {s s' : Machine} (hkl : k ≤ l) (h : TraceRel k s s') :
    TraceRel l s s' := by
  intro hs
  rcases h hs with ⟨hgrows, hs'⟩
  have happ := hgrows.appends
  refine ⟨⟨hgrows.fetched, happ.bytebuf, happ.asmbuf_ge, ?_, happ.mono, happ.fits⟩, hs'⟩
  exact Nat.le_trans happ.asmbuf_le (Nat.add_le_add_left hkl _)

theorem TraceRel.trans {k l : Nat} {s s' s'' : Machine} (h : TraceRel k s s')
    (h' : TraceRel l s' s'') : TraceRel (k + l) s s'' := by
  intro hs
  have h₁ := h hs
  have h₂ := h' h₁.2
  exact ⟨h₁.1.trans h₂.1, h₂.2⟩

/-- What leaves the trace and the operand texts alone. -/
theorem TraceRel.of_eq {s s' : Machine} (htrace : s'.trace = s.trace)
    (htext : ∀ op, (s'.decinfo.operand op).str = (s.decinfo.operand op).str) :
    TraceRel 0 s s' := by
  refine fun hs => ⟨Grows.of_eq htrace, fun op => ?_⟩
  rw [htext op]
  exact hs op

instance : IsPreorder Machine (TraceRel 0) where
  refl _ := .of_eq rfl fun _ => rfl
  trans _ _ _ h h' := TraceRel.trans h h'

theorem onBus_trace {α : Type} (x : OnBus α) : Within (TraceRel 0) (onBus x) := by
  intro s
  rw [final_onBus]
  exact .of_eq rfl fun _ => rfl

theorem withOperand_trace (s : Machine) (op : OperandId) {o : Operand}
    (ho : o.str = (s.decinfo.operand op).str) : TraceRel 0 s (s.withOperand op o) := by
  refine .of_eq rfl fun op' => ?_
  by_cases h : op' = op
  · subst h
    rw [withOperand_self, ho]
  · exact congrArg Operand.str (Function.update_of_ne h _ _)

/-! ## Fetching -/

theorem length_byteText (b : Byte) : (byteText b).length = 3 := by
  simp [byteText, hexDigitText]

/-- The bytes of one fetch, one after the other. -/
theorem strcatfBytebuf_forM_trace (f : Nat → List Char) (hf : ∀ i, (f i).length = 3)
    (l : List Nat) (s : Machine) :
    ∃ t, (l.forM fun i => strcatfBytebuf (f i)) s = .ok ⟨⟩ { s with trace := t } ∧
      Appends (3 * l.length) 0 s.trace t ∧ t.fetched = s.trace.fetched := by
  induction l generalizing s with
  | nil => exact ⟨s.trace, rfl, .of_eq rfl rfl rfl, rfl⟩
  | cons i l ih =>
      let t₁ := s.trace.ofBuffers (s.trace.bytebuf ++ (f i).take (tempbufSize - 1)) s.trace.asmbuf
      -- two digits and a blank fit into `tempbuf`
      have hlen : ((f i).take (tempbufSize - 1)).length = 3 := by
        rw [List.length_take, hf, tempbufSize]
        decide
      have hone : Appends 3 0 s.trace t₁ := by
        have h := Appends.ofBuffers (k := 0) s.trace ((f i).take (tempbufSize - 1)) []
          (Nat.le_refl 0)
        rwa [List.append_nil, hlen] at h
      rcases ih { s with trace := t₁ } with ⟨t, hrun, happ, hfetched⟩
      refine ⟨t, ?_, ?_, hfetched⟩
      · change (strcatfBytebuf (f i) >>= fun _ => l.forM fun i => strcatfBytebuf (f i)) s = _
        exact (bind_ok rfl).trans hrun
      · have hsum : 3 * (i :: l).length = 3 + 3 * l.length := by
          rw [List.length_cons]
          omega
        rw [hsum]
        exact hone.trans happ

theorem instrFetch_trace (len : Nat) : Within (TraceRel 0) (instrFetch len) := by
  refine Within.get.bind fun s₀ => (onBus_trace _).bind fun instr => ?_
  intro s hs
  rcases strcatfBytebuf_forM_trace (fun i => byteText (LittleEndian.byteOf instr i))
    (fun i => length_byteText _) (List.range len)
    { s with trace := { s.trace with fetched := s.trace.fetched + len } } with
    ⟨t, hrun, happ, hfetched⟩
  rw [bind_ok (modify_run _ s), bind_ok hrun]
  have hcount : t.fetched - s.trace.fetched = len := by
    rw [hfetched]
    exact Nat.add_sub_cancel_left _ _
  refine ⟨⟨?_, ?_⟩, hs⟩
  · change s.trace.fetched ≤ t.fetched
    rw [hfetched]
    exact Nat.le_add_right _ _
  · change Appends (3 * (t.fetched - s.trace.fetched)) 0 s.trace t
    rw [hcount]
    rw [List.length_range] at happ
    exact ⟨happ.bytebuf, happ.asmbuf_ge, happ.asmbuf_le, happ.mono,
      fun h => happ.fits ⟨h.fits, h.bytebuf, h.asmbuf⟩⟩

/-! ## Printing -/

/-- No instruction prints more than this: `mov` with its suffix and two operands. -/
def asmTextMax : Nat := 54

theorem printAsm_trace {s : Machine} {text : List Char} (h : text.length ≤ asmTextMax) :
    TraceRel asmTextMax s (final (printAsm text s)) := by
  intro hs
  have htake : (text.take (tempbufSize - 1)).length ≤ asmTextMax := by
    rw [List.length_take]
    exact Nat.le_trans (Nat.min_le_right _ _) h
  refine ⟨⟨Nat.le_refl _, ?_⟩, hs⟩
  have happ := Appends.ofBuffers s.trace [] _ htake
  rw [List.append_nil] at happ
  change Appends (3 * (s.trace.fetched - s.trace.fetched)) _ _ _
  rw [Nat.sub_self]
  exact happ

theorem printAsmTemplate2_trace :
    Within (TraceRel asmTextMax) (printAsmTemplate2 ['m', 'o', 'v']) := by
  intro s hs
  have hsrc := hs .src
  have hdest := hs .dest
  refine printAsm_trace ?_ hs
  simp only [List.length_append, List.length_cons, List.length_nil, opTextMax, asmTextMax]
    at hsrc hdest ⊢
  omega

instance : ExecRel (TraceRel 0) where
  fetch := instrFetch_trace
  load _ _ := onBus_trace _
  scratch _ _ _ _ := .of_eq rfl fun _ => rfl
  extOpcode _ _ := .of_eq rfl fun _ => rfl
  operand s op _ ho := withOperand_trace s op ho
  text s op str hstr := by
    refine fun hs => ⟨Grows.of_eq rfl, fun op' => ?_⟩
    by_cases h : op' = op
    · subst h
      rw [withOperand_self]
      exact hstr
    · change (Function.update s.decinfo.operand op _ op').str.length ≤ opTextMax
      rw [Function.update_of_ne h]
      exact hs op'
  store _ _ _ := onBus_trace _
  gpr _ _ := .of_eq rfl fun _ => rfl
  skipRef := onBus_trace _
  exit _ _ _ := .of_eq rfl fun _ => rfl
  opcode _ _ _ := .of_eq rfl fun _ => rfl

instance : PrintRel (TraceRel 0) (TraceRel asmTextMax) where
  silent _ _ h := h.weaken (Nat.zero_le _)
  before _ _ _ h h' := Nat.zero_add asmTextMax ▸ h.trans h'
  behind _ _ _ h h' := h.trans h'
  print _ h _ := printAsm_trace (Nat.le_trans h (by decide))
  template := printAsmTemplate2_trace

/-! ## exec_once -/

theorem isaExec_traceRel : Within (TraceRel asmTextMax) isaExec :=
  isaExec_within (R := TraceRel 0) fun _ => Within.modify fun _ => .of_eq rfl fun _ => rfl

theorem updatePc_traceRel : Within (TraceRel 0) updatePc := by
  refine Within.modify fun s => ?_
  cases s.decinfo.isJmp with
  | false => exact .of_eq rfl fun _ => rfl
  | true => exact .of_eq rfl fun _ => rfl

theorem execOnce_traceRel : Within (TraceRel asmTextMax) execOnce := by
  refine Within.andThen (R := TraceRel 0) Within.get fun s₀ => ?_
  refine Within.andThen (R := TraceRel 0)
    (Within.modify fun s => .of_eq rfl fun _ => rfl) fun _ => ?_
  have hrest : Within (TraceRel 0) (updatePc >>= fun _ => checkTrace >>= fun _ => (do
      return (← get).decinfo.seqPc : Exec Word)) := by
    refine updatePc_traceRel.bind fun _ => checkTrace_within.bind fun _ => ?_
    exact Within.get.bind fun s => Within.pure _
  exact Within.andSilent isaExec_traceRel hrest

/-- Empty buffers that have never been too short. -/
structure Trace.Cleared (t : Trace) : Prop where
  fits : t.fits = true
  bytebuf : t.bytebuf = []
  asmbuf : t.asmbuf = []

/-- What `asm_print` leaves behind an instruction; the operand texts are as long as the decode helpers
write them. -/
structure Machine.Printed (s : Machine) : Prop where
  trace : s.trace.Cleared
  texts : s.ShortTexts

namespace Machine.Printed

variable {s s' : Machine}

theorem fitting (h : s.Printed) : s.trace.Fitting where
  fits := h.trace.fits
  bytebuf := by simp [h.trace.bytebuf, logBufSize]
  asmbuf := by simp [h.trace.asmbuf, logBufSize]

/-- What has appended the bytes of `n` fetches and the text of one instruction has kept to the
arrays if and only if `n` is at most 26. -/
theorem fits_iff (h : s.Printed) (hrel : TraceRel asmTextMax s s') {n : Nat}
    (hn : s'.trace.fetched = s.trace.fetched + n) : s'.trace.fits = true ↔ n ≤ 26 := by
  have happ := (hrel h.texts).1.appends
  have hlen := happ.bytebuf
  have hle := happ.asmbuf_le
  rw [h.trace.bytebuf, List.length_nil, Nat.zero_add, hn, Nat.add_sub_cancel_left] at hlen
  rw [h.trace.asmbuf, List.length_nil, Nat.zero_add, asmTextMax] at hle
  rw [happ.fits h.fitting, hlen, logBufSize]
  omega

end Machine.Printed

/-- The number of bytes that the next instruction fetches. -/
def fetchedBytes (s : Machine) : Nat :=
  (final (execOnce s)).trace.fetched - s.trace.fetched

/-- An instruction that starts with empty buffers stays within them if and only if it fetches at
most 26 bytes. -/
theorem execOnce_fitting_iff {s : Machine} (hs : s.Printed) :
    (final (execOnce s)).trace.Fitting ↔ fetchedBytes s ≤ 26 := by
  have hrel := execOnce_traceRel s
  rcases hrel hs.texts with ⟨hgrows, -⟩
  have hfetched : (final (execOnce s)).trace.fetched = s.trace.fetched + fetchedBytes s :=
    (Nat.add_sub_cancel' hgrows.fetched).symm
  rw [← hs.fits_iff hrel hfetched]
  constructor
  · exact Trace.Fitting.fits
  · intro h
    have hlens := (hgrows.appends.fits hs.fitting).1 h
    exact ⟨h, hlens.1, hlens.2⟩

/-- `exec_once` returns only within the arrays. -/
theorem fits_of_execOnce {s s' : Machine} {npc : Word} (hrun : execOnce s = .ok npc s') :
    s'.trace.fits = true := by
  rcases bind_eq_ok.1 hrun with ⟨_, s₁, -, hrun₁⟩
  rcases bind_eq_ok.1 hrun₁ with ⟨_, s₂, -, hrun₂⟩
  rcases bind_eq_ok.1 hrun₂ with ⟨_, s₃, -, hrun₃⟩
  rcases bind_eq_ok.1 hrun₃ with ⟨_, s₄, -, hrun₄⟩
  rcases bind_eq_ok.1 hrun₄ with ⟨_, s₅, hcheck, hrest⟩
  rcases checkTrace_eq_ok.1 hcheck with ⟨rfl, hfits⟩
  cases hrest
  exact hfits

theorem Trace.cleared_ofBuffers {t : Trace} (h : t.fits = true) : (t.ofBuffers [] []).Cleared :=
  ⟨by simp [Trace.ofBuffers, h, logBufSize], rfl, rfl⟩

/-- `asm_print` empties the arrays again. -/
theorem Machine.Printed.execOnce {s s' : Machine} {npc : Word} (h : s.Printed)
    (hrun : Nemu.execOnce s = .ok npc s') :
    Machine.Printed { s' with trace := s'.trace.ofBuffers [] [] } := by
  have hfinal : final (Nemu.execOnce s) = s' := by
    rw [hrun]
    rfl
  have htexts := (execOnce_traceRel s h.texts).2
  rw [hfinal] at htexts
  exact ⟨Trace.cleared_ofBuffers (fits_of_execOnce hrun), htexts⟩

end Nemu
