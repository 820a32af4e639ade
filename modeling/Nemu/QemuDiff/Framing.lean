import Nemu.QemuDiff.Exchange

/-!
# Where a packet begins and ends

`recv_packet` skips what stands in front of the first `$`, starts over at every further one, and
ends at the first `#` behind it.  What it makes of the characters in between does not depend on what
stands around them: neither an escape nor a run-length count can take a marker with it.
-/

namespace Nemu

/-! ## Between the markers -/

/-- The escapes and runs of a packet, decoded behind `s`. -/
def Recv.body : List Byte → Recv → Recv
  | [], s => s
  | c :: t, s₀ =>
      let s := { s₀ with sum := s₀.sum + c }
      if c = chr '}' then Recv.body t { s with escape := true }
      else if c = chr '*' then
        match s.reply.getLast?, t with
        | some last, c₂ :: t' =>
            if invalidCount c₂ then Recv.body (c₂ :: t') (s.add c)
            else Recv.body t' { s with
              reply := s.reply ++ List.replicate (c₂.toNat - 29) last
              sum := s.sum + c₂ }
        | _, t => Recv.body t (s.add c)
      else Recv.body t (s.add c)

theorem Recv.body_brace (t : List Byte) (s : Recv) :
    Recv.body (chr '}' :: t) s =
      Recv.body t { s with sum := s.sum + chr '}', escape := true } := by
  rw [Recv.body.eq_def]
  exact if_pos rfl

theorem Recv.body_run (t : List Byte) (s : Recv) {last c₂ : Byte}
    (hreply : s.reply.getLast? = some last) (hvalid : invalidCount c₂ = false) :
    Recv.body (chr '*' :: c₂ :: t) s =
      Recv.body t { s with
        reply := s.reply ++ List.replicate (c₂.toNat - 29) last
        sum := s.sum + chr '*' + c₂ } := by
  rw [Recv.body.eq_def]
  simp only [hreply, hvalid]
  rfl

theorem Recv.body_other {c : Byte} (hbrace : c ≠ chr '}') (hstar : c ≠ chr '*') (t : List Byte)
    (s : Recv) :
    Recv.body (c :: t) s = Recv.body t ({ s with sum := s.sum + c }.add c) := by
  rw [Recv.body.eq_def]
  simp only [if_neg hbrace, if_neg hstar]

/-- No `$` and no `#`. -/
def Unmarked (body : List Byte) : Prop := chr '$' ∉ body ∧ chr '#' ∉ body

theorem unmarked_cons {c : Byte} {t : List Byte} :
    Unmarked (c :: t) ↔ (c ≠ chr '$' ∧ c ≠ chr '#') ∧ Unmarked t := by
  unfold Unmarked
  simp only [List.mem_cons, not_or]
  constructor
  · rintro ⟨⟨hd, htd⟩, hh, hth⟩
    exact ⟨⟨Ne.symm hd, Ne.symm hh⟩, htd, hth⟩
  · rintro ⟨⟨hd, hh⟩, htd, hth⟩
    exact ⟨⟨Ne.symm hd, htd⟩, Ne.symm hh, hth⟩

/-! ## One character of the loop -/

theorem recvLoop_cons (c : Byte) (t : List Byte) (s₀ : Recv) :
    recvLoop (c :: t) s₀ =
      let s := { s₀ with sum := s₀.sum + c }
      if c = chr '$' then recvLoop t ⟨[], 0, false⟩
      else if c = chr '#' then
        let sumOk := s₀.sum.setWidth 16 = gdbDecodeHex (nextByte t) (nextByte (t.drop 1))
        some (s.reply ++ [0], decide sumOk, t.drop 2)
      else if c = chr '}' then recvLoop t { s with escape := true }
      else if c = chr '*' then
        match s.reply.getLast?, t with
        | none, t => recvLoop t (s.add c)
        | some _, [] => none
        | some last, c₂ :: t' =>
            if invalidCount c₂ then recvLoop (c₂ :: t') (s.add c)
            else recvLoop t' { s with
              reply := s.reply ++ List.replicate (c₂.toNat - 29) last
              sum := s.sum + c₂ }
      else recvLoop t (s.add c) :=
  recvLoop.eq_def _ _

section Step

variable (t : List Byte) (s : Recv)

theorem recvLoop_dollar : recvLoop (chr '$' :: t) s = recvLoop t ⟨[], 0, false⟩ := by
  rw [recvLoop_cons]
  exact if_pos rfl

theorem recvLoop_hash :
    recvLoop (chr '#' :: t) s =
      some (s.reply ++ [0],
        decide (s.sum.setWidth 16 = gdbDecodeHex (nextByte t) (nextByte (t.drop 1))), t.drop 2) := by
  rw [recvLoop_cons]
  exact (if_neg (by decide)).trans (if_pos rfl)

theorem recvLoop_brace :
    recvLoop (chr '}' :: t) s = recvLoop t { s with sum := s.sum + chr '}', escape := true } := by
  rw [recvLoop_cons]
  exact (if_neg (by decide)).trans ((if_neg (by decide)).trans (if_pos rfl))

theorem recvLoop_star_first (hreply : s.reply.getLast? = none) :
    recvLoop (chr '*' :: t) s =
      recvLoop t ({ s with sum := s.sum + chr '*' }.add (chr '*')) := by
  rw [recvLoop_cons]
  simp only [hreply]
  rfl

theorem recvLoop_star_invalid {last c₂ : Byte} (hreply : s.reply.getLast? = some last)
    (hinvalid : invalidCount c₂ = true) :
    recvLoop (chr '*' :: c₂ :: t) s =
      recvLoop (c₂ :: t) ({ s with sum := s.sum + chr '*' }.add (chr '*')) := by
  rw [recvLoop_cons]
  simp only [hreply, hinvalid]
  rfl

theorem recvLoop_star_run {last c₂ : Byte} (hreply : s.reply.getLast? = some last)
    (hvalid : invalidCount c₂ = false) :
    recvLoop (chr '*' :: c₂ :: t) s =
      recvLoop t { s with
        reply := s.reply ++ List.replicate (c₂.toNat - 29) last
        sum := s.sum + chr '*' + c₂ } := by
  rw [recvLoop_cons]
  simp only [hreply, hvalid]
  rfl

theorem recvLoop_other {c : Byte} (hmarks : c ≠ chr '$' ∧ c ≠ chr '#')
    (hescape : c ≠ chr '}') (hstar : c ≠ chr '*') :
    recvLoop (c :: t) s = recvLoop t ({ s with sum := s.sum + c }.add c) := by
  rw [recvLoop_cons]
  simp only [if_neg hmarks.1, if_neg hmarks.2, if_neg hescape, if_neg hstar]

end Step

/-- Up to the next marker the loop decodes, whatever follows. -/
theorem recvLoop_body {body : List Byte} (hbody : Unmarked body) {m : Byte}
    (hm : m = chr '$' ∨ m = chr '#') (tail : List Byte) (s : Recv) :
    recvLoop (body ++ m :: tail) s = recvLoop (m :: tail) (Recv.body body s) := by
  have hinvalid : invalidCount m = true := by
    rcases hm with rfl | rfl <;> decide
  revert hbody
  fun_induction Recv.body body s with
  | case1 s =>
      intro _
      rfl
  | case2 t s₀ s ih =>
      intro hbody
      rw [List.cons_append, recvLoop_brace]
      exact ih (unmarked_cons.1 hbody).2
  | case3 s₀ last c₂ t' hcount s _ hlast ih =>
      intro hbody
      rw [List.cons_append, List.cons_append, recvLoop_star_invalid _ s₀ hlast hcount]
      exact ih (unmarked_cons.1 hbody).2
  | case4 s₀ last c₂ t' hcount s _ hlast ih =>
      intro hbody
      have hvalid : invalidCount c₂ = false := by simpa using hcount
      rw [List.cons_append, List.cons_append, recvLoop_star_run _ s₀ hlast hvalid]
      exact ih (unmarked_cons.1 (unmarked_cons.1 hbody).2).2
  | case5 s₀ t s _ hnone ih =>
      intro hbody
      have ht := (unmarked_cons.1 hbody).2
      cases hlast : s₀.reply.getLast? with
      | none =>
          rw [List.cons_append, recvLoop_star_first _ _ hlast]
          exact ih ht
      | some last =>
          cases t with
          | nil =>
              -- the marker stands where the count would, and is no count
              rw [List.cons_append, List.nil_append, recvLoop_star_invalid _ _ hlast hinvalid]
              exact ih ht
          | cons c₂ t' => exact absurd rfl (hnone last c₂ t' hlast)
  | case6 c t s₀ s hbrace hstar ih =>
      intro hbody
      rcases unmarked_cons.1 hbody with ⟨hc, ht⟩
      rw [List.cons_append, recvLoop_other _ _ hc hbrace hstar]
      exact ih ht

/-- Every character counts, whatever it stands for. -/
theorem Recv.body_sum (body : List Byte) (s : Recv) :
    (Recv.body body s).sum = body.foldl (· + ·) s.sum := by
  fun_induction Recv.body body s with
  | case1 s => rfl
  | case2 t s₀ s ih => exact ih
  | case3 s₀ last c₂ t' hcount s _ hlast ih => exact ih
  | case4 s₀ last c₂ t' hcount s _ hlast ih => exact ih
  | case5 s₀ t s _ hnone ih => exact ih
  | case6 c t s₀ s hbrace hstar ih => exact ih

/-! ## In front of the packet -/

/-- What has been received is dropped at a `$`. -/
theorem recvLoop_skipped {skipped : List Byte} (hhash : chr '#' ∉ skipped) (rest : List Byte)
    (s : Recv) :
    recvLoop (skipped ++ chr '$' :: rest) s = recvLoop rest ⟨[], 0, false⟩ := by
  induction hn : skipped.length using Nat.strong_induction_on generalizing skipped s with
  | _ n ih =>
      by_cases hdollar : chr '$' ∈ skipped
      · -- an earlier `$` starts a shorter piece
        rcases List.eq_append_cons_of_mem hdollar with ⟨body, more, rfl, hbody⟩
        have hmarks : chr '#' ∉ body ∧ chr '#' ∉ more := by
          simp only [List.mem_append, List.mem_cons, not_or] at hhash
          exact ⟨hhash.1, hhash.2.2⟩
        have hlt : more.length < n := by
          rw [← hn, List.length_append, List.length_cons]
          omega
        rw [List.append_assoc, List.cons_append, recvLoop_body ⟨hbody, hmarks.1⟩ (.inl rfl),
          recvLoop_dollar]
        exact ih more.length hlt hmarks.2 _ rfl
      · rw [recvLoop_body ⟨hdollar, hhash⟩ (.inl rfl), recvLoop_dollar]

/-- Without a `#` the loop runs into the end of the input. -/
theorem recvLoop_endless {t : List Byte} (hhash : chr '#' ∉ t) (s : Recv) :
    recvLoop t s = none := by
  revert hhash
  fun_induction recvLoop t s with
  | case1 s => exact fun _ => rfl
  | case2 t s₀ ih => exact fun h => ih (List.not_mem_of_not_mem_cons h)
  | case3 t s₀ sumOk s _ => exact fun h => absurd List.mem_cons_self h
  | case4 t s₀ s _ _ ih => exact fun h => ih (List.not_mem_of_not_mem_cons h)
  | case5 s₀ t s _ _ _ _ ih => exact fun h => ih (List.not_mem_of_not_mem_cons h)
  | case6 s₀ last s _ _ _ _ => exact fun _ => rfl
  | case7 s₀ last c₂ t' _ s _ _ _ _ ih => exact fun h => ih (List.not_mem_of_not_mem_cons h)
  | case8 s₀ last c₂ t' _ s _ _ _ _ ih =>
      -- the count goes with the star
      exact fun h => ih (List.not_mem_of_not_mem_cons (List.not_mem_of_not_mem_cons h))
  | case9 c t s₀ s _ _ _ _ ih => exact fun h => ih (List.not_mem_of_not_mem_cons h)

/-! ## Packets in a stream -/

/-- The `body` of the first packet that is completed in `input`, and the `tail` behind its `#`. -/
def Framed (input body tail : List Byte) : Prop :=
  ∃ junk skipped, chr '$' ∉ junk ∧ chr '#' ∉ skipped ∧ Unmarked body ∧
    input = junk ++ (skipped ++ chr '$' :: (body ++ chr '#' :: tail))

theorem dropWhile_append_dollar {junk : List Byte} (hjunk : chr '$' ∉ junk) (rest : List Byte) :
    (junk ++ rest).dropWhile (· ≠ chr '$') = rest.dropWhile (· ≠ chr '$') := by
  refine List.dropWhile_append_of_pos fun b hb => ?_
  exact decide_eq_true fun heq => hjunk (heq ▸ hb)

/-- A packet with `junk` in front that does not begin one. -/
theorem recvPacket_junk {junk : List Byte} (hjunk : chr '$' ∉ junk) (rest : List Byte) :
    recvPacket (junk ++ rest) = recvPacket rest := by
  rw [recvPacket, recvPacket, dropWhile_append_dollar hjunk]

theorem recvPacket_dollar (t : List Byte) :
    recvPacket (chr '$' :: t) = recvLoop t ⟨[], 0, false⟩ := by
  simp [recvPacket]

theorem recvPacket_framed {input body tail : List Byte} (h : Framed input body tail) :
    recvPacket input =
      some ((Recv.body body ⟨[], 0, false⟩).reply ++ [0],
        decide ((checksum body).setWidth 16 =
          gdbDecodeHex (nextByte tail) (nextByte (tail.drop 1))), tail.drop 2) := by
  rcases h with ⟨junk, skipped, hjunk, hskipped, hbody, rfl⟩
  have hpacket : recvLoop (body ++ chr '#' :: tail) ⟨[], 0, false⟩ =
      some ((Recv.body body ⟨[], 0, false⟩).reply ++ [0],
        decide ((checksum body).setWidth 16 =
          gdbDecodeHex (nextByte tail) (nextByte (tail.drop 1))), tail.drop 2) := by
    rw [recvLoop_body hbody (.inr rfl), recvLoop_hash, Recv.body_sum]
    rfl
  rw [recvPacket_junk hjunk, ← hpacket]
  by_cases hdollar : chr '$' ∈ skipped
  · -- the first `$` of all stands in the skipped part
    rcases List.eq_append_cons_of_mem hdollar with ⟨pre, more, rfl, hpre⟩
    have hmore : chr '#' ∉ more := fun hmem =>
      hskipped (List.mem_append_right _ (List.mem_cons_of_mem _ hmem))
    rw [List.append_assoc, List.cons_append, recvPacket_junk hpre, recvPacket_dollar,
      recvLoop_skipped hmore]
  · rw [recvPacket_junk hdollar, recvPacket_dollar]

/-- Where a packet is received, one is framed. -/
theorem framed_of_recvPacket {input : List Byte} {result : List Byte × Bool × List Byte}
    (h : recvPacket input = some result) : ∃ body tail, Framed input body tail := by
  have hdollar : chr '$' ∈ input := by
    by_contra hnone
    have hjunk := recvPacket_junk hnone []
    rw [List.append_nil, h] at hjunk
    cases hjunk
  rcases List.eq_append_cons_of_mem hdollar with ⟨junk, t, rfl, hjunk⟩
  rw [recvPacket_junk hjunk, recvPacket_dollar] at h
  have hhash : chr '#' ∈ t := by
    by_contra hnone
    rw [recvLoop_endless hnone] at h
    cases h
  rcases List.eq_append_cons_of_mem hhash with ⟨inner, tail, rfl, hinner⟩
  by_cases hagain : chr '$' ∈ inner
  · -- the last `$` begins the packet
    have hlast : chr '$' ∈ inner.reverse := List.mem_reverse.2 hagain
    rcases List.eq_append_cons_of_mem hlast with ⟨ydob, deppiks, hrev, hydob⟩
    have hsplit : inner = deppiks.reverse ++ chr '$' :: ydob.reverse := by
      rw [← List.reverse_reverse inner, hrev]
      simp
    subst hsplit
    simp only [List.mem_append, List.mem_cons, not_or] at hinner
    refine ⟨ydob.reverse, tail, junk, chr '$' :: deppiks.reverse, hjunk, ?_, ⟨?_, hinner.2.2⟩, ?_⟩
    · simp only [List.mem_cons, not_or]
      exact ⟨by decide, hinner.1⟩
    · exact fun hmem => hydob (List.mem_reverse.1 hmem)
    · simp
  · exact ⟨inner, tail, junk, [], hjunk, by simp, ⟨hagain, hinner⟩, by simp⟩

/-- On any stream: a packet is received if and only if one is framed, it ends two characters behind
its `#`, and what it says and whether its sum is right is a matter of its body and these two. -/
theorem recvPacket_eq_some_iff {input reply rest : List Byte} {ok : Bool} :
    recvPacket input = some (reply, ok, rest) ↔
      ∃ body tail, Framed input body tail ∧
        reply = (Recv.body body ⟨[], 0, false⟩).reply ++ [0] ∧
        ok = decide ((checksum body).setWidth 16 =
          gdbDecodeHex (nextByte tail) (nextByte (tail.drop 1))) ∧ rest = tail.drop 2 := by
  constructor
  · intro h
    rcases framed_of_recvPacket h with ⟨body, tail, hframed⟩
    rw [recvPacket_framed hframed] at h
    cases h
    exact ⟨body, tail, hframed, rfl, rfl, rfl⟩
  · rintro ⟨body, tail, hframed, rfl, rfl, rfl⟩
    exact recvPacket_framed hframed

/-- A packet as the protocol documents it, anywhere in a stream. -/
theorem recvPacket_wire {body wire junk : List Byte} (hbody : Unmarked body)
    (hwire : IsPacket body wire) (hjunk : chr '$' ∉ junk) (rest : List Byte) :
    recvPacket (junk ++ (wire ++ rest)) =
      some ((Recv.body body ⟨[], 0, false⟩).reply ++ [0], true, rest) := by
  rcases hwire with ⟨sumText, hsum, rfl⟩
  have hframed : Framed (junk ++ ((chr '$' :: (body ++ chr '#' :: sumText)) ++ rest)) body
      (sumText ++ rest) := ⟨junk, [], hjunk, by simp, hbody, by simp⟩
  have hdigits : ∃ m n, sumText = [m, n] ∧ gdbDecodeHex m n = (checksum body).setWidth 16 := by
    rcases hsum with rfl | rfl
    · exact ⟨_, _, rfl, gdbDecodeHex_ofByte _⟩
    · exact ⟨_, _, rfl, gdbDecodeHex_upperOfByte _⟩
  rcases hdigits with ⟨m, n, rfl, hdecode⟩
  have htail : gdbDecodeHex (nextByte ([m, n] ++ rest)) (nextByte (([m, n] ++ rest).drop 1)) =
      (checksum body).setWidth 16 := hdecode
  rw [recvPacket_framed hframed, htail]
  simp

end Nemu
