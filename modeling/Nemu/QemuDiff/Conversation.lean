import Nemu.QemuDiff.Framing

/-!
# What passes between client and server

`gdb_send` and `gdb_recv` send again, and ask again, until they are content.  Nothing is assumed
about the server here: whatever it writes, the client follows the protocol, and what it returns in
the end stood in a packet with the right sum.
-/

namespace Nemu

open StateRules

variable {S : Type} {d : Gdbserver S}

/-! ## Conversations -/

/-- The writes `ws`, one after the other, are answered by the bytes `arrived` in all. -/
inductive Talk (d : Gdbserver S) : S → List (List Byte) → List Byte → S → Prop
  | nil (s : S) : Talk d s [] [] s
  | cons {s s' : S} {w : List Byte} {ws : List (List Byte)} {arrived : List Byte}
      (hrest : Talk d (d.answer w s).2 ws arrived s') :
      Talk d s (w :: ws) ((d.answer w s).1 ++ arrived) s'

namespace Talk

theorem append {s s₁ s₂ : S} {ws vs : List (List Byte)} {arrived arrived' : List Byte}
    (h : Talk d s ws arrived s₁) (h' : Talk d s₁ vs arrived' s₂) :
    Talk d s (ws ++ vs) (arrived ++ arrived') s₂ := by
  induction h with
  | nil s => exact h'
  | cons _ ih =>
      rw [List.append_assoc]
      exact .cons (ih h')

theorem single (w : List Byte) (s : S) : Talk d s [w] (d.answer w s).1 (d.answer w s).2 := by
  have h := Talk.cons (d := d) (w := w) (Talk.nil (d := d) (d.answer w s).2)
  rwa [List.append_nil] at h

end Talk

/-! ## Sending -/

/-- By induction on the tries: the bytes in front of the `+` have cost one packet each. -/
theorem gdbSend_talk {command : List Byte} {size tries : Nat} {s s' : S} {inc inc' : List Byte}
    (h : gdbSend d command size tries ⟨s, inc⟩ = .ok ⟨⟩ ⟨s', inc'⟩) :
    ∃ k arrived acks, Talk d s (List.replicate (k + 1) (sendPacket (command.take size))) arrived s' ∧
      inc ++ arrived = acks ++ chr '+' :: inc' ∧ chr '+' ∉ acks ∧ acks.length ≤ k := by
  induction tries generalizing s inc with
  | zero => cases h
  | succ tries ih =>
      let w := sendPacket (command.take size)
      have hwrite : write d w ⟨s, inc⟩ = .ok ⟨⟩ ⟨(d.answer w s).2, inc ++ (d.answer w s).1⟩ := rfl
      rw [gdbSend, bind_ok hwrite] at h
      cases hstream : inc ++ (d.answer w s).1 with
      | nil =>
          -- nothing to read: the packet goes out again
          rw [hstream] at h
          rcases ih h with ⟨k, arrived, acks, htalk, hsplit, hacks, hlen⟩
          refine ⟨k + 1, _, acks, .cons htalk, ?_, hacks, Nat.le_succ_of_le hlen⟩
          rw [← List.append_assoc, hstream]
          exact hsplit
      | cons c stream =>
          rw [hstream] at h
          have hget : (fgetc : OnConn S (Option Byte)) ⟨(d.answer w s).2, c :: stream⟩ =
              .ok (some c) ⟨(d.answer w s).2, stream⟩ := rfl
          rw [bind_ok hget] at h
          by_cases hplus : c = chr '+'
          · rw [if_pos (congrArg some hplus)] at h
            cases h
            refine ⟨0, _, [], .single w s, ?_, List.not_mem_nil, Nat.le_refl 0⟩
            rw [hstream, hplus]
            rfl
          · rw [if_neg fun heq => hplus (Option.some.inj heq)] at h
            rcases ih h with ⟨k, arrived, acks, htalk, hsplit, hacks, hlen⟩
            refine ⟨k + 1, _, c :: acks, .cons htalk, ?_, ?_, Nat.succ_le_succ hlen⟩
            · rw [← List.append_assoc, hstream, List.cons_append, hsplit, List.cons_append]
            · rw [List.mem_cons, not_or]
              exact ⟨Ne.symm hplus, hacks⟩

/-! ## Receiving -/

/-- A sum that is right has both its digits. -/
theorem two_digits_of_sum {b : Byte} {tail : List Byte}
    (h : b.setWidth 16 = gdbDecodeHex (nextByte tail) (nextByte (tail.drop 1))) :
    ∃ x y, tail = x :: y :: tail.drop 2 := by
  have hend : isxdigit 255 = false := by decide
  have hlt : (b.setWidth 16).toNat ≠ 65535 := by
    have hb := b.isLt
    rw [BitVec.toNat_setWidth]
    omega
  match tail, h with
  | [], h =>
      -- the end of the input is no digit
      have hnone : gdbDecodeHex (nextByte []) (nextByte (List.drop 1 [])) = 65535 := rfl
      exact absurd (congrArg BitVec.toNat (h.trans hnone)) hlt
  | [x], h =>
      have hnone : gdbDecodeHex (nextByte [x]) (nextByte (List.drop 1 [x])) = 65535 := by
        have hbyte : nextByte (List.drop 1 [x]) = 255 := rfl
        rw [gdbDecodeHex, hbyte, hend, Bool.not_false, Bool.or_true]
        exact if_pos rfl
      exact absurd (congrArg BitVec.toNat (h.trans hnone)) hlt
  | x :: y :: rest, _ => exact ⟨x, y, rfl⟩

/-- A packet somewhere in `stream`, and behind it `rest`. -/
structure Carries (stream body rest : List Byte) : Prop where
  unmarked : Unmarked body
  stands : ∃ front x y, stream = front ++ chr '$' :: (body ++ chr '#' :: x :: y :: rest) ∧
    (checksum body).setWidth 16 = gdbDecodeHex x y

theorem Carries.append {stream body rest : List Byte} (h : Carries stream body rest)
    (front back : List Byte) : Carries (front ++ (stream ++ back)) body (rest ++ back) := by
  rcases h with ⟨hbody, front', x, y, rfl, hsum⟩
  exact ⟨hbody, front ++ front', x, y, by simp, hsum⟩

/-- What is received with the right sum was there. -/
theorem carries_of_recvPacket {inc reply rest : List Byte}
    (h : recvPacket inc = some (reply, true, rest)) :
    ∃ body, Carries inc body rest ∧ reply = (Recv.body body ⟨[], 0, false⟩).reply ++ [0] := by
  rcases framed_of_recvPacket h with ⟨body, tail, hframed⟩
  rw [recvPacket_framed hframed] at h
  injection h with h
  injection h with hreply h
  injection h with hok hrest
  have hsum := of_decide_eq_true hok
  rcases two_digits_of_sum hsum with ⟨x, y, htail⟩
  rcases hframed with ⟨junk, skipped, -, -, hbody, rfl⟩
  rw [htail] at hsum
  refine ⟨body, ⟨hbody, junk ++ skipped, x, y, ?_, hsum⟩, hreply.symm⟩
  rw [← hrest, List.append_assoc, ← htail]

/-- The rest of the input is the end of it. -/
theorem recvPacket_suffix {inc reply rest : List Byte} {ok : Bool}
    (h : recvPacket inc = some (reply, ok, rest)) : ∃ front, inc = front ++ rest := by
  rcases framed_of_recvPacket h with ⟨body, tail, hframed⟩
  rw [recvPacket_framed hframed] at h
  injection h with h
  injection h with _ h
  injection h with _ hrest
  rcases hframed with ⟨junk, skipped, -, -, -, rfl⟩
  refine ⟨junk ++ (skipped ++ chr '$' :: (body ++ chr '#' :: tail.take 2)), ?_⟩
  rw [← hrest]
  simp

theorem gdbRecv_talk {tries : Nat} {s s' : S} {inc inc' reply : List Byte}
    (h : gdbRecv d tries ⟨s, inc⟩ = .ok reply ⟨s', inc'⟩) :
    ∃ m arrived body, Talk d s (List.replicate m [chr '-'] ++ [[chr '+']]) arrived s' ∧
      Carries (inc ++ arrived) body inc' ∧
      reply = (Recv.body body ⟨[], 0, false⟩).reply ++ [0] := by
  induction tries generalizing s inc with
  | zero => cases h
  | succ tries ih =>
      rw [gdbRecv, bind_ok (get_run _)] at h
      cases hrecv : recvPacket inc with
      | none =>
          simp only [hrecv] at h
          cases h
      | some received =>
          rcases received with ⟨got, ok, rest⟩
          simp only [hrecv] at h
          have hset : (set (⟨s, rest⟩ : Conn S) : OnConn S PUnit) ⟨s, inc⟩ = .ok ⟨⟩ ⟨s, rest⟩ := rfl
          rw [bind_ok hset] at h
          cases ok with
          | true =>
              rcases carries_of_recvPacket hrecv with ⟨body, hcarries, rfl⟩
              cases h
              refine ⟨0, _, body, .single [chr '+'] s, ?_, rfl⟩
              exact hcarries.append [] (d.answer [chr '+'] s).1
          | false =>
              have hwrite : write d [chr '-'] ⟨s, rest⟩ =
                  .ok ⟨⟩ ⟨(d.answer [chr '-'] s).2, rest ++ (d.answer [chr '-'] s).1⟩ := rfl
              simp only [Bool.false_eq_true, if_false] at h
              rw [bind_ok hwrite] at h
              rcases ih h with ⟨m, arrived, body, htalk, hcarries, hreply⟩
              rcases recvPacket_suffix hrecv with ⟨front, rfl⟩
              refine ⟨m + 1, _, body, .cons htalk, ?_, hreply⟩
              -- the refused packet is part of what stands in front
              have hmore := hcarries.append front []
              simp only [List.append_nil, List.append_assoc] at hmore ⊢
              exact hmore

/-! ## One exchange -/

/-- For every server, and whatever is left to read at first: the client sends one packet until it
reads a `+`, then asks again until a packet has the right sum, and acknowledges that one; it returns
what the packet says, and what came behind it is still to be read. -/
theorem exchange_talk {command : List Byte} {size tries tries' : Nat} {s s' : S}
    {inc inc' reply : List Byte}
    (h : (gdbSend d command size tries >>= fun _ => gdbRecv d tries') ⟨s, inc⟩ =
      .ok reply ⟨s', inc'⟩) :
    ∃ k m arrived acks stream body,
      Talk d s (List.replicate (k + 1) (sendPacket (command.take size)) ++
        (List.replicate m [chr '-'] ++ [[chr '+']])) arrived s' ∧
      inc ++ arrived = acks ++ chr '+' :: stream ∧ chr '+' ∉ acks ∧ acks.length ≤ k ∧
      Carries stream body inc' ∧ reply = (Recv.body body ⟨[], 0, false⟩).reply ++ [0] := by
  rcases bind_eq_ok.1 h with ⟨_, ⟨s₁, inc₁⟩, hsend, hrecv⟩
  rcases gdbSend_talk hsend with ⟨k, arrived₁, acks, htalk₁, hsplit, hacks, hlen⟩
  rcases gdbRecv_talk hrecv with ⟨m, arrived₂, body, htalk₂, hcarries, hreply⟩
  refine ⟨k, m, arrived₁ ++ arrived₂, acks, inc₁ ++ arrived₂, body, htalk₁.append htalk₂, ?_, hacks,
    hlen, hcarries, hreply⟩
  rw [← List.append_assoc, hsplit, List.append_assoc, List.cons_append]

/-- A server that says `OK` to everything. -/
def okServer : Gdbserver Unit where
  answer w _ := if w = [chr '+'] then ([], ()) else (chr '+' :: sendPacket [chr 'O', chr 'K'], ())

theorem exchange_talk_okServer :
    ∃ k m arrived acks stream body,
      Talk okServer () (List.replicate (k + 1) (sendPacket ([chr 'g'].take 1)) ++
        (List.replicate m [chr '-'] ++ [[chr '+']])) arrived () ∧
      [] ++ arrived = acks ++ chr '+' :: stream ∧ chr '+' ∉ acks ∧ acks.length ≤ k ∧
      Carries stream body [] ∧
      [chr 'O', chr 'K', 0] = (Recv.body body ⟨[], 0, false⟩).reply ++ [0] := by
  have hplain : Plain [chr 'O', chr 'K'] := by
    unfold Plain
    decide
  have hsend : gdbSend okServer [chr 'g'] 1 1 ⟨(), []⟩ =
      .ok ⟨⟩ ⟨(), sendPacket [chr 'O', chr 'K']⟩ := gdbSend_taken 0 rfl
  have hrecv : gdbRecv okServer 1 ⟨(), sendPacket [chr 'O', chr 'K']⟩ =
      .ok [chr 'O', chr 'K', 0] ⟨(), []⟩ :=
    gdbRecv_packet 0 hplain (sendPacket_isPacket _) rfl
  exact exchange_talk ((bind_ok hsend).trans hrecv)

end Nemu
