import Nemu.QemuDiff.HexText

/-!
# One packet there and one back

`IsPacket` is the form of a packet that the protocol documents.  A payload without the four
characters that have a meaning of their own gets through `recv_packet` unchanged.
-/

namespace Nemu

open StateRules

/-- A payload between `$` and `#`, and the sum of its bytes in hexadecimal. -/
def IsPacket (payload wire : List Byte) : Prop :=
  ∃ sumText, (sumText = Hex.ofByte (checksum payload) ∨
    sumText = Hex.upperOfByte (checksum payload)) ∧ wire = chr '$' :: (payload ++ chr '#' :: sumText)

theorem sendPacket_isPacket (command : List Byte) : IsPacket command (sendPacket command) :=
  ⟨_, .inr rfl, rfl⟩

/-! ## Receiving -/

/-- No character that `recv_packet` treats in a special way. -/
def Plain (payload : List Byte) : Prop :=
  ∀ b ∈ payload, b ≠ chr '$' ∧ b ≠ chr '#' ∧ b ≠ chr '}' ∧ b ≠ chr '*'

theorem plain_digit : ∀ n < 16, Hex.digit n ≠ chr '$' ∧ Hex.digit n ≠ chr '#' ∧
    Hex.digit n ≠ chr '}' ∧ Hex.digit n ≠ chr '*' := by decide

theorem plain_ofBytes (l : List Byte) : Plain (Hex.ofBytes l) := by
  intro b hb
  rcases Hex.mem_ofBytes hb with ⟨n, hn, rfl⟩
  exact plain_digit n hn

theorem recvLoop_plain {payload : List Byte} (h : Plain payload) (rest reply : List Byte)
    (sum : Byte) :
    recvLoop (payload ++ rest) ⟨reply, sum, false⟩ =
      recvLoop rest ⟨reply ++ payload, payload.foldl (· + ·) sum, false⟩ := by
  induction payload generalizing reply sum with
  -- on the payload, with what is already in the reply and in the sum
  | nil => rw [List.nil_append, List.append_nil, List.foldl_nil]
  | cons c payload ih =>
      rcases h c List.mem_cons_self with ⟨hdollar, hhash, hescape, hstar⟩
      have hrest : Plain payload := fun b hb => h b (List.mem_cons_of_mem c hb)
      rw [List.cons_append, recvLoop.eq_def]
      simp only [if_neg hdollar, if_neg hhash, if_neg hescape, if_neg hstar]
      have hadd : Recv.add ⟨reply, sum + c, false⟩ c = ⟨reply ++ [c], sum + c, false⟩ := rfl
      rw [hadd, ih hrest, List.append_assoc, List.singleton_append, List.foldl_cons]

/-- The two digits behind the `#`, in either case. -/
theorem gdbDecodeHex_sumText {b : Byte} {sumText : List Byte}
    (h : sumText = Hex.ofByte b ∨ sumText = Hex.upperOfByte b) :
    gdbDecodeHex (nextByte sumText) (nextByte (sumText.drop 1)) = b.setWidth 16 ∧
      sumText.drop 2 = [] := by
  rcases h with rfl | rfl
  · exact ⟨gdbDecodeHex_ofByte b, rfl⟩
  · exact ⟨gdbDecodeHex_upperOfByte b, rfl⟩

theorem recvPacket_isPacket {payload wire : List Byte} (hplain : Plain payload)
    (h : IsPacket payload wire) : recvPacket wire = some (payload ++ [0], true, []) := by
  rcases h with ⟨sumText, hsum, rfl⟩
  -- the first `$` begins the packet, whatever the payload holds
  have hstart : ((chr '$' :: (payload ++ chr '#' :: sumText)).dropWhile (· ≠ chr '$')).drop 1 =
      payload ++ chr '#' :: sumText := by simp
  rcases gdbDecodeHex_sumText hsum with ⟨hdecode, hend⟩
  rw [recvPacket, hstart, recvLoop_plain hplain, recvLoop.eq_def]
  simp only [if_neg (show chr '#' ≠ chr '$' by decide), if_true, hdecode, hend, List.nil_append]
  simp [checksum]

/-! ## Exchanges -/

section Exchange

variable {S : Type} {d : Gdbserver S} {s s' : S} {command payload reply : List Byte} {size : Nat}

/-- A server that takes the packet at once. -/
theorem gdbSend_taken (tries : Nat)
    (h : d.answer (sendPacket (command.take size)) s = (chr '+' :: reply, s')) :
    gdbSend d command size (tries + 1) ⟨s, []⟩ = .ok ⟨⟩ ⟨s', reply⟩ := by
  have hwrite : write d (sendPacket (command.take size)) ⟨s, []⟩ =
      .ok ⟨⟩ ⟨s', chr '+' :: reply⟩ := by
    rw [write, modify_run, h]
    rfl
  have hget : (fgetc : OnConn S (Option Byte)) ⟨s', chr '+' :: reply⟩ =
      .ok (some (chr '+')) ⟨s', reply⟩ := rfl
  rw [gdbSend, bind_ok hwrite]
  refine (bind_ok hget).trans ?_
  rw [if_pos rfl]
  rfl

/-- A reply that arrives undamaged. -/
theorem gdbRecv_packet (tries : Nat) (hplain : Plain payload) (h : IsPacket payload reply)
    (hack : (d.answer [chr '+'] s).1 = []) :
    gdbRecv d (tries + 1) ⟨s, reply⟩ =
      .ok (payload ++ [0]) ⟨(d.answer [chr '+'] s).2, []⟩ := by
  have hset : (set (⟨s, []⟩ : Conn S) : OnConn S PUnit) ⟨s, reply⟩ = .ok ⟨⟩ ⟨s, []⟩ := rfl
  have hwrite : write d [chr '+'] ⟨s, []⟩ = .ok ⟨⟩ ⟨(d.answer [chr '+'] s).2, []⟩ := by
    rw [write, modify_run, hack]
    rfl
  rw [gdbRecv, bind_ok (get_run _)]
  simp only [recvPacket_isPacket hplain h, if_true]
  rw [bind_ok hset]
  exact bind_ok hwrite

end Exchange

end Nemu
