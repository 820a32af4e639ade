import Nemu.Lib.HeapBlock
import Nemu.QemuDiff.Framing

/-!
# The buffer of recv_packet

`recv_packet` receives into a block that it enlarges when it is full.  Here the block and its size
are explicit, and an access behind the size is a fault.  The model of the protocol keeps the reply
as a list; on every stream the two agree, so that no packet makes the client write behind its block.
-/

namespace Nemu

open HeapBlock

/-! ## The function -/

def inBounds {β : Type} : Option β → Except Fault β
  | some b => .ok b
  | none => .error .bounds

/-- The locals of `recv_packet`; its `size` is the size of the block. -/
structure RecvBuf where
  reply : Block Byte
  i : Nat
  sum : Byte
  escape : Bool

namespace RecvBuf

/-- The end of the loop's body. -/
def add (s : RecvBuf) (c : Byte) : Except Fault RecvBuf := do
  let c := if s.escape then c ^^^ 0x20 else c
  let reply := if s.i = s.reply.size then s.reply.realloc (s.reply.size * 2) else s.reply
  let reply ← inBounds (reply.store? s.i c)
  return { s with reply, i := s.i + 1, escape := false }

/-- `memset(&reply[i], reply[i - 1], count)`, in a block that may have been too small. -/
def run (s : RecvBuf) (count : Nat) : Except Fault RecvBuf := do
  let reply := if s.reply.size < s.i + count then s.reply.realloc (s.reply.size * 2) else s.reply
  let last ← inBounds (reply.load? (s.i - 1))
  let reply ← inBounds (reply.fill? s.i count last)
  return { s with reply, i := s.i + count }

/-- The reply with a terminator. -/
def terminate (s : RecvBuf) : Except Fault (Block Byte) :=
  let reply := if s.i = s.reply.size then s.reply.realloc (s.reply.size + 1) else s.reply
  inBounds (reply.store? s.i 0)

end RecvBuf

/-- What `recv_packet` returns: the reply, `*ret_size`, `*ret_sum_ok`, and the rest of the input. -/
abbrev Received := Block Byte × Nat × Bool × List Byte

def recvBufLoop : List Byte → RecvBuf → Except Fault Received
  | [], _ => .error .abort
  | c :: t, s₀ =>
      let s := { s₀ with sum := s₀.sum + c }
      if c = chr '$' then recvBufLoop t { s with i := 0, sum := 0, escape := false }
      else if c = chr '#' then do
        let sumOk := s₀.sum.setWidth 16 = gdbDecodeHex (nextByte t) (nextByte (t.drop 1))
        let reply ← s.terminate
        return (reply, s.i, decide sumOk, t.drop 2)
      else if c = chr '}' then recvBufLoop t { s with escape := true }
      else if c = chr '*' then
        if 0 < s.i then
          match t with
          | [] => do
              -- the end of the input is no count either
              let s ← s.add c
              recvBufLoop [] s
          | c₂ :: t' =>
              if invalidCount c₂ then do
                let s ← s.add c
                recvBufLoop (c₂ :: t') s
              else do
                let s ← s.run (c₂.toNat - 29)
                recvBufLoop t' { s with sum := s.sum + c₂ }
        else do
          let s ← s.add c
          recvBufLoop t s
      else do
        let s ← s.add c
        recvBufLoop t s

/-- The first block has 4096 bytes, of unknown contents. -/
def recvPacketBuf (fresh : Nat → Byte) (input : List Byte) : Except Fault Received :=
  recvBufLoop ((input.dropWhile (· ≠ chr '$')).drop 1) ⟨⟨fresh, 4096⟩, 0, 0, false⟩

/-! ## The invariant -/

/-- The block holds the reply so far, and is not smaller than the longest run. -/
structure RecvBuf.Shows (b : RecvBuf) (s : Recv) : Prop where
  reply : b.reply.upTo b.i = s.reply
  sum : b.sum = s.sum
  escape : b.escape = s.escape
  used : b.i ≤ b.reply.size
  room : 97 ≤ b.reply.size

namespace RecvBuf

variable {b : RecvBuf} {s : Recv}

theorem Shows.add_sum (h : b.Shows s) (c : Byte) :
    Shows { b with sum := b.sum + c } { s with sum := s.sum + c } :=
  ⟨h.reply, congrArg (· + c) h.sum, h.escape, h.used, h.room⟩

theorem Shows.add (h : b.Shows s) (c : Byte) : ∃ b', b.add c = .ok b' ∧ b'.Shows (s.add c) := by
  let block := if b.i = b.reply.size then b.reply.realloc (b.reply.size * 2) else b.reply
  have hroom := h.room
  have hsize : b.i < block.size ∧ b.reply.size ≤ block.size := by
    have hused := h.used
    unfold block
    split
    · rw [Block.size_realloc]
      omega
    · omega
  have hupTo : block.upTo b.i = s.reply := (b.reply.upTo_ite_realloc _).trans h.reply
  rcases block.store?_upTo (if b.escape then c ^^^ 0x20 else c) hsize.1 with
    ⟨reply, hstore, hsize', hreply⟩
  refine ⟨{ b with reply, i := b.i + 1, escape := false }, ?_, ?_, h.sum, rfl, ?_, ?_⟩
  · unfold RecvBuf.add
    change (inBounds (block.store? b.i _) >>= _) = _
    rw [hstore]
    rfl
  · change reply.upTo (b.i + 1) = _
    rw [hreply, hupTo, h.escape]
    rfl
  · change b.i + 1 ≤ reply.size
    omega
  · change 97 ≤ reply.size
    omega

theorem Shows.run (h : b.Shows s) {count : Nat} (hcount : count ≤ 97) {last : Byte}
    (hlast : s.reply.getLast? = some last) :
    ∃ b', b.run count = .ok b' ∧
      b'.Shows { s with reply := s.reply ++ List.replicate count last } := by
  let block := if b.reply.size < b.i + count then b.reply.realloc (b.reply.size * 2) else b.reply
  have hroom := h.room
  have hused := h.used
  have hsize : b.i + count ≤ block.size ∧ b.reply.size ≤ block.size := by
    unfold block
    split
    · rw [Block.size_realloc]
      omega
    · omega
  have hupTo : block.upTo b.i = s.reply := (b.reply.upTo_ite_realloc _).trans h.reply
  have hpos : 0 < b.i := by
    -- a reply with a last character is not empty
    by_contra hzero
    have hi : b.i = 0 := Nat.eq_zero_of_not_pos hzero
    rw [← hupTo, hi] at hlast
    cases hlast
  have hload : block.load? (b.i - 1) = some last := by
    rw [← block.getLast?_upTo hpos (by omega), hupTo, hlast]
  rcases block.fill?_upTo last hsize.1 with ⟨reply, hfill, hsize', hreply⟩
  refine ⟨{ b with reply, i := b.i + count }, ?_, ?_, h.sum, h.escape, ?_, ?_⟩
  · unfold RecvBuf.run
    change (inBounds (block.load? (b.i - 1)) >>= fun last =>
      inBounds (block.fill? b.i count last) >>= _) = _
    rw [hload]
    change (inBounds (block.fill? b.i count last) >>= _) = _
    rw [hfill]
    rfl
  · change reply.upTo (b.i + count) = _
    rw [hreply, hupTo]
  · change b.i + count ≤ reply.size
    omega
  · change 97 ≤ reply.size
    omega

theorem Shows.terminate (h : b.Shows s) :
    ∃ reply, b.terminate = .ok reply ∧ b.i < reply.size ∧
      reply.upTo (b.i + 1) = s.reply ++ [0] := by
  let block := if b.i = b.reply.size then b.reply.realloc (b.reply.size + 1) else b.reply
  have hsize : b.i < block.size := by
    have hused := h.used
    unfold block
    split
    · rw [Block.size_realloc]
      omega
    · omega
  have hupTo : block.upTo b.i = s.reply := (b.reply.upTo_ite_realloc _).trans h.reply
  rcases block.store?_upTo 0 hsize with ⟨reply, hstore, hsize', hreply⟩
  refine ⟨reply, ?_, ?_, ?_⟩
  · unfold RecvBuf.terminate
    change inBounds (block.store? b.i 0) = _
    rw [hstore]
    rfl
  · rw [hsize']
    exact hsize
  · rw [hreply, hupTo]

end RecvBuf

/-! ## The loop -/

/-- The same outcome: the end of the input, or one reply, with its terminator inside the block. -/
def SameOutcome : Except Fault Received → Option (List Byte × Bool × List Byte) → Prop
  | .error e, none => e = .abort
  | .ok (block, i, ok, rest), some (reply, ok', rest') =>
      i < block.size ∧ block.upTo (i + 1) = reply ∧ ok = ok' ∧ rest = rest'
  | _, _ => False

theorem count_le {c₂ : Byte} (hvalid : ¬ invalidCount c₂ = true) : c₂.toNat - 29 ≤ 97 := by
  have hall : ∀ c₂ : Byte, invalidCount c₂ = false → c₂.toNat - 29 ≤ 97 := by decide
  exact hall c₂ (Bool.eq_false_iff.2 hvalid)

/-- A first step that returns. -/
theorem SameOutcome.step {α : Type} {x : Except Fault α} {a : α} {f : α → Except Fault Received}
    {o : Option (List Byte × Bool × List Byte)} (hx : x = .ok a) (h : SameOutcome (f a) o) :
    SameOutcome (x >>= f) o := by
  rw [hx]
  exact h

theorem RecvBuf.Shows.pos_iff {b : RecvBuf} {s : Recv} (h : b.Shows s) :
    0 < b.i ↔ s.reply.getLast? ≠ none := by
  rw [Ne, List.getLast?_eq_none_iff, ← List.length_eq_zero_iff, ← h.reply, Block.length_upTo]
  exact Nat.pos_iff_ne_zero

theorem recvBufLoop_agrees (t : List Byte) (s : Recv) {b : RecvBuf} (h : b.Shows s) :
    SameOutcome (recvBufLoop t b) (recvLoop t s) := by
  revert b
  fun_induction recvLoop t s
  case case1 s => exact fun _ => rfl
  case case2 t s₀ ih =>
      intro b h
      have hstart : RecvBuf.Shows { b with i := 0, sum := 0, escape := false } ⟨[], 0, false⟩ :=
        ⟨rfl, rfl, rfl, Nat.zero_le _, h.room⟩
      rw [recvBufLoop.eq_def]
      exact ih hstart
  case case3 t s₀ sumOk s hdollar =>
      intro b h
      have hsum := h.add_sum (chr '#')
      rcases hsum.terminate with ⟨reply, hterminate, hlt, hreply⟩
      rw [recvBufLoop.eq_def]
      simp only [if_neg hdollar, if_true]
      refine .step hterminate ⟨hlt, hreply, ?_, rfl⟩
      rw [h.sum]
  case case4 t s₀ s hdollar hhash ih =>
      intro b h
      have hsum := h.add_sum (chr '}')
      have hescape : RecvBuf.Shows { b with sum := b.sum + chr '}', escape := true }
          { s with escape := true } := ⟨hsum.reply, hsum.sum, rfl, hsum.used, hsum.room⟩
      rw [recvBufLoop.eq_def]
      simp only [if_neg hdollar, if_neg hhash, if_true]
      exact ih hescape
  case case5 s₀ t s hdollar hhash hbrace hnone ih =>
      intro b h
      have hsum := h.add_sum (chr '*')
      have hzero : ¬ 0 < b.i := fun hpos => h.pos_iff.1 hpos hnone
      rcases hsum.add (chr '*') with ⟨b', hadd, hb'⟩
      rw [recvBufLoop.eq_def]
      simp only [if_neg hdollar, if_neg hhash, if_neg hbrace, if_neg hzero, if_true]
      exact .step hadd (ih hb')
  case case6 s₀ last s hdollar hhash hbrace hlast =>
      intro b h
      have hsum := h.add_sum (chr '*')
      have hpos : 0 < b.i := h.pos_iff.2 (hlast ▸ Option.some_ne_none last)
      rcases hsum.add (chr '*') with ⟨b', hadd, -⟩
      rw [recvBufLoop.eq_def]
      simp only [if_neg hdollar, if_neg hhash, if_neg hbrace, if_pos hpos, if_true]
      exact .step hadd rfl
  case case7 s₀ last c₂ t' hcount s hdollar hhash hbrace hlast ih =>
      intro b h
      have hsum := h.add_sum (chr '*')
      have hpos : 0 < b.i := h.pos_iff.2 (hlast ▸ Option.some_ne_none last)
      rcases hsum.add (chr '*') with ⟨b', hadd, hb'⟩
      rw [recvBufLoop.eq_def]
      simp only [if_neg hdollar, if_neg hhash, if_neg hbrace, if_pos hpos, if_pos hcount, if_true]
      exact .step hadd (ih hb')
  case case8 s₀ last c₂ t' hcount s hdollar hhash hbrace hlast ih =>
      intro b h
      have hsum := h.add_sum (chr '*')
      have hpos : 0 < b.i := h.pos_iff.2 (hlast ▸ Option.some_ne_none last)
      rcases hsum.run (count_le hcount) hlast with ⟨b', hrun, hb'⟩
      rw [recvBufLoop.eq_def]
      simp only [if_neg hdollar, if_neg hhash, if_neg hbrace, if_pos hpos, if_neg hcount, if_true]
      exact .step hrun (ih (hb'.add_sum c₂))
  case case9 c t s₀ s hdollar hhash hbrace hstar ih =>
      intro b h
      have hsum := h.add_sum c
      rcases hsum.add c with ⟨b', hadd, hb'⟩
      rw [recvBufLoop.eq_def]
      simp only [if_neg hdollar, if_neg hhash, if_neg hbrace, if_neg hstar]
      exact .step hadd (ih hb')

/-- Whatever arrives, and whatever the block holds at first, `recv_packet` stays inside its block and
receives what the model of the protocol says. -/
theorem recvPacketBuf_inBounds (fresh : Nat → Byte) (input : List Byte) :
    recvPacketBuf fresh input ≠ .error .bounds ∧
      (recvPacket input = none → recvPacketBuf fresh input = .error .abort) ∧
      ∀ reply ok rest, recvPacket input = some (reply, ok, rest) →
        ∃ block i, recvPacketBuf fresh input = .ok (block, i, ok, rest) ∧ i < block.size ∧
          block.upTo (i + 1) = reply := by
  have hstart : RecvBuf.Shows ⟨⟨fresh, 4096⟩, 0, 0, false⟩ ⟨[], 0, false⟩ :=
    ⟨rfl, rfl, rfl, Nat.zero_le _, show 97 ≤ 4096 by decide⟩
  have hsame : SameOutcome (recvPacketBuf fresh input) (recvPacket input) :=
    recvBufLoop_agrees _ _ hstart
  generalize recvPacketBuf fresh input = outcome at hsame
  generalize recvPacket input = received at hsame
  cases outcome with
  | error e =>
      cases received with
      | some _ => exact hsame.elim
      | none =>
          have he : e = .abort := hsame
          subst he
          exact ⟨by simp, fun _ => rfl, by simp⟩
  | ok result =>
      rcases result with ⟨block, i, ok, rest⟩
      cases received with
      | none => exact hsame.elim
      | some val =>
          rcases val with ⟨reply, ok', rest'⟩
          rcases hsame with ⟨hlt, rfl, rfl, rfl⟩
          refine ⟨by simp, by simp, ?_⟩
          intro reply ok' rest' heq
          cases heq
          exact ⟨block, i, rfl, hlt, rfl⟩

end Nemu
