import Nemu.QemuDiff.Framing

/-!
# The format of a reply

A server may escape characters of its reply, and write a run of one character as a count.  The
format is described piece by piece; `recv_packet` reads every text of the format as the payload it
stands for, and every payload has such a text.
-/

namespace Nemu

/-! ## Pieces -/

inductive ReplyPiece
  | plain (c : Byte)
  | escaped (c : Byte)
  | run (n : Nat)
  deriving DecidableEq, Repr

/-- The characters that have a meaning of their own. -/
def isSpecial (c : Byte) : Bool :=
  decide (c = chr '$') || decide (c = chr '#') || decide (c = chr '}') || decide (c = chr '*')

namespace ReplyPiece

def text : ReplyPiece → List Byte
  | plain c => [c]
  | escaped c => [chr '}', c ^^^ 0x20]
  | run n => [chr '*', BitVec.ofNat 8 (n + 29)]

/-- The reply with the piece, behind `reply`. -/
def next (reply : List Byte) : ReplyPiece → List Byte
  | plain c => reply ++ [c]
  | escaped c => reply ++ [c]
  | run n => reply ++ List.replicate n (reply.getLastD 0)

/-- Where the piece may stand: the counts of 6 and 7 would be written `#` and `$`. -/
def Fits (reply : List Byte) : ReplyPiece → Prop
  | plain c => isSpecial c = false
  | escaped c => isSpecial (c ^^^ 0x20) = false
  | run n => reply ≠ [] ∧ n ≤ 97 ∧ n ≠ 6 ∧ n ≠ 7

def AllFit (reply : List Byte) : List ReplyPiece → Prop
  | [] => True
  | p :: ps => p.Fits reply ∧ AllFit (p.next reply) ps

end ReplyPiece

/-- A reply in the format. -/
structure Encoded where
  pieces : List ReplyPiece
  fits : ReplyPiece.AllFit [] pieces

def Encoded.text (e : Encoded) : List Byte := e.pieces.flatMap ReplyPiece.text

def Encoded.payload (e : Encoded) : List Byte := e.pieces.foldl ReplyPiece.next []

/-! ## Reading -/

theorem isSpecial_eq_false {c : Byte} :
    isSpecial c = false ↔
      (c ≠ chr '$' ∧ c ≠ chr '#') ∧ c ≠ chr '}' ∧ c ≠ chr '*' := by
  simp [isSpecial]
  tauto

/-- The character for a count. -/
theorem count_facts {n : Nat} (hn : n ≤ 97) (hhash : n ≠ 6) (hdollar : n ≠ 7) :
    invalidCount (BitVec.ofNat 8 (n + 29)) = false ∧
      (BitVec.ofNat 8 (n + 29)).toNat - 29 = n ∧
      BitVec.ofNat 8 (n + 29) ≠ chr '$' ∧ BitVec.ofNat 8 (n + 29) ≠ chr '#' := by
  have hall : ∀ n < 98, n ≠ 6 → n ≠ 7 →
      invalidCount (BitVec.ofNat 8 (n + 29)) = false ∧
        (BitVec.ofNat 8 (n + 29)).toNat - 29 = n ∧
        BitVec.ofNat 8 (n + 29) ≠ chr '$' ∧ BitVec.ofNat 8 (n + 29) ≠ chr '#' := by decide
  exact hall n (Nat.lt_succ_of_le hn) hhash hdollar

theorem ReplyPiece.unmarked_text {p : ReplyPiece} {reply : List Byte} (h : p.Fits reply) :
    Unmarked p.text := by
  have hempty : Unmarked [] := ⟨List.not_mem_nil, List.not_mem_nil⟩
  cases p with
  | plain c => exact unmarked_cons.2 ⟨(isSpecial_eq_false.1 h).1, hempty⟩
  | escaped c =>
      refine unmarked_cons.2 ⟨by decide, ?_⟩
      exact unmarked_cons.2 ⟨(isSpecial_eq_false.1 h).1, hempty⟩
  | run n =>
      rcases h with ⟨-, hn, hhash, hdollar⟩
      refine unmarked_cons.2 ⟨by decide, ?_⟩
      exact unmarked_cons.2 ⟨(count_facts hn hhash hdollar).2.2, hempty⟩

theorem unmarked_append {l m : List Byte} (hl : Unmarked l) (hm : Unmarked m) :
    Unmarked (l ++ m) :=
  ⟨by simp [hl.1, hm.1], by simp [hl.2, hm.2]⟩

/-- The decoder on one piece. -/
theorem ReplyPiece.body_text {p : ReplyPiece} {reply : List Byte} (h : p.Fits reply) (rest : List Byte)
    (sum : Byte) :
    ∃ sum', Recv.body (p.text ++ rest) ⟨reply, sum, false⟩ =
      Recv.body rest ⟨p.next reply, sum', false⟩ := by
  cases p with
  | plain c =>
      rcases isSpecial_eq_false.1 h with ⟨-, hbrace, hstar⟩
      refine ⟨sum + c, ?_⟩
      change Recv.body (c :: rest) _ = _
      rw [Recv.body_other hbrace hstar]
      rfl
  | escaped c =>
      rcases isSpecial_eq_false.1 h with ⟨-, hbrace, hstar⟩
      refine ⟨sum + chr '}' + (c ^^^ 0x20), ?_⟩
      change Recv.body (chr '}' :: (c ^^^ 0x20) :: rest) _ = _
      rw [Recv.body_brace, Recv.body_other hbrace hstar]
      -- twice the mask is the character itself
      have hxor : c ^^^ 0x20 ^^^ 0x20 = c := by rw [BitVec.xor_assoc]; simp
      rw [Recv.add, if_pos rfl, hxor]
      rfl
  | run n =>
      rcases h with ⟨hne, hn, hhash, hdollar⟩
      rcases count_facts hn hhash hdollar with ⟨hvalid, hcount, -⟩
      refine ⟨sum + chr '*' + BitVec.ofNat 8 (n + 29), ?_⟩
      change Recv.body (chr '*' :: BitVec.ofNat 8 (n + 29) :: rest) _ = _
      have hlast : reply.getLast? = some (reply.getLastD 0) := by
        rw [List.getLastD_eq_getLast?, List.getLast?_eq_some_getLast hne]
        rfl
      rw [Recv.body_run _ _ hlast hvalid, hcount]
      rfl

theorem ReplyPiece.body_texts {ps : List ReplyPiece} {reply : List Byte} (h : ReplyPiece.AllFit reply ps)
    (sum : Byte) :
    Unmarked (ps.flatMap ReplyPiece.text) ∧
      (Recv.body (ps.flatMap ReplyPiece.text) ⟨reply, sum, false⟩).reply =
        ps.foldl ReplyPiece.next reply := by
  induction ps generalizing reply sum with
  | nil => exact ⟨⟨List.not_mem_nil, List.not_mem_nil⟩, rfl⟩
  | cons p ps ih =>
      rcases p.body_text h.1 (ps.flatMap ReplyPiece.text) sum with ⟨sum', hp⟩
      rcases ih h.2 sum' with ⟨hunmarked, hreply⟩
      rw [List.flatMap_cons, hp]
      exact ⟨unmarked_append (ReplyPiece.unmarked_text h.1) hunmarked, hreply⟩

theorem Encoded.unmarked (e : Encoded) : Unmarked e.text := (ReplyPiece.body_texts e.fits 0).1

theorem recvPacket_encoded (e : Encoded) {wire junk : List Byte} (hwire : IsPacket e.text wire)
    (hjunk : chr '$' ∉ junk) (rest : List Byte) :
    recvPacket (junk ++ (wire ++ rest)) = some (e.payload ++ [0], true, rest) := by
  have hreply := (ReplyPiece.body_texts e.fits 0).2
  rw [recvPacket_wire e.unmarked hwire hjunk]
  exact congrArg (fun reply => some (reply ++ [0], true, rest)) hreply

/-! ## Writing -/

namespace ReplyPiece

def literal (c : Byte) : ReplyPiece := if isSpecial c then escaped c else plain c

/-- Pieces for `n` more characters like the last one. -/
def repeats (c : Byte) (n : Nat) : List ReplyPiece :=
  if n < 3 then List.replicate n (literal c)
  else if 97 < n then run 97 :: repeats c (n - 97)
  else if n = 6 ∨ n = 7 then run 5 :: List.replicate (n - 5) (literal c)
  else [run n]
termination_by n
decreasing_by omega

/-- The payload cut into runs. -/
def encode : List Byte → List ReplyPiece
  | [] => []
  | c :: t =>
      literal c :: (repeats c (t.takeWhile (· = c)).length ++ encode (t.dropWhile (· = c)))
termination_by t => t.length
decreasing_by
  have hle := (List.dropWhile_sublist (l := t) (· = c)).length_le
  rw [List.length_cons]
  omega

theorem literal_next (reply : List Byte) (c : Byte) : (literal c).next reply = reply ++ [c] := by
  unfold literal
  split <;> rfl

/-- An escaped character is none of the four any more. -/
theorem literal_fits (reply : List Byte) (c : Byte) : (literal c).Fits reply := by
  unfold literal
  split
  case isTrue hspecial =>
    have hall : ∀ c : Byte, isSpecial c = true → isSpecial (c ^^^ 0x20) = false := by decide
    exact hall c hspecial
  case isFalse hplain => exact Bool.eq_false_iff.2 hplain

/-- Behind `reply`, the pieces may stand, and make it `out`. -/
structure Spells (reply : List Byte) (ps : List ReplyPiece) (out : List Byte) : Prop where
  fits : AllFit reply ps
  out : ps.foldl next reply = out

theorem Spells.nil (reply : List Byte) : Spells reply [] reply := ⟨trivial, rfl⟩

theorem Spells.cons {p : ReplyPiece} {ps : List ReplyPiece} {reply out : List Byte} (hp : p.Fits reply)
    (hps : Spells (p.next reply) ps out) : Spells reply (p :: ps) out :=
  ⟨⟨hp, hps.fits⟩, hps.out⟩

theorem Spells.append {ps qs : List ReplyPiece} {reply mid out : List Byte}
    (hps : Spells reply ps mid) (hqs : Spells mid qs out) : Spells reply (ps ++ qs) out := by
  induction ps generalizing reply with
  | nil =>
      have hmid : reply = mid := hps.out
      rw [hmid]
      exact hqs
  | cons p ps ih => exact .cons hps.fits.1 (ih ⟨hps.fits.2, hps.out⟩)

theorem spells_literals (c : Byte) (n : Nat) (reply : List Byte) :
    Spells reply (List.replicate n (literal c)) (reply ++ List.replicate n c) := by
  induction n generalizing reply with
  | zero =>
      rw [List.replicate_zero, List.replicate_zero, List.append_nil]
      exact .nil reply
  | succ n ih =>
      have hrest := ih ((literal c).next reply)
      rw [literal_next, List.append_assoc, List.singleton_append, ← List.replicate_succ] at hrest
      refine .cons (literal_fits reply c) ?_
      rw [literal_next]
      exact hrest

/-- A count of the character that the reply ends with. -/
theorem spells_run {reply : List Byte} {c : Byte} (hlast : reply.getLast? = some c) {n : Nat}
    (hn : n ≤ 97) (hhash : n ≠ 6) (hdollar : n ≠ 7) :
    Spells reply [run n] (reply ++ List.replicate n c) := by
  have hne : reply ≠ [] := by
    rintro rfl
    cases hlast
  have hc : reply.getLastD 0 = c := by rw [List.getLastD_eq_getLast?, hlast]; rfl
  refine .cons ⟨hne, hn, hhash, hdollar⟩ ⟨trivial, ?_⟩
  rw [List.foldl_nil, next, hc]

theorem spells_repeats {reply : List Byte} {c : Byte} (hlast : reply.getLast? = some c) (n : Nat) :
    Spells reply (repeats c n) (reply ++ List.replicate n c) := by
  induction n using Nat.strong_induction_on generalizing reply with
  | _ n ih =>
      -- a run leaves the last character what it was
      have hagain : ∀ k, 0 < k → (reply ++ List.replicate k c).getLast? = some c := by
        intro k hk
        rw [List.getLast?_append, List.getLast?_replicate, if_neg (Nat.ne_of_gt hk)]
        rfl
      have hsplit : ∀ {k}, k ≤ n → reply ++ List.replicate n c =
          reply ++ List.replicate k c ++ List.replicate (n - k) c := by
        intro k hk
        rw [List.append_assoc, ← List.replicate_add, Nat.add_sub_cancel' hk]
      rw [repeats]
      split
      case isTrue => exact spells_literals c n reply
      case isFalse hthree =>
        split
        case isTrue hlong =>
          have hrest := ih (n - 97) (by omega) (hagain 97 (by decide))
          rw [← hsplit (Nat.le_of_lt hlong)] at hrest
          exact (spells_run hlast (Nat.le_refl 97) (by decide) (by decide)).append hrest
        case isFalse hshort =>
          split
          case isTrue hmark =>
            have hrest := spells_literals c (n - 5) (reply ++ List.replicate 5 c)
            rw [← hsplit (by omega)] at hrest
            exact (spells_run hlast (by decide) (by decide) (by decide)).append hrest
          case isFalse hmark =>
            rw [not_or] at hmark
            exact spells_run hlast (Nat.not_lt.1 hshort) hmark.1 hmark.2

theorem takeWhile_eq_replicate (c : Byte) (t : List Byte) :
    t.takeWhile (· = c) = List.replicate (t.takeWhile (· = c)).length c := by
  refine List.eq_replicate_of_mem fun b hb => ?_
  exact of_decide_eq_true (List.all_eq_true.1 List.all_takeWhile b hb)

theorem spells_encode (payload reply : List Byte) :
    Spells reply (encode payload) (reply ++ payload) := by
  induction hn : payload.length using Nat.strong_induction_on generalizing payload reply with
  | _ n ih =>
      cases payload with
      | nil =>
          rw [encode, List.append_nil]
          exact .nil reply
      | cons c t =>
          have hle := (List.dropWhile_sublist (l := t) (· = c)).length_le
          have hlt : (t.dropWhile (· = c)).length < n := by
            rw [← hn, List.length_cons]
            exact Nat.lt_succ_of_le hle
          have hlast : (reply ++ [c]).getLast? = some c := by simp
          have hruns := spells_repeats hlast (t.takeWhile (· = c)).length
          rw [← takeWhile_eq_replicate] at hruns
          have hrest := ih _ hlt (t.dropWhile (· = c)) (reply ++ [c] ++ t.takeWhile (· = c)) rfl
          have hall : reply ++ [c] ++ t.takeWhile (· = c) ++ t.dropWhile (· = c) =
              reply ++ c :: t := by
            rw [List.append_assoc, List.takeWhile_append_dropWhile, List.append_assoc,
              List.singleton_append]
          rw [hall] at hrest
          rw [encode]
          refine .cons (literal_fits reply c) ?_
          rw [literal_next]
          exact hruns.append hrest

end ReplyPiece

/-- What a server makes of a payload. -/
def Encoded.ofPayload (payload : List Byte) : Encoded :=
  { pieces := ReplyPiece.encode payload, fits := (ReplyPiece.spells_encode payload []).fits }

theorem Encoded.payload_ofPayload (payload : List Byte) :
    (Encoded.ofPayload payload).payload = payload :=
  (ReplyPiece.spells_encode payload []).out

/-- Every text of the format is read as its payload, wherever its packet stands in a stream, and
every payload is that of some text of the format. -/
theorem recvPacket_decodes {junk : List Byte} (hjunk : chr '$' ∉ junk) (rest : List Byte) :
    (∀ (e : Encoded) (wire : List Byte), IsPacket e.text wire →
      recvPacket (junk ++ (wire ++ rest)) = some (e.payload ++ [0], true, rest)) ∧
    ∀ payload, ∃ e : Encoded, e.payload = payload :=
  ⟨fun e _ hwire => recvPacket_encoded e hwire hjunk rest,
    fun payload => ⟨.ofPayload payload, Encoded.payload_ofPayload payload⟩⟩

/-- Zeros, and a marker in the middle of them. -/
def zerosAndMarker : Encoded where
  pieces := [.plain (chr '0'), .run 11, .escaped (chr '#'), .plain (chr '0')]
  fits := ⟨rfl, ⟨List.cons_ne_nil _ _, by decide⟩, rfl, rfl, trivial⟩

theorem recvPacket_decodes_zeros :
    recvPacket ([chr '+'] ++ (sendPacket zerosAndMarker.text ++ [chr '$'])) =
      some (List.replicate 12 (chr '0') ++ [chr '#', chr '0', 0], true, [chr '$']) :=
  (@recvPacket_decodes [chr '+'] (by decide) [chr '$']).1 zerosAndMarker _
    (sendPacket_isPacket _)

end Nemu
