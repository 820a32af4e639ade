import Nemu.QemuDiff.ReplyFormat
import Nemu.QemuDiff.Session

/-!
# A line that damages packets

The server of a session is a stub behind a line.  The line may damage any number of requests, which
the stub then refuses, and any number of transmissions of a reply; it gets each packet across in the
end.  Sending again and asking again make up for it: the session is what it is over a line that
damages nothing.
-/

namespace Nemu

open Requests StateRules

/-! ## Damage -/

/-- The packet ends, with the wrong sum, and nothing behind it looks like the start of another. -/
def Garbled (wire : List Byte) : Prop :=
  ∃ reply rest, recvPacket wire = some (reply, false, rest) ∧ chr '$' ∉ rest

/-- A packet with another sum than its own. -/
theorem garbled_of_sum {body : List Byte} (hbody : Unmarked body) {x y : Byte}
    (hsum : (checksum body).setWidth 16 ≠ gdbDecodeHex x y) :
    Garbled (chr '$' :: (body ++ [chr '#', x, y])) := by
  have hframed : Framed (chr '$' :: (body ++ [chr '#', x, y])) body [x, y] :=
    ⟨[], [], List.not_mem_nil, List.not_mem_nil, hbody, rfl⟩
  have hwrong : decide ((checksum body).setWidth 16 =
      gdbDecodeHex (nextByte [x, y]) (nextByte ([x, y].drop 1))) = false := decide_eq_false hsum
  have hrecv := recvPacket_framed hframed
  rw [hwrong] at hrecv
  exact ⟨_, [], hrecv, List.not_mem_nil⟩

/-- What happens to one command: what the refusals are answered with, and how the reply arrives
before it arrives whole. -/
structure Weather where
  refusals : List Byte
  arrivals : List (List Byte)
  refused : chr '+' ∉ refusals
  garbled : ∀ wire ∈ arrivals, Garbled wire

def Weather.calm : Weather :=
  { refusals := [], arrivals := [], refused := List.not_mem_nil, garbled := by simp }

/-- Fewer than `tries` requests are refused, and fewer replies garbled. -/
def Weather.Clears (w : Weather) (tries : Nat) : Prop :=
  w.refusals.length < tries ∧ w.arrivals.length < tries

/-! ## The server -/

/-- What a server does with the payload of a packet: it writes its reply in the format. -/
structure Stub (S : Type) where
  reply : List Byte → S → Encoded × S

/-- The stub, the packet of its last reply, and how often this command has been refused and its
reply garbled. -/
structure Line (S : Type) where
  stub : S
  last : List Byte
  refused : Nat
  garbled : Nat
  command : Nat

def payloadOf (wire : List Byte) : List Byte := (wire.drop 1).take (wire.length - 4)

section Server

variable {S : Type} (stub : Stub S) (weather : Nat → Weather)

/-- The last reply, as it arrives. -/
def Line.transmit (l : Line S) : List Byte × Line S :=
  match (weather l.command).arrivals[l.garbled]? with
  | some wire => (wire, { l with garbled := l.garbled + 1 })
  | none => (l.last, l)

/-- A packet that arrives. -/
def Line.take (wire : List Byte) (l : Line S) : List Byte × Line S :=
  let r := stub.reply (payloadOf wire) l.stub
  let sent := Line.transmit weather { l with stub := r.2, last := sendPacket r.1.text }
  (chr '+' :: sent.1, sent.2)

def Stub.onLine : Gdbserver (Line S) where
  answer wire l :=
    if wire = [chr '+'] then
      ([], { l with refused := 0, garbled := 0, command := l.command + 1 })
    else if wire = [chr '-'] then l.transmit weather
    else
      match (weather l.command).refusals[l.refused]? with
      | some b => ([b], { l with refused := l.refused + 1 })
      | none => l.take stub weather wire

/-- The stub itself, without a line. -/
def Stub.call (command : List Byte) : EStateM Fault S (List Byte) := fun s =>
  .ok ((stub.reply command s).1.payload ++ [0]) (stub.reply command s).2

end Server

/-! ## Single writes -/

section Exchange

variable {S : Type} {stub : Stub S} {weather : Nat → Weather}

theorem payloadOf_sendPacket (command : List Byte) : payloadOf (sendPacket command) = command := by
  have hlen : (sendPacket command).length - 4 = command.length := by
    simp [sendPacket, Hex.upperOfByte]
  rw [payloadOf, hlen, sendPacket, List.drop_one, List.tail_cons, List.take_left]

theorem sendPacket_ne (command : List Byte) {c : Byte} (hc : c ≠ chr '$') :
    sendPacket command ≠ [c] := by
  intro h
  exact hc (List.cons.inj h).1.symm

theorem answer_refused {command : List Byte} {l : Line S} {b : Byte}
    (h : (weather l.command).refusals[l.refused]? = some b) :
    (stub.onLine weather).answer (sendPacket command) l =
      ([b], { l with refused := l.refused + 1 }) := by
  unfold Stub.onLine
  simp only [if_neg (sendPacket_ne command (c := chr '+') (by decide)),
    if_neg (sendPacket_ne command (c := chr '-') (by decide)), h]

theorem answer_taken {command : List Byte} {l : Line S}
    (h : (weather l.command).refusals[l.refused]? = none) :
    (stub.onLine weather).answer (sendPacket command) l =
      l.take stub weather (sendPacket command) := by
  unfold Stub.onLine
  simp only [if_neg (sendPacket_ne command (c := chr '+') (by decide)),
    if_neg (sendPacket_ne command (c := chr '-') (by decide)), h]

theorem answer_again (l : Line S) :
    (stub.onLine weather).answer [chr '-'] l = l.transmit weather := by
  have hne : [chr '-'] ≠ [chr '+'] := by decide
  simp only [Stub.onLine, if_neg hne, if_true]

theorem answer_ack (l : Line S) :
    (stub.onLine weather).answer [chr '+'] l =
      ([], { l with refused := 0, garbled := 0, command := l.command + 1 }) := by
  simp only [Stub.onLine, if_true]

/-- The two ways in which a reply arrives. -/
theorem transmit_cases (l : Line S) :
    (∃ wire, Garbled wire ∧ l.garbled < (weather l.command).arrivals.length ∧
      l.transmit weather = (wire, { l with garbled := l.garbled + 1 })) ∨
    l.transmit weather = (l.last, l) := by
  unfold Line.transmit
  cases hwire : (weather l.command).arrivals[l.garbled]? with
  | none => exact .inr rfl
  | some wire =>
      rcases List.getElem?_eq_some_iff.1 hwire with ⟨hlt, rfl⟩
      exact .inl ⟨_, (weather l.command).garbled _ (List.getElem_mem hlt), hlt, rfl⟩

/-! ## One command -/

/-- Between two commands there is nothing left to read. -/
structure Idle (s : S) (conn : Conn (Line S)) : Prop where
  stub : conn.server.stub = s
  refused : conn.server.refused = 0
  garbled : conn.server.garbled = 0
  incoming : conn.incoming = []

/-- The reply `e` is about to arrive, behind `junk`, after less than `tries` that are garbled. -/
inductive Awaits (weather : Nat → Weather) (e : Encoded) (s : S) (tries : Nat) :
    Conn (Line S) → Prop
  | intro {l : Line S} {junk : List Byte} (hjunk : chr '$' ∉ junk) (hstub : l.stub = s)
      (hlast : l.last = sendPacket e.text)
      (hleft : (weather l.command).arrivals.length - l.garbled < tries) :
      Awaits weather e s tries ⟨(l.transmit weather).2, junk ++ (l.transmit weather).1⟩

/-- The stub takes the command in the end; by induction on the tries, of which a refusal costs one
each. -/
theorem gdbSend_onLine (command : List Byte) {tries tries' : Nat} {l : Line S}
    (hleft : (weather l.command).refusals.length - l.refused < tries) (hgarbled : l.garbled = 0)
    (harrivals : (weather l.command).arrivals.length < tries') :
    ∃ conn, gdbSend (stub.onLine weather) command command.length tries ⟨l, []⟩ = .ok ⟨⟩ conn ∧
      Awaits weather (stub.reply command l.stub).1 (stub.reply command l.stub).2 tries' conn := by
  induction tries generalizing l with
  | zero => exact absurd hleft (Nat.not_lt_zero _)
  | succ tries ih =>
      rw [gdbSend, List.take_length]
      cases hrefusal : (weather l.command).refusals[l.refused]? with
      | some b =>
          rcases List.getElem?_eq_some_iff.1 hrefusal with ⟨hlt, rfl⟩
          let l' : Line S := { l with refused := l.refused + 1 }
          have hwrite : write (stub.onLine weather) (sendPacket command) ⟨l, []⟩ =
              .ok ⟨⟩ ⟨l', [(weather l.command).refusals[l.refused]]⟩ := by
            rw [write, modify_run, answer_refused hrefusal]
            rfl
          have hget : (fgetc : OnConn (Line S) (Option Byte))
              ⟨l', [(weather l.command).refusals[l.refused]]⟩ =
                .ok (some (weather l.command).refusals[l.refused]) ⟨l', []⟩ := rfl
          -- a refusal is anything but a `+`
          have hne : some (weather l.command).refusals[l.refused] ≠ some (chr '+') := by
            intro heq
            refine (weather l.command).refused ?_
            rw [← Option.some.inj heq]
            exact List.getElem_mem hlt
          have hleft' : (weather l'.command).refusals.length - l'.refused < tries := by
            change (weather l.command).refusals.length - (l.refused + 1) < tries
            omega
          rw [bind_ok hwrite, bind_ok hget, if_neg hne]
          exact ih hleft' hgarbled harrivals
      | none =>
          let l' : Line S := { l with
            stub := (stub.reply command l.stub).2
            last := sendPacket (stub.reply command l.stub).1.text }
          have htake : l.take stub weather (sendPacket command) =
              (chr '+' :: (l'.transmit weather).1, (l'.transmit weather).2) := by
            rw [Line.take, payloadOf_sendPacket]
          have hwrite : write (stub.onLine weather) (sendPacket command) ⟨l, []⟩ =
              .ok ⟨⟩ ⟨(l'.transmit weather).2, chr '+' :: (l'.transmit weather).1⟩ := by
            rw [write, modify_run, answer_taken hrefusal, htake]
            rfl
          have hget : (fgetc : OnConn (Line S) (Option Byte))
              ⟨(l'.transmit weather).2, chr '+' :: (l'.transmit weather).1⟩ =
                .ok (some (chr '+')) ⟨(l'.transmit weather).2, (l'.transmit weather).1⟩ := rfl
          have hleft' : (weather l'.command).arrivals.length - l'.garbled < tries' := by
            change (weather l.command).arrivals.length - l.garbled < tries'
            rw [hgarbled]
            exact harrivals
          have hawaits : Awaits weather (stub.reply command l.stub).1
              (stub.reply command l.stub).2 tries'
              ⟨(l'.transmit weather).2, [] ++ (l'.transmit weather).1⟩ :=
            .intro List.not_mem_nil rfl rfl hleft'
          refine ⟨_, ?_, hawaits⟩
          rw [bind_ok hwrite, bind_ok hget, if_pos rfl]
          rfl

/-- A reply comes through in the end; by induction on the tries again. -/
theorem gdbRecv_onLine {e : Encoded} {s : S} {tries : Nat} {conn : Conn (Line S)}
    (h : Awaits weather e s tries conn) :
    ∃ conn', gdbRecv (stub.onLine weather) tries conn = .ok (e.payload ++ [0]) conn' ∧
      Idle s conn' := by
  induction tries generalizing conn with
  | zero =>
      rcases h with ⟨_, _, _, hleft⟩
      exact absurd hleft (Nat.not_lt_zero _)
  | succ tries ih =>
      rcases h with @⟨l, junk, hjunk, hstub, hlast, hleft⟩
      rw [gdbRecv, bind_ok (get_run _)]
      rcases @transmit_cases S weather l with
        ⟨wire, ⟨reply, rest, hrecv, hrest⟩, hlt, htransmit⟩ | htransmit
      · let l' : Line S := { l with garbled := l.garbled + 1 }
        have hset : (set (⟨l', rest⟩ : Conn (Line S)) : OnConn (Line S) PUnit)
            ⟨l', junk ++ wire⟩ = .ok ⟨⟩ ⟨l', rest⟩ := rfl
        have hwrite : write (stub.onLine weather) [chr '-'] ⟨l', rest⟩ =
            .ok ⟨⟩ ⟨(l'.transmit weather).2, rest ++ (l'.transmit weather).1⟩ := by
          rw [write, modify_run, answer_again]
        have hleft' : (weather l'.command).arrivals.length - l'.garbled < tries := by
          change (weather l.command).arrivals.length - (l.garbled + 1) < tries
          omega
        -- what is left of the packet is junk in front of the next one
        have hawaits : Awaits weather e s tries
            ⟨(l'.transmit weather).2, rest ++ (l'.transmit weather).1⟩ :=
          .intro hrest hstub hlast hleft'
        rw [htransmit]
        simp only [recvPacket_junk hjunk, hrecv, Bool.false_eq_true, if_false]
        rw [bind_ok hset, bind_ok hwrite]
        exact ih hawaits
      · have hrecv : recvPacket (junk ++ sendPacket e.text) = some (e.payload ++ [0], true, []) := by
          have h := recvPacket_encoded e (sendPacket_isPacket e.text) hjunk []
          rwa [List.append_nil] at h
        let l' : Line S := { l with refused := 0, garbled := 0, command := l.command + 1 }
        have hset : (set (⟨l, []⟩ : Conn (Line S)) : OnConn (Line S) PUnit)
            ⟨l, junk ++ l.last⟩ = .ok ⟨⟩ ⟨l, []⟩ := rfl
        have hwrite : write (stub.onLine weather) [chr '+'] ⟨l, []⟩ = .ok ⟨⟩ ⟨l', []⟩ := by
          rw [write, modify_run, answer_ack]
          rfl
        refine ⟨⟨l', []⟩, ?_, hstub, rfl, rfl, rfl⟩
        rw [htransmit, hlast]
        simp only [hrecv, if_true]
        rw [← hlast, bind_ok hset]
        exact bind_ok hwrite

/-! ## Sessions -/

/-- A command over the line is a call of the stub. -/
theorem gdbCall_onLine {tries : Nat} (hw : ∀ k, (weather k).Clears tries) (command : List Byte)
    {s : S} {conn : Conn (Line S)} (h : Idle s conn) :
    Agrees Idle Idle (stub.call command s) (gdbCall (stub.onLine weather) tries command conn) := by
  rcases conn with ⟨l, incoming⟩
  rcases h with ⟨hstub, hrefused, hgarbled, hincoming⟩
  change incoming = [] at hincoming
  change l.stub = s at hstub
  subst hincoming hstub
  have hleft : (weather l.command).refusals.length - l.refused < tries := by
    rw [show l.refused = 0 from hrefused]
    exact (hw l.command).1
  rcases @gdbSend_onLine S stub weather command tries tries l hleft hgarbled (hw l.command).2 with
    ⟨conn, hsend, hawaits⟩
  rcases @gdbRecv_onLine S stub weather _ _ tries conn hawaits with ⟨conn', hrecv, hidle⟩
  rw [gdbCall, bind_ok hsend, hrecv]
  exact .ok hidle

/-- Before the first command. -/
def Stub.start (s : S) : Conn (Line S) :=
  { server := { stub := s, last := [], refused := 0, garbled := 0, command := 0 }, incoming := [] }

theorem idle_start (s : S) : Idle s (Stub.start s) := ⟨rfl, rfl, rfl, rfl⟩

/-- The outcome as far as the stub and the client can tell. -/
def outcome {α : Type} :
    EStateM.Result Fault (Conn (Line S)) α → EStateM.Result Fault S α
  | .ok a conn => .ok a conn.server.stub
  | .error e conn => .error e conn.server.stub

theorem outcome_of_agrees {α : Type} {r : EStateM.Result Fault S α}
    {r' : EStateM.Result Fault (Conn (Line S)) α} (h : Agrees Idle Idle r r') : outcome r' = r := by
  cases h with
  | ok h => exact congrArg _ h.stub
  | error h => exact congrArg _ h.stub

/-- What a client makes of the stub does not depend on the line. -/
theorem outcome_client {α : Type} (c : GdbClient α) {tries : Nat}
    (hw : ∀ k, (weather k).Clears tries) (s : S) :
    outcome (c.run (gdbCall (stub.onLine weather) tries) (Stub.start s)) = c.run stub.call s :=
  outcome_of_agrees (c.run_agrees (fun _ _ h => h)
    (fun command _ _ h => gdbCall_onLine hw command h) (idle_start s))

theorem Weather.calm_clears : Weather.calm.Clears 1 := ⟨Nat.one_pos, Nat.one_pos⟩

/-- Any sequence of calls, over any line: as long as fewer than `tries` copies of each packet are
damaged, results, faults and the effect on the stub are those over a line that damages nothing, where
a single try is enough. -/
theorem session_outcome (stub : Stub S) (weather : Nat → Weather) {tries : Nat}
    (hw : ∀ k, (weather k).Clears tries) (isa : Isa) (qemuR : IsaGdbRegs) (calls : List DiffCall)
    (s : S) :
    outcome (session (stub.onLine weather) tries isa qemuR calls (Stub.start s)) =
      outcome (session (stub.onLine fun _ => .calm) 1 isa qemuR calls (Stub.start s)) := by
  rcases session_isClient isa qemuR calls with ⟨c, hc⟩
  have hcalm : ∀ _ : Nat, Weather.calm.Clears 1 := fun _ => Weather.calm_clears
  calc outcome (session (stub.onLine weather) tries isa qemuR calls (Stub.start s))
      = outcome (c.run (gdbCall (stub.onLine weather) tries) (Stub.start s)) :=
        congrArg (fun x => outcome (x (Stub.start s))) (hc _ _ _)
    _ = c.run stub.call s := outcome_client c hw s
    _ = outcome (c.run (gdbCall (stub.onLine fun _ => .calm) 1) (Stub.start s)) :=
        (outcome_client c hcalm s).symm
    _ = outcome (session (stub.onLine fun _ => .calm) 1 isa qemuR calls (Stub.start s)) :=
        congrArg (fun x => outcome (x (Stub.start s))) (hc _ _ _).symm

end Exchange

/-- One request refused, and one reply with a wrong sum. -/
def Weather.bad : Weather where
  refusals := [chr '-']
  arrivals := [chr '$' :: ([chr 'O', chr 'K'] ++ [chr '#', chr '0', chr '0'])]
  refused := by decide
  garbled := List.forall_mem_singleton.2 (garbled_of_sum ⟨by decide, by decide⟩ (by decide))

theorem Weather.bad_clears : Weather.bad.Clears 2 := ⟨Nat.one_lt_two, Nat.one_lt_two⟩

/-- A stub that counts its commands. -/
def countingStub : Stub Nat where
  reply _ n := ({ pieces := [.plain (chr 'O'), .plain (chr 'K')], fits := ⟨rfl, rfl, trivial⟩ }, n + 1)

theorem session_outcome_bad :
    outcome (session (countingStub.onLine fun _ => .bad) 2 .x86 (fun _ => 0)
        [.exec 3, .memcpyFromDut 0 (fun _ => 0) 2000] (Stub.start 0)) =
      outcome (session (countingStub.onLine fun _ => .calm) 1 .x86 (fun _ => 0)
        [.exec 3, .memcpyFromDut 0 (fun _ => 0) 2000] (Stub.start 0)) :=
  session_outcome countingStub _ (fun _ => Weather.bad_clears) _ _ _ 0

end Nemu
