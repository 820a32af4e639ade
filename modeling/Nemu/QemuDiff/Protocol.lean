import Nemu.Common
import Nemu.Lib.Hex

/-!
# The client's side of the GDB remote protocol

`tools/qemu-diff/src/protocol.c`.  The server is a parameter: a state, and what it writes for the
bytes that reach it.  `conn->ack` stays set, since nothing calls `gdb_start_noack`.
-/

namespace Nemu

open StateRules

/-! ## Hexadecimal digits -/

def chr (c : Char) : Byte := BitVec.ofNat 8 c.toNat

def isdigit (c : Byte) : Bool := chr '0' ≤ c && c ≤ chr '9'

def isxdigit (c : Byte) : Bool :=
  isdigit c || (chr 'a' ≤ c && c ≤ chr 'f') || (chr 'A' ≤ c && c ≤ chr 'F')

def tolower (c : Byte) : Byte := if chr 'A' ≤ c && c ≤ chr 'Z' then c + 32 else c

def hexNibble (hex : Byte) : Byte :=
  if isdigit hex then hex - chr '0' else tolower hex - chr 'a' + 10

def hexEncode (digit : Byte) : Byte := if 9 < digit then chr 'a' + digit - 10 else chr '0' + digit

def gdbDecodeHex (msb lsb : Byte) : BitVec 16 :=
  if !isxdigit msb || !isxdigit lsb then 65535
  else 16 * (hexNibble msb).setWidth 16 + (hexNibble lsb).setWidth 16

/-- The loop of `gdb_decode_hex_str`; `none` when it reads behind the buffer. -/
def decodeHexLoop : List Byte → BitVec 64 → BitVec 64 → Option (BitVec 64)
  | [], _, _ => none
  | b₀ :: t, value, weight =>
      if isxdigit b₀ then
        match t with
        | [] => none
        | b₁ :: t' =>
            if isxdigit b₁ then
              decodeHexLoop t' (value + weight * (gdbDecodeHex b₀ b₁).setWidth 64) (weight * (16 * 16))
            else some value
      else some value

def gdbDecodeHexStr (bytes : List Byte) : Option (BitVec 64) := decodeHexLoop bytes 0 1

/-! ## Packets -/

def checksum (command : List Byte) : Byte := command.foldl (· + ·) 0

/-- What `send_packet` writes. -/
def sendPacket (command : List Byte) : List Byte :=
  chr '$' :: (command ++ chr '#' :: Hex.upperOfByte (checksum command))

/-- The locals of `recv_packet`, and the first `i` bytes of `reply`. -/
structure Recv where
  reply : List Byte
  sum : Byte
  escape : Bool

/-- The end of the loop's body. -/
def Recv.add (s : Recv) (c : Byte) : Recv :=
  { s with reply := s.reply ++ [if s.escape then c ^^^ 0x20 else c], escape := false }

def invalidCount (c₂ : Byte) : Bool :=
  decide (c₂ < 29) || decide (126 < c₂) || decide (c₂ = chr '$') || decide (c₂ = chr '#')

/-- `fgetc` as a `uint8_t`. -/
def nextByte (input : List Byte) : Byte := input.headD 255

/-- The loop of `recv_packet`: the reply with its terminator, whether the sum is right, and the rest
of the input.  `none` at the end of the input. -/
def recvLoop : List Byte → Recv → Option (List Byte × Bool × List Byte)
  | [], _ => none
  | c :: t, s₀ =>
      let s := { s₀ with sum := s₀.sum + c }
      if c = chr '$' then recvLoop t ⟨[], 0, false⟩
      else if c = chr '#' then
        -- the `#` itself does not count
        let sumOk := s₀.sum.setWidth 16 = gdbDecodeHex (nextByte t) (nextByte (t.drop 1))
        some (s.reply ++ [0], decide sumOk, t.drop 2)
      else if c = chr '}' then recvLoop t { s with escape := true }
      else if c = chr '*' then
        match s.reply.getLast?, t with
        | none, t => recvLoop t (s.add c)
        | some _, [] => none
        | some last, c₂ :: t' =>
            -- an invalid count is put back, and the star is a character
            if invalidCount c₂ then recvLoop (c₂ :: t') (s.add c)
            else recvLoop t' { s with
              reply := s.reply ++ List.replicate (c₂.toNat - 29) last
              sum := s.sum + c₂ }
      else recvLoop t (s.add c)

def recvPacket (input : List Byte) : Option (List Byte × Bool × List Byte) :=
  recvLoop ((input.dropWhile (· ≠ chr '$')).drop 1) ⟨[], 0, false⟩

/-! ## The connection -/

structure Gdbserver (S : Type) where
  /-- What it writes for the bytes that reach it. -/
  answer : List Byte → S → List Byte × S

/-- Both ends: the server, and the bytes that the client has not read. -/
structure Conn (S : Type) where
  server : S
  incoming : List Byte

abbrev OnConn (S : Type) := EStateM Fault (Conn S)

section Connection

variable {S : Type} (d : Gdbserver S)

/-- `fwrite` or `fputc`, and `fflush`. -/
def write (bytes : List Byte) : OnConn S Unit :=
  modify fun conn =>
    { server := (d.answer bytes conn.server).2
      incoming := conn.incoming ++ (d.answer bytes conn.server).1 }

def fgetc : OnConn S (Option Byte) := do
  let conn ← get
  set { conn with incoming := conn.incoming.drop 1 }
  return conn.incoming.head?

/-- `gdb_send`; a server that does not take the packet is sent it again, here `tries` times. -/
def gdbSend (command : List Byte) (size : Nat) : Nat → OnConn S Unit
  | 0 => throw .diverge
  | tries + 1 => do
      write d (sendPacket (command.take size))
      -- anything but a `+` asks for the packet again
      if (← fgetc) = some (chr '+') then pure () else gdbSend command size tries

/-- `gdb_recv`, which asks for a damaged packet again. -/
def gdbRecv : Nat → OnConn S (List Byte)
  | 0 => throw .diverge
  | tries + 1 => do
      let conn ← get
      match recvPacket conn.incoming with
      | none => throw .abort
      | some (reply, acked, rest) => do
          set { conn with incoming := rest }
          write d [if acked then chr '+' else chr '-']
          if acked then return reply else gdbRecv tries

end Connection

end Nemu
