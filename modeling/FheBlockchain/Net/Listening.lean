import FheBlockchain.Core.Serialization

namespace FheBlockchain.Net.Listening

open Core.Transactions Library.BigEndian

abbrev Frame := Int32 × Bytes

def int32ToUcharBigEndian (num : Int32) : Bytes := bigEndian 4 num.toUInt32.toNat

def charsToInt32BigEndian (buffer : Bytes) : Int32 :=
  (UInt32.ofNat (ofBigEndian (buffer.take 4))).toInt32

def writeHeader (len msgType : Int32) (vec : Bytes) : Result Bytes :=
  if vec.length < 8 then .error (invalidArgument "Vec size for header not enough.")
  else .ok (int32ToUcharBigEndian len ++ int32ToUcharBigEndian msgType ++ vec.drop 8)

/-- The way all messages are built: a header, then the payload behind it. -/
def buildMessage (frame : Frame) : Result Bytes := do
  let vec ← writeHeader (Int32.ofNat frame.2.length) frame.1 (zeros (8 + frame.2.length))
  copyTo vec 8 frame.2

/-- `vector::resize` throws when it is asked for more than `max_size()`. -/
structure LengthError where
deriving DecidableEq, Repr

inductive Phase
  | header
  | payload
deriving DecidableEq, Repr

/-- The locals of `Peer::listen` between two reads. Both buffers are used again
for every frame. -/
structure Listener where
  headerData : Bytes
  vData : Bytes
  msgLen : Int32
  msgType : Int32
  phase : Phase
  n : ℕ
deriving DecidableEq, Repr

def toSize (len : Int32) : ℕ := (len.toInt % 2 ^ 64).toNat

namespace Listener

def wanted (l : Listener) : ℕ :=
  match l.phase with
  | .header => 8 - l.n
  | .payload => toSize l.msgLen - l.n

def overwrite (buffer : Bytes) (offset : ℕ) (piece : Bytes) : Bytes :=
  buffer.take offset ++ piece ++ buffer.drop (offset + piece.length)

def resize (buffer : Bytes) (n : ℕ) : Bytes := buffer.take n ++ zeros (n - buffer.length)

/-- The loop condition of the second loop. When it fails, the frame is routed and
the next header is read. -/
def routeIfFull (l : Listener) : Listener × List Frame :=
  if l.n = toSize l.msgLen then
    ({ l with phase := .header, n := 0 }, [(l.msgType, l.vData.take l.n)])
  else (l, [])

def readHeader (l : Listener) (piece : Bytes) : Listener :=
  { l with headerData := overwrite l.headerData l.n piece, n := l.n + piece.length }

def parseHeader (l : Listener) : Except LengthError (Listener × List Frame) :=
  let msgLen := charsToInt32BigEndian l.headerData
  if msgLen < 0 then .error ⟨⟩
  else .ok (routeIfFull { l with
    msgLen := msgLen
    msgType := charsToInt32BigEndian (l.headerData.drop 4)
    vData := resize l.vData (toSize msgLen)
    phase := .payload
    n := 0 })

def readPayload (l : Listener) (piece : Bytes) : Listener :=
  { l with vData := overwrite l.vData l.n piece, n := l.n + piece.length }

/-- A read has returned `piece`: what is done up to the next read, with the
frames that are handed to `Router::route`. -/
def receive (l : Listener) (piece : Bytes) : Except LengthError (Listener × List Frame) :=
  match l.phase with
  | .header =>
    let l := readHeader l piece
    if l.n ≠ 8 then .ok (l, []) else parseHeader l
  | .payload => .ok (routeIfFull (readPayload l piece))

def listen : Listener → List Bytes → Except LengthError (Listener × List Frame)
  | l, [] => .ok (l, [])
  | l, piece :: pieces => do
    let (l, frames) ← l.receive piece
    let (l, later) ← listen l pieces
    return (l, frames ++ later)

def Served : Listener → List Bytes → Prop
  | _, [] => True
  | l, piece :: pieces => piece ≠ [] ∧ piece.length ≤ l.wanted ∧
    match l.receive piece with
    | .ok r => Served r.1 pieces
    | .error _ => True

instance decidableServed : ∀ l pieces, Decidable (Served l pieces)
  | _, [] => .isTrue trivial
  | l, piece :: pieces =>
    have : Decidable (match l.receive piece with
        | .ok r => Served r.1 pieces
        | .error _ => True) :=
      match l.receive piece with
      | .ok r => decidableServed r.1 pieces
      | .error _ => .isTrue trivial
    inferInstanceAs (Decidable (piece ≠ [] ∧ piece.length ≤ l.wanted ∧
      match l.receive piece with
      | .ok r => Served r.1 pieces
      | .error _ => True))

structure AtStart (l : Listener) : Prop where
  buffer : l.headerData.length = 8
  phase : l.phase = .header
  n : l.n = 0

end Listener

end FheBlockchain.Net.Listening
