import FheBlockchain.Core.Transactions
import FheBlockchain.Library.Transitions
import Mathlib.Logic.Function.Basic

namespace FheBlockchain.Net.Sending

open Core.Transactions

/-- The writing side of a peer. `queued` holds the data of `async_send`
coroutines that have not run yet, `sending` what `async_write` has not yet
written of the one that holds `_socket_mu`, and `responding` the same for the
response of `listen`, which takes no mutex. -/
structure Peer where
  wire : Bytes
  queued : List Bytes
  sending : Option Bytes
  responding : Option Bytes
  started : List Bytes
deriving DecidableEq, Repr

namespace Peer

def idle : Peer where
  wire := []
  queued := []
  sending := none
  responding := none
  started := []

def queue (data : Bytes) (p : Peer) : Peer := { p with queued := p.queued ++ [data] }

/-- A write of nothing is over before it starts. -/
def startSending (i : ℕ) (data : Bytes) (p : Peer) : Peer :=
  let p := { p with queued := p.queued.eraseIdx i }
  if data = [] then p else { p with sending := some data, started := p.started ++ [data] }

def startResponding (data : Bytes) (p : Peer) : Peer :=
  if data = [] then p else { p with responding := some data, started := p.started ++ [data] }

end Peer

/-- The peers of the one io thread. It is stuck when it waits for a mutex that
only its own coroutines can release. -/
structure IoThread where
  peers : ℕ → Peer
  stuck : Bool

def start : IoThread where
  peers _ := .idle
  stuck := false

/-- What happens on the io thread. The numbers of bytes are those that a partial
write puts on the socket. -/
inductive Event
  | send (peer : ℕ) (data : Bytes)
  | broadcast (peers : List ℕ) (data : Bytes)
  | resume (peer i : ℕ)
  | write (peer k : ℕ)
  | written (peer : ℕ)
  | respond (peer : ℕ) (data : Bytes)
  | writeResponse (peer k : ℕ)
  | responded (peer : ℕ)

def IoThread.onPeer (s : IoThread) (peer : ℕ) (f : Peer → Peer) : IoThread :=
  { s with peers := Function.update s.peers peer (f (s.peers peer)) }

/-- The next state, if the event can happen. A coroutine that finds the mutex
taken blocks the thread. -/
def step (s : IoThread) (event : Event) : Option IoThread :=
  if s.stuck then none
  else match event with
    | .send peer data => some (s.onPeer peer (.queue data))
    | .broadcast peers data =>
      some (peers.foldl (fun s peer ↦ s.onPeer peer (.queue data)) s)
    | .resume peer i =>
      match (s.peers peer).queued[i]? with
      | none => none
      | some data =>
        if (s.peers peer).sending.isSome then some { s with stuck := true }
        else some (s.onPeer peer (.startSending i data))
    | .write peer k =>
      match (s.peers peer).sending with
      | none => none
      | some rest =>
        if 0 < k ∧ k ≤ rest.length then
          some (s.onPeer peer fun p ↦
            { p with wire := p.wire ++ rest.take k, sending := some (rest.drop k) })
        else none
    | .written peer =>
      if (s.peers peer).sending = some [] then
        some (s.onPeer peer fun p ↦ { p with sending := none })
      else none
    | .respond peer data =>
      if (s.peers peer).responding.isSome then none
      else some (s.onPeer peer (.startResponding data))
    | .writeResponse peer k =>
      match (s.peers peer).responding with
      | none => none
      | some rest =>
        if 0 < k ∧ k ≤ rest.length then
          some (s.onPeer peer fun p ↦
            { p with wire := p.wire ++ rest.take k, responding := some (rest.drop k) })
        else none
    | .responded peer =>
      if (s.peers peer).responding = some [] then
        some (s.onPeer peer fun p ↦ { p with responding := none })
      else none

end FheBlockchain.Net.Sending
