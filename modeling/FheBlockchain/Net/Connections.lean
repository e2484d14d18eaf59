import FheBlockchain.Library.FiniteMap
import Mathlib.Logic.Basic

namespace FheBlockchain.Net.Connections

/-- The peer that a connection keeps. `accepted` tells those of the listener from
those of `connect_to_peer`, and `listening` whether `listen` still runs. -/
structure Peer where
  id : String
  remoteEndpoint : String × ℕ
  lAddr : String
  lPort : ℤ
  accepted : Bool
  listening : Bool
deriving DecidableEq, Repr

def addrAndPortToStr (addr : String) (port : ℤ) : String := addr ++ ":" ++ toString port

namespace Peer

def new (remoteEndpoint : String × ℕ) (accepted : Bool) : Peer where
  id := addrAndPortToStr remoteEndpoint.1 remoteEndpoint.2
  remoteEndpoint := remoteEndpoint
  lAddr := ""
  lPort := 0
  accepted := accepted
  listening := true

def updateAddrInfo (newAddr : String) (newPort : ℤ) (p : Peer) : Peer :=
  { p with id := addrAndPortToStr newAddr newPort, lAddr := newAddr, lPort := newPort }

def getListeningAddr (p : Peer) : String × ℤ :=
  if p.lAddr = "" then (p.remoteEndpoint.1, p.remoteEndpoint.2) else (p.lAddr, p.lPort)

end Peer

abbrev PeerMap := Finmap fun _ : String ↦ Option ℕ

structure NullPeer where
deriving DecidableEq, Repr

/-- All peers that were ever made, in the order in which they were, and the two
maps into them. -/
structure ConnectionManager where
  peers : List Peer
  inboundPeerMap : PeerMap
  outboundPeerMap : PeerMap
  inboundPeersLim : ℤ
  outboundPeersLim : ℤ

def deref : Option ℕ → Except NullPeer ℕ
  | none => .error ⟨⟩
  | some p => .ok p

def PeerMap.index (m : PeerMap) (key : String) : Option ℕ × PeerMap :=
  match m.lookup key with
  | some peer => (peer, m)
  | none => (none, m.insert key none)

def PeerMap.hasNull (m : PeerMap) : Prop := ∃ key ∈ m.keys, m.lookup key = some none

instance (m : PeerMap) : Decidable m.hasNull :=
  inferInstanceAs (Decidable (∃ key ∈ m.keys, m.lookup key = some none))

namespace ConnectionManager

variable (cm : ConnectionManager)

def setup (inboundPeersLim outboundPeersLim : ℤ) : ConnectionManager where
  peers := []
  inboundPeerMap := ∅
  outboundPeerMap := ∅
  inboundPeersLim := inboundPeersLim
  outboundPeersLim := outboundPeersLim

def outboundFull : Prop := (cm.outboundPeerMap.keys.card : ℤ) = cm.outboundPeersLim

def inboundFull : Prop := (cm.inboundPeerMap.keys.card : ℤ) = cm.inboundPeersLim

instance : Decidable cm.outboundFull := inferInstanceAs (Decidable (_ = _))

instance : Decidable cm.inboundFull := inferInstanceAs (Decidable (_ = _))

def makePeer (peer : Peer) : ConnectionManager := { cm with peers := cm.peers ++ [peer] }

def addToInbound (peer : ℕ) (id : String) : ConnectionManager :=
  if cm.inboundFull then cm
  else { cm with inboundPeerMap := cm.inboundPeerMap.insert id (some peer) }

def addToOutbound (peer : ℕ) (id : String) : ConnectionManager :=
  if cm.outboundFull then cm
  else { cm with outboundPeerMap := cm.outboundPeerMap.insert id (some peer) }

/-- What `listener` does with an accepted socket. -/
def accept (remoteEndpoint : String × ℕ) : ConnectionManager :=
  let peer := Peer.new remoteEndpoint true
  (cm.makePeer peer).addToInbound cm.peers.length peer.id

def connectToPeer (remoteEndpoint : String × ℕ) : ConnectionManager :=
  let peer := Peer.new remoteEndpoint false
  (cm.makePeer peer).addToOutbound cm.peers.length peer.id

def removePeerFromInbound (peerID : String) : ConnectionManager :=
  { cm with inboundPeerMap := cm.inboundPeerMap.erase peerID }

/-- The peer to which `send_to_peer` and `async_send_to_peer` send. `connected` is
the remote endpoint of the socket that `connect_to_peer` opens, or none where it
throws. -/
def sendToPeer (addr : String) (port : ℤ) (connected : Option (String × ℕ)) :
    Except NullPeer ConnectionManager := do
  let peerID := addrAndPortToStr addr port
  if (cm.inboundPeerMap.lookup peerID).isSome then
    let (peer, inboundPeerMap) := cm.inboundPeerMap.index peerID
    let _ ← deref peer
    return { cm with inboundPeerMap := inboundPeerMap }
  else if (cm.outboundPeerMap.lookup peerID).isSome then
    let (peer, outboundPeerMap) := cm.outboundPeerMap.index peerID
    let _ ← deref peer
    return { cm with outboundPeerMap := outboundPeerMap }
  else
    match connected with
    | none => return cm
    | some remoteEndpoint =>
      let cm := cm.connectToPeer remoteEndpoint
      let (peer, outboundPeerMap) := cm.outboundPeerMap.index peerID
      let _ ← deref peer
      return { cm with outboundPeerMap := outboundPeerMap }

def updateInbPeerAddrInfo (peerID newAddr : String) (newPort : ℤ) :
    Except NullPeer ConnectionManager := do
  let (peer, inboundPeerMap) := cm.inboundPeerMap.index peerID
  let peer ← deref peer
  -- what `peer->ID()` returns from here on
  let id := addrAndPortToStr newAddr newPort
  let inboundPeerMap := inboundPeerMap.insert id (some peer)
  return { cm with
    peers := cm.peers.modify peer (.updateAddrInfo newAddr newPort)
    inboundPeerMap := if peerID ≠ id then inboundPeerMap.erase peerID else inboundPeerMap }

def addresses (m : PeerMap) : Multiset (String × ℤ) :=
  m.entries.filterMap fun entry ↦
    entry.2.bind fun peer ↦ cm.peers[peer]?.map Peer.getListeningAddr

def collectPeers : Except NullPeer (Multiset (String × ℤ)) :=
  if cm.inboundPeerMap.hasNull ∨ cm.outboundPeerMap.hasNull then .error ⟨⟩
  else .ok (cm.addresses cm.inboundPeerMap + cm.addresses cm.outboundPeerMap)

def asyncBroadcast : Except NullPeer ConnectionManager :=
  if cm.inboundPeerMap.hasNull ∨ cm.outboundPeerMap.hasNull then .error ⟨⟩ else .ok cm

def handleGetPeerAddrs (listeningAddress : String) (listeningPort : ℤ) (peerID : String) :
    Except NullPeer (ConnectionManager × Multiset (String × ℤ)) := do
  let cm ← cm.updateInbPeerAddrInfo peerID listeningAddress listeningPort
  let peers ← cm.collectPeers
  return (cm, peers)

end ConnectionManager

/-- What can happen to the connections. A peer is named by its place in `peers`.
`startSync` gets the outbound entry that the iteration meets first. -/
inductive Event
  | accept (remoteEndpoint : String × ℕ)
  | sendToPeer (addr : String) (port : ℤ) (connected : Option (String × ℕ))
  | getAddr (peer : ℕ) (listeningAddress : String) (listeningPort : ℤ)
  | disconnect (peer : ℕ)
  | asyncBroadcast
  | startSync (peerID : String)

open ConnectionManager in
/-- A message comes, or a connection ends, only while its `listen` runs. -/
def happen (cm : ConnectionManager) : Event → Option (Except NullPeer ConnectionManager)
  | .accept remoteEndpoint => some (.ok (cm.accept remoteEndpoint))
  | .sendToPeer addr port connected => some (cm.sendToPeer addr port connected)
  | .getAddr peer listeningAddress listeningPort => do
    let p ← cm.peers[peer]?
    guard p.listening
    return (cm.handleGetPeerAddrs listeningAddress listeningPort p.id).map Prod.fst
  | .disconnect peer => do
    let p ← cm.peers[peer]?
    guard p.listening
    let cm := { cm with peers := cm.peers.modify peer ({ · with listening := false }) }
    return .ok (if p.accepted then cm.removePeerFromInbound p.id else cm)
  | .asyncBroadcast => some cm.asyncBroadcast
  | .startSync peerID => do
    let peer ← cm.outboundPeerMap.lookup peerID
    return (deref peer).map fun _ ↦ cm

def step : Except NullPeer ConnectionManager → Event → Option (Except NullPeer ConnectionManager)
  | .ok cm, event => happen cm event
  | .error _, _ => none

end FheBlockchain.Net.Connections
