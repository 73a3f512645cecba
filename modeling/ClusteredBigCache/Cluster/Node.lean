import Mathlib.Data.Finset.Basic
import ClusteredBigCache.Cluster.Message
import ClusteredBigCache.Cluster.SliceList

/-!
# A node and its remote nodes

A node of the cluster has one `remoteNode` for each of its connections, and registers those whose
peer it has accepted under the `Id` of the peer.  This is the part of a node that decides about
that: `handleVerify`, which takes the `Id` and the mode from a `VERIFY` message and asks
`eventVerifyRemoteNode` to register the connection, and `tearDown`, which takes it out again.

A pointer to a `remoteNode` is a number, its `ConnId`, and the node has all of them on a heap.
Strings are bytes.  Channels are unbounded and never closed here.  The connection itself, its timers
and goroutines and the cache of the node are left out, and so is what only they read.
-/

set_option autoImplicit false

namespace ClusteredBigCache

def clusterModeACTIVE : UInt8 := 5

def clusterModePASSIVE : UInt8 := 6

/-- `remoteNodeState`. -/
inductive RemoteNodeState
  | connecting
  | connected
  | disconnected
  | handshake
  deriving DecidableEq, Repr

/-- Remote node configuration. -/
structure RemoteNodeConfig where
  id : Bytes
  ipAddress : Bytes
  servicePort : Bytes
  reconnectOnDisconnect : Bool
  deriving DecidableEq, Repr

/-- A remote node, that is, one connection. -/
structure RemoteNode where
  config : RemoteNodeConfig
  mode : UInt8
  state : RemoteNodeState
  outboundMsgQueue : List NodeMessage

namespace RemoteNode

/-- `newRemoteNode` creates a new remoteNode object. -/
def newRemoteNode (config : RemoteNodeConfig) : RemoteNode := ⟨config, 0, .disconnected, []⟩

def setState (r : RemoteNode) (state : RemoteNodeState) : RemoteNode := { r with state := state }

/-- `sendMessage` queues a message in the outbound channel. -/
def sendMessage (r : RemoteNode) (msg : NodeMessage) : RemoteNode :=
  if r.state = .disconnected then r
  else { r with outboundMsgQueue := r.outboundMsgQueue ++ [msg] }

/-- `sendVerify` sends a verify message, with the name, the port and the mode of the parent node. -/
def sendVerify (r : RemoteNode) (parent : VerifyMessage) : RemoteNode :=
  r.sendMessage (.verify parent)

/-- The connection takes the name, the port and the mode of a message. -/
def label (r : RemoteNode) (msg : VerifyMessage) : RemoteNode :=
  { r with
    config := { r.config with id := msg.id, servicePort := msg.servicePort }
    mode := msg.mode }

/-- What `handleVerify` does once the parent has approved, before it replies: the mode is the one
the connection was labelled with. -/
def accept (r : RemoteNode) : RemoteNode :=
  let r := if r.mode = clusterModePASSIVE then
    { r with config := { r.config with reconnectOnDisconnect := false } } else r
  r.setState .connected

/-- What `handleVerify` does once the parent has approved. -/
def welcome (r : RemoteNode) (mode : UInt8) : RemoteNode :=
  let r := if mode = clusterModePASSIVE then
    { r with config := { r.config with reconnectOnDisconnect := false } } else r
  (r.setState .connected).sendMessage .verifyOK

theorem config_sendMessage (r : RemoteNode) (msg : NodeMessage) :
    (r.sendMessage msg).config = r.config := by
  rw [sendMessage]
  split_ifs <;> rfl

@[simp] theorem state_sendMessage (r : RemoteNode) (msg : NodeMessage) :
    (r.sendMessage msg).state = r.state := by
  rw [sendMessage]
  split_ifs <;> rfl

@[simp] theorem mode_sendMessage (r : RemoteNode) (msg : NodeMessage) :
    (r.sendMessage msg).mode = r.mode := by
  rw [sendMessage]
  split_ifs <;> rfl

theorem outboundMsgQueue_sendMessage (r : RemoteNode) (msg : NodeMessage) :
    (r.sendMessage msg).outboundMsgQueue =
      r.outboundMsgQueue ++ if r.state = .disconnected then [] else [msg] := by
  rw [sendMessage]
  split_ifs <;> simp

@[simp] theorem state_accept (r : RemoteNode) : r.accept.state = .connected := rfl

@[simp] theorem mode_accept (r : RemoteNode) : r.accept.mode = r.mode := by
  simp only [accept, setState]
  split_ifs <;> rfl

@[simp] theorem id_accept (r : RemoteNode) : r.accept.config.id = r.config.id := by
  simp only [accept, setState]
  split_ifs <;> rfl

@[simp] theorem outboundMsgQueue_accept (r : RemoteNode) :
    r.accept.outboundMsgQueue = r.outboundMsgQueue := by
  simp only [accept, setState]
  split_ifs <;> rfl

theorem id_welcome (r : RemoteNode) (mode : UInt8) :
    (r.welcome mode).config.id = r.config.id := by
  rw [welcome]
  simp only [config_sendMessage, setState]
  split_ifs <;> rfl

end RemoteNode

/-- Which of the remote nodes. -/
abbrev ConnId := ℕ

/-- A node: what a `ClusteredBigCache` knows about its connections. -/
structure Node where
  id : Bytes
  servicePort : Bytes
  mode : UInt8
  remoteNodes : SliceList Bytes ConnId
  pendingConn : Finset Bytes
  joinQueue : List ProposedPeer
  /-- The remote nodes, by their pointers. -/
  heap : ConnId → RemoteNode

namespace Node

/-- Change a remote node. -/
def modify (node : Node) (r : ConnId) (f : RemoteNode → RemoteNode) : Node :=
  { node with heap := Function.update node.heap r (f (node.heap r)) }

theorem modify_heap_self (node : Node) (r : ConnId) (f : RemoteNode → RemoteNode) :
    (node.modify r f).heap r = f (node.heap r) := Function.update_self ..

/-- The `Id` a connection has. -/
def idOf (node : Node) (r : ConnId) : Bytes := (node.heap r).config.id

/-- A node without registrations, whose connections have just been started: they are in the
handshake, and the first message on each is the verify message of this node. -/
def new (id servicePort : Bytes) (mode : UInt8) (config : ConnId → RemoteNodeConfig) : Node where
  id := id
  servicePort := servicePort
  mode := mode
  remoteNodes := .new
  pendingConn := ∅
  joinQueue := []
  heap r := ((RemoteNode.newRemoteNode (config r)).setState .handshake).sendVerify
    ⟨id, servicePort, mode⟩

/-- The part of `eventVerifyRemoteNode` after its check: the connection is registered. -/
def addRemoteNode (node : Node) (r : ConnId) : Node :=
  { node with
    remoteNodes := node.remoteNodes.add (node.idOf r) r
    pendingConn := node.pendingConn.erase (node.idOf r) }

/-- `eventVerifyRemoteNode` is used by a remoteNode to verify itself. -/
def eventVerifyRemoteNode (node : Node) (r : ConnId) : Node × Bool :=
  if node.remoteNodes.contains (node.idOf r) then (node, false) else (node.addRemoteNode r, true)

/-- Two passive nodes are not allowed to connect to each other. -/
def bothPassive (node : Node) (msg : VerifyMessage) : Bool :=
  msg.mode = clusterModePASSIVE && node.mode = clusterModePASSIVE

/-- `handleVerify` uses the verify message sent by a remote node to configure the node in this
system. -/
def handleVerify (node : Node) (r : ConnId) (msg : VerifyMessage) : Node × Bool :=
  let node := node.modify r (·.label msg)
  if node.bothPassive msg then (node, false)
  else
    match node.eventVerifyRemoteNode r with
    | (node, false) => (node, false)
    | (node, true) => (node.modify r (·.welcome msg.mode), true)

/-- `eventRemoteNodeDisconneced` is used by a remoteNode to announce the disconnection of itself. -/
def eventRemoteNodeDisconneced (node : Node) (r : ConnId) : Node :=
  { node with remoteNodes := node.remoteNodes.remove (node.idOf r) }

/-- `tearDown` brings down the remote node. -/
def tearDown (node : Node) (r : ConnId) : Node :=
  let node := node.eventRemoteNodeDisconneced r
  let config := (node.heap r).config
  if config.reconnectOnDisconnect then
    { node with joinQueue := node.joinQueue ++ [⟨config.id, config.ipAddress⟩] }
  else node

/-! ## Names -/

theorem idOf_modify (node : Node) (r : ConnId) (f : RemoteNode → RemoteNode) :
    (node.modify r f).idOf = Function.update node.idOf r (f (node.heap r)).config.id := by
  funext r'
  simp only [idOf, modify, Function.update_apply]
  split_ifs <;> rfl

/-- A change that keeps the name of a connection keeps all names. -/
theorem idOf_modify_of_eq (node : Node) (r : ConnId) {f : RemoteNode → RemoteNode}
    (hf : (f (node.heap r)).config.id = (node.heap r).config.id) :
    (node.modify r f).idOf = node.idOf := by
  rw [idOf_modify, hf]
  exact Function.update_eq_self r node.idOf

theorem tearDown_remoteNodes (node : Node) (r : ConnId) :
    (node.tearDown r).remoteNodes = node.remoteNodes.remove (node.idOf r) := by
  rw [tearDown]
  split_ifs <;> rfl

theorem mode_tearDown (node : Node) (r : ConnId) : (node.tearDown r).mode = node.mode := by
  rw [tearDown]
  split_ifs <;> rfl

theorem idOf_tearDown (node : Node) (r : ConnId) : (node.tearDown r).idOf = node.idOf := by
  rw [tearDown]
  split_ifs <;> rfl

end Node
end ClusteredBigCache
