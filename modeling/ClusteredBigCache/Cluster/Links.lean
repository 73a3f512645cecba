import ClusteredBigCache.Cluster.Node
import ClusteredBigCache.Lib.Network

/-!
# The goroutines of a connection

On each connection of a node several goroutines run: `networkConsumer` reads messages and queues
them for `handleMessage`, which deals with them one by one; `networkSender` writes the messages of
the outbound queue; and each `VERIFYOK` starts a goroutine that waits for the end of the handshake
and then may send a `SyncReq`.  They share the state of the connection, which each of them looks at
on its own, and the registry of the node.

`Links` is a node with all of them.  A step is what one goroutine does between two points where
another one can come in between; for instance `queueInboundMessage` looks at the state twice, and
`handleVerify` labels the connection, looks into the registry, registers the connection, sets the
state, and replies, in five steps.  `Links.ports` says which steps read from the connection and
which ones write to it, so that nodes can be put together in a `Network`.

What a node does with values is not in here: a handler of `PUT`, `DEL`, `GETReq` or `GETRsp` is only
`busy`, and that something is sent by `Put`, `Get`, `Delete` or a timer is a step of its own.  Which
connections a node makes is not in here either: any number of them may be there from the beginning,
with nothing going on.
-/

set_option autoImplicit false

namespace ClusteredBigCache

/-! ## Addresses -/

/-- The host that `net.SplitHostPort` finds in an address, or nothing if there is an error. -/
def splitHost (addr : Bytes) : Bytes :=
  -- the port starts after the last colon
  match addr.reverse.dropWhile (· ≠ 58) with
  | [] => []
  | _ :: front =>
    let host := front.reverse
    if addr.head? = some 91 then
      -- the first closing bracket stands just before the colon
      if host.getLast? = some 93 ∧ 93 ∉ host.dropLast ∧ 91 ∉ addr.tail ∧
          93 ∉ addr.drop host.length then
        host.tail.dropLast
      else []
    else if 58 ∉ host ∧ 91 ∉ addr ∧ 93 ∉ addr then host
    else []

/-- `net.JoinHostPort`. -/
def joinHostPort (host port : Bytes) : Bytes :=
  if 58 ∈ host then [91] ++ host ++ [93, 58] ++ port else host ++ [58] ++ port

/-! ## One connection -/

/-- Where `networkConsumer` is. -/
inductive Consumer
  /-- Before the condition of the loop. -/
  | looping
  /-- In `ReadData`. -/
  | reading
  /-- In `queueInboundMessage`, before the first look at the state. -/
  | filtering (msg : NodeWireMessage)
  /-- In `queueInboundMessage`, before the second look at the state. -/
  | queueing (msg : NodeWireMessage)
  | ended
  deriving DecidableEq, Repr

/-- Where `handleMessage` is. -/
inductive Handling
  /-- Waiting for a message. -/
  | waiting
  /-- In `handleVerify`, before `Contains`. -/
  | checking
  /-- In `handleVerify`, before `Add`. -/
  | adding
  /-- In `handleVerify`, before `setState`. -/
  | accepting
  /-- In `handleVerify`, before the `VERIFYOK` is sent. -/
  | replying
  /-- In `sendSyncResponse`, before `getRemoteNodes`. -/
  | answering (mode : UInt8)
  /-- In `sendSyncResponse`, with the values of the registry. -/
  | listing (mode : UInt8) (values : List ConnId)
  /-- In a handler that deals with values. -/
  | busy
  /-- `handleVerify` has returned false, and `handleMessage` has returned. -/
  | returned
  deriving DecidableEq, Repr

/-- The goroutines of a connection, and what only they use. -/
structure Link where
  consumer : Consumer
  handler : Handling
  inboundMsgQueue : List NodeWireMessage
  /-- `config.Sync`. -/
  sync : Bool
  /-- `sendVerify` has been called. -/
  verifySent : Bool
  /-- The parent has registered the connection. -/
  accepted : Bool
  /-- The goroutines of `handleVerifyOK` that are waiting. -/
  waiting : ℕ
  /-- What was discarded by `queueInboundMessage`, which `dropedMsg` counts. -/
  dropped : List NodeWireMessage
  /-- The queues are being closed. -/
  closing : Bool

namespace Link

/-- The goroutines have just been started. -/
def new (sync : Bool) : Link where
  consumer := .looping
  handler := .waiting
  inboundMsgQueue := []
  sync := sync
  verifySent := false
  accepted := false
  waiting := 0
  dropped := []
  closing := false

end Link

/-- A message that is accepted in the handshake. -/
def NodeWireMessage.IsHandshake (msg : NodeWireMessage) : Prop :=
  msg.code = msgVERIFY ∨ msg.code = msgVERIFYOK

instance (msg : NodeWireMessage) : Decidable msg.IsHandshake :=
  inferInstanceAs (Decidable (_ ∨ _))

/-! ## A node with its connections -/

/-- A node with the goroutines of its connections. -/
structure Links where
  node : Node
  link : ConnId → Link
  /-- `config.ReplicationFactor`. -/
  replicationFactor : Int64

/-- The `VERIFY` message of a node. -/
def Node.hello (node : Node) : VerifyMessage := ⟨node.id, node.servicePort, node.mode⟩

/-- The list of peers that `sendSyncResponse` makes of some remote nodes. -/
def Node.proposedPeers (node : Node) (r : ConnId) (mode : UInt8) (values : List ConnId) :
    List ProposedPeer :=
  values.filterMap fun n ↦
    if node.idOf n = node.idOf r then none
    else if (node.heap n).mode = clusterModePASSIVE ∧ mode = clusterModePASSIVE then none
    else
      let config := (node.heap n).config
      some ⟨config.id, joinHostPort (splitHost config.ipAddress) config.servicePort⟩

/-- A remote node is proposed if it has another name, and not both nodes are passive. -/
theorem Node.mem_proposedPeers {node : Node} {r n : ConnId} {mode : UInt8} {values : List ConnId}
    (hn : n ∈ values) (hid : node.idOf n ≠ node.idOf r)
    (hmode : ¬ ((node.heap n).mode = clusterModePASSIVE ∧ mode = clusterModePASSIVE)) :
    node.idOf n ∈ (node.proposedPeers r mode values).map (·.id) := by
  refine List.mem_map.mpr ⟨⟨node.idOf n, joinHostPort (splitHost (node.heap n).config.ipAddress)
    (node.heap n).config.servicePort⟩, List.mem_filterMap.mpr ⟨n, hn, ?_⟩, rfl⟩
  rw [if_neg hid, if_neg hmode]
  rfl

namespace Links

/-- What can happen on a connection. -/
inductive Step
  /-- `sendVerify`, when the goroutines have been started. -/
  | sendVerify (r : ConnId)
  /-- `networkConsumer` looks at the state and goes on to read, or ends. -/
  | loop (r : ConnId)
  /-- `ReadData` has returned a message. -/
  | read (r : ConnId) (msg : NodeWireMessage)
  /-- `ReadData` has returned an error. -/
  | readError (r : ConnId)
  /-- `queueInboundMessage` looks at the state for the first time. -/
  | filter (r : ConnId)
  /-- `queueInboundMessage` looks at the state for the second time. -/
  | queue (r : ConnId)
  /-- `queueInboundMessage` finds the queue closed. -/
  | lose (r : ConnId)
  /-- `handleMessage` takes a message and dispatches it. -/
  | handle (r : ConnId) (msg : NodeWireMessage)
  /-- `handleMessage` takes a message when the connection is down. -/
  | skip (r : ConnId)
  /-- `Contains` of `eventVerifyRemoteNode`. -/
  | contains (r : ConnId)
  /-- `Add` of `eventVerifyRemoteNode`. -/
  | add (r : ConnId)
  /-- `handleVerify` sets the state. -/
  | accept (r : ConnId)
  /-- `handleVerify` replies. -/
  | reply (r : ConnId)
  /-- `getRemoteNodes` of `sendSyncResponse`. -/
  | getRemoteNodes (r : ConnId) (values : List ConnId)
  /-- The rest of `sendSyncResponse`. -/
  | sendSyncResponse (r : ConnId)
  /-- A handler that deals with values returns. -/
  | finish (r : ConnId)
  /-- A goroutine of `handleVerifyOK` sees the end of the handshake. -/
  | syncReq (r : ConnId)
  /-- A goroutine of `handleVerifyOK` has waited for five seconds. -/
  | expire (r : ConnId)
  /-- A timer, `Put`, `Get`, `Delete` or `handleGetRequest` sends a message. -/
  | send (r : ConnId) (msg : NodeMessage)
  /-- `networkSender` writes a message to the connection. -/
  | transmit (r : ConnId) (msg : NodeWireMessage)
  /-- `networkSender` does not write a message, as the connection is down. -/
  | discard (r : ConnId)
  /-- One of the goroutines has ended, and the queues are closed. -/
  | disconnect (r : ConnId)
  | tearDown (r : ConnId)
  deriving DecidableEq, Repr

/-- The connection on which a step happens. -/
def Step.conn : Step → ConnId
  | .sendVerify r | .loop r | .read r _ | .readError r | .filter r | .queue r | .lose r
  | .handle r _ | .skip r | .contains r | .add r | .accept r | .reply r | .getRemoteNodes r _
  | .sendSyncResponse r | .finish r | .syncReq r | .expire r | .send r _ | .transmit r _
  | .discard r | .disconnect r | .tearDown r => r

/-- Change the goroutines of a connection. -/
def modify (c : Links) (r : ConnId) (f : Link → Link) : Links :=
  { c with link := Function.update c.link r (f (c.link r)) }

/-- Change the remote node of a connection. -/
def modifyNode (c : Links) (r : ConnId) (f : RemoteNode → RemoteNode) : Links :=
  { c with node := c.node.modify r f }

/-- `networkConsumer` moves on. -/
def consume (c : Links) (r : ConnId) (consumer : Consumer) : Links :=
  c.modify r fun link ↦ { link with consumer := consumer }

/-- `handleMessage` moves on. -/
def goto (c : Links) (r : ConnId) (handler : Handling) : Links :=
  c.modify r fun link ↦ { link with handler := handler }

/-- The state of a connection. -/
def state (c : Links) (r : ConnId) : RemoteNodeState := (c.node.heap r).state

/-- `setReplicationFactor`. -/
def setReplicationFactor (c : Links) (rf : Int64) : Links :=
  { c with replicationFactor := if rf < 1 then 1 else rf }

/-- `handleSyncResponse` accepts the sync response. -/
def handleSyncResponse (c : Links) (msg : SyncRspMessage) : Links :=
  let c := c.setReplicationFactor msg.replicationFactor
  { c with node := { c.node with joinQueue := c.node.joinQueue ++ msg.list } }

/-- `handleMessage` dispatches a message. -/
def dispatch (json : EncodingJson) (c : Links) (r : ConnId) (msg : NodeWireMessage) : Links :=
  if msg.code = msgVERIFY then
    let verifyMsgRsp := json.verify.deSerialize msg
    let c := c.modifyNode r (·.label verifyMsgRsp)
    c.goto r (if c.node.bothPassive verifyMsgRsp then .returned else .checking)
  else if msg.code = msgVERIFYOK then
    c.modify r fun link ↦ { link with waiting := link.waiting + 1 }
  else if msg.code = msgPING then c.modifyNode r (·.sendMessage .pong)
  else if msg.code = msgSyncRsp then c.handleSyncResponse (json.syncRsp.deSerialize msg)
  else if msg.code = msgSyncReq then c.goto r (.answering (json.syncReq.deSerialize msg).mode)
  else if msg.code = msgGETReq ∨ msg.code = msgGETRsp ∨ msg.code = msgPUT ∨ msg.code = msgDEL then
    c.goto r .busy
  else c

/-- What timers, calls and `handleGetRequest` send, and on which connections: a call sends to
connections that it found in the registry. -/
def MaySend (link : Link) : NodeMessage → Prop
  | .ping => True
  | .getRsp _ => link.handler = .busy
  | .put _ | .delete _ | .getReq _ => link.accepted = true
  | _ => False

instance (link : Link) (msg : NodeMessage) : Decidable (MaySend link msg) :=
  match msg with
  | .ping => inferInstanceAs (Decidable True)
  | .getRsp _ => inferInstanceAs (Decidable (link.handler = .busy))
  | .put _ | .delete _ | .getReq _ => inferInstanceAs (Decidable (link.accepted = true))
  | .verify _ | .verifyOK | .pong | .syncReq _ | .syncRsp _ => inferInstanceAs (Decidable False)

def step (json : EncodingJson) (c : Links) : Step → Option Links
  | .sendVerify r =>
    if (c.link r).verifySent then none
    else some ((c.modifyNode r (·.sendVerify c.node.hello)).modify r
      fun link ↦ { link with verifySent := true })
  | .loop r =>
    if (c.link r).consumer = .looping then
      some (c.consume r
        (if c.state r = .connected ∨ c.state r = .handshake then .reading else .ended))
    else none
  | .read r msg =>
    if (c.link r).consumer = .reading then some (c.consume r (.filtering msg)) else none
  | .readError r =>
    if (c.link r).consumer = .reading then some (c.consume r .ended) else none
  | .filter r =>
    match (c.link r).consumer with
    | .filtering msg =>
      if c.state r = .handshake ∧ ¬ msg.IsHandshake then
        some ((c.consume r .looping).modify r
          fun link ↦ { link with dropped := link.dropped ++ [msg] })
      else some (c.consume r (.queueing msg))
    | _ => none
  | .queue r =>
    match (c.link r).consumer with
    | .queueing msg =>
      if c.state r = .disconnected then some (c.consume r .looping)
      else some ((c.consume r .looping).modify r
        fun link ↦ { link with inboundMsgQueue := link.inboundMsgQueue ++ [msg] })
    | _ => none
  | .lose r =>
    match (c.link r).consumer with
    | .queueing _ => if (c.link r).closing then some (c.consume r .looping) else none
    | _ => none
  | .handle r msg =>
    match (c.link r).handler, (c.link r).inboundMsgQueue with
    | .waiting, msg' :: rest =>
      if msg' = msg ∧ c.state r ≠ .disconnected then
        some ((c.modify r fun link ↦ { link with inboundMsgQueue := rest }).dispatch json r msg)
      else none
    | _, _ => none
  | .skip r =>
    match (c.link r).handler, (c.link r).inboundMsgQueue with
    | .waiting, _ :: rest =>
      if c.state r = .disconnected then
        some (c.modify r fun link ↦ { link with inboundMsgQueue := rest })
      else none
    | _, _ => none
  | .contains r =>
    if (c.link r).handler = .checking then
      some (c.goto r (if c.node.remoteNodes.contains (c.node.idOf r) then .returned else .adding))
    else none
  | .add r =>
    if (c.link r).handler = .adding then
      some ({ c with node := c.node.addRemoteNode r }.modify r
        fun link ↦ { link with handler := .accepting, accepted := true })
    else none
  | .accept r =>
    if (c.link r).handler = .accepting then
      some ((c.modifyNode r fun rn ↦ rn.accept).goto r .replying)
    else none
  | .reply r =>
    if (c.link r).handler = .replying then
      some ((c.modifyNode r (·.sendMessage .verifyOK)).goto r .waiting)
    else none
  | .getRemoteNodes r values =>
    match (c.link r).handler with
    | .answering mode =>
      if (values : Multiset ConnId) = c.node.remoteNodes.values then
        some (c.goto r (.listing mode values))
      else none
    | _ => none
  | .sendSyncResponse r =>
    match (c.link r).handler with
    | .listing mode values =>
      let nodeList := c.node.proposedPeers r mode values
      let c := if nodeList = [] then c
        else c.modifyNode r (·.sendMessage (.syncRsp ⟨0, c.replicationFactor, nodeList⟩))
      some (c.goto r .waiting)
    | _ => none
  | .finish r => if (c.link r).handler = .busy then some (c.goto r .waiting) else none
  | .syncReq r =>
    if (c.link r).waiting ≠ 0 ∧ c.state r ≠ .handshake then
      let c := if (c.link r).sync then
        c.modifyNode r (·.sendMessage (.syncReq ⟨0, c.node.mode⟩)) else c
      some (c.modify r fun link ↦ { link with waiting := link.waiting - 1 })
    else none
  | .expire r =>
    if (c.link r).waiting ≠ 0 then
      some (c.modify r fun link ↦ { link with waiting := link.waiting - 1 })
    else none
  | .send r msg =>
    if MaySend (c.link r) msg then some (c.modifyNode r (·.sendMessage msg)) else none
  | .transmit r msg =>
    match (c.node.heap r).outboundMsgQueue with
    | msg' :: rest =>
      if msg'.serialize json = msg ∧ c.state r ≠ .disconnected then
        some (c.modifyNode r fun rn ↦ { rn with outboundMsgQueue := rest })
      else none
    | [] => none
  | .discard r =>
    match (c.node.heap r).outboundMsgQueue with
    | _ :: rest =>
      if c.state r = .disconnected ∨ (c.link r).closing then
        some (c.modifyNode r fun rn ↦ { rn with outboundMsgQueue := rest })
      else none
    | [] => none
  | .disconnect r =>
    some ((c.modifyNode r (·.setState .disconnected)).modify r
      fun link ↦ { link with closing := true })
  | .tearDown r => some { c with node := c.node.tearDown r }

/-- What a node is started with. -/
structure Config where
  hello : VerifyMessage
  remote : ConnId → RemoteNodeConfig
  sync : ConnId → Bool
  replicationFactor : Int64

/-- A node with its connections, which have just been made. -/
def new (config : Config) : Links where
  node :=
    { id := config.hello.id
      servicePort := config.hello.servicePort
      mode := config.hello.mode
      remoteNodes := .new
      pendingConn := ∅
      joinQueue := []
      heap := fun r ↦ (RemoteNode.newRemoteNode (config.remote r)).setState .handshake }
  link r := .new (config.sync r)
  replicationFactor := config.replicationFactor

/-- A node on its own, which may read anything. -/
def system (json : EncodingJson) (config : Config) : TransitionSystem Links Step :=
  .ofStep (· = new config) (step json)

/-- Which steps read a message from a connection or write one to it. -/
def ports : Ports Step ConnId NodeWireMessage where
  input
    | .read r msg => some (r, msg)
    | _ => none
  output
    | .transmit r msg => some (r, msg)
    | _ => none

/-- Nodes with FIFO connections between them; `peer` is the other end of each connection. -/
def network {ν : Type} [DecidableEq ν] (json : EncodingJson) (peer : ν × ConnId → ν × ConnId)
    (config : ν → Config) :
    TransitionSystem (Network ν ConnId Links NodeWireMessage) (ν × Step) :=
  Network.system ports peer (fun _ ↦ step json) fun n ↦ new (config n)

/-! ## What each step does

`Move` says what a step does to its own connection and `step_node` what it does to the rest of the
node; the other connections are left alone.  Later files start from these. -/

/-- A message whose handler deals with values. -/
def IsData (msg : NodeWireMessage) : Prop :=
  msg.code = msgGETReq ∨ msg.code = msgGETRsp ∨ msg.code = msgPUT ∨ msg.code = msgDEL

instance (msg : NodeWireMessage) : Decidable (IsData msg) := inferInstanceAs (Decidable (_ ∨ _))

/-- What `handleMessage` does to the connection when it dispatches a message. -/
inductive Dispatch (json : EncodingJson) (node : Node) (rn : RemoteNode) (l : Link)
    (msg : NodeWireMessage) : RemoteNode → Link → Prop
  | verify (h : msg.code = msgVERIFY) :
      Dispatch json node rn l msg (rn.label (json.verify.deSerialize msg))
        { l with handler := if node.bothPassive (json.verify.deSerialize msg) then .returned
          else .checking }
  | verifyOK (h : msg.code = msgVERIFYOK) :
      Dispatch json node rn l msg rn { l with waiting := l.waiting + 1 }
  | ping (h : msg.code = msgPING) : Dispatch json node rn l msg (rn.sendMessage .pong) l
  | syncReq (h : msg.code = msgSyncReq) :
      Dispatch json node rn l msg rn
        { l with handler := .answering (json.syncReq.deSerialize msg).mode }
  | data (h : IsData msg) : Dispatch json node rn l msg rn { l with handler := .busy }
  | other (h : ¬ msg.IsHandshake ∧ msg.code ≠ msgPING ∧ msg.code ≠ msgSyncReq ∧ ¬ IsData msg) :
      Dispatch json node rn l msg rn l

/-- **What a step does to its connection** `r`, with the remote node `rn` and the goroutines `l`. -/
inductive Move (json : EncodingJson) (c : Links) (r : ConnId) (rn : RemoteNode) (l : Link) :
    Step → RemoteNode → Link → Prop
  | sendVerify (h : l.verifySent = false) :
      Move json c r rn l (.sendVerify r) (rn.sendVerify c.node.hello) { l with verifySent := true }
  | loop {consumer : Consumer} (h : l.consumer = .looping) (hconsumer : consumer = .reading ∨
        consumer = .ended ∧ rn.state ≠ .connected ∧ rn.state ≠ .handshake) :
      Move json c r rn l (.loop r) rn { l with consumer := consumer }
  | read {msg : NodeWireMessage} (h : l.consumer = .reading) :
      Move json c r rn l (.read r msg) rn { l with consumer := .filtering msg }
  | readError (h : l.consumer = .reading) :
      Move json c r rn l (.readError r) rn { l with consumer := .ended }
  | drop {msg : NodeWireMessage} (h : l.consumer = .filtering msg) (hstate : rn.state = .handshake)
      (hmsg : ¬ msg.IsHandshake) :
      Move json c r rn l (.filter r) rn
        { l with consumer := .looping, dropped := l.dropped ++ [msg] }
  | pass {msg : NodeWireMessage} (h : l.consumer = .filtering msg)
      (hmsg : rn.state = .handshake → msg.IsHandshake) :
      Move json c r rn l (.filter r) rn { l with consumer := .queueing msg }
  | forget {msg : NodeWireMessage} (h : l.consumer = .queueing msg)
      (hstate : rn.state = .disconnected) :
      Move json c r rn l (.queue r) rn { l with consumer := .looping }
  | queue {msg : NodeWireMessage} (h : l.consumer = .queueing msg)
      (hstate : rn.state ≠ .disconnected) :
      Move json c r rn l (.queue r) rn
        { l with consumer := .looping, inboundMsgQueue := l.inboundMsgQueue ++ [msg] }
  | lose {msg : NodeWireMessage} (h : l.consumer = .queueing msg) (hclosing : l.closing = true) :
      Move json c r rn l (.lose r) rn { l with consumer := .looping }
  | handle {msg : NodeWireMessage} {rest : List NodeWireMessage} {rn' : RemoteNode} {l' : Link}
      (h : l.handler = .waiting) (hqueue : l.inboundMsgQueue = msg :: rest)
      (hstate : rn.state ≠ .disconnected)
      (hmsg : Dispatch json c.node rn { l with inboundMsgQueue := rest } msg rn' l') :
      Move json c r rn l (.handle r msg) rn' l'
  | skip {msg : NodeWireMessage} {rest : List NodeWireMessage} (h : l.handler = .waiting)
      (hqueue : l.inboundMsgQueue = msg :: rest) (hstate : rn.state = .disconnected) :
      Move json c r rn l (.skip r) rn { l with inboundMsgQueue := rest }
  | contains (h : l.handler = .checking) :
      Move json c r rn l (.contains r) rn
        { l with handler :=
          if c.node.remoteNodes.contains rn.config.id then .returned else .adding }
  | add (h : l.handler = .adding) :
      Move json c r rn l (.add r) rn { l with handler := .accepting, accepted := true }
  | accept (h : l.handler = .accepting) :
      Move json c r rn l (.accept r) rn.accept { l with handler := .replying }
  | reply (h : l.handler = .replying) :
      Move json c r rn l (.reply r) (rn.sendMessage .verifyOK) { l with handler := .waiting }
  | getRemoteNodes {values : List ConnId} {mode : UInt8} (h : l.handler = .answering mode)
      (hvalues : (values : Multiset ConnId) = c.node.remoteNodes.values) :
      Move json c r rn l (.getRemoteNodes r values) rn { l with handler := .listing mode values }
  | sendSyncResponse {values : List ConnId} {mode : UInt8} (h : l.handler = .listing mode values) :
      Move json c r rn l (.sendSyncResponse r)
        (if c.node.proposedPeers r mode values = [] then rn
          else rn.sendMessage
            (.syncRsp ⟨0, c.replicationFactor, c.node.proposedPeers r mode values⟩))
        { l with handler := .waiting }
  | finish (h : l.handler = .busy) :
      Move json c r rn l (.finish r) rn { l with handler := .waiting }
  | syncReq (h : l.waiting ≠ 0) (hstate : rn.state ≠ .handshake) :
      Move json c r rn l (.syncReq r)
        (if l.sync then rn.sendMessage (.syncReq ⟨0, c.node.mode⟩) else rn)
        { l with waiting := l.waiting - 1 }
  | expire (h : l.waiting ≠ 0) :
      Move json c r rn l (.expire r) rn { l with waiting := l.waiting - 1 }
  | send {msg : NodeMessage} (h : MaySend l msg) :
      Move json c r rn l (.send r msg) (rn.sendMessage msg) l
  | transmit {msg : NodeMessage} {rest : List NodeMessage} (h : rn.outboundMsgQueue = msg :: rest)
      (hstate : rn.state ≠ .disconnected) :
      Move json c r rn l (.transmit r (msg.serialize json)) { rn with outboundMsgQueue := rest } l
  | discard {msg : NodeMessage} {rest : List NodeMessage} (h : rn.outboundMsgQueue = msg :: rest)
      (hstate : rn.state = .disconnected ∨ l.closing = true) :
      Move json c r rn l (.discard r) { rn with outboundMsgQueue := rest } l
  | disconnect :
      Move json c r rn l (.disconnect r) (rn.setState .disconnected) { l with closing := true }
  | tearDown : Move json c r rn l (.tearDown r) rn l

/-- The state of the connection after a step on it. -/
def nextState (state : RemoteNodeState) : Step → RemoteNodeState
  | .accept _ => .connected
  | .disconnect _ => .disconnected
  | _ => state

/-- The name and the mode that the connection has after a step on it. -/
def nextLabel (json : EncodingJson) (label : Bytes × UInt8) : Step → Bytes × UInt8
  | .handle _ msg =>
    if msg.code = msgVERIFY then
      ((json.verify.deSerialize msg).id, (json.verify.deSerialize msg).mode)
    else label
  | _ => label

/-- How many goroutines wait for the end of the handshake after a step on the connection. -/
def nextWaiting (waiting : ℕ) : Step → ℕ
  | .handle _ msg => if msg.code = msgVERIFYOK then waiting + 1 else waiting
  | .syncReq _ | .expire _ => waiting - 1
  | _ => waiting

section

variable {json : EncodingJson} {c c' : Links} {a : Step} {r : ConnId} {rn rn' : RemoteNode}
  {l l' : Link}

theorem nextLabel_of_ne {label : Bytes × UInt8}
    (h : ∀ r msg, a = .handle r msg → msg.code ≠ msgVERIFY) : nextLabel json label a = label := by
  cases a with
  | handle r msg => exact if_neg (h r msg rfl)
  | _ => rfl

/-- A goroutine goes on to wait unless the step is its `SyncReq` or the end of its patience. -/
theorem nextWaiting_of_ne {waiting : ℕ} (hsyncReq : ∀ r, a ≠ .syncReq r)
    (hexpire : ∀ r, a ≠ .expire r) : waiting ≤ nextWaiting waiting a := by
  cases a with
  | handle r msg =>
    rw [nextWaiting]
    split_ifs
    · exact Nat.le_succ _
    · exact le_rfl
  | syncReq r => exact absurd rfl (hsyncReq r)
  | expire r => exact absurd rfl (hexpire r)
  | _ => exact le_rfl

@[simp] theorem node_modify (c : Links) (r : ConnId) (f : Link → Link) :
    (c.modify r f).node = c.node := rfl

@[simp] theorem link_modifyNode (c : Links) (r : ConnId) (f : RemoteNode → RemoteNode) :
    (c.modifyNode r f).link = c.link := rfl

@[simp] theorem link_modify (c : Links) (r : ConnId) (f : Link → Link) :
    (c.modify r f).link = Function.update c.link r (f (c.link r)) := rfl

@[simp] theorem heap_modifyNode (c : Links) (r : ConnId) (f : RemoteNode → RemoteNode) :
    (c.modifyNode r f).node.heap = Function.update c.node.heap r (f (c.node.heap r)) := rfl

theorem heap_tearDown (node : Node) (r : ConnId) : (node.tearDown r).heap = node.heap := by
  rw [Node.tearDown]
  split_ifs <;> rfl

theorem dispatch_of_ne (json : EncodingJson) {r' : ConnId} (hr' : r' ≠ r) (msg : NodeWireMessage) :
    (c.dispatch json r msg).node.heap r' = c.node.heap r' ∧
      (c.dispatch json r msg).link r' = c.link r' := by
  rw [dispatch]
  split_ifs <;> simp [goto, handleSyncResponse, setReplicationFactor, Function.update_of_ne hr']

theorem dispatch_self (json : EncodingJson) (msg : NodeWireMessage) :
    Dispatch json c.node (c.node.heap r) (c.link r) msg ((c.dispatch json r msg).node.heap r)
      ((c.dispatch json r msg).link r) := by
  rw [dispatch]
  split_ifs with hverify hverifyOK hping hsyncRsp hsyncReq hdata
  · simp only [goto, link_modify, node_modify, link_modifyNode, heap_modifyNode,
      Function.update_self]
    exact Dispatch.verify hverify
  · simpa using Dispatch.verifyOK hverifyOK
  · simpa using Dispatch.ping hping
  · refine Dispatch.other ⟨?_, hping, ?_, ?_⟩ <;>
      simp [NodeWireMessage.IsHandshake, IsData, hsyncRsp] <;> decide
  · simpa [goto] using Dispatch.syncReq hsyncReq
  · simpa [goto] using Dispatch.data hdata
  · exact Dispatch.other ⟨not_or.mpr ⟨hverify, hverifyOK⟩, hping, hsyncReq, hdata⟩

/-- A step leaves the other connections alone. -/
theorem step_of_ne (h : c.step json a = some c') (hr : r ≠ a.conn) :
    c'.node.heap r = c.node.heap r ∧ c'.link r = c.link r := by
  cases a with
  | handle r' msg =>
    rw [step] at h
    split at h
    · split_ifs at h
      obtain rfl := Option.some.inj h
      have hr : r ≠ r' := hr
      obtain ⟨hheap, hlink⟩ := dispatch_of_ne json hr msg
      exact ⟨hheap, hlink.trans (Function.update_of_ne hr _ _)⟩
    · cases h
  | tearDown r' =>
    obtain rfl := Option.some.inj h
    exact ⟨by rw [heap_tearDown], rfl⟩
  | _ =>
    simp only [Step.conn] at hr
    simp only [step] at h
    repeat' split at h
    all_goals cases h
    all_goals simp [consume, goto, Node.addRemoteNode, Function.update_of_ne hr]

/-- **What a step does** on its connection. -/
theorem step_move (h : c.step json a = some c') :
    Move json c a.conn (c.node.heap a.conn) (c.link a.conn) a (c'.node.heap a.conn)
      (c'.link a.conn) := by
  cases a with
  | sendVerify r =>
    rw [step] at h
    split_ifs at h with hsent
    obtain rfl := Option.some.inj h
    simpa [Step.conn] using Move.sendVerify (by simpa using hsent)
  | loop r =>
    rw [step] at h
    split_ifs at h with hlooping hstate
    all_goals
      obtain rfl := Option.some.inj h
      simp only [Step.conn, consume, node_modify, link_modify, Function.update_self]
    · exact .loop hlooping (.inl rfl)
    · exact .loop hlooping (.inr ⟨rfl, not_or.mp hstate⟩)
  | read r msg =>
    rw [step] at h
    split_ifs at h with hreading
    obtain rfl := Option.some.inj h
    simpa [Step.conn, consume] using Move.read hreading
  | readError r =>
    rw [step] at h
    split_ifs at h with hreading
    obtain rfl := Option.some.inj h
    simpa [Step.conn, consume] using Move.readError hreading
  | filter r =>
    rw [step] at h
    split at h
    · next msg hmsg =>
      split_ifs at h with hdrop
      all_goals
        obtain rfl := Option.some.inj h
        simp only [Step.conn, consume, node_modify, link_modify, Function.update_self]
      · exact .drop hmsg hdrop.1 hdrop.2
      · exact .pass hmsg fun hstate ↦ not_not.mp fun hnot ↦ hdrop ⟨hstate, hnot⟩
    · cases h
  | queue r =>
    rw [step] at h
    split at h
    · next msg hmsg =>
      split_ifs at h with hstate
      all_goals
        obtain rfl := Option.some.inj h
        simp only [Step.conn, consume, node_modify, link_modify, Function.update_self]
      · exact .forget hmsg hstate
      · exact .queue hmsg hstate
    · cases h
  | lose r =>
    rw [step] at h
    split at h
    · next msg hmsg =>
      split_ifs at h with hclosing
      obtain rfl := Option.some.inj h
      simpa [Step.conn, consume] using Move.lose hmsg hclosing
    · cases h
  | handle r msg =>
    rw [step] at h
    split at h
    · next msg' rest hwaiting hqueue =>
      split_ifs at h with hguard
      obtain ⟨rfl, hstate⟩ := hguard
      obtain rfl := Option.some.inj h
      have hdispatch := dispatch_self json (r := r)
        (c := c.modify r fun link ↦ { link with inboundMsgQueue := rest }) msg'
      rw [node_modify, link_modify, Function.update_self] at hdispatch
      exact .handle hwaiting hqueue hstate hdispatch
    · cases h
  | skip r =>
    rw [step] at h
    split at h
    · next msg rest hwaiting hqueue =>
      split_ifs at h with hstate
      obtain rfl := Option.some.inj h
      simpa [Step.conn] using Move.skip hwaiting hqueue hstate
    · cases h
  | contains r =>
    rw [step] at h
    split_ifs at h with hchecking hcontains
    all_goals
      obtain rfl := Option.some.inj h
      have hmove : Move json c r (c.node.heap r) (c.link r) (.contains r) _ _ := .contains hchecking
      rw [← Node.idOf] at hmove
      simpa [Step.conn, goto, hcontains] using hmove
  | add r =>
    rw [step] at h
    split_ifs at h with hadding
    obtain rfl := Option.some.inj h
    simpa [Step.conn, Node.addRemoteNode] using Move.add hadding
  | accept r =>
    rw [step] at h
    split_ifs at h with haccepting
    obtain rfl := Option.some.inj h
    simpa [Step.conn, goto] using Move.accept haccepting
  | reply r =>
    rw [step] at h
    split_ifs at h with hreplying
    obtain rfl := Option.some.inj h
    simpa [Step.conn, goto] using Move.reply hreplying
  | getRemoteNodes r values =>
    rw [step] at h
    split at h
    · next mode hanswering =>
      split_ifs at h with hvalues
      obtain rfl := Option.some.inj h
      simpa [Step.conn, goto] using Move.getRemoteNodes hanswering hvalues
    · cases h
  | sendSyncResponse r =>
    rw [step] at h
    split at h
    · next mode values hlisting =>
      obtain rfl := Option.some.inj h
      have hmove : Move json c r (c.node.heap r) (c.link r) (.sendSyncResponse r) _ _ :=
        .sendSyncResponse hlisting
      split_ifs at hmove ⊢ with hnil
      · simpa [Step.conn, goto] using hmove
      · simpa [Step.conn, goto] using hmove
    · cases h
  | finish r =>
    rw [step] at h
    split_ifs at h with hbusy
    obtain rfl := Option.some.inj h
    simpa [Step.conn, goto] using Move.finish hbusy
  | syncReq r =>
    rw [step] at h
    split_ifs at h with hwaiting hsync
    all_goals
      obtain rfl := Option.some.inj h
      have hmove : Move json c r (c.node.heap r) (c.link r) (.syncReq r) _ _ :=
        .syncReq hwaiting.1 hwaiting.2
      simpa [Step.conn, hsync] using hmove
  | expire r =>
    rw [step] at h
    split_ifs at h with hwaiting
    obtain rfl := Option.some.inj h
    simpa [Step.conn] using Move.expire hwaiting
  | send r msg =>
    rw [step] at h
    split_ifs at h with hsend
    obtain rfl := Option.some.inj h
    simpa [Step.conn] using Move.send hsend
  | transmit r msg =>
    rw [step] at h
    split at h
    · next msg' rest hqueue =>
      split_ifs at h with hguard
      obtain ⟨rfl, hstate⟩ := hguard
      obtain rfl := Option.some.inj h
      simpa [Step.conn] using Move.transmit hqueue hstate
    · cases h
  | discard r =>
    rw [step] at h
    split at h
    · next msg rest hqueue =>
      split_ifs at h with hstate
      obtain rfl := Option.some.inj h
      simpa [Step.conn] using Move.discard hqueue hstate
    · cases h
  | disconnect r =>
    obtain rfl := Option.some.inj h
    simpa [Step.conn] using Move.disconnect
  | tearDown r =>
    obtain rfl := Option.some.inj h
    simpa [Step.conn, heap_tearDown] using Move.tearDown

theorem Move.state (h : Move json c r rn l a rn' l') : rn'.state = nextState rn.state a := by
  cases h with
  | handle hwaiting hqueue hstate hdispatch =>
    cases hdispatch <;> simp [nextState, RemoteNode.label]
  | sendSyncResponse hlisting => split_ifs <;> simp [nextState]
  | syncReq hwaiting hstate => split_ifs <;> simp [nextState]
  | _ => simp [nextState, RemoteNode.sendVerify, RemoteNode.setState]

theorem Move.label (h : Move json c r rn l a rn' l') :
    (rn'.config.id, rn'.mode) = nextLabel json (rn.config.id, rn.mode) a := by
  cases h with
  | handle hwaiting hqueue hstate hdispatch =>
    cases hdispatch with
    | verify hmsg => simp [nextLabel, RemoteNode.label, hmsg]
    | ping hmsg =>
      rw [nextLabel, if_neg (by rw [hmsg]; decide), RemoteNode.config_sendMessage,
        RemoteNode.mode_sendMessage]
    | data hmsg =>
      rcases hmsg with hmsg | hmsg | hmsg | hmsg <;>
        rw [nextLabel, if_neg (by rw [hmsg]; decide)]
    | other hmsg => rw [nextLabel, if_neg fun h ↦ hmsg.1 (.inl h)]
    | verifyOK hmsg | syncReq hmsg => rw [nextLabel, if_neg (by rw [hmsg]; decide)]
  | sendSyncResponse hlisting =>
    split_ifs <;> simp [nextLabel, RemoteNode.config_sendMessage]
  | syncReq hwaiting hstate => split_ifs <;> simp [nextLabel, RemoteNode.config_sendMessage]
  | _ => simp [nextLabel, RemoteNode.sendVerify, RemoteNode.setState, RemoteNode.config_sendMessage]

theorem Move.waiting (h : Move json c r rn l a rn' l') :
    l'.waiting = nextWaiting l.waiting a := by
  cases h with
  | handle hwaiting hqueue hstate hdispatch =>
    cases hdispatch with
    | verifyOK hmsg => simp [nextWaiting, hmsg]
    | data hmsg =>
      rcases hmsg with hmsg | hmsg | hmsg | hmsg <;>
        rw [nextWaiting, if_neg (by rw [hmsg]; decide)]
    | other hmsg => rw [nextWaiting, if_neg fun h ↦ hmsg.1 (.inr h)]
    | verify hmsg | ping hmsg | syncReq hmsg => exact (if_neg (by rw [hmsg]; decide)).symm
  | _ => rfl

theorem Move.accepted (h : Move json c r rn l a rn' l') :
    l'.accepted = (l.accepted || a = .add r) := by
  cases h with
  | handle hwaiting hqueue hstate hdispatch => cases hdispatch <;> simp
  | _ => simp

theorem Move.sync (h : Move json c r rn l a rn' l') : l'.sync = l.sync := by
  cases h with
  | handle hwaiting hqueue hstate hdispatch => cases hdispatch <;> rfl
  | _ => rfl

/-- A handler that deals with values goes on until it returns. -/
theorem Move.busy (h : Move json c r rn l a rn' l') (hl : l.handler = .busy) :
    l'.handler = .busy ∨ a = .finish r := by
  cases h with
  | handle hplace | contains hplace | add hplace | accept hplace | reply hplace
  | getRemoteNodes hplace | sendSyncResponse hplace =>
    rw [hplace] at hl
    cases hl
  | finish hbusy => exact .inr rfl
  | _ => exact .inl hl

theorem Move.busy_of_handle {msg : NodeWireMessage} (h : Move json c r rn l (.handle r msg) rn' l')
    (hmsg : IsData msg) : l'.handler = .busy := by
  cases h with
  | handle hwaiting hqueue hstate hdispatch =>
    cases hdispatch with
    | data hmsg' => rfl
    | other hmsg' => exact absurd hmsg hmsg'.2.2.2
    | verify h | verifyOK h | ping h | syncReq h =>
      rcases hmsg with hmsg | hmsg | hmsg | hmsg <;> rw [h] at hmsg <;> cases hmsg

/-- The state of a connection after a step. -/
theorem step_state (h : c.step json a = some c') :
    c'.state r = if r = a.conn then nextState (c.state r) a else c.state r := by
  split_ifs with hr
  · subst hr
    exact (step_move h).state
  · rw [state, (step_of_ne h hr).1, state]

theorem step_accepted (h : c.step json a = some c') :
    (c'.link r).accepted = ((c.link r).accepted || a = .add r) := by
  by_cases hr : r = a.conn
  · subst hr
    exact (step_move h).accepted
  · rw [(step_of_ne h hr).2]
    have ha : a ≠ .add r := by
      rintro rfl
      exact hr rfl
    simp [ha]

theorem step_busy (h : c.step json a = some c') (hr : (c.link r).handler = .busy) :
    (c'.link r).handler = .busy ∨ a = .finish r := by
  by_cases hconn : r = a.conn
  · subst hconn
    exact (step_move h).busy hr
  · exact .inl (by rw [(step_of_ne h hconn).2, hr])

theorem step_sync (h : c.step json a = some c') : (c'.link r).sync = (c.link r).sync := by
  by_cases hr : r = a.conn
  · subst hr
    exact (step_move h).sync
  · rw [(step_of_ne h hr).2]

theorem dispatch_node (msg : NodeWireMessage) :
    (c.dispatch json r msg).node.hello = c.node.hello ∧
      (c.dispatch json r msg).node.remoteNodes = c.node.remoteNodes := by
  rw [dispatch]
  split_ifs <;> exact ⟨rfl, rfl⟩

/-- The registry after a step. -/
def registry (c : Links) : Step → SliceList Bytes ConnId
  | .add r => c.node.remoteNodes.add (c.node.idOf r) r
  | .tearDown r => c.node.remoteNodes.remove (c.node.idOf r)
  | _ => c.node.remoteNodes

/-- **What a step does** to the rest of the node. -/
theorem step_node (h : c.step json a = some c') :
    c'.node.hello = c.node.hello ∧ c'.node.remoteNodes = c.registry a := by
  cases a with
  | handle r' msg =>
    rw [step] at h
    split at h
    · split_ifs at h
      obtain rfl := Option.some.inj h
      exact dispatch_node msg
    · cases h
  | tearDown r' =>
    obtain rfl := Option.some.inj h
    refine ⟨?_, Node.tearDown_remoteNodes _ _⟩
    simp only [Node.hello, Node.tearDown]
    split_ifs <;> rfl
  | _ =>
    simp only [step] at h
    repeat' split at h
    all_goals cases h
    all_goals exact ⟨rfl, rfl⟩

end

end Links
end ClusteredBigCache
