import ClusteredBigCache.Cluster.Links
import ClusteredBigCache.Lib.TransitionSystem

/-!
# A node that can be shut down

`Stoppable` is a node with everything in it that uses a channel of the node or the `pendingGet` of a
connection: the calls of `Put`, `Get` and `Delete`, the goroutines of `requestSenderForGET` and
`replication`, the handlers of `GETRsp` and `SyncRsp` messages, the `tearDown` that the goroutines
of a connection end with, and `ShutDown`.  Each of them is cut at every operation on something
shared.  What the other goroutines of the connections do is what they do in `Links`.

A send on a channel that is closed and a call of a method of a `pendingGet` that is `nil` are
crashes.  A goroutine `Needs` what it is about to use; `acquires` and `drops` say which steps bring
a goroutine to such a point, and which ones close a channel or set a `pendingGet` to `nil`.

What connections are made is not in here, and what the cache does is not either: a call may return
because of what it says.  The channels are long enough, and a `GETRsp` that is too short is not
handled.
-/

set_option autoImplicit false

namespace ClusteredBigCache

/-- What a call sends to the peers. -/
inductive Errand
  /-- The message of `Put` or `Delete`. -/
  | replicate (msg : NodeMessage)
  /-- The request of `Get`. -/
  | get (key randStr : Bytes)
  deriving DecidableEq

/-- What can be closed, or set to `nil`. -/
inductive Resource
  | joinQueue
  | getRequestChan
  | replicationChan
  | pendingGet (r : ConnId)
  deriving DecidableEq

/-- The channel that a call sends on. -/
def Errand.chan : Errand → Resource
  | .replicate _ => .replicationChan
  | .get _ _ => .getRequestChan

/-- Where a call is. -/
inductive CallStage
  /-- Before it looks at the state. -/
  | called
  /-- Before `Values`. -/
  | started
  /-- In the loop over the peers, before it looks at the mode of the next one. -/
  | looping (peers : List ConnId)
  /-- In the loop, before it sends something for a peer. -/
  | pushing (r : ConnId) (rest : List ConnId)
  /-- It has returned, or waits for a reply. -/
  | returned
  deriving DecidableEq

/-- A call of `Put`, `Get` or `Delete`. -/
structure ClientCall where
  errand : Errand
  stage : CallStage
  deriving DecidableEq

/-- What a call is about to use. -/
def ClientCall.needs : ClientCall → Option Resource
  | ⟨errand, .pushing _ _⟩ => some errand.chan
  | _ => none

/-- Where a goroutine of `requestSenderForGET` is. -/
inductive GetWorker
  | idle
  /-- In `getData`, before it looks at the state. -/
  | took (r : ConnId) (key randStr : Bytes)
  /-- In `getData`, before `Store`. -/
  | looked (r : ConnId) (key randStr : Bytes)
  /-- In `getData`, before `sendMessage`. -/
  | stored (r : ConnId) (key randStr : Bytes)
  deriving DecidableEq

/-- What a goroutine of `requestSenderForGET` is about to use. -/
def GetWorker.needs : GetWorker → Option Resource
  | .looked r _ _ => some (.pendingGet r)
  | _ => none

/-- What a handler has to do. -/
inductive Duty
  /-- Nothing with anything shared. -/
  | idle
  /-- `handleGetResponse`, before `Load`. -/
  | load (rsp : GetRspMessage)
  /-- `handleGetResponse`, before `Delete`. -/
  | forget (rsp : GetRspMessage)
  /-- `handleSyncResponse`, with the peers that it has not sent yet. -/
  | propose (list : List ProposedPeer)
  deriving DecidableEq

/-- What a handler of a connection is about to use. -/
def Duty.needs (r : ConnId) : Duty → Option Resource
  | .load _ | .forget _ => some (.pendingGet r)
  | .propose (_ :: _) => some .joinQueue
  | .propose [] | .idle => none

/-- Where the `tearDown` is that the goroutines of a connection end with. -/
inductive TearDown
  | waiting
  /-- After `eventRemoteNodeDisconneced`. -/
  | removed
  /-- Before it proposes the peer again. -/
  | proposing
  /-- Before `pendingGet` is set to `nil`. -/
  | clearing
  | done
  deriving DecidableEq

/-- What a `tearDown` is about to use. -/
def TearDown.needs : TearDown → Option Resource
  | .proposing => some .joinQueue
  | _ => none

/-- Where `ShutDown` is. -/
inductive ShutDown
  | notCalled
  /-- Before `Values`. -/
  | ended
  /-- In the loop over the remote nodes. -/
  | tearing (rs : List ConnId)
  | joinQueueClosed
  | getRequestChanClosed
  | returned
  deriving DecidableEq

/-- A node that can be shut down. -/
structure Stoppable where
  links : Links
  /-- How many connections there are. -/
  size : ℕ
  /-- The state is started. -/
  started : Bool
  shutDown : ShutDown
  calls : List ClientCall
  getRequestChan : List (ConnId × Bytes × Bytes)
  replicationChan : List (ConnId × NodeMessage)
  /-- The channels that are closed. -/
  joinQueueClosed : Bool
  getRequestChanClosed : Bool
  replicationChanClosed : Bool
  getWorker : Fin 5 → GetWorker
  /-- What the goroutines of `replication` have taken. -/
  replicator : Fin 5 → Option (ConnId × NodeMessage)
  /-- The keys in the `pendingGet` of each connection, or `nil`. -/
  pendingGet : ConnId → Option (Finset Bytes)
  duty : ConnId → Duty
  tearDown : ConnId → TearDown

namespace Stoppable

/-- What brings a node down. -/
inductive Crash
  /-- A send on a closed channel. -/
  | closedChannel
  /-- A method is called with a `nil` pointer. -/
  | nilPendingGet
  deriving DecidableEq

/-- What can happen. -/
inductive Step
  /-- `Put`, `Get` or `Delete` is called. -/
  | call (errand : Errand)
  /-- A call looks at the state. -/
  | check (i : ℕ)
  /-- A call returns because of what the cache says. -/
  | settle (i : ℕ)
  /-- `Values` of a call. -/
  | values (i : ℕ) (peers : List ConnId)
  /-- A call looks at the mode of the next peer. -/
  | next (i : ℕ)
  /-- A call sends something for a peer to its channel. -/
  | push (i : ℕ)
  /-- A goroutine of `replication` takes a message. -/
  | take (w : Fin 5)
  /-- A goroutine of `replication` sends its message. -/
  | replicate (w : Fin 5)
  /-- A goroutine of `requestSenderForGET` takes a request. -/
  | takeGet (w : Fin 5)
  /-- `getData` looks at the state. -/
  | lookGet (w : Fin 5)
  /-- `getData` stores the request. -/
  | storeGet (w : Fin 5)
  /-- `getData` sends the request. -/
  | sendGet (w : Fin 5)
  /-- A goroutine of a connection does something. -/
  | link (a : Links.Step)
  /-- `handleGetResponse` looks for the request. -/
  | load (r : ConnId)
  /-- `handleGetResponse` deletes the request. -/
  | forget (r : ConnId)
  /-- `handleMessage` takes a `SyncRsp`. -/
  | syncRsp (r : ConnId) (msg : NodeWireMessage)
  /-- `handleSyncResponse` sends the next peer. -/
  | propose (r : ConnId)
  /-- The goroutines of a connection have ended, and `tearDown` begins. -/
  | tearDown (r : ConnId)
  /-- `tearDown` looks whether the connection is to be made again. -/
  | reconnect (r : ConnId)
  /-- `tearDown` proposes the peer again. -/
  | proposeAgain (r : ConnId)
  /-- `tearDown` sets `pendingGet` to `nil`. -/
  | clear (r : ConnId)
  /-- `ShutDown` sets the state. -/
  | shutDown
  /-- `Values` of `ShutDown`. -/
  | shutDownValues (rs : List ConnId)
  /-- `ShutDown` tears the next remote node down. -/
  | shutDownNode
  | closeJoinQueue
  | closeGetRequestChan
  | closeReplicationChan

/-- The connection whose goroutines make a step. -/
def Step.conn : Step → Option ConnId
  | .link a => some a.conn
  | .load r | .forget r | .syncRsp r _ | .propose r | .tearDown r | .reconnect r | .proposeAgain r
  | .clear r => some r
  | _ => none

/-- A call goes on. -/
def setCall (c : Stoppable) (i : ℕ) (stage : CallStage) : Stoppable :=
  { c with calls := c.calls.modify i fun call ↦ { call with stage := stage } }

/-- A goroutine of `requestSenderForGET` goes on. -/
def setWorker (c : Stoppable) (w : Fin 5) (worker : GetWorker) : Stoppable :=
  { c with getWorker := Function.update c.getWorker w worker }

/-- A handler goes on. -/
def setDuty (c : Stoppable) (r : ConnId) (duty : Duty) : Stoppable :=
  { c with duty := Function.update c.duty r duty }

/-- A `tearDown` goes on. -/
def setTearDown (c : Stoppable) (r : ConnId) (tearDown : TearDown) : Stoppable :=
  { c with tearDown := Function.update c.tearDown r tearDown }

/-- Send a message on a connection. -/
def sendMessage (c : Stoppable) (r : ConnId) (msg : NodeMessage) : Stoppable :=
  { c with links := c.links.modifyNode r (·.sendMessage msg) }

/-- Set the `pendingGet` of a connection. -/
def setPendingGet (c : Stoppable) (r : ConnId) (pending : Option (Finset Bytes)) : Stoppable :=
  { c with pendingGet := Function.update c.pendingGet r pending }

/-- A resource is closed, or `nil`. -/
def Gone (c : Stoppable) : Resource → Prop
  | .joinQueue => c.joinQueueClosed = true
  | .getRequestChan => c.getRequestChanClosed = true
  | .replicationChan => c.replicationChanClosed = true
  | .pendingGet r => c.pendingGet r = none

instance (c : Stoppable) (x : Resource) : Decidable (c.Gone x) :=
  match x with
  | .joinQueue | .getRequestChan | .replicationChan => inferInstanceAs (Decidable (_ = true))
  | .pendingGet _ => inferInstanceAs (Decidable (_ = none))

/-- A call sends something for a peer. -/
def pushErrand (c : Stoppable) (r : ConnId) : Errand → Except Crash Stoppable
  | .replicate msg =>
    if c.replicationChanClosed then .error .closedChannel
    else .ok { c with replicationChan := c.replicationChan ++ [(r, msg)] }
  | .get key randStr =>
    if c.getRequestChanClosed then .error .closedChannel
    else .ok { c with getRequestChan := c.getRequestChan ++ [(r, key, randStr)] }

/-- Send a proposal on the `joinQueue`. -/
def pushProposal (c : Stoppable) (p : ProposedPeer) : Except Crash Stoppable :=
  if c.joinQueueClosed then .error .closedChannel
  else .ok { c with links.node.joinQueue := c.links.node.joinQueue ++ [p] }

/-- Call a method of the `pendingGet` of a connection. -/
def withPendingGet (c : Stoppable) (r : ConnId) (f : Finset Bytes → Stoppable) :
    Except Crash Stoppable :=
  match c.pendingGet r with
  | none => .error .nilPendingGet
  | some pending => .ok (f pending)

/-- Only the timer sends a message by itself, a handler returns when it has nothing more to do, and
`tearDown` and the handler of a `SyncRsp` are taken apart here. -/
def mayStep (c : Stoppable) : Links.Step → Bool
  | .send _ msg => msg = .ping
  | .finish r => c.duty r = .idle
  | .handle _ msg => msg.code ≠ msgSyncRsp
  | .tearDown _ => false
  | _ => true

/-- The handlers after a step of the links, if it can be made: a `GETRsp` is handled. -/
def nextDuty (c : Stoppable) : Links.Step → Option (ConnId → Duty)
  | .handle r msg =>
    if msg.code = msgGETRsp then
      match GetRspMessage.deSerialize msg with
      | .ok rsp => some (Function.update c.duty r (.load rsp))
      | .error _ => none
    else some c.duty
  | _ => some c.duty

/-- A step of the links. -/
def linkStep (json : EncodingJson) (c : Stoppable) (a : Links.Step) : Option Stoppable :=
  if c.mayStep a then
    match c.links.step json a, c.nextDuty a with
    | some links, some duty => some { c with links := links, duty := duty }
    | _, _ => none
  else none

/-- The goroutines of a connection have ended. -/
def Ended (l : Link) : Prop :=
  l.closing = true ∧ l.consumer = .ended ∧
    (l.handler = .returned ∨ l.handler = .waiting ∧ l.inboundMsgQueue = [])

instance (l : Link) : Decidable (Ended l) := inferInstanceAs (Decidable (_ ∧ _))

/-- `tearDown` as it is called by `ShutDown`: the connection is not to be made again. -/
def tearDownNode (c : Stoppable) (r : ConnId) : Stoppable :=
  let c := { c with links := c.links.modifyNode r fun rn ↦
    { rn with config.reconnectOnDisconnect := false } }
  { c with links.node := c.links.node.eventRemoteNodeDisconneced r }.setPendingGet r none

/-- What a node does, or how it goes down; nothing if it cannot do it. -/
def act (json : EncodingJson) (c : Stoppable) : Step → Option (Except Crash Stoppable)
  | .call errand => some (.ok { c with calls := c.calls ++ [⟨errand, .called⟩] })
  | .check i =>
    match c.calls[i]? with
    | some ⟨_, .called⟩ => some (.ok (c.setCall i (if c.started then .started else .returned)))
    | _ => none
  | .settle i =>
    match c.calls[i]? with
    | some ⟨_, .started⟩ => some (.ok (c.setCall i .returned))
    | _ => none
  | .values i peers =>
    match c.calls[i]? with
    | some ⟨_, .started⟩ =>
      if (peers : Multiset ConnId) = c.links.node.remoteNodes.values then
        some (.ok (c.setCall i (.looping peers)))
      else none
    | _ => none
  | .next i =>
    match c.calls[i]? with
    | some ⟨_, .looping []⟩ => some (.ok (c.setCall i .returned))
    | some ⟨_, .looping (r :: rest)⟩ => some (.ok (c.setCall i
        (if (c.links.node.heap r).mode = clusterModePASSIVE then .looping rest
          else .pushing r rest)))
    | _ => none
  | .push i =>
    match c.calls[i]? with
    | some ⟨errand, .pushing r rest⟩ => some ((c.setCall i (.looping rest)).pushErrand r errand)
    | _ => none
  | .take w =>
    match c.replicator w, c.replicationChan with
    | none, x :: rest => some (.ok { c with
        replicationChan := rest
        replicator := Function.update c.replicator w (some x) })
    | _, _ => none
  | .replicate w =>
    match c.replicator w with
    | some (r, msg) => some (.ok ({ c with
        replicator := Function.update c.replicator w none }.sendMessage r msg))
    | none => none
  | .takeGet w =>
    match c.getWorker w, c.getRequestChan with
    | .idle, (r, key, randStr) :: rest =>
      some (.ok ({ c with getRequestChan := rest }.setWorker w (.took r key randStr)))
    | _, _ => none
  | .lookGet w =>
    match c.getWorker w with
    | .took r key randStr => some (.ok (c.setWorker w
        (if c.links.state r = .disconnected then .idle else .looked r key randStr)))
    | _ => none
  | .storeGet w =>
    match c.getWorker w with
    | .looked r key randStr => some (c.withPendingGet r fun pending ↦
        (c.setPendingGet r (some (insert (key ++ randStr) pending))).setWorker w
          (.stored r key randStr))
    | _ => none
  | .sendGet w =>
    match c.getWorker w with
    | .stored r key randStr => some (.ok ((c.sendMessage r
        (.getReq ⟨0, key, key ++ randStr⟩)).setWorker w .idle))
    | _ => none
  | .link a => (c.linkStep json a).map .ok
  | .load r =>
    match c.duty r with
    | .load rsp => some (c.withPendingGet r fun pending ↦
        c.setDuty r (if rsp.pendingKey ∈ pending then .forget rsp else .idle))
    | _ => none
  | .forget r =>
    match c.duty r with
    | .forget rsp => some (c.withPendingGet r fun pending ↦
        (c.setPendingGet r (some (pending.erase rsp.pendingKey))).setDuty r .idle)
    | _ => none
  | .syncRsp r msg =>
    match (c.links.link r).handler, (c.links.link r).inboundMsgQueue with
    | .waiting, msg' :: rest =>
      if msg' = msg ∧ msg.code = msgSyncRsp ∧ c.links.state r ≠ .disconnected then
        let syncMsg := json.syncRsp.deSerialize msg
        let links := (c.links.setReplicationFactor syncMsg.replicationFactor).modify r fun link ↦
          { link with inboundMsgQueue := rest, handler := .busy }
        some (.ok ({ c with links := links }.setDuty r (.propose syncMsg.list)))
      else none
    | _, _ => none
  | .propose r =>
    match c.duty r with
    | .propose [] => some (.ok (c.setDuty r .idle))
    | .propose (p :: list) => some ((c.setDuty r (.propose list)).pushProposal p)
    | _ => none
  | .tearDown r =>
    if c.tearDown r = .waiting ∧ Ended (c.links.link r) then
      some (.ok ({ c with links.node := c.links.node.eventRemoteNodeDisconneced r }.setTearDown r
        .removed))
    else none
  | .reconnect r =>
    if c.tearDown r = .removed then
      some (.ok (c.setTearDown r
        (if (c.links.node.heap r).config.reconnectOnDisconnect then .proposing else .clearing)))
    else none
  | .proposeAgain r =>
    if c.tearDown r = .proposing then
      let config := (c.links.node.heap r).config
      some ((c.setTearDown r .clearing).pushProposal ⟨config.id, config.ipAddress⟩)
    else none
  | .clear r =>
    if c.tearDown r = .clearing then
      some (.ok ((c.setPendingGet r none).setTearDown r .done))
    else none
  | .shutDown =>
    if c.shutDown = .notCalled then
      some (.ok { c with started := false, shutDown := .ended })
    else none
  | .shutDownValues rs =>
    if c.shutDown = .ended ∧ (rs : Multiset ConnId) = c.links.node.remoteNodes.values then
      some (.ok { c with shutDown := .tearing rs })
    else none
  | .shutDownNode =>
    match c.shutDown with
    | .tearing (r :: rs) => some (.ok { c.tearDownNode r with shutDown := .tearing rs })
    | _ => none
  | .closeJoinQueue =>
    if c.shutDown = .tearing [] then
      some (.ok { c with joinQueueClosed := true, shutDown := .joinQueueClosed })
    else none
  | .closeGetRequestChan =>
    if c.shutDown = .joinQueueClosed then
      some (.ok { c with getRequestChanClosed := true, shutDown := .getRequestChanClosed })
    else none
  | .closeReplicationChan =>
    if c.shutDown = .getRequestChanClosed then
      some (.ok { c with replicationChanClosed := true, shutDown := .returned })
    else none

/-- What a node does, on the connections that it has. -/
def react (json : EncodingJson) (c : Stoppable) (a : Step) : Option (Except Crash Stoppable) :=
  if ∀ r ∈ a.conn, r < c.size then c.act json a else none

/-- How a step brings the node down, if it does. -/
def crash (json : EncodingJson) (c : Stoppable) (a : Step) : Option Crash :=
  match c.react json a with
  | some (.error crash) => some crash
  | _ => none

def step (json : EncodingJson) (c : Stoppable) (a : Step) : Option Stoppable :=
  match c.react json a with
  | some (.ok c') => some c'
  | _ => none

/-- A node that has been started, with some connections. -/
def new (config : Links.Config) (size : ℕ) : Stoppable where
  links := .new config
  size := size
  started := true
  shutDown := .notCalled
  calls := []
  getRequestChan := []
  replicationChan := []
  joinQueueClosed := false
  getRequestChanClosed := false
  replicationChanClosed := false
  getWorker _ := .idle
  replicator _ := none
  pendingGet _ := some ∅
  duty _ := .idle
  tearDown _ := .waiting

/-- A node that is shut down while it works, under any interleaving. -/
def system (json : EncodingJson) (config : Links.Config) (size : ℕ) :
    TransitionSystem Stoppable Step :=
  .ofStep (· = new config size) (step json)

/-! ## Who needs what -/

/-- Some goroutine is about to use a resource. -/
def Needs (c : Stoppable) (x : Resource) : Prop :=
  (∃ call ∈ c.calls, call.needs = some x) ∨ (∃ w, (c.getWorker w).needs = some x) ∨
    (∃ r < c.size, (c.duty r).needs r = some x) ∨ ∃ r < c.size, (c.tearDown r).needs = some x

instance (c : Stoppable) (x : Resource) : Decidable (c.Needs x) :=
  inferInstanceAs (Decidable (_ ∨ _ ∨ (∃ r < _, _) ∨ ∃ r < _, _))

/-- What a goroutine is about to use after a step. -/
def acquires (json : EncodingJson) (c : Stoppable) : Step → Option Resource
  | .next i =>
    match c.calls[i]? with
    | some ⟨errand, .looping (r :: _)⟩ =>
      if (c.links.node.heap r).mode = clusterModePASSIVE then none else some errand.chan
    | _ => none
  | .lookGet w =>
    match c.getWorker w with
    | .took r _ _ => if c.links.state r = .disconnected then none else some (.pendingGet r)
    | _ => none
  | .link (.handle r msg) => if msg.code = msgGETRsp then some (.pendingGet r) else none
  | .syncRsp _ msg => if (json.syncRsp.deSerialize msg).list = [] then none else some .joinQueue
  | .reconnect r =>
    if (c.links.node.heap r).config.reconnectOnDisconnect then some .joinQueue else none
  | _ => none

/-- What a step closes, or sets to `nil`. -/
def drops (c : Stoppable) : Step → Option Resource
  | .clear r => some (.pendingGet r)
  | .shutDownNode =>
    match c.shutDown with
    | .tearing (r :: _) => some (.pendingGet r)
    | _ => none
  | .closeJoinQueue => some .joinQueue
  | .closeGetRequestChan => some .getRequestChan
  | .closeReplicationChan => some .replicationChan
  | _ => none

end Stoppable
end ClusteredBigCache
