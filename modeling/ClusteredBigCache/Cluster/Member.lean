import ClusteredBigCache.Cluster.Handshake
import ClusteredBigCache.Cluster.Replica
import ClusteredBigCache.Lib.WorkerPool

/-!
# A node with its cache and its calls

A `Member` is a node with the goroutines of its connections, the `Links`, and what deals with
values: the cache, which is `nil` in a passive node; the calls of `Put`, `Get` and `Delete` that are
going on; the channels to the goroutines that send the messages of the calls; and the handlers of
`PUT`, `DEL`, `GETReq` and `GETRsp` messages.

`Get` asks all peers.  What it asks for is stored in the `pendingGet` of each connection under the
key with a random string after it, and the first peer that answers with some data is the one that
counts.

A step of a member is a step of its links, or leaves them alone (`Member.proj`), so that a cluster
of members is also a cluster of links (`run_links`), and what is true of `Links` is true of members.

The calls are those of a node that was started.  What expires or is evicted may go from the cache at
any time, and the channels are long enough.
-/

set_option autoImplicit false

namespace ClusteredBigCache

/-- What a call has to send to the peers. -/
inductive Job
  /-- A message that `Put` or `Delete` replicates. -/
  | replicate (msg : NodeMessage)
  /-- The request of a `Get`. -/
  | get (q : ℕ)
  deriving DecidableEq, Repr

/-- A call that sends something to the peers. -/
structure FanOut where
  job : Job
  /-- The peers that the call has not come to, once it has called `Values`. -/
  peers : Option (List ConnId)
  deriving DecidableEq, Repr

/-- What becomes of a `Get` that has not found the key in the cache. -/
inductive GetStatus
  /-- It asks the peers. -/
  | asking
  /-- It is in its `select`. -/
  | waiting
  /-- It has returned the data of a peer. -/
  | replied (data : Bytes)
  /-- It has returned `ErrNotFound` or `ErrTimedOut`. -/
  | failed
  deriving DecidableEq, Repr

/-- `getRequestData`, with what becomes of the call. -/
structure GetRequest where
  key : Bytes
  randStr : Bytes
  status : GetStatus
  deriving DecidableEq, Repr

/-- What a handler of a connection has to do. -/
inductive Task
  | idle
  /-- It has been called with a message. -/
  | called (msg : NodeWireMessage)
  /-- `handleGetRequest` has looked into the cache and has to send the response. -/
  | respond (rsp : GetRspMessage)
  /-- `handleGetResponse` has found the request and has to delete it. -/
  | forget (q : ℕ) (rsp : GetRspMessage)
  /-- `handleGetResponse` has to offer the data to the call. -/
  | offer (q : ℕ) (data : Bytes)
  deriving DecidableEq, Repr

/-- What brings a node down. -/
inductive Crash
  /-- The cache of a passive node is used. -/
  | nilCache
  /-- The `pendingGet` of a connection is used that was torn down. -/
  | nilPendingGet
  /-- A message is too short for what it says. -/
  | slice
  deriving DecidableEq, Repr

/-- A node with everything it does. -/
structure Member where
  links : Links
  /-- The cache, or `nil`. -/
  cache : Option Store
  /-- The calls that have something to send. -/
  fanOuts : List FanOut
  /-- The requests of all calls of `Get`. -/
  requests : List GetRequest
  /-- `replicationChan`, with the goroutines of `replication`. -/
  replication : WorkerPool (Fin 5) ConnId NodeMessage
  /-- `getRequestChan`, with the goroutines of `requestSenderForGET`. -/
  getRequest : WorkerPool (Fin 5) ConnId ℕ
  /-- The goroutines that are in `getData`, after `Store`. -/
  sending : Fin 5 → Option (ConnId × ℕ)
  /-- The `pendingGet` of each connection, or `nil`. -/
  pendingGet : ConnId → Option (Bytes → Option ℕ)
  task : ConnId → Task
  crash : Option Crash

namespace Member

/-- What can happen at a node. -/
inductive Step
  /-- Something that has nothing to do with values, or the call of a handler, or its return. -/
  | link (a : Links.Step)
  /-- `Put` or `Delete` is called and has changed the cache. -/
  | write (w : Write) (expiry : UInt64)
  /-- `Get` is called and has not found the key in the cache. -/
  | get (key randStr : Bytes)
  /-- `Values` of a call. -/
  | values (i : ℕ) (peers : List ConnId)
  /-- A call deals with the next peer. -/
  | push (i : ℕ)
  /-- `Get` comes to its `select`. -/
  | select (i : ℕ)
  /-- `Get` times out. -/
  | timeout (q : ℕ)
  /-- A goroutine of `replication` takes a message. -/
  | take (w : Fin 5)
  /-- A goroutine of `replication` sends its message. -/
  | replicate (w : Fin 5) (r : ConnId) (msg : NodeMessage)
  /-- A goroutine of `requestSenderForGET` takes a request. -/
  | takeGet (w : Fin 5)
  /-- `getData` looks at the state and stores the request. -/
  | getData (w : Fin 5)
  /-- `getData` sends the request. -/
  | sendGet (w : Fin 5) (r : ConnId) (msg : NodeMessage)
  /-- `handlePut` or `handleDelete` changes the cache. -/
  | store (r : ConnId)
  /-- `handleGetRequest` looks into the cache for a key and finds some data. -/
  | cacheGet (r : ConnId) (key data : Bytes)
  /-- `handleGetRequest` sends the response. -/
  | respond (r : ConnId) (rsp : GetRspMessage)
  /-- `handleGetResponse` looks for the request. -/
  | load (r : ConnId)
  /-- `handleGetResponse` deletes the request. -/
  | forget (r : ConnId)
  /-- `handleGetResponse` offers the data to the call. -/
  | offer (r : ConnId)
  /-- An entry expires or is evicted. -/
  | evict (key : Bytes)
  deriving DecidableEq, Repr

/-- Send a message on a connection. -/
def sendMessage (m : Member) (r : ConnId) (msg : NodeMessage) : Member :=
  { m with links := m.links.modifyNode r (·.sendMessage msg) }

/-- The handler of a connection goes on to something else. -/
def goto (m : Member) (r : ConnId) (task : Task) : Member :=
  { m with task := Function.update m.task r task }

/-- A call of `Get` goes on. -/
def setStatus (m : Member) (q : ℕ) (status : GetStatus) : Member :=
  { m with requests := m.requests.modify q fun req ↦ { req with status := status } }

/-- A call goes on with some peers. -/
def setPeers (m : Member) (i : ℕ) (peers : List ConnId) : Member :=
  { m with fanOuts := m.fanOuts.modify i fun f ↦ { f with peers := some peers } }

/-- A call pushes something for a peer to its channel. -/
def pushJob (m : Member) (r : ConnId) : Job → Member
  | .replicate msg => { m with replication := m.replication.push r msg }
  | .get q => { m with getRequest := m.getRequest.push r q }

/-- The node goes down. -/
def fail (m : Member) (crash : Crash) : Member := { m with crash := some crash }

/-- The tasks after a step of the links: a handler is called with a message. -/
def nextTask (task : ConnId → Task) : Links.Step → ConnId → Task
  | .handle r msg => if Links.IsData msg then Function.update task r (.called msg) else task
  | _ => task

/-- The pending requests after a step of the links. -/
def nextPendingGet (pendingGet : ConnId → Option (Bytes → Option ℕ)) :
    Links.Step → ConnId → Option (Bytes → Option ℕ)
  | .tearDown r => Function.update pendingGet r none
  | _ => pendingGet

/-- Only the timer sends a message without a call or a request, and a handler returns when it has
nothing more to do. -/
def MayStep (m : Member) : Links.Step → Prop
  | .send _ msg => msg = .ping
  | .finish r => m.task r = .idle
  | _ => True

instance (m : Member) (a : Links.Step) : Decidable (m.MayStep a) :=
  match a with
  | .send _ msg => inferInstanceAs (Decidable (msg = .ping))
  | .finish r => inferInstanceAs (Decidable (m.task r = .idle))
  | .sendVerify _ | .loop _ | .read _ _ | .readError _ | .filter _ | .queue _ | .lose _
  | .handle _ _ | .skip _ | .contains _ | .add _ | .accept _ | .reply _ | .getRemoteNodes _ _
  | .sendSyncResponse _ | .syncReq _ | .expire _ | .transmit _ _ | .discard _ | .disconnect _
  | .tearDown _ =>
    inferInstanceAs (Decidable True)

/-- A step of the links. -/
def linkStep (json : EncodingJson) (m : Member) (a : Links.Step) : Option Member :=
  if m.MayStep a then
    (m.links.step json a).map fun links ↦ { m with
      links := links
      task := nextTask m.task a
      pendingGet := nextPendingGet m.pendingGet a }
  else none

/-- `getData` looks at the state and stores the request. -/
def getData (m : Member) (w : Fin 5) : Option Member :=
  match m.getRequest.holding w with
  | none => none
  | some (r, q) =>
    let m' := { m with getRequest := m.getRequest.put w }
    if m.links.state r = .disconnected then some m'
    else
      match m.requests[q]?, m.pendingGet r with
      | none, _ => none
      | some _, none => some (m.fail .nilPendingGet)
      | some req, some pending => some { m' with
          sending := Function.update m.sending w (some (r, q))
          pendingGet := Function.update m.pendingGet r
            (some (Function.update pending (req.key ++ req.randStr) (some q))) }

/-- `handlePut` or `handleDelete`. -/
def handleWrite (json : EncodingJson) (m : Member) (r : ConnId) (msg : NodeWireMessage) : Member :=
  match m.cache with
  | none => m.fail .nilCache
  | some store =>
    match store.handleMessage json msg with
    | .error _ => m.fail .slice
    | .ok store => { m.goto r .idle with cache := some store }

/-- `handleGetResponse` looks for the request. -/
def handleGetResponse (m : Member) (r : ConnId) (msg : NodeWireMessage) : Member :=
  match GetRspMessage.deSerialize msg, m.pendingGet r with
  | .error _, _ => m.fail .slice
  | .ok _, none => m.fail .nilPendingGet
  | .ok rspMsg, some pending =>
    match pending rspMsg.pendingKey with
    | none => m.goto r .idle
    | some q => m.goto r (.forget q rspMsg)

/-- `handleGetResponse` deletes the request. -/
def forget (m : Member) (r : ConnId) (q : ℕ) (rspMsg : GetRspMessage) : Member :=
  match m.pendingGet r with
  | none => m.fail .nilPendingGet
  | some pending =>
    { m.goto r (if rspMsg.data.length < 1 then .idle else .offer q rspMsg.data) with
      pendingGet := Function.update m.pendingGet r
        (some (Function.update pending rspMsg.pendingKey none)) }

/-- What a node that is up does. -/
def act (json : EncodingJson) (m : Member) : Step → Option Member
  | .link a => m.linkStep json a
  | .write w expiry => some { m with
      cache := m.cache.map (·.write w)
      fanOuts := m.fanOuts ++ [⟨.replicate (w.message expiry), none⟩] }
  | .get key randStr =>
    if ∀ store ∈ m.cache, store key = none then
      some { m with
        requests := m.requests ++ [⟨key, randStr, .asking⟩]
        fanOuts := m.fanOuts ++ [⟨.get m.requests.length, none⟩] }
    else none
  | .values i peers =>
    match m.fanOuts[i]? with
    | some ⟨job, none⟩ =>
      if (peers : Multiset ConnId) = m.links.node.remoteNodes.values then
        match job, peers with
        | .get q, [] => some ((m.setPeers i peers).setStatus q .failed)
        | _, _ => some (m.setPeers i peers)
      else none
    | _ => none
  | .push i =>
    match m.fanOuts[i]? with
    | some ⟨job, some (r :: rest)⟩ =>
      if (m.links.node.heap r).mode = clusterModePASSIVE then some (m.setPeers i rest)
      else some ((m.setPeers i rest).pushJob r job)
    | _ => none
  | .select i =>
    match m.fanOuts[i]? with
    | some ⟨.get q, some []⟩ =>
      if m.requests[q]?.map (·.status) = some .asking then some (m.setStatus q .waiting) else none
    | _ => none
  | .timeout q =>
    if m.requests[q]?.map (·.status) = some .waiting then some (m.setStatus q .failed) else none
  | .take w => (m.replication.take w).map fun pool ↦ { m with replication := pool }
  | .replicate w r msg =>
    if m.replication.holding w = some (r, msg) then
      some ({ m with replication := m.replication.put w }.sendMessage r msg)
    else none
  | .takeGet w =>
    if m.sending w = none then
      (m.getRequest.take w).map fun pool ↦ { m with getRequest := pool }
    else none
  | .getData w => m.getData w
  | .sendGet w r msg =>
    match m.sending w with
    | none => none
    | some (r', q) =>
      if r' = r ∧ m.requests[q]?.map (fun req ↦ getMessage req.key req.randStr) = some msg then
        some ({ m with sending := Function.update m.sending w none }.sendMessage r msg)
      else none
  | .store r =>
    match m.task r with
    | .called msg =>
      if msg.code = msgPUT ∨ msg.code = msgDEL then some (m.handleWrite json r msg) else none
    | _ => none
  | .cacheGet r key data =>
    match m.task r with
    | .called msg =>
      let reqMsg := json.getReq.deSerialize msg
      if msg.code = msgGETReq ∧ reqMsg.key = key then
        match m.cache with
        | none => some (m.fail .nilCache)
        | some store =>
          if (store key).getD [] = data then
            some (m.goto r (.respond ⟨0, reqMsg.pendingKey, data⟩))
          else none
      else none
    | _ => none
  | .respond r rsp =>
    if m.task r = .respond rsp then some ((m.goto r .idle).sendMessage r (.getRsp rsp)) else none
  | .load r =>
    match m.task r with
    | .called msg =>
      if msg.code = msgGETRsp then some (m.handleGetResponse r msg) else none
    | _ => none
  | .forget r =>
    match m.task r with
    | .forget q rspMsg => some (m.forget r q rspMsg)
    | _ => none
  | .offer r =>
    match m.task r with
    | .offer q data =>
      -- nobody receives from the channel unless the call is in its `select`
      if m.requests[q]?.map (·.status) = some .waiting then
        some ((m.goto r .idle).setStatus q (.replied data))
      else some (m.goto r .idle)
    | _ => none
  | .evict key =>
    m.cache.map fun store ↦ { m with cache := some (store.write (.delete key)) }

def step (json : EncodingJson) (m : Member) (a : Step) : Option Member :=
  if m.crash = none then m.act json a else none

/-- What a node is started with. -/
structure Config where
  id : Bytes
  servicePort : Bytes
  passive : Bool
  remote : ConnId → RemoteNodeConfig
  sync : ConnId → Bool
  replicationFactor : Int64

/-- What the links of the node are started with. -/
def Config.links (config : Config) : Links.Config where
  hello := ⟨config.id, config.servicePort,
    if config.passive then clusterModePASSIVE else clusterModeACTIVE⟩
  remote := config.remote
  sync := config.sync
  replicationFactor := config.replicationFactor

/-- A node that has just been started: `New`, or `NewPassiveClient`. -/
def new (config : Config) : Member where
  links := .new config.links
  cache := if config.passive then none else some fun _ ↦ none
  fanOuts := []
  requests := []
  replication := .empty
  getRequest := .empty
  sending _ := none
  pendingGet _ := some fun _ ↦ none
  task _ := .idle
  crash := none

/-- The step of the links that a step makes, if it makes one. -/
def proj : Step → Option Links.Step
  | .link a => some a
  | .replicate _ r msg => some (.send r msg)
  | .sendGet _ r msg => some (.send r msg)
  | .respond r rsp => some (.send r (.getRsp rsp))
  | _ => none

/-- Which steps read a message from a connection or write one to it. -/
def ports : Ports Step ConnId NodeWireMessage where
  input a := (proj a).bind Links.ports.input
  output a := (proj a).bind Links.ports.output

/-- A node on its own, which may read anything. -/
def system (json : EncodingJson) (config : Config) : TransitionSystem Member Step :=
  .ofStep (· = new config) (step json)

/-- A cluster. -/
def network {ν : Type} [DecidableEq ν] (json : EncodingJson) (peer : ν × ConnId → ν × ConnId)
    (config : ν → Config) :
    TransitionSystem (Network ν ConnId Member NodeWireMessage) (ν × Step) :=
  Network.system ports peer (fun _ ↦ step json) fun n ↦ new (config n)

/-! ## What each step does

`Act` is the inversion of `step`: a constructor for each thing that a member can do, with the reason
for which it can be done. -/

/-- The code of a message whose handler uses the cache. -/
def IsRequest (code : UInt16) : Prop := code = msgPUT ∨ code = msgDEL ∨ code = msgGETReq

/-- **What a step does**, with the reason for which it can be made. -/
inductive Act (json : EncodingJson) (m : Member) : Step → Member → Prop
  | link {a : Links.Step} {links : Links} (h : m.links.step json a = some links)
      (hmay : m.MayStep a) :
      Act json m (.link a) { m with
        links := links
        task := nextTask m.task a
        pendingGet := nextPendingGet m.pendingGet a }
  | write {w : Write} {expiry : UInt64} :
      Act json m (.write w expiry) { m with
        cache := m.cache.map (·.write w)
        fanOuts := m.fanOuts ++ [⟨.replicate (w.message expiry), none⟩] }
  | get {key randStr : Bytes} (h : ∀ store ∈ m.cache, store key = none) :
      Act json m (.get key randStr) { m with
        requests := m.requests ++ [⟨key, randStr, .asking⟩]
        fanOuts := m.fanOuts ++ [⟨.get m.requests.length, none⟩] }
  | values {i : ℕ} {job : Job} {peers : List ConnId} (h : m.fanOuts[i]? = some ⟨job, none⟩)
      (hpeers : (peers : Multiset ConnId) = m.links.node.remoteNodes.values) :
      Act json m (.values i peers) (m.setPeers i peers)
  | notFound {i q : ℕ} (h : m.fanOuts[i]? = some ⟨.get q, none⟩) :
      Act json m (.values i []) ((m.setPeers i []).setStatus q .failed)
  | skip {i : ℕ} {job : Job} {r : ConnId} {rest : List ConnId}
      (h : m.fanOuts[i]? = some ⟨job, some (r :: rest)⟩)
      (hmode : (m.links.node.heap r).mode = clusterModePASSIVE) :
      Act json m (.push i) (m.setPeers i rest)
  | push {i : ℕ} {job : Job} {r : ConnId} {rest : List ConnId}
      (h : m.fanOuts[i]? = some ⟨job, some (r :: rest)⟩)
      (hmode : (m.links.node.heap r).mode ≠ clusterModePASSIVE) :
      Act json m (.push i) ((m.setPeers i rest).pushJob r job)
  | select {i q : ℕ} {req : GetRequest} (h : m.fanOuts[i]? = some ⟨.get q, some []⟩)
      (hq : m.requests[q]? = some req) (hstatus : req.status = .asking) :
      Act json m (.select i) (m.setStatus q .waiting)
  | timeout {q : ℕ} {req : GetRequest} (hq : m.requests[q]? = some req)
      (hstatus : req.status = .waiting) : Act json m (.timeout q) (m.setStatus q .failed)
  | take {w : Fin 5} {pool : WorkerPool (Fin 5) ConnId NodeMessage}
      (h : m.replication.take w = some pool) :
      Act json m (.take w) { m with replication := pool }
  | replicate {w : Fin 5} {r : ConnId} {msg : NodeMessage}
      (h : m.replication.holding w = some (r, msg)) :
      Act json m (.replicate w r msg)
        ({ m with replication := m.replication.put w }.sendMessage r msg)
  | takeGet {w : Fin 5} {pool : WorkerPool (Fin 5) ConnId ℕ} (h : m.getRequest.take w = some pool) :
      Act json m (.takeGet w) { m with getRequest := pool }
  | getDataDown {w : Fin 5} {r : ConnId} {q : ℕ} (h : m.getRequest.holding w = some (r, q))
      (hstate : m.links.state r = .disconnected) :
      Act json m (.getData w) { m with getRequest := m.getRequest.put w }
  | getData {w : Fin 5} {r : ConnId} {q : ℕ} {req : GetRequest} {pending : Bytes → Option ℕ}
      (h : m.getRequest.holding w = some (r, q)) (hq : m.requests[q]? = some req)
      (hpending : m.pendingGet r = some pending) :
      Act json m (.getData w) { m with
        getRequest := m.getRequest.put w
        sending := Function.update m.sending w (some (r, q))
        pendingGet := Function.update m.pendingGet r
          (some (Function.update pending (req.key ++ req.randStr) (some q))) }
  | sendGet {w : Fin 5} {r : ConnId} {q : ℕ} {req : GetRequest} (h : m.sending w = some (r, q))
      (hq : m.requests[q]? = some req) :
      Act json m (.sendGet w r (getMessage req.key req.randStr))
        ({ m with sending := Function.update m.sending w none }.sendMessage r
          (getMessage req.key req.randStr))
  | store {r : ConnId} {msg : NodeWireMessage} {before store : Store} (h : m.task r = .called msg)
      (hcache : m.cache = some before) :
      Act json m (.store r) { m.goto r .idle with cache := some store }
  | cacheGet {r : ConnId} {msg : NodeWireMessage} {store : Store} (h : m.task r = .called msg)
      (hcode : msg.code = msgGETReq) (hcache : m.cache = some store) :
      Act json m (.cacheGet r (json.getReq.deSerialize msg).key
          ((store (json.getReq.deSerialize msg).key).getD []))
        (m.goto r (.respond ⟨0, (json.getReq.deSerialize msg).pendingKey,
          (store (json.getReq.deSerialize msg).key).getD []⟩))
  | respond {r : ConnId} {rsp : GetRspMessage} (h : m.task r = .respond rsp) :
      Act json m (.respond r rsp) ((m.goto r .idle).sendMessage r (.getRsp rsp))
  | unknown {r : ConnId} {msg : NodeWireMessage} (h : m.task r = .called msg) :
      Act json m (.load r) (m.goto r .idle)
  | load {r : ConnId} {msg : NodeWireMessage} {rspMsg : GetRspMessage} {q : ℕ}
      {pending : Bytes → Option ℕ} (h : m.task r = .called msg) (hcode : msg.code = msgGETRsp)
      (hrsp : GetRspMessage.deSerialize msg = .ok rspMsg) (hpending : m.pendingGet r = some pending)
      (hq : pending rspMsg.pendingKey = some q) :
      Act json m (.load r) (m.goto r (.forget q rspMsg))
  | forget {r : ConnId} {q : ℕ} {rspMsg : GetRspMessage} {pending : Bytes → Option ℕ}
      (h : m.task r = .forget q rspMsg) (hpending : m.pendingGet r = some pending) :
      Act json m (.forget r)
        { m.goto r (if rspMsg.data.length < 1 then .idle else .offer q rspMsg.data) with
          pendingGet := Function.update m.pendingGet r
            (some (Function.update pending rspMsg.pendingKey none)) }
  | offer {r : ConnId} {q : ℕ} {data : Bytes} (h : m.task r = .offer q data) :
      Act json m (.offer r) ((m.goto r .idle).setStatus q (.replied data))
  | refuse {r : ConnId} {q : ℕ} {data : Bytes} (h : m.task r = .offer q data) :
      Act json m (.offer r) (m.goto r .idle)
  | evict {key : Bytes} {store : Store} (h : m.cache = some store) :
      Act json m (.evict key) { m with cache := some (store.write (.delete key)) }
  | nilCache {a : Step} {r : ConnId} {msg : NodeWireMessage} (ha : proj a = none)
      (h : m.task r = .called msg) (hmsg : IsRequest msg.code) (hcache : m.cache = none) :
      Act json m a (m.fail .nilCache)
  | fail {a : Step} {crash : Crash} (ha : proj a = none) (hcrash : crash ≠ .nilCache) :
      Act json m a (m.fail crash)

section

variable {json : EncodingJson} {m m' : Member} {a : Step}

/-- **What a step does.** -/
theorem act_of_act (h : m.act json a = some m') : Act json m a m' := by
  cases a with
  | link a =>
    rw [act, linkStep] at h
    split_ifs at h with hmay
    obtain ⟨links, hlinks, rfl⟩ := Option.map_eq_some_iff.mp h
    exact .link hlinks hmay
  | write w expiry =>
    obtain rfl := Option.some.inj h
    exact .write
  | get key randStr =>
    rw [act] at h
    split_ifs at h with hnone
    obtain rfl := Option.some.inj h
    exact .get hnone
  | values i peers =>
    rw [act] at h
    split at h
    · next job hi =>
      split_ifs at h with hpeers
      split at h
      · obtain rfl := Option.some.inj h
        exact .notFound hi
      · obtain rfl := Option.some.inj h
        exact .values hi hpeers
    · cases h
  | push i =>
    rw [act] at h
    split at h
    · next job r rest hi =>
      split_ifs at h with hmode
      · obtain rfl := Option.some.inj h
        exact .skip hi hmode
      · obtain rfl := Option.some.inj h
        exact .push hi hmode
    · cases h
  | select i =>
    rw [act] at h
    split at h
    · next q hi =>
      split_ifs at h with hstatus
      obtain rfl := Option.some.inj h
      obtain ⟨req, hq, hstatus⟩ := Option.map_eq_some_iff.mp hstatus
      exact .select hi hq hstatus
    · cases h
  | timeout q =>
    rw [act] at h
    split_ifs at h with hstatus
    obtain rfl := Option.some.inj h
    obtain ⟨req, hq, hstatus⟩ := Option.map_eq_some_iff.mp hstatus
    exact .timeout hq hstatus
  | take w =>
    obtain ⟨pool, hpool, rfl⟩ := Option.map_eq_some_iff.mp h
    exact .take hpool
  | replicate w r msg =>
    rw [act] at h
    split_ifs at h with hholding
    obtain rfl := Option.some.inj h
    exact .replicate hholding
  | takeGet w =>
    rw [act] at h
    split_ifs at h with hsending
    obtain ⟨pool, hpool, rfl⟩ := Option.map_eq_some_iff.mp h
    exact .takeGet hpool
  | getData w =>
    rw [act, Member.getData] at h
    split at h
    · cases h
    · next r q hholding =>
      split_ifs at h with hstate
      · obtain rfl := Option.some.inj h
        exact .getDataDown hholding hstate
      · split at h
        · cases h
        · obtain rfl := Option.some.inj h
          exact .fail rfl (by simp)
        · next req pending hq hpending =>
          obtain rfl := Option.some.inj h
          exact .getData hholding hq hpending
  | sendGet w r msg =>
    rw [act] at h
    split at h
    · cases h
    · next r' q hsending =>
      split_ifs at h with hguard
      obtain ⟨rfl, hmsg⟩ := hguard
      obtain ⟨req, hq, rfl⟩ := Option.map_eq_some_iff.mp hmsg
      obtain rfl := Option.some.inj h
      exact .sendGet hsending hq
  | store r =>
    rw [act] at h
    split at h
    · next msg hcalled =>
      split_ifs at h with hcode
      obtain rfl := Option.some.inj h
      rw [handleWrite]
      split
      · next hcache =>
        exact .nilCache rfl hcalled (hcode.imp_right .inl) hcache
      · next before hcache =>
        split
        · exact .fail rfl (by simp)
        · exact .store hcalled hcache
    · cases h
  | cacheGet r key data =>
    rw [act] at h
    split at h
    · next msg hcalled =>
      dsimp only at h
      split_ifs at h with hguard
      obtain ⟨hcode, rfl⟩ := hguard
      split at h
      · next hcache =>
        obtain rfl := Option.some.inj h
        exact .nilCache rfl hcalled (.inr (.inr hcode)) hcache
      · next store hcache =>
        split_ifs at h with hdata
        subst hdata
        obtain rfl := Option.some.inj h
        exact .cacheGet hcalled hcode hcache
    · cases h
  | respond r rsp =>
    rw [act] at h
    split_ifs at h with hrespond
    obtain rfl := Option.some.inj h
    exact .respond hrespond
  | load r =>
    rw [act] at h
    split at h
    · next msg hcalled =>
      split_ifs at h with hcode
      obtain rfl := Option.some.inj h
      rw [handleGetResponse]
      split
      · exact .fail rfl (by simp)
      · exact .fail rfl (by simp)
      · next rspMsg pending hrsp hpending =>
        split
        · exact .unknown hcalled
        · next q hq => exact .load hcalled hcode hrsp hpending hq
    · cases h
  | forget r =>
    rw [act] at h
    split at h
    · next q rspMsg hforget =>
      obtain rfl := Option.some.inj h
      rw [Member.forget]
      split
      · exact .fail rfl (by simp)
      · next pending hpending => exact .forget hforget hpending
    · cases h
  | offer r =>
    rw [act] at h
    split at h
    · next q data hoffer =>
      split_ifs at h with hstatus
      · obtain rfl := Option.some.inj h
        exact .offer hoffer
      · obtain rfl := Option.some.inj h
        exact .refuse hoffer
    · cases h
  | evict key =>
    obtain ⟨store, hcache, rfl⟩ := Option.map_eq_some_iff.mp h
    exact .evict hcache

theorem step_act (h : m.step json a = some m') : Act json m a m' := by
  rw [step] at h
  split_ifs at h
  exact act_of_act h

theorem Act.link_step {b : Links.Step} (h : Act json m (.link b) m') :
    m.links.step json b = some m'.links := by
  cases h with
  | link h hmay => exact h
  | nilCache ha h hmsg hcache => cases ha
  | fail ha hcrash => cases ha

/-- A handler gets something to do when it is called with a message. -/
theorem nextTask_apply (task : ConnId → Task) (a : Links.Step) (r : ConnId) :
    nextTask task a r = task r ∨
      ∃ msg, a = .handle r msg ∧ Links.IsData msg ∧ nextTask task a r = .called msg := by
  cases a with
  | handle r' msg =>
    rw [nextTask]
    split_ifs with hmsg
    · by_cases hr : r = r'
      · subst hr
        exact .inr ⟨msg, rfl, hmsg, Function.update_self ..⟩
      · exact .inl (Function.update_of_ne hr _ _)
    · exact .inl rfl
  | _ => exact .inl rfl

theorem task_goto (m : Member) (r' r : ConnId) (task : Task) :
    (m.goto r' task).task r = if r = r' then task else m.task r :=
  Function.update_apply ..

/-- What the handler of a connection has to do after a step, and for which reason. -/
inductive Turn (json : EncodingJson) (m : Member) (a : Step) (r : ConnId) : Task → Prop
  | same {task : Task} (h : m.task r = task) : Turn json m a r task
  | idle : Turn json m a r .idle
  | called {msg : NodeWireMessage} (ha : a = .link (.handle r msg)) (hmsg : Links.IsData msg) :
      Turn json m a r (.called msg)
  | cacheGet {msg : NodeWireMessage} {store : Store} (h : m.task r = .called msg)
      (hcode : msg.code = msgGETReq) (hcache : m.cache = some store)
      (ha : a = .cacheGet r (json.getReq.deSerialize msg).key
        ((store (json.getReq.deSerialize msg).key).getD [])) :
      Turn json m a r (.respond ⟨0, (json.getReq.deSerialize msg).pendingKey,
        (store (json.getReq.deSerialize msg).key).getD []⟩)
  | load {msg : NodeWireMessage} {rspMsg : GetRspMessage} {q : ℕ} {pending : Bytes → Option ℕ}
      (h : m.task r = .called msg) (hcode : msg.code = msgGETRsp)
      (hrsp : GetRspMessage.deSerialize msg = .ok rspMsg) (hpending : m.pendingGet r = some pending)
      (hq : pending rspMsg.pendingKey = some q) : Turn json m a r (.forget q rspMsg)
  | forget {q : ℕ} {rspMsg : GetRspMessage} (h : m.task r = .forget q rspMsg)
      (hdata : rspMsg.data ≠ []) : Turn json m a r (.offer q rspMsg.data)

theorem Turn.goto {r' r : ConnId} {task : Task} (h : Turn json m a r' task) :
    Turn json m a r ((m.goto r' task).task r) := by
  rw [task_goto]
  split_ifs with hr
  · exact hr ▸ h
  · exact .same rfl

/-- **What a step does to the handler of a connection.** -/
theorem Act.turn (h : Act json m a m') (r : ConnId) : Turn json m a r (m'.task r) := by
  cases h with
  | @link a links h hmay =>
    rcases nextTask_apply m.task a r with htask | ⟨msg, rfl, hmsg, htask⟩
    · exact .same htask.symm
    · dsimp only
      rw [htask]
      exact .called rfl hmsg
  | respond h | unknown h | offer h | refuse h => exact Turn.idle.goto
  | store h hcache => exact Turn.idle.goto
  | cacheGet h hcode hcache => exact (Turn.cacheGet h hcode hcache rfl).goto
  | load h hcode hrsp hpending hq => exact (Turn.load h hcode hrsp hpending hq).goto
  | forget h hpending =>
    refine Turn.goto ?_
    split_ifs with hdata
    · exact .idle
    · exact .forget h (by simpa [List.length_pos_iff] using hdata)
  | @push i job => cases job <;> exact .same rfl
  | _ => exact .same rfl

/-- A handler is called with a message that was dispatched. -/
theorem Act.called {r : ConnId} {msg : NodeWireMessage} (h : Act json m a m')
    (hr : m'.task r = .called msg) : m.task r = .called msg ∨ a = .link (.handle r msg) := by
  have hturn := h.turn r
  rw [hr] at hturn
  cases hturn with
  | same h => exact .inl h
  | called ha hmsg => exact .inr ha

/-- A node has a cache or not from the beginning. -/
theorem Act.cache (h : Act json m a m') : m'.cache = none ↔ m.cache = none := by
  cases h with
  | write => simp
  | store h hcache => simp [hcache]
  | evict h => simp [h]
  | @push i job => cases job <;> rfl
  | _ => rfl

/-- What brings a node down that uses a `nil` cache. -/
theorem Act.nilCache_of_crash (h : Act json m a m') (hcrash : m'.crash = some .nilCache) :
    m.crash = some .nilCache ∨
      ∃ r msg, m.task r = .called msg ∧ IsRequest msg.code ∧ m.cache = none := by
  cases h with
  | nilCache ha h hmsg hcache => exact .inr ⟨_, _, h, hmsg, hcache⟩
  | fail ha hne => exact absurd (Option.some.inj hcrash) hne
  | @push i job => cases job <;> exact .inl hcrash
  | _ => exact .inl hcrash

end

/-! ## A member is made of its links

What goes out on a connection must be something that `Links` allows to be sent there.  For the
messages of the calls this needs an invariant: they go to connections that were found in the
registry, and these have been accepted (`Wired`). -/

/-- A message that `Put` or `Delete` sends. -/
def IsReplicated (msg : NodeMessage) : Prop :=
  ∃ (w : Write) (expiry : UInt64), msg = w.message expiry

theorem filterMap_proj_of_some {a : Step} {b : Links.Step} (h : proj a = some b) :
    [a].filterMap proj = [b] := by
  simp [h]

theorem filterMap_proj_of_none {a : Step} (h : proj a = none) : [a].filterMap proj = [] := by
  simp [h]

/-- A call sends to connections that were registered. -/
structure Routed (c : Links) (f : FanOut) : Prop where
  peers : ∀ peers, f.peers = some peers → ∀ r ∈ peers, (c.link r).accepted = true
  job : ∀ msg, f.job = .replicate msg → IsReplicated msg

/-- What the goroutines have to send, and where it goes. -/
structure Destined (P : ConnId × NodeMessage → Prop) (Q : ConnId × ℕ → Prop) (m : Member) :
    Prop where
  replication : ∀ x ∈ m.replication.contents, P x
  getRequest : ∀ x ∈ m.getRequest.contents, Q x
  sending : ∀ w x, m.sending w = some x → Q x

/-- Everything that is sent goes to a connection that was registered, and a handler that has
something to do is running. -/
structure Wired (m : Member) : Prop where
  registered : ∀ id r, m.links.node.remoteNodes.get id = some r → (m.links.link r).accepted = true
  fanOuts : ∀ f ∈ m.fanOuts, Routed m.links f
  destined : m.Destined (fun x ↦ (m.links.link x.1).accepted = true ∧ IsReplicated x.2)
    fun x ↦ (m.links.link x.1).accepted = true
  busy : ∀ r, m.task r ≠ .idle → (m.links.link r).handler = .busy

/-- A step is a step of the links, or leaves them alone. -/
def Projects (json : EncodingJson) (m : Member) (a : Step) (m' : Member) : Prop :=
  (∃ b, proj a = some b ∧ m.links.step json b = some m'.links) ∨
    proj a = none ∧ m'.links = m.links

section

variable {json : EncodingJson} {m m' : Member} {a : Step} {r : ConnId}

theorem step_send {c : Links} {msg : NodeMessage} (h : Links.MaySend (c.link r) msg) :
    c.step json (.send r msg) = some (c.modifyNode r (·.sendMessage msg)) :=
  if_pos h

theorem maySend_of_isReplicated {l : Link} {msg : NodeMessage} (h : IsReplicated msg)
    (haccepted : l.accepted = true) : Links.MaySend l msg := by
  obtain ⟨w, expiry, rfl⟩ := h
  cases w <;> exact haccepted

theorem Wired.projects (hw : m.Wired) (h : Act json m a m') : Projects json m a m' := by
  cases h with
  | link h hmay => exact .inl ⟨_, rfl, h⟩
  | replicate h =>
    obtain ⟨haccepted, hmsg⟩ := hw.destined.replication _ (WorkerPool.mem_contents_of_holding h)
    exact .inl ⟨_, rfl, step_send (maySend_of_isReplicated hmsg haccepted)⟩
  | sendGet h hq => exact .inl ⟨_, rfl, step_send (hw.destined.sending _ _ h)⟩
  | respond h => exact .inl ⟨_, rfl, step_send (hw.busy _ (by rw [h]; simp))⟩
  | nilCache ha h hmsg hcache => exact .inr ⟨ha, rfl⟩
  | fail ha hcrash => exact .inr ⟨ha, rfl⟩
  | @push i job r rest h hmode => exact .inr ⟨rfl, by cases job <;> rfl⟩
  | _ => exact .inr ⟨rfl, rfl⟩

theorem Projects.accepted (h : Projects json m a m') (hr : (m.links.link r).accepted = true) :
    (m'.links.link r).accepted = true := by
  rcases h with ⟨b, -, h⟩ | ⟨-, h⟩
  · rw [Links.step_accepted h, hr, Bool.true_or]
  · rw [h, hr]

/-- A connection in the registry has been accepted. -/
theorem Wired.registered_step (hw : m.Wired) (h : Projects json m a m') {id : Bytes}
    (hid : m'.links.node.remoteNodes.get id = some r) : (m'.links.link r).accepted = true := by
  rcases h with ⟨b, hb, h⟩ | ⟨-, h⟩
  · rw [Links.step_accepted h, Bool.or_eq_true]
    rw [(Links.step_node h).2] at hid
    cases b with
    | add r' =>
      rw [Links.registry, SliceList.get_add] at hid
      split_ifs at hid
      · obtain rfl := Option.some.inj hid
        exact .inr (by simp)
      · exact .inl (hw.registered id r hid)
    | tearDown r' =>
      rw [Links.registry, SliceList.get_remove] at hid
      split_ifs at hid
      exact .inl (hw.registered id r hid)
    | _ => exact .inl (hw.registered id r hid)
  · rw [h] at hid ⊢
    exact hw.registered id r hid

theorem mem_modify {α : Type} {l : List α} {i : ℕ} {g : α → α} {x : α} (h : x ∈ l.modify i g) :
    x ∈ l ∨ ∃ y, l[i]? = some y ∧ x = g y := by
  obtain ⟨j, hj⟩ := List.mem_iff_getElem?.mp h
  rw [List.getElem?_modify] at hj
  obtain ⟨y, hy, rfl⟩ := Option.map_eq_some_iff.mp hj
  split_ifs with hij
  · exact .inr ⟨y, hij ▸ hy, rfl⟩
  · exact .inl (List.mem_of_getElem? hy)

theorem Wired.fanOuts_step (hw : m.Wired) (h : Act json m a m') (hp : Projects json m a m') :
    ∀ f ∈ m'.fanOuts, Routed m'.links f := by
  have hmono : ∀ f, Routed m.links f → Routed m'.links f := fun f hf ↦
    ⟨fun peers hpeers r hr ↦ hp.accepted (hf.peers peers hpeers r hr), hf.job⟩
  have hkeep : ∀ f ∈ m.fanOuts, Routed m'.links f := fun f hf ↦ hmono f (hw.fanOuts f hf)
  -- a call goes on with peers that have been accepted
  have hset : ∀ {i : ℕ} {job : Job} {before : Option (List ConnId)} {peers : List ConnId},
      m.fanOuts[i]? = some ⟨job, before⟩ → (∀ r ∈ peers, (m.links.link r).accepted = true) →
      ∀ f ∈ m.fanOuts.modify i (fun f ↦ { f with peers := some peers }), Routed m'.links f := by
    intro i job before peers hi hpeers f hf
    rcases mem_modify hf with hf | ⟨f', hf', rfl⟩
    · exact hkeep f hf
    · obtain rfl := Option.some.inj (hi.symm.trans hf')
      refine ⟨?_, (hkeep _ (List.mem_of_getElem? hi)).job⟩
      rintro _ ⟨⟩ r hr
      exact hp.accepted (hpeers r hr)
  cases h with
  | write =>
    intro f hf
    rcases List.mem_append.mp hf with hf | hf
    · exact hkeep f hf
    · obtain rfl := List.mem_singleton.mp hf
      refine ⟨by rintro _ ⟨⟩, ?_⟩
      rintro _ ⟨⟩
      exact ⟨_, _, rfl⟩
  | get hnone =>
    intro f hf
    rcases List.mem_append.mp hf with hf | hf
    · exact hkeep f hf
    · obtain rfl := List.mem_singleton.mp hf
      exact ⟨by rintro _ ⟨⟩, by rintro _ ⟨⟩⟩
  | values hi hpeers =>
    refine hset hi fun r hr ↦ ?_
    obtain ⟨id, hid⟩ := SliceList.mem_values.mp (hpeers ▸ Multiset.mem_coe.mpr hr)
    exact hw.registered id r hid
  | notFound hi => exact hset hi (by simp)
  | skip hi hmode =>
    exact hset hi fun r hr ↦
      (hw.fanOuts _ (List.mem_of_getElem? hi)).peers _ rfl r (List.mem_cons_of_mem _ hr)
  | @push i job r rest hi hmode =>
    have hrest := hset hi fun r hr ↦
      (hw.fanOuts _ (List.mem_of_getElem? hi)).peers _ rfl r (List.mem_cons_of_mem _ hr)
    cases job <;> exact hrest
  | _ => exact hkeep

section

variable {P : ConnId × NodeMessage → Prop} {Q : ConnId × ℕ → Prop}

theorem Destined.mono {P' : ConnId × NodeMessage → Prop} {Q' : ConnId × ℕ → Prop}
    (hd : m.Destined P Q) (hP : ∀ x, P x → P' x) (hQ : ∀ x, Q x → Q' x) : m.Destined P' Q' where
  replication x hx := hP x (hd.replication x hx)
  getRequest x hx := hQ x (hd.getRequest x hx)
  sending w x hx := hQ x (hd.sending w x hx)

theorem Destined.push (hd : m.Destined P Q) {job : Job}
    (hjob : ∀ msg, job = .replicate msg → P (r, msg)) (hget : ∀ q, job = .get q → Q (r, q)) :
    (m.pushJob r job).Destined P Q := by
  cases job with
  | replicate msg =>
    refine ⟨fun x hx ↦ ?_, hd.getRequest, hd.sending⟩
    simp only [pushJob, WorkerPool.contents_push, List.mem_append, List.mem_singleton] at hx
    rcases hx with hx | rfl
    · exact hd.replication x hx
    · exact hjob msg rfl
  | get q =>
    refine ⟨hd.replication, fun x hx ↦ ?_, hd.sending⟩
    simp only [pushJob, WorkerPool.contents_push, List.mem_append, List.mem_singleton] at hx
    rcases hx with hx | rfl
    · exact hd.getRequest x hx
    · exact hget q rfl

/-- **What the goroutines have to send was pushed by a call**, to a connection that it found not to
be passive. -/
theorem Destined.step (hd : m.Destined P Q) (h : Act json m a m')
    (hpush : ∀ (i : ℕ) (job : Job) (r : ConnId) (rest : List ConnId),
      m.fanOuts[i]? = some ⟨job, some (r :: rest)⟩ →
      (m.links.node.heap r).mode ≠ clusterModePASSIVE →
      (∀ msg, job = .replicate msg → P (r, msg)) ∧ ∀ q, job = .get q → Q (r, q)) :
    m'.Destined P Q := by
  cases h with
  | @push i job r rest hi hmode =>
    obtain ⟨hjob, hget⟩ := hpush i job r rest hi hmode
    have hd' : (m.setPeers i rest).Destined P Q := ⟨hd.replication, hd.getRequest, hd.sending⟩
    exact hd'.push hjob hget
  | take h =>
    refine ⟨fun x hx ↦ hd.replication x ?_, hd.getRequest, hd.sending⟩
    rwa [← WorkerPool.contents_take h]
  | replicate h =>
    exact ⟨fun x hx ↦ hd.replication x (WorkerPool.contents_put_subset h hx), hd.getRequest,
      hd.sending⟩
  | takeGet h =>
    refine ⟨hd.replication, fun x hx ↦ hd.getRequest x ?_, hd.sending⟩
    rwa [← WorkerPool.contents_take h]
  | getDataDown h hstate =>
    exact ⟨hd.replication, fun x hx ↦ hd.getRequest x (WorkerPool.contents_put_subset h hx),
      hd.sending⟩
  | getData h hq hpending =>
    refine ⟨hd.replication, fun x hx ↦ hd.getRequest x (WorkerPool.contents_put_subset h hx),
      fun w x hx ↦ ?_⟩
    simp only [Function.update_apply] at hx
    split_ifs at hx
    · obtain rfl := Option.some.inj hx
      exact hd.getRequest _ (WorkerPool.mem_contents_of_holding h)
    · exact hd.sending w x hx
  | sendGet h hq =>
    refine ⟨hd.replication, hd.getRequest, fun w x hx ↦ ?_⟩
    simp only [sendMessage, Function.update_apply] at hx
    split_ifs at hx
    exact hd.sending w x hx
  | _ => exact ⟨hd.replication, hd.getRequest, hd.sending⟩

end

theorem Wired.busy_link (hw : m.Wired) {a : Links.Step} {links : Links}
    (h : m.links.step json a = some links) (hmay : m.MayStep a) (hr : nextTask m.task a r ≠ .idle) :
    (links.link r).handler = .busy := by
  rcases nextTask_apply m.task a r with htask | ⟨msg, rfl, hmsg, -⟩
  · rw [htask] at hr
    refine (Links.step_busy h (hw.busy r hr)).resolve_right ?_
    rintro rfl
    exact hr hmay
  · exact (Links.step_move h).busy_of_handle hmsg

/-- A handler goes on if it had something to do. -/
theorem task_goto_ne_idle {r' : ConnId} {task : Task} (hr : (m.goto r' task).task r ≠ .idle)
    (htask : task = .idle ∨ m.task r' ≠ .idle) : m.task r ≠ .idle := by
  rw [task_goto] at hr
  split_ifs at hr with h
  · exact h ▸ htask.resolve_left hr
  · exact hr

/-- A handler that has something to do is running. -/
theorem Wired.busy_step (hw : m.Wired) (h : Act json m a m') (hr : m'.task r ≠ .idle) :
    (m'.links.link r).handler = .busy := by
  cases h with
  | link h hmay => exact hw.busy_link h hmay hr
  | respond h | unknown h | offer h | refuse h =>
    exact hw.busy r (task_goto_ne_idle hr (.inl rfl))
  | store h hcache => exact hw.busy r (task_goto_ne_idle hr (.inl rfl))
  | cacheGet h hcode hcache => exact hw.busy r (task_goto_ne_idle hr (.inr (by simp [h])))
  | load h hcode hrsp hpending hq => exact hw.busy r (task_goto_ne_idle hr (.inr (by simp [h])))
  | forget h hpending => exact hw.busy r (task_goto_ne_idle hr (.inr (by simp [h])))
  | @push i job => cases job <;> exact hw.busy r hr
  | _ => exact hw.busy r hr

theorem Wired.step (hw : m.Wired) (h : Act json m a m') : m'.Wired := by
  have hp := hw.projects h
  refine ⟨fun id r ↦ hw.registered_step hp, hw.fanOuts_step h hp, ?_, fun r ↦ hw.busy_step h⟩
  refine (hw.destined.mono (fun x hx ↦ hx.imp_left hp.accepted) fun x hx ↦ hp.accepted hx).step h ?_
  intro i job r rest hi hmode
  have hf := hw.fanOuts _ (List.mem_of_getElem? hi)
  have hr := hp.accepted (hf.peers _ rfl r List.mem_cons_self)
  exact ⟨fun msg hjob ↦ ⟨hr, hf.job msg hjob⟩, fun _ _ ↦ hr⟩

/-- A message that has nothing to do with values. -/
def IsControl : NodeMessage → Prop
  | .put _ | .delete _ | .getReq _ | .getRsp _ => False
  | _ => True

/-- **What a step sends**, and for whom. -/
inductive Posting (m : Member) (r : ConnId) : NodeMessage → Prop
  | control {msg : NodeMessage} (h : IsControl msg) : Posting m r msg
  | replicate {w : Fin 5} {msg : NodeMessage} (h : m.replication.holding w = some (r, msg)) :
      Posting m r msg
  | sendGet {w : Fin 5} {q : ℕ} {req : GetRequest} (h : m.sending w = some (r, q))
      (hq : m.requests[q]? = some req) : Posting m r (getMessage req.key req.randStr)
  | respond {rsp : GetRspMessage} (h : m.task r = .respond rsp) : Posting m r (.getRsp rsp)

theorem isControl_of_mem_posts {c : Links} {b : Links.Step} {msg : NodeMessage}
    (hmay : m.MayStep b) (hmsg : msg ∈ c.posts b) : IsControl msg := by
  cases b with
  | send r msg' =>
    obtain rfl := List.mem_singleton.mp hmsg
    obtain rfl : msg = .ping := hmay
    trivial
  | sendVerify r | reply r =>
    obtain rfl := List.mem_singleton.mp hmsg
    trivial
  | handle r msg' | syncReq r =>
    rw [Links.posts] at hmsg
    split_ifs at hmsg
    · obtain rfl := List.mem_singleton.mp hmsg
      trivial
    · cases hmsg
  | sendSyncResponse r =>
    simp only [Links.posts] at hmsg
    split at hmsg
    · split_ifs at hmsg
      · cases hmsg
      · obtain rfl := List.mem_singleton.mp hmsg
        trivial
    · cases hmsg
  | _ => cases hmsg

theorem Act.posting {b : Links.Step} {msg : NodeMessage} (h : Act json m a m')
    (hb : proj a = some b) (hmsg : msg ∈ m.links.posts b) : Posting m b.conn msg := by
  cases h with
  | link h hmay =>
    obtain rfl := Option.some.inj hb
    exact .control (isControl_of_mem_posts hmay hmsg)
  | replicate h =>
    obtain rfl := Option.some.inj hb
    obtain rfl := List.mem_singleton.mp hmsg
    exact .replicate h
  | sendGet h hq =>
    obtain rfl := Option.some.inj hb
    obtain rfl := List.mem_singleton.mp hmsg
    exact .sendGet h hq
  | respond h =>
    obtain rfl := Option.some.inj hb
    obtain rfl := List.mem_singleton.mp hmsg
    exact .respond h
  | nilCache ha h hmsg hcache => simp [ha] at hb
  | fail ha hcrash => simp [ha] at hb
  | _ => cases hb

theorem run_wired {config : Config} {as : List Step} (hr : (system json config).Run as m) :
    m.Wired := by
  refine hr.invariant ?_ fun m a m' hw h ↦ hw.step (step_act h)
  rintro _ rfl
  constructor
  · intro id r h
    cases h
  · simp [new]
  · exact ⟨by simp [new, WorkerPool.empty, WorkerPool.contents],
      by simp [new, WorkerPool.empty, WorkerPool.contents], by simp [new]⟩
  · exact fun r h ↦ absurd rfl h

/-- **The links of a node run on their own.** -/
theorem run_links_node {config : Config} {as : List Step} (hr : (system json config).Run as m) :
    (Links.system json config.links).Run (as.filterMap proj) m.links := by
  induction hr with
  | start h =>
    obtain rfl := h
    exact .start rfl
  | @snoc as m m' a hr h ih =>
    rw [List.filterMap_append]
    rcases (run_wired hr).projects (step_act h) with ⟨b, hb, hlinks⟩ | ⟨hb, hlinks⟩
    · rw [filterMap_proj_of_some hb]
      exact .snoc ih hlinks
    · rw [filterMap_proj_of_none hb, List.append_nil, hlinks]
      exact ih

/-- A handler is called with a message that was read. -/
theorem mem_received_of_called {config : Config} {as : List Step} {msg : NodeWireMessage}
    (hr : (system json config).Run as m) (hmsg : m.task r = .called msg) :
    msg ∈ Links.ports.received r (as.filterMap proj) := by
  induction hr with
  | start h =>
    obtain rfl := h
    cases hmsg
  | snoc hr h ih =>
    rw [List.filterMap_append]
    refine Ports.mem_received_append ?_ _
    rcases (step_act h).called hmsg with hmsg | rfl
    · exact ih hmsg
    · exact Links.mem_received_of_handle (run_links_node hr) (step_act h).link_step

/-- A passive node has no cache. -/
theorem cache_eq_none_iff {config : Config} {as : List Step} (hr : (system json config).Run as m) :
    m.cache = none ↔ config.passive = true := by
  refine hr.invariant ?_ fun m a m' hm h ↦ (step_act h).cache.trans hm
  rintro _ rfl
  simp [new]

/-- **What a member sends**, on one connection. -/
theorem step_sends {p : NodeMessage → Prop} {as : List Step} (hw : m.Wired) (h : Act json m a m')
    (hs : Links.Sends json p r (as.filterMap proj) (m.links.node.heap r))
    (hposting : ∀ msg, Posting m r msg → p msg) :
    Links.Sends json p r ((as ++ [a]).filterMap proj) (m'.links.node.heap r) := by
  rw [List.filterMap_append]
  rcases hw.projects h with ⟨b, hb, hlinks⟩ | ⟨hb, hlinks⟩
  · rw [filterMap_proj_of_some hb]
    refine Links.step_sends hs hlinks fun hr msg hmsg ↦ hposting msg ?_
    rw [hr]
    exact h.posting hb hmsg
  · rw [filterMap_proj_of_none hb, List.append_nil, hlinks]
    exact hs

end

section

variable {ν : Type} [DecidableEq ν] {json : EncodingJson} {peer : ν × ConnId → ν × ConnId}
  {config : ν → Config} {ls : List (ν × Step)} {s : Network ν ConnId Member NodeWireMessage}

/-- **The links of a cluster are a network of links.** -/
theorem run_links (hr : (network json peer config).Run ls s) :
    (Links.network json peer fun n ↦ (config n).links).Run (Network.mapActs proj ls)
      (s.map Member.links) :=
  Network.run_map (fun _ ↦ rfl) (fun _ ↦ rfl)
    (fun _ _ _ _ _ hrun h ↦ (run_wired hrun).projects (step_act h)) hr

/-- A message that a node has read was sent by the node at the other end. -/
theorem mem_sent_of_mem_received (hpeer : ∀ e, peer (peer e) = e)
    (hr : (network json peer config).Run ls s) {e : ν × ConnId} {msg : NodeWireMessage}
    (hmsg : msg ∈ Links.ports.received e.2 ((Network.acts e.1 ls).filterMap proj)) :
    msg ∈ Links.ports.sent (peer e).2 ((Network.acts (peer e).1 ls).filterMap proj) := by
  rw [← Network.acts_mapActs] at hmsg ⊢
  exact Network.mem_sent_of_mem_received hpeer (run_links hr) hmsg

end

/-! ## Two nodes -/

/-- What two nodes are started with. -/
def pairConfig (passive : Bool → Bool) (n : Bool) : Config :=
  ⟨if n then [97] else [98], if n then [49] else [50], passive n, fun _ ↦ ⟨[], [], [], false⟩,
    fun _ ↦ false, 1⟩

/-- A message of the other node comes to the node `n`, and its handler is called. -/
def pass (n : Bool) (msg : NodeMessage) : List (Bool × Step) :=
  let w := msg.serialize (.plain Utf8.repair)
  [(!n, .link (.transmit 0 w)), (n, .link (.loop 0)), (n, .link (.read 0 w)),
    (n, .link (.filter 0)), (n, .link (.queue 0)), (n, .link (.handle 0 w))]

/-- The node `n` accepts the other one. -/
def greet (passive : Bool → Bool) (n : Bool) : List (Bool × Step) :=
  [(!n, .link (.sendVerify 0))] ++ pass n (.verify (pairConfig passive !n).links.hello) ++
    [(n, .link (.contains 0)), (n, .link (.add 0)), (n, .link (.accept 0)),
    (n, .link (.reply 0))] ++ pass (!n) .verifyOK

/-- The two nodes accept each other. -/
def meet (passive : Bool → Bool) : List (Bool × Step) := greet passive false ++ greet passive true

end Member
end ClusteredBigCache
