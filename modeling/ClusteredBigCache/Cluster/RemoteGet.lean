import ClusteredBigCache.Cluster.Reply

/-!
# Asking another node

A passive client has no cache, so `Get` asks the nodes that it is connected to.  Here a client is
connected to one node, which is active and has a value for the key in its cache, and nothing else is
going on: the network is `Quiet`.

`exchange` is everything that then happens when `Get` is called at the client, up to the time at
which the response has been handled: the call asks the node and comes to its `select` (`ask`), the
request is delivered (`deliver`), `handleGetRequest` looks the key up and responds (`answer`), the
response is delivered, and `handleGetResponse` matches it with the request and offers the data to
the call (`takeUp`).  Each of them is run from any state in which the connection is `Resting`, and
leaves the connection so.

A response says with empty data that the key was not found, and `handleGetResponse` drops it.  So
the client gets the value that the node has if and only if the value is not empty
(`remote_get_agrees_iff`); with an empty value the call times out (`empty_value_not_found`).
-/

set_option autoImplicit false

namespace ClusteredBigCache

/-! ## One message on a connection -/

namespace Links

variable {json : EncodingJson} {c : Links} {r : ConnId}

/-- A connection is up, and its goroutines at this end have nothing to do. -/
@[mk_iff]
structure Resting (c : Links) (r : ConnId) : Prop where
  state : c.state r = .connected
  consumer : (c.link r).consumer = .reading
  handler : (c.link r).handler = .waiting
  inbound : (c.link r).inboundMsgQueue = []
  outbound : (c.node.heap r).outboundMsgQueue = []

instance (c : Links) (r : ConnId) : Decidable (c.Resting r) := decidable_of_iff' _ (resting_iff c r)

/-- A handler that was called and returns leaves its goroutine as it was. -/
theorem goto_busy_goto_waiting (h : (c.link r).handler = .waiting) :
    (c.goto r .busy).goto r .waiting = c := by
  have hlink : { c.link r with handler := .waiting } = c.link r := by rw [← h]
  simp [goto, modify, hlink]

theorem dispatch_of_isData {msg : NodeWireMessage} (h : IsData msg) :
    c.dispatch json r msg = c.goto r .busy := by
  rcases h with h | h | h | h <;> simp [dispatch, h] <;> rfl

/-- **A message that is sent is written to the connection.** -/
theorem Resting.step_transmit (h : c.Resting r) (msg : NodeMessage) :
    (c.modifyNode r (·.sendMessage msg)).step json (.transmit r (msg.serialize json)) =
      some c := by
  have hstate : (c.node.heap r).state = .connected := h.state
  have hrest : ⟨(c.node.heap r).config, (c.node.heap r).mode, .connected, []⟩ = c.node.heap r := by
    rw [← hstate, ← h.outbound]
  simp [step, modifyNode, Node.modify, RemoteNode.sendMessage, hstate, h.outbound, Links.state,
    hrest]

/-- **A message with a value that comes from the connection is given to its handler.** -/
theorem Resting.foldlM_receive (json : EncodingJson) (h : c.Resting r) {msg : NodeWireMessage}
    (hmsg : IsData msg) :
    [.read r msg, .filter r, .queue r, .loop r, .handle r msg].foldlM (step json) c =
      some (c.goto r .busy) := by
  have hstate : (c.node.heap r).state = .connected := h.state
  have hread : c.step json (.read r msg) = some (c.consume r (.filtering msg)) := if_pos h.consumer
  have hfilter : (c.consume r (.filtering msg)).step json (.filter r) =
      some (c.consume r (.queueing msg)) := by
    simp [step, consume, modify, Links.state, hstate]
  have hqueue : (c.consume r (.queueing msg)).step json (.queue r) = some (c.modify r fun link ↦
      { link with consumer := .looping, inboundMsgQueue := [msg] }) := by
    simp [step, consume, modify, Links.state, hstate, h.inbound]
  have hloop : (c.modify r fun link ↦
      { link with consumer := .looping, inboundMsgQueue := [msg] }).step json (.loop r) =
      some (c.modify r fun link ↦ { link with inboundMsgQueue := [msg] }) := by
    simp [step, consume, modify, Links.state, hstate, h.consumer]
  have hhandle : (c.modify r fun link ↦ { link with inboundMsgQueue := [msg] }).step json
      (.handle r msg) = some (c.goto r .busy) := by
    simp [step, modify, Links.state, hstate, h.handler, dispatch_of_isData hmsg, goto, h.inbound]
  simp only [List.foldlM_cons, List.foldlM_nil, Option.bind_eq_bind, hread, hfilter, hqueue, hloop,
    hhandle, Option.bind_some, Option.pure_def]

end Links

namespace Member

/-! ## What the two nodes do -/

/-- The handler of a connection is running. -/
def busy (m : Member) (r : ConnId) : Member := { m with links := m.links.goto r .busy }

/-- The handler of a connection has been called with a message. -/
def receive (m : Member) (r : ConnId) (msg : NodeWireMessage) : Member :=
  (m.busy r).goto r (.called msg)

/-- A request is not pending any more. -/
def settle (m : Member) (r : ConnId) (pending : Bytes → Option ℕ) (key : Bytes) : Member :=
  { m with pendingGet := Function.update m.pendingGet r (some (Function.update pending key none)) }

/-- A node is up, and nothing is going on on a connection at its end. -/
@[mk_iff]
structure Resting (m : Member) (r : ConnId) : Prop where
  up : m.crash = none
  links : m.links.Resting r
  task : m.task r = .idle

instance (m : Member) (r : ConnId) : Decidable (m.Resting r) :=
  decidable_of_iff' _ (resting_iff m r)

/-- A message that was read comes to its handler. -/
def handOver (r : ConnId) (msg : NodeWireMessage) : List Step :=
  [.link (.filter r), .link (.queue r), .link (.loop r), .link (.handle r msg)]

/-- A call of `Get`, the `i`-th call of the node, asks one peer and comes to its `select`, and the
goroutine `w` sends the request. -/
def ask (i : ℕ) (w : Fin 5) (r : ConnId) (key randStr : Bytes) : List Step :=
  [.get key randStr, .values i [r], .push i, .select i, .takeGet w, .getData w,
    .sendGet w r (getMessage key randStr)]

/-- `handleGetRequest`. -/
def answer (r : ConnId) (key : Bytes) (rsp : GetRspMessage) : List Step :=
  [.cacheGet r key rsp.data, .respond r rsp, .link (.finish r)]

/-- `handleGetResponse`. -/
def takeUp (r : ConnId) (data : Bytes) : List Step :=
  [.load r, .forget r] ++ (if data = [] then [] else [.offer r]) ++ [.link (.finish r)]

/-- A call of `Get` is going on, and there are requests to be sent. -/
def calling (m : Member) (key randStr : Bytes) (status : GetStatus) (peers : Option (List ConnId))
    (pool : WorkerPool (Fin 5) ConnId ℕ) : Member :=
  { m with
    requests := m.requests ++ [⟨key, randStr, status⟩]
    fanOuts := m.fanOuts ++ [⟨.get m.requests.length, peers⟩]
    getRequest := pool }

/-- A call of `Get` has asked one peer and is in its `select`. -/
def waitFor (m : Member) (r : ConnId) (pending : Bytes → Option ℕ) (key randStr : Bytes) : Member :=
  { m with
    requests := m.requests ++ [⟨key, randStr, .waiting⟩]
    fanOuts := m.fanOuts ++ [⟨.get m.requests.length, some []⟩]
    pendingGet := Function.update m.pendingGet r
      (some (Function.update pending (key ++ randStr) (some m.requests.length))) }

section

variable {json : EncodingJson} {m : Member} {r : ConnId} {msg : NodeWireMessage}
  {pending : Bytes → Option ℕ} {key randStr : Bytes} {w : Fin 5}

theorem step_link {b : Links.Step} {c : Links} (hup : m.crash = none)
    (h : m.links.step json b = some c) (hmay : m.MayStep b) :
    m.step json (.link b) = some { m with
      links := c
      task := nextTask m.task b
      pendingGet := nextPendingGet m.pendingGet b } := by
  simp [step, hup, act, linkStep, hmay, h]

theorem Resting.step_transmit (h : m.Resting r) (msg : NodeMessage) :
    (m.sendMessage r msg).step json (.link (.transmit r (msg.serialize json))) = some m :=
  step_link h.up (h.links.step_transmit msg) trivial

theorem Resting.foldlM_receive (h : m.Resting r) (hmsg : Links.IsData msg) :
    (.link (.read r msg) :: handOver r msg).foldlM (step json) m = some (m.receive r msg) := by
  have hlinks := h.links.foldlM_receive json hmsg
  simp only [List.foldlM_cons, List.foldlM_nil, Option.bind_eq_bind, Option.bind_eq_some_iff,
    Option.pure_def, Option.some.injEq] at hlinks
  obtain ⟨c₁, h₁, c₂, h₂, c₃, h₃, c₄, h₄, c₅, h₅, rfl⟩ := hlinks
  simp [handOver, step, h.up, act, linkStep, MayStep, h₁, h₂, h₃, h₄, h₅, receive, busy, goto,
    nextTask, nextPendingGet, hmsg]

theorem modify_length_append {α : Type} (l : List α) (x : α) (f : α → α) :
    (l ++ [x]).modify l.length f = l ++ [f x] := by
  induction l with
  | nil => rfl
  | cons y l ih => simp [ih]

/-- **A call of `Get` asks the only peer**, and waits for the reply. -/
theorem Resting.foldlM_ask (h : m.Resting r) (hcache : m.cache = none)
    (honly : m.links.node.remoteNodes.values = {r})
    (hmode : (m.links.node.heap r).mode ≠ clusterModePASSIVE)
    (hpool : m.getRequest = .empty) (hsending : m.sending w = none)
    (hpending : m.pendingGet r = some pending) :
    (ask m.fanOuts.length w r key randStr).foldlM (step json) m =
      some ((m.waitFor r pending key randStr).sendMessage r (getMessage key randStr)) := by
  have hstate := h.links.state
  have hup := h.up
  have hget : m.step json (.get key randStr) =
      some (m.calling key randStr .asking none .empty) := by
    simp [step, hup, act, hcache, calling, hpool]
  have hvalues : (m.calling key randStr .asking none .empty).step json
      (.values m.fanOuts.length [r]) = some (m.calling key randStr .asking (some [r]) .empty) := by
    simp [step, act, calling, hup, honly, setPeers, modify_length_append]
  have hpush : (m.calling key randStr .asking (some [r]) .empty).step json
      (.push m.fanOuts.length) = some (m.calling key randStr .asking (some [])
        ⟨[(r, m.requests.length)], []⟩) := by
    simp [step, act, calling, hup, hmode, setPeers, modify_length_append, pushJob,
      WorkerPool.push, WorkerPool.empty]
  have hselect : (m.calling key randStr .asking (some []) ⟨[(r, m.requests.length)], []⟩).step json
      (.select m.fanOuts.length) = some (m.calling key randStr .waiting (some [])
        ⟨[(r, m.requests.length)], []⟩) := by
    simp [step, act, calling, hup, setStatus, modify_length_append]
  have htake : (m.calling key randStr .waiting (some []) ⟨[(r, m.requests.length)], []⟩).step json
      (.takeGet w) = some (m.calling key randStr .waiting (some [])
        ⟨[], [(w, r, m.requests.length)]⟩) := by
    simp [step, act, calling, hup, hsending, WorkerPool.take, WorkerPool.holding]
  have hdata : (m.calling key randStr .waiting (some []) ⟨[], [(w, r, m.requests.length)]⟩).step
      json (.getData w) = some { m.waitFor r pending key randStr with
        sending := Function.update m.sending w (some (r, m.requests.length)) } := by
    simp [step, act, calling, waitFor, hup, getData, WorkerPool.holding, WorkerPool.put, hstate,
      hpending, hpool, WorkerPool.empty]
  have hsend : { m.waitFor r pending key randStr with
        sending := Function.update m.sending w (some (r, m.requests.length)) }.step json
      (.sendGet w r (getMessage key randStr)) =
      some ((m.waitFor r pending key randStr).sendMessage r (getMessage key randStr)) := by
    simp [step, act, waitFor, hup, sendMessage, ← hsending]
  simp only [ask, List.foldlM_cons, List.foldlM_nil, Option.bind_eq_bind, hget, hvalues, hpush,
    hselect, htake, hdata, hsend, Option.bind_some, Option.pure_def]

theorem goto_goto (m : Member) (r : ConnId) (task task' : Task) :
    (m.goto r task).goto r task' = m.goto r task' := by
  simp [goto]

theorem goto_eq_self (htask : m.task r = .idle) : (m.busy r).goto r .idle = m.busy r := by
  simp [goto, busy, ← htask]

/-- A handler that has nothing more to do returns. -/
theorem step_finish (json : EncodingJson) (hup : m.crash = none)
    (hhandler : (m.links.link r).handler = .waiting) (htask : m.task r = .idle) :
    (m.busy r).step json (.link (.finish r)) = some m := by
  have hlinks : (m.busy r).links.step json (.finish r) = some m.links := by
    rw [Links.step, if_pos (by simp [busy, Links.goto, Links.modify]), busy,
      Links.goto_busy_goto_waiting hhandler]
  exact step_link hup hlinks htask

/-- **A request is answered** with what the cache has. -/
theorem Resting.foldlM_answer (h : m.Resting r) {store : Store} {value pendingKey : Bytes}
    (hcache : m.cache = some store) (hkey : store key = some value) (hcode : msg.code = msgGETReq)
    (hreq : json.getReq.deSerialize msg = ⟨msgGETReq, key, pendingKey⟩) :
    (answer r key ⟨0, pendingKey, value⟩).foldlM (step json) (m.receive r msg) =
      some (m.sendMessage r (.getRsp ⟨0, pendingKey, value⟩)) := by
  have hget : (m.receive r msg).step json (.cacheGet r key value) =
      some ((m.busy r).goto r (.respond ⟨0, pendingKey, value⟩)) := by
    simp [step, act, receive, goto, busy, h.up, hcode, hreq, hcache, hkey]
  have hrespond : ((m.busy r).goto r (.respond ⟨0, pendingKey, value⟩)).step json
      (.respond r ⟨0, pendingKey, value⟩) =
      some ((m.sendMessage r (.getRsp ⟨0, pendingKey, value⟩)).busy r) := by
    refine (if_pos h.up).trans ?_
    rw [act, if_pos (by simp [goto]), goto_goto, goto_eq_self h.task]
    rfl
  have hfinish : ((m.sendMessage r (.getRsp ⟨0, pendingKey, value⟩)).busy r).step json
      (.link (.finish r)) = some (m.sendMessage r (.getRsp ⟨0, pendingKey, value⟩)) :=
    step_finish json h.up h.links.handler h.task
  simp only [answer, List.foldlM_cons, List.foldlM_nil, Option.bind_eq_bind, hget, hrespond,
    hfinish, Option.bind_some, Option.pure_def]

/-- **A response is taken up** by a call that is in its `select`, if there is some data. -/
theorem Resting.foldlM_takeUp (h : m.Resting r) {rsp : GetRspMessage} {q : ℕ}
    (hcode : msg.code = msgGETRsp) (hrsp : GetRspMessage.deSerialize msg = .ok rsp)
    (hpending : m.pendingGet r = some pending) (hq : pending rsp.pendingKey = some q)
    (hstatus : m.status q = some .waiting) :
    (takeUp r rsp.data).foldlM (step json) (m.receive r msg) =
      some (if rsp.data = [] then m.settle r pending rsp.pendingKey
        else (m.settle r pending rsp.pendingKey).setStatus q (.replied rsp.data)) := by
  have hload : (m.receive r msg).step json (.load r) =
      some ((m.busy r).goto r (.forget q rsp)) := by
    simp [step, act, receive, goto, busy, h.up, hcode, handleGetResponse, hrsp, hpending, hq]
  have hforget : ((m.busy r).goto r (.forget q rsp)).step json (.forget r) =
      some (((m.settle r pending rsp.pendingKey).busy r).goto r
        (if rsp.data.length < 1 then .idle else .offer q rsp.data)) := by
    simp [step, act, goto, busy, h.up, forget, hpending, settle]
  by_cases hdata : rsp.data = []
  · have hidle := goto_eq_self (m := m.settle r pending rsp.pendingKey) h.task
    have hfinish := step_finish json (m := m.settle r pending rsp.pendingKey) h.up
      h.links.handler h.task
    simp [takeUp, hload, hforget, hdata, hidle, hfinish]
  · have hoffer : (((m.settle r pending rsp.pendingKey).busy r).goto r (.offer q rsp.data)).step
        json (.offer r) =
        some (((m.settle r pending rsp.pendingKey).setStatus q (.replied rsp.data)).busy r) := by
      have htask : (((m.settle r pending rsp.pendingKey).busy r).goto r
          (.offer q rsp.data)).task r = .offer q rsp.data := Function.update_self ..
      refine (if_pos h.up).trans ?_
      simp only [act, htask, goto_goto,
        goto_eq_self (m := m.settle r pending rsp.pendingKey) h.task]
      exact if_pos hstatus
    have hfinish := step_finish json
      (m := (m.settle r pending rsp.pendingKey).setStatus q (.replied rsp.data)) h.up
      h.links.handler h.task
    simp [takeUp, hload, hforget, hdata, hoffer, hfinish]

end

/-! ## The exchange

The steps of the two nodes are written out one after the other.  Most of them neither read nor write
on a connection, so in the network they are steps of one node (`foldlM_silent`); only the two
messages go from one node to the other. -/

section

variable {ν : Type} [DecidableEq ν]

/-- A message goes from one end of a connection to the other. -/
def deliver (json : EncodingJson) (e e' : ν × ConnId) (msg : NodeMessage) : List (ν × Step) :=
  (e.1, .link (.transmit e.2 (msg.serialize json))) ::
    (.link (.read e'.2 (msg.serialize json)) :: handOver e'.2 (msg.serialize json)).map
      (Prod.mk e'.1)

/-- `Get` is called at one end of a connection, and the node at the other end has a value for the
key. -/
def exchange (json : EncodingJson) (e e' : ν × ConnId) (i : ℕ) (w : Fin 5)
    (key randStr value : Bytes) : List (ν × Step) :=
  let rsp : GetRspMessage := ⟨0, key ++ randStr, value⟩
  (ask i w e.2 key randStr).map (Prod.mk e.1) ++ deliver json e e' (getMessage key randStr) ++
    (answer e'.2 key rsp).map (Prod.mk e'.1) ++ deliver json e' e (.getRsp rsp) ++
    (takeUp e.2 value).map (Prod.mk e.1)

/-- What `Get` finds in the cache of its own node. -/
def cached (m : Member) (key : Bytes) : Option Bytes := m.cache.bind (· key)

/-- The end `e` of a connection belongs to a client that is connected only to the node at the end
`e'`, which it knows to be active, and nothing is going on; the goroutine `w` is free. -/
@[mk_iff]
structure Quiet (s : Network ν ConnId Member NodeWireMessage) (e e' : ν × ConnId) (w : Fin 5) :
    Prop where
  client : (s.node e.1).Resting e.2
  server : (s.node e'.1).Resting e'.2
  wire : s.wire e = []
  wire' : s.wire e' = []
  only : (s.node e.1).links.node.remoteNodes.values = {e.2}
  mode : ((s.node e.1).links.node.heap e.2).mode ≠ clusterModePASSIVE
  getRequest : (s.node e.1).getRequest.contents = []
  sending : (s.node e.1).sending w = none
  pendingGet : ((s.node e.1).pendingGet e.2).isSome

instance (s : Network ν ConnId Member NodeWireMessage) (e e' : ν × ConnId) (w : Fin 5) :
    Decidable (Quiet s e e' w) :=
  decidable_of_iff' _ (quiet_iff s e e' w)

theorem silent_ask (i : ℕ) (w : Fin 5) (r : ConnId) (key randStr : Bytes) :
    ∀ a ∈ ask i w r key randStr, ports.input a = none ∧ ports.output a = none := by
  simp [ask, ports, proj, Links.ports]

theorem silent_handOver (r : ConnId) (msg : NodeWireMessage) :
    ∀ a ∈ handOver r msg, ports.input a = none ∧ ports.output a = none := by
  simp [handOver, ports, proj, Links.ports]

theorem silent_answer (r : ConnId) (key : Bytes) (rsp : GetRspMessage) :
    ∀ a ∈ answer r key rsp, ports.input a = none ∧ ports.output a = none := by
  simp [answer, ports, proj, Links.ports]

theorem silent_takeUp (r : ConnId) (data : Bytes) :
    ∀ a ∈ takeUp r data, ports.input a = none ∧ ports.output a = none := by
  rw [takeUp]
  split_ifs <;> simp [ports, proj, Links.ports]

variable {json : EncodingJson} {peer : ν × ConnId → ν × ConnId} {config : ν → Config}
  {ls : List (ν × Step)} {s : Network ν ConnId Member NodeWireMessage} {e e' : ν × ConnId}
  {w : Fin 5}

/-- What a node does on its own. -/
theorem foldlM_silent (json : EncodingJson) (peer : ν × ConnId → ν × ConnId) {n n' : ν}
    {as : List Step} {t : Member} (hne : n ≠ n')
    (has : ∀ a ∈ as, ports.input a = none ∧ ports.output a = none)
    (h : as.foldlM (step json) (s.node n) = some t) :
    ∃ s', (as.map (Prod.mk n)).foldlM (Network.step ports peer fun _ ↦ step json) s = some s' ∧
      s'.node n = t ∧ s'.node n' = s.node n' ∧ s'.wire = s.wire :=
  ⟨_, Network.foldlM_step_silent has h, Function.update_self ..,
    Function.update_of_ne hne.symm _ _, rfl⟩

/-- **A message that is sent comes to its handler.** -/
theorem foldlM_deliver (json : EncodingJson) {m : Member} {msg : NodeMessage} (hne : e.1 ≠ e'.1)
    (hpeer : peer e = e') (hwire : s.wire e' = []) (hm : m.Resting e.2)
    (hs : s.node e.1 = m.sendMessage e.2 msg) (hs' : (s.node e'.1).Resting e'.2)
    (hmsg : Links.IsData (msg.serialize json)) :
    ∃ s', (deliver json e e' msg).foldlM (Network.step ports peer fun _ ↦ step json) s = some s' ∧
      s'.node e.1 = m ∧ s'.node e'.1 = (s.node e'.1).receive e'.2 (msg.serialize json) ∧
      s'.wire = s.wire := by
  refine ⟨_, Network.foldlM_step_carry hne hpeer hwire (by rw [hs]; exact hm.step_transmit msg) rfl
    rfl (hs'.foldlM_receive hmsg) rfl rfl (silent_handOver _ _), ?_, Function.update_self .., rfl⟩
  exact (Function.update_of_ne hne _ _).trans (Function.update_self ..)

theorem waitFor_status (m : Member) (r : ConnId) (pending : Bytes → Option ℕ)
    (key randStr : Bytes) :
    (m.waitFor r pending key randStr).status m.requests.length = some .waiting := by
  simp [waitFor, status]

theorem Resting.waitFor {m : Member} {r : ConnId} (h : m.Resting r) (pending : Bytes → Option ℕ)
    (key randStr : Bytes) : (m.waitFor r pending key randStr).Resting r :=
  ⟨h.up, h.links, h.task⟩

/-- **The exchange runs to its end**, and the call has the value if it is not empty. -/
theorem Quiet.foldlM_exchange (hq : Quiet s e e' w) (hgetReq : json.getReq.KeepsValid)
    (hpeer : peer e = e') (hpeer' : peer e' = e) (hcache : (s.node e.1).cache = none)
    {key randStr value : Bytes} (hask : Askable key randStr)
    (hvalue : (s.node e'.1).cached key = some value) :
    ∃ s', (exchange json e e' (s.node e.1).fanOuts.length w key randStr value).foldlM
        (Network.step ports peer fun _ ↦ step json) s = some s' ∧
      (s'.node e.1).status (s.node e.1).requests.length =
        some (if value = [] then .waiting else .replied value) := by
  obtain ⟨store, hstore, hkey⟩ := Option.bind_eq_some_iff.mp hvalue
  obtain ⟨pending, hpending⟩ := Option.isSome_iff_exists.mp hq.pendingGet
  -- a node without a cache is not one with a cache
  have hne : e.1 ≠ e'.1 := by
    intro he
    rw [he, hstore] at hcache
    cases hcache
  have hmsg : json.getReq.deSerialize ((getMessage key randStr).serialize json) =
      ⟨msgGETReq, key, key ++ randStr⟩ := deSerialize_getMessage hgetReq hask
  have hrsp : GetRspMessage.deSerialize (GetRspMessage.serialize ⟨0, key ++ randStr, value⟩) =
      .ok ⟨msgGETRsp, key ++ randStr, value⟩ := by
    obtain ⟨-, hlen, -, hrand⟩ := hask
    exact GetRspMessage.deSerialize_serialize _ (by simp [hrand]; omega)
  have hwaits := hq.client.waitFor pending key randStr
  -- the client asks
  obtain ⟨s₁, h₁, hclient₁, hserver₁, hwire₁⟩ := foldlM_silent json peer hne
    (silent_ask _ w e.2 key randStr)
    (hq.client.foldlM_ask hcache hq.only hq.mode (WorkerPool.eq_empty_of_contents hq.getRequest)
      hq.sending hpending)
  -- the server gets the request
  obtain ⟨s₂, h₂, hclient₂, hserver₂, hwire₂⟩ := foldlM_deliver json hne hpeer
    (hwire₁ ▸ hq.wire') hwaits hclient₁ (hserver₁ ▸ hq.server) (.inl rfl)
  -- the server answers
  rw [hserver₁] at hserver₂
  obtain ⟨s₃, h₃, hserver₃, hclient₃, hwire₃⟩ := foldlM_silent json peer hne.symm
    (silent_answer e'.2 key ⟨0, key ++ randStr, value⟩)
    (hserver₂ ▸ hq.server.foldlM_answer hstore hkey rfl hmsg)
  -- the client gets the response
  obtain ⟨s₄, h₄, hserver₄, hclient₄, hwire₄⟩ := foldlM_deliver json hne.symm hpeer'
    (by rw [hwire₃, hwire₂, hwire₁, hq.wire]) hq.server hserver₃
    (by rw [hclient₃, hclient₂]; exact hwaits) (.inr (.inl rfl))
  rw [hclient₃, hclient₂] at hclient₄
  -- the client takes it up
  obtain ⟨s₅, h₅, hclient₅, -, -⟩ := foldlM_silent json peer hne
    (silent_takeUp e.2 value)
    (hclient₄ ▸ hwaits.foldlM_takeUp rfl hrsp (Function.update_self ..) (Function.update_self ..)
      (waitFor_status ..))
  refine ⟨s₅, ?_, ?_⟩
  · simp [exchange, List.foldlM_append, h₁, h₂, h₃, h₄, h₅]
  · rw [hclient₅]
    by_cases hempty : value = []
    · simp [status, hempty, waitFor, settle]
    · simp [status, hempty, waitFor, settle, setStatus, modify_length_append]

/-- **When a remote lookup agrees with a local one.**  A passive client is connected only to a node
whose own `Get` finds a value for the key.  When `Get` is called at the client, all messages are
delivered and the client is in its `select`, it returns the value if and only if the value is not
empty. -/
theorem remote_get_agrees_iff (hgetReq : json.getReq.KeepsValid)
    (hr : (network json peer config).Run ls s) (hpeer : peer e = e') (hpeer' : peer e' = e)
    (hpassive : (config e.1).passive = true) (hq : Quiet s e e' w) {key randStr value : Bytes}
    (hask : Askable key randStr) (hvalue : (s.node e'.1).cached key = some value) :
    ∃ s', (network json peer config).Run
        (ls ++ exchange json e e' (s.node e.1).fanOuts.length w key randStr value) s' ∧
      ((s'.node e.1).status (s.node e.1).requests.length = some (.replied value) ↔
        value ≠ []) := by
  have hcache := (cache_eq_none_iff (Network.run_node hr e.1)).mpr hpassive
  obtain ⟨s', hs', hstatus⟩ := hq.foldlM_exchange hgetReq hpeer hpeer' hcache hask hvalue
  refine ⟨s', hr.append_foldlM (fun _ _ _ ↦ id) hs', ?_⟩
  rw [hstatus]
  split_ifs with hempty <;> simp [hempty]

end

/-- The node `false` has a value for a key, and the node `true` is a client that is connected to
it. -/
def connect (value : Bytes) : List (Bool × Step) :=
  meet (fun n ↦ n) ++ [(false, .link (.loop 0)), (true, .link (.loop 0)),
    (false, .write (.put [107] value) 0), (false, .values 0 [0]), (false, .push 0)]

/-- The client gets the value. -/
theorem remote_get_agrees_seven :
    ∃ s s', (network (.plain Utf8.repair) Links.pairPeer (pairConfig fun n ↦ n)).Run
        (connect [7]) s ∧
      (network (.plain Utf8.repair) Links.pairPeer (pairConfig fun n ↦ n)).Run
        (connect [7] ++ exchange (.plain Utf8.repair) (true, 0) (false, 0)
          (s.node true).fanOuts.length 0 [107] [97, 98, 99, 100, 101, 102, 103, 104] [7]) s' ∧
      (s'.node true).status (s.node true).requests.length = some (.replied [7]) := by
  obtain ⟨s, hr, hs⟩ := TransitionSystem.exists_run_from
    (S := network (.plain Utf8.repair) Links.pairPeer (pairConfig fun n ↦ n))
    (f := Network.step ports Links.pairPeer fun _ ↦ step (.plain Utf8.repair)) (l := connect [7])
    (p := fun s ↦ decide (Quiet s (true, 0) (false, 0) 0 ∧ (s.node false).cached [107] = some [7]))
    (fun _ _ _ h ↦ h) rfl (by decide +kernel)
  obtain ⟨hq, hvalue⟩ := of_decide_eq_true hs
  have hask : Askable [107] [97, 98, 99, 100, 101, 102, 103, 104] :=
    ⟨Utf8.repair_eq_self_iff.mp (by decide +kernel), by decide,
      Utf8.repair_eq_self_iff.mp (by decide +kernel), rfl⟩
  obtain ⟨s', hr', hstatus⟩ := remote_get_agrees_iff
    (Json.Repairs.keepsValid (EncodingJson.plain_getReq _)) hr rfl rfl rfl hq hask hvalue
  exact ⟨s, s', hr, hr', hstatus.mpr (by decide)⟩

/-- **An empty value is not found.**  The node has the key with an empty value, the client asks for
it and the response is handled while the call waits.  The call times out. -/
theorem empty_value_not_found :
    ∃ s s', (network (.plain Utf8.repair) Links.pairPeer (pairConfig fun n ↦ n)).Run
        (connect []) s ∧
      Quiet s (true, 0) (false, 0) 0 ∧ (s.node false).cached [107] = some [] ∧
      (network (.plain Utf8.repair) Links.pairPeer (pairConfig fun n ↦ n)).Run
        (connect [] ++ exchange (.plain Utf8.repair) (true, 0) (false, 0) 0 0 [107]
          [97, 98, 99, 100, 101, 102, 103, 104] [] ++ [(true, .timeout 0)]) s' ∧
      (s'.node true).status 0 = some .failed := by
  obtain ⟨s, hr, hs⟩ := TransitionSystem.exists_run_from
    (S := network (.plain Utf8.repair) Links.pairPeer (pairConfig fun n ↦ n))
    (f := Network.step ports Links.pairPeer fun _ ↦ step (.plain Utf8.repair)) (l := connect [])
    (p := fun s ↦ decide (Quiet s (true, 0) (false, 0) 0 ∧ (s.node false).cached [107] = some []))
    (fun _ _ _ h ↦ h) rfl (by decide +kernel)
  obtain ⟨s', hr', hs'⟩ := TransitionSystem.exists_run_from
    (S := network (.plain Utf8.repair) Links.pairPeer (pairConfig fun n ↦ n))
    (f := Network.step ports Links.pairPeer fun _ ↦ step (.plain Utf8.repair))
    (l := connect [] ++ exchange (.plain Utf8.repair) (true, 0) (false, 0) 0 0 [107]
      [97, 98, 99, 100, 101, 102, 103, 104] [] ++ [(true, .timeout 0)])
    (p := fun s ↦ decide ((s.node true).status 0 = some .failed))
    (fun _ _ _ h ↦ h) rfl (by decide +kernel)
  obtain ⟨hq, hvalue⟩ := of_decide_eq_true hs
  exact ⟨s, s', hr, hq, hvalue, hr', of_decide_eq_true hs'⟩

end Member
end ClusteredBigCache
