import ClusteredBigCache.Cluster.Member

/-!
# What `Get` returns

A response does not say which key it is about.  It is matched with a request by the pending key,
which is the key with a random string of eight letters after it.  The table of pending keys belongs
to a connection, so a response that is found there comes from the node that was asked.  That node
read the pending key together with the key that it looked up.

Two requests may have the same pending key, and then a response counts for the last one that was
stored.  As all random strings have the same length, these requests are for the same key.

`get_returns_own_key` says that data which `Get` has from a peer is what the cache of a peer
returned for the key.
-/

set_option autoImplicit false

namespace ClusteredBigCache.Member

open scoped List

/-! ## Requests of `Get` -/

/-- The key under which a request is stored. -/
def pendingKey (m : Member) (q : ℕ) : Option Bytes :=
  m.requests[q]?.map fun req ↦ req.key ++ req.randStr

/-- A request after a step, and how it has come about. -/
inductive Requested (m : Member) (a : Step) (q : ℕ) : GetRequest → Prop
  | same {req : GetRequest} (h : m.requests[q]? = some req) : Requested m a q req
  | get {key randStr : Bytes} (ha : a = .get key randStr) :
      Requested m a q ⟨key, randStr, .asking⟩
  | status {req : GetRequest} {status : GetStatus} (h : m.requests[q]? = some req)
      (hstatus : ∀ data, status ≠ .replied data) : Requested m a q { req with status := status }
  | offer {req : GetRequest} {r : ConnId} {data : Bytes} (h : m.requests[q]? = some req)
      (htask : m.task r = .offer q data) : Requested m a q { req with status := .replied data }

section

variable {json : EncodingJson} {m m' : Member} {a : Step} {q : ℕ} {req : GetRequest} {key : Bytes}

theorem pendingKey_of_request (h : m.requests[q]? = some req) :
    m.pendingKey q = some (req.key ++ req.randStr) := by
  rw [pendingKey, h, Option.map_some]

theorem pendingKey_setStatus (m : Member) (q' : ℕ) (status : GetStatus) (q : ℕ) :
    (m.setStatus q' status).pendingKey q = m.pendingKey q := by
  rw [pendingKey, pendingKey, setStatus, List.getElem?_modify, Option.map_eq_map, Option.map_map]
  congr 1
  funext req
  rw [Function.comp_apply]
  split_ifs <;> rfl

theorem requests_setStatus {q' : ℕ} {status : GetStatus}
    (h : (m.setStatus q' status).requests[q]? = some req) :
    m.requests[q]? = some req ∨
      q = q' ∧ ∃ req', m.requests[q]? = some req' ∧ req = { req' with status := status } := by
  rw [setStatus, List.getElem?_modify] at h
  obtain ⟨req', hq, rfl⟩ := Option.map_eq_some_iff.mp h
  split_ifs with hq'
  · exact .inr ⟨hq'.symm, req', hq, rfl⟩
  · exact .inl hq

/-- A request keeps its key and its random string. -/
theorem Act.pendingKey (h : Act json m a m') (hq : m.pendingKey q = some key) :
    m'.pendingKey q = some key := by
  cases h with
  | get h =>
    obtain ⟨req, hreq, rfl⟩ := Option.map_eq_some_iff.mp hq
    refine pendingKey_of_request ?_
    rw [List.getElem?_append_left (List.getElem?_eq_some_iff.mp hreq).1]
    exact hreq
  | notFound h | offer h => rwa [pendingKey_setStatus]
  | select h hreq hstatus => rwa [pendingKey_setStatus]
  | timeout hreq hstatus => rwa [pendingKey_setStatus]
  | @push i job => cases job <;> exact hq
  | _ => exact hq

/-- **What a step does to a request.** -/
theorem Act.requested (h : Act json m a m') (hq : m'.requests[q]? = some req) :
    Requested m a q req := by
  -- a call that goes on without the data of a peer
  have hset : ∀ {m₀ : Member} {q' : ℕ} {status : GetStatus}, m₀.requests = m.requests →
      (∀ data, status ≠ .replied data) → (m₀.setStatus q' status).requests[q]? = some req →
      Requested m a q req := by
    intro m₀ q' status hm hstatus hq
    rcases requests_setStatus hq with hsame | ⟨-, req', hreq, rfl⟩
    · exact .same (hm ▸ hsame)
    · exact .status (hm ▸ hreq) hstatus
  cases h with
  | get h =>
    simp only [List.getElem?_append] at hq
    split_ifs at hq
    · exact .same hq
    · obtain rfl := List.mem_singleton.mp (List.mem_of_getElem? hq)
      exact .get rfl
  | notFound h => exact hset rfl (by simp) hq
  | select h hreq hstatus => exact hset rfl (by simp) hq
  | timeout hreq hstatus => exact hset rfl (by simp) hq
  | offer h =>
    rcases requests_setStatus hq with hsame | ⟨rfl, req', hreq, rfl⟩
    · exact .same hsame
    · exact .offer hreq h
  | @push i job => cases job <;> exact .same hq
  | _ => exact .same hq

/-- A request that is stored is stored under its pending key. -/
theorem Act.pendingGet {r : ConnId} {pending : Bytes → Option ℕ} (h : Act json m a m')
    (hr : m'.pendingGet r = some pending) (hq : pending key = some q) :
    (∃ pending, m.pendingGet r = some pending ∧ pending key = some q) ∨
      m.pendingKey q = some key := by
  cases h with
  | @link a links h hmay =>
    cases a with
    | tearDown r' =>
      simp only [nextPendingGet, Function.update_apply] at hr
      split_ifs at hr
      exact .inl ⟨pending, hr, hq⟩
    | _ => exact .inl ⟨pending, hr, hq⟩
  | getData h hreq hpending =>
    simp only [Function.update_apply] at hr
    split_ifs at hr with hr'
    · obtain rfl := Option.some.inj hr
      rw [Function.update_apply] at hq
      split_ifs at hq with hkey
      · obtain rfl := Option.some.inj hq
        exact .inr (hkey ▸ pendingKey_of_request hreq)
      · exact .inl ⟨_, hr' ▸ hpending, hq⟩
    · exact .inl ⟨pending, hr, hq⟩
  | forget h hpending =>
    simp only [Function.update_apply] at hr
    split_ifs at hr with hr'
    · obtain rfl := Option.some.inj hr
      rw [Function.update_apply] at hq
      split_ifs at hq
      exact .inl ⟨_, hr' ▸ hpending, hq⟩
    · exact .inl ⟨pending, hr, hq⟩
  | @push i job => cases job <;> exact .inl ⟨pending, hr, hq⟩
  | _ => exact .inl ⟨pending, hr, hq⟩

end

/-! ## Responses and requests are matched

A response has nothing but a pending key.  It is offered to the request that was last stored under
that key on the connection, so whatever a call returns was read under its own pending key. -/

/-- A response was read on a connection. -/
def Received (r : ConnId) (as : List Step) (rsp : GetRspMessage) : Prop :=
  ∃ msg ∈ Links.ports.received r (as.filterMap proj), msg.code = msgGETRsp ∧
    GetRspMessage.deSerialize msg = .ok rsp

/-- A response with some data was read on a connection, under a pending key. -/
def Replied (r : ConnId) (as : List Step) (key data : Bytes) : Prop :=
  data ≠ [] ∧ ∃ rsp, Received r as rsp ∧ rsp.pendingKey = key ∧ rsp.data = data

/-- A request is found under its pending key. -/
structure Matched (r : ConnId) (as : List Step) (m : Member) : Prop where
  stored : ∀ pending key q, m.pendingGet r = some pending → pending key = some q →
    m.pendingKey q = some key
  found : ∀ q rsp, m.task r = .forget q rsp →
    Received r as rsp ∧ m.pendingKey q = some rsp.pendingKey
  offered : ∀ q data, m.task r = .offer q data →
    ∃ key, m.pendingKey q = some key ∧ Replied r as key data

section

variable {json : EncodingJson} {config : Config} {m m' : Member} {a : Step} {as : List Step}
  {r : ConnId} {q : ℕ} {req : GetRequest} {key data : Bytes} {rsp : GetRspMessage}

theorem Received.append (h : Received r as rsp) (bs : List Step) : Received r (as ++ bs) rsp := by
  obtain ⟨msg, hmsg, h⟩ := h
  refine ⟨msg, ?_, h⟩
  rw [List.filterMap_append]
  exact Ports.mem_received_append hmsg _

theorem Replied.append (h : Replied r as key data) (bs : List Step) :
    Replied r (as ++ bs) key data :=
  h.imp_right fun ⟨rsp, hrsp, h⟩ ↦ ⟨rsp, hrsp.append bs, h⟩

theorem Matched.step (hm : Matched r as m) (h : Act json m a m')
    (hcalled : ∀ msg, m.task r = .called msg →
      msg ∈ Links.ports.received r (as.filterMap proj)) : Matched r (as ++ [a]) m' := by
  have hturn := h.turn r
  refine ⟨fun pending key q hr hq ↦ ?_, fun q rsp htask ↦ ?_, fun q data htask ↦ ?_⟩
  · rcases h.pendingGet hr hq with ⟨pending, hr, hq⟩ | hkey
    · exact h.pendingKey (hm.stored pending key q hr hq)
    · exact h.pendingKey hkey
  · rw [htask] at hturn
    cases hturn with
    | same htask => exact (hm.found q rsp htask).imp (·.append _) h.pendingKey
    | load hmsg hcode hrsp hpending hq =>
      have hreceived : Received r as rsp := ⟨_, hcalled _ hmsg, hcode, hrsp⟩
      exact ⟨hreceived.append _, h.pendingKey (hm.stored _ _ _ hpending hq)⟩
  · rw [htask] at hturn
    cases hturn with
    | same htask =>
      obtain ⟨key, hkey, hreplied⟩ := hm.offered q data htask
      exact ⟨key, h.pendingKey hkey, hreplied.append _⟩
    | forget hforget hdata =>
      obtain ⟨hreceived, hkey⟩ := hm.found q _ hforget
      exact ⟨_, h.pendingKey hkey, hdata, _, hreceived.append _, rfl, rfl⟩

theorem run_matched (hr : (system json config).Run as m) (r : ConnId) : Matched r as m := by
  induction hr with
  | start h =>
    obtain rfl := h
    exact ⟨by rintro _ key q ⟨⟩ ⟨⟩, by rintro q rsp ⟨⟩, by rintro q data ⟨⟩⟩
  | snoc hr h ih => exact ih.step (step_act h) fun msg hmsg ↦ mem_received_of_called hr hmsg

/-- A request was made by a call of `Get`. -/
theorem get_mem_of_request (hr : (system json config).Run as m) (hq : m.requests[q]? = some req) :
    .get req.key req.randStr ∈ as := by
  induction hr generalizing req with
  | start h =>
    obtain rfl := h
    cases hq
  | snoc hr h ih =>
    refine List.mem_append.mpr ?_
    cases (step_act h).requested hq with
    | same hreq => exact .inl (ih hreq)
    | status hreq hstatus =>
      have hget := ih hreq
      exact .inl hget
    | offer hreq htask =>
      have hget := ih hreq
      exact .inl hget
    | get ha => exact .inr (List.mem_singleton.mpr ha.symm)

/-- **What a call of `Get` returns** is in a response that was read under its pending key. -/
theorem replied_of_status (hr : (system json config).Run as m) (hq : m.requests[q]? = some req)
    (hstatus : req.status = .replied data) :
    ∃ r, Replied r as (req.key ++ req.randStr) data := by
  induction hr generalizing req with
  | start h =>
    obtain rfl := h
    cases hq
  | snoc hr h ih =>
    cases (step_act h).requested hq with
    | same hreq => exact (ih hreq hstatus).imp fun r h ↦ h.append _
    | get ha => cases hstatus
    | status hreq hne => exact absurd hstatus (hne data)
    | @offer req r data hreq htask =>
      obtain rfl := GetStatus.replied.inj hstatus
      obtain ⟨key, hkey, hreplied⟩ := (run_matched hr r).offered q data htask
      obtain rfl := Option.some.inj ((pendingKey_of_request hreq).symm.trans hkey)
      exact ⟨r, hreplied.append _⟩

/-! ## Where requests and responses come from

At the other end the same is followed from the side of the sender: every `GETRsp` that was sent
answers a `GETReq` that was read, with the pending key of that request. -/

/-- A response answers a request that was read on the connection: the cache returned the data of the
response for the key of the request. -/
def Answers (json : EncodingJson) (config : Config) (r : ConnId) (as : List Step)
    (rsp : GetRspMessage) : Prop :=
  config.passive = false ∧ ∃ msg ∈ Links.ports.received r (as.filterMap proj),
    msg.code = msgGETReq ∧ rsp.pendingKey = (json.getReq.deSerialize msg).pendingKey ∧
      .cacheGet r (json.getReq.deSerialize msg).key rsp.data ∈ as

/-- Where the messages of `Get` come from. -/
def Origin (json : EncodingJson) (config : Config) (r : ConnId) (as : List Step) :
    NodeMessage → Prop
  | .getReq reqMsg => ∃ key randStr, .getReq reqMsg = getMessage key randStr ∧ .get key randStr ∈ as
  | .getRsp rsp => Answers json config r as rsp
  | _ => True

theorem Answers.append (h : Answers json config r as rsp) (bs : List Step) :
    Answers json config r (as ++ bs) rsp := by
  obtain ⟨hpassive, msg, hmsg, hcode, hkey, hget⟩ := h
  refine ⟨hpassive, msg, ?_, hcode, hkey, List.mem_append_left _ hget⟩
  rw [List.filterMap_append]
  exact Ports.mem_received_append hmsg _

theorem Origin.append {msg : NodeMessage} (h : Origin json config r as msg) (bs : List Step) :
    Origin json config r (as ++ bs) msg := by
  cases msg with
  | getReq reqMsg =>
    obtain ⟨key, randStr, hmsg, hget⟩ := h
    exact ⟨key, randStr, hmsg, List.mem_append_left _ hget⟩
  | getRsp rsp => exact Answers.append h bs
  | _ => trivial

/-- A response is made in answer to a request. -/
theorem answers_of_respond (hr : (system json config).Run as m) (htask : m.task r = .respond rsp) :
    Answers json config r as rsp := by
  induction hr with
  | start h =>
    obtain rfl := h
    cases htask
  | snoc hr h ih =>
    have hturn := (step_act h).turn r
    rw [htask] at hturn
    cases hturn with
    | same htask => exact (ih htask).append _
    | cacheGet hmsg hcode hcache ha =>
      have hactive := (cache_eq_none_iff hr).not.mp (by simp [hcache])
      refine ⟨by simpa using hactive, _, ?_, hcode, rfl, by simp [ha]⟩
      rw [List.filterMap_append]
      exact Ports.mem_received_append (mem_received_of_called hr hmsg) _

/-- **Where the messages of `Get` come from**, of those that a node has sent on a connection. -/
theorem run_origin (hr : (system json config).Run as m) (r : ConnId) :
    Links.Sends json (Origin json config r as) r (as.filterMap proj) (m.links.node.heap r) := by
  induction hr with
  | start h =>
    obtain rfl := h
    exact ⟨by simp [new, Links.new, RemoteNode.setState, RemoteNode.newRemoteNode],
      by simp [Ports.sent]⟩
  | snoc hr h ih =>
    have hw := run_wired hr
    refine step_sends hw (step_act h) (ih.mono fun msg hmsg ↦ hmsg.append _) fun msg hmsg ↦ ?_
    cases hmsg with
    | control h => cases msg <;> first | exact h.elim | trivial
    | replicate h =>
      obtain ⟨-, w, expiry, rfl⟩ :=
        hw.destined.replication _ (WorkerPool.mem_contents_of_holding h)
      cases w <;> trivial
    | sendGet h hq => exact ⟨_, _, rfl, List.mem_append_left _ (get_mem_of_request hr hq)⟩
    | respond h => exact (answers_of_respond hr h).append _

end

/-! ## Whose data it is -/

/-- A key with a random string after it that is read back as it was. -/
def Askable (key randStr : Bytes) : Prop :=
  Utf8.Valid key ∧ key.length ≤ 65517 ∧ Utf8.Valid randStr ∧ randStr.length = 8

theorem deSerialize_getMessage {json : EncodingJson} (hgetReq : json.getReq.KeepsValid)
    {key randStr : Bytes} (h : Askable key randStr) :
    json.getReq.deSerialize ((getMessage key randStr).serialize json) =
      ⟨msgGETReq, key, key ++ randStr⟩ := by
  obtain ⟨hkey, -, hrand, -⟩ := h
  refine Json.deSerialize_mk (hgetReq _ ?_)
  simp [mapStrings, Utf8.repair_of_valid hkey, Utf8.repair_of_valid (hkey.append hrand)]

section

variable {ν : Type} [DecidableEq ν] {json : EncodingJson} {peer : ν × ConnId → ν × ConnId}
  {config : ν → Config} {ls : List (ν × Step)} {s : Network ν ConnId Member NodeWireMessage}
  {n : ν} {e : ν × ConnId}

/-- A response that was read answers a request that the other end has read. -/
theorem answers_of_received (hpeer : ∀ e, peer (peer e) = e)
    (hr : (network json peer config).Run ls s) {msg : NodeWireMessage}
    (hmsg : msg ∈ Links.ports.received e.2 ((Network.acts e.1 ls).filterMap proj))
    (hcode : msg.code = msgGETRsp) :
    ∃ rsp, Answers json (config (peer e).1) (peer e).2 (Network.acts (peer e).1 ls) rsp ∧
      rsp.serialize = msg := by
  obtain ⟨msg, horigin, rfl⟩ := (run_origin (Network.run_node hr (peer e).1) (peer e).2).sent msg
    (mem_sent_of_mem_received hpeer hr hmsg)
  rw [NodeMessage.serialize_code] at hcode
  cases msg with
  | getRsp rsp => exact ⟨rsp, horigin, rfl⟩
  | _ => cases hcode

/-- A request that was read was made by a call of `Get` at the other end. -/
theorem get_of_received (hpeer : ∀ e, peer (peer e) = e)
    (hr : (network json peer config).Run ls s) {msg : NodeWireMessage}
    (hmsg : msg ∈ Links.ports.received e.2 ((Network.acts e.1 ls).filterMap proj))
    (hcode : msg.code = msgGETReq) :
    ∃ key randStr, ((peer e).1, .get key randStr) ∈ ls ∧
      (getMessage key randStr).serialize json = msg := by
  obtain ⟨msg, horigin, rfl⟩ := (run_origin (Network.run_node hr (peer e).1) (peer e).2).sent msg
    (mem_sent_of_mem_received hpeer hr hmsg)
  rw [NodeMessage.serialize_code] at hcode
  cases msg with
  | getReq reqMsg =>
    obtain ⟨key, randStr, hmsg, hget⟩ := horigin
    exact ⟨key, randStr, Network.mem_acts.mp hget, by rw [hmsg]⟩
  | _ => cases hcode

/-- The cache of a node has some data for a key, and the handler of a connection has been called
with a `GETReq` message for the key. -/
def Returns (json : EncodingJson) (m : Member) (r : ConnId) (key data : Bytes) : Prop :=
  ∃ msg store, m.task r = .called msg ∧ msg.code = msgGETReq ∧
    (json.getReq.deSerialize msg).key = key ∧ m.cache = some store ∧ store key = some data

theorem returns_of_step {m m' : Member} {r : ConnId} {key data : Bytes}
    (h : m.step json (.cacheGet r key data) = some m') (hcache : m.cache ≠ none)
    (hdata : data ≠ []) : Returns json m r key data := by
  rw [step] at h
  split_ifs at h
  rw [act] at h
  split at h
  · next msg hcalled =>
    dsimp only at h
    split_ifs at h with hguard
    split at h
    · next hnone => exact absurd hnone hcache
    · next store hstore =>
      split_ifs at h with hget
      refine ⟨msg, store, hcalled, hguard.1, hguard.2, hstore, ?_⟩
      cases hkey : store key with
      | none => exact absurd (by simpa [hkey] using hget.symm) hdata
      | some data' => simpa [hkey] using hget
  · cases h

/-- A node that has a cache returned the data for the key when it took the step. -/
theorem returns_of_mem {r : ConnId} {key data : Bytes} (hr : (network json peer config).Run ls s)
    (hactive : (config n).passive = false) (hdata : data ≠ [])
    (h : (n, .cacheGet r key data) ∈ ls) :
    ∃ pre t, pre ++ [(n, .cacheGet r key data)] <+: ls ∧ (network json peer config).Run pre t ∧
      Returns json (t.node n) r key data := by
  obtain ⟨pre, post, rfl⟩ := List.append_of_mem h
  have hpre : pre ++ [(n, .cacheGet r key data)] <+: pre ++ (n, .cacheGet r key data) :: post :=
    ⟨post, by simp⟩
  obtain ⟨t', ht'⟩ := hr.of_prefix hpre
  obtain ⟨t, ht, hstep⟩ := ht'.of_append_singleton
  have hcache := (cache_eq_none_iff (Network.run_node ht n)).not.mpr (by simp [hactive])
  exact ⟨pre, t, hpre, ht, returns_of_step (Network.step_eq_some hstep).1 hcache hdata⟩

/-- **`Get` never returns the data of another key**, in a cluster of any nodes and connections, when
the keys that are asked for at the node can be sent, with any random strings of eight letters.  If a
call of `Get` for a key returns some data of a peer, then the cache of a node that is not passive
returned it for this key, in answer to a `GETReq` message for the key. -/
theorem get_returns_own_key {q : ℕ} {req : GetRequest} {data : Bytes}
    (hpeer : ∀ e, peer (peer e) = e) (hgetReq : json.getReq.KeepsValid)
    (hr : (network json peer config).Run ls s)
    (hgets : ∀ key randStr, (n, .get key randStr) ∈ ls → Askable key randStr)
    (hq : (s.node n).requests[q]? = some req) (hstatus : req.status = .replied data) :
    ∃ r, (config (peer (n, r)).1).passive = false ∧
      ∃ pre t, pre ++ [((peer (n, r)).1, .cacheGet (peer (n, r)).2 req.key data)] <+: ls ∧
        (network json peer config).Run pre t ∧
        Returns json (t.node (peer (n, r)).1) (peer (n, r)).2 req.key data := by
  have hrun := Network.run_node hr n
  obtain ⟨r, hdata, rsp, ⟨msg, hmsg, hcode, hrsp⟩, hkey, rfl⟩ := replied_of_status hrun hq hstatus
  obtain ⟨rsp', ⟨hactive, msg', hmsg', hcode', hkey', hget⟩, rfl⟩ :=
    answers_of_received (e := (n, r)) hpeer hr hmsg hcode
  obtain ⟨key, randStr, hask, rfl⟩ := get_of_received (e := peer (n, r)) hpeer hr hmsg' hcode'
  rw [hpeer] at hask
  have haskable := hgets key randStr hask
  rw [deSerialize_getMessage hgetReq haskable] at hkey' hget
  obtain ⟨-, hlen, -, hrand⟩ := haskable
  -- the response is read as it was sent
  have hrsp' := GetRspMessage.deSerialize_serialize rsp' (by simp [hkey']; omega)
  obtain rfl := Except.ok.inj (hrsp'.symm.trans hrsp)
  -- all random strings have the same length
  have hreq := hgets _ _ (Network.mem_acts.mp (get_mem_of_request hrun hq))
  obtain ⟨rfl, -⟩ := List.append_inj' (hkey'.symm.trans hkey) (hrand.trans hreq.2.2.2.symm)
  exact ⟨r, hactive, returns_of_mem hr hactive hdata (Network.mem_acts.mp hget)⟩

end

/-- The node `true` asks the node `false` for a key, which has it in its cache. -/
def lookUp : List (Bool × Step) :=
  let asked := getMessage [107] [97, 98, 99, 100, 101, 102, 103, 104]
  let rsp : GetRspMessage := ⟨0, [107, 97, 98, 99, 100, 101, 102, 103, 104], [7]⟩
  meet (fun _ ↦ false) ++ [(false, .write (.put [107] [7]) 0),
    (true, .get [107] [97, 98, 99, 100, 101, 102, 103, 104]), (true, .values 0 [0]),
    (true, .push 0), (true, .select 0), (true, .takeGet 0), (true, .getData 0),
    (true, .sendGet 0 0 asked)] ++
    pass false asked ++ [(false, .cacheGet 0 [107] [7]), (false, .respond 0 rsp),
    (false, .link (.finish 0))] ++ pass true (.getRsp rsp) ++ [(true, .load 0), (true, .forget 0),
    (true, .offer 0)]

/-- A call of `Get` returns what the cache of the other node has for the key. -/
theorem get_returns_own_key_lookUp :
    ∃ s, (network (.plain Utf8.repair) Links.pairPeer (pairConfig fun _ ↦ false)).Run lookUp s ∧
      (s.node true).requests =
        [⟨[107], [97, 98, 99, 100, 101, 102, 103, 104], .replied [7]⟩] ∧
      ∃ r pre t, pre ++ [((Links.pairPeer (true, r)).1, .cacheGet (Links.pairPeer (true, r)).2 [107]
          [7])] <+: lookUp ∧
        (network (.plain Utf8.repair) Links.pairPeer (pairConfig fun _ ↦ false)).Run pre t ∧
        Returns (.plain Utf8.repair) (t.node (Links.pairPeer (true, r)).1)
          (Links.pairPeer (true, r)).2 [107] [7] := by
  obtain ⟨s, hr, hs⟩ := TransitionSystem.exists_run_from
    (S := network (.plain Utf8.repair) Links.pairPeer (pairConfig fun _ ↦ false))
    (f := Network.step ports Links.pairPeer fun _ ↦ step (.plain Utf8.repair)) (l := lookUp)
    (p := fun s ↦ decide ((s.node true).requests =
      [⟨[107], [97, 98, 99, 100, 101, 102, 103, 104], .replied [7]⟩]))
    (fun _ _ _ h ↦ h) rfl (by decide +kernel)
  have hrequests := of_decide_eq_true hs
  have hgets : ∀ key randStr, (true, .get key randStr) ∈ lookUp → Askable key randStr := by
    intro key randStr h
    simp [lookUp, meet, greet, pass] at h
    obtain ⟨rfl, rfl⟩ := h
    exact ⟨Utf8.repair_eq_self_iff.mp (by decide +kernel), by decide,
      Utf8.repair_eq_self_iff.mp (by decide +kernel), rfl⟩
  obtain ⟨r, -, h⟩ := get_returns_own_key (q := 0) Links.pairPeer_pairPeer
    (Json.Repairs.keepsValid (EncodingJson.plain_getReq _)) hr hgets (by rw [hrequests]; rfl) rfl
  exact ⟨s, hr, hrequests, r, h⟩

end ClusteredBigCache.Member
