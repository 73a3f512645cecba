import ClusteredBigCache.Cluster.Member
import ClusteredBigCache.Cluster.Peers

/-!
# Passive nodes

A passive node has no cache, and the handlers of `PUT`, `DEL` and `GETReq` messages do not check
whether there is one.  What keeps such a message from a passive node is that a node does not send it
to a connection whose mode is passive.  That is the mode in the `VERIFY` message of the node at the
other end, so it is what that node really is.

`passive_isolation` says so for a cluster of any nodes and connections: no request is on its way to
a passive node, and so the cache of a passive node is never used; nor does a passive node register
another one.
-/

set_option autoImplicit false

namespace ClusteredBigCache.Member

theorem mode_links (config : Config) :
    config.links.hello.mode = clusterModePASSIVE ↔ config.passive = true := by
  rw [Config.links]
  split_ifs with h <;> simp [h]
  decide

theorem not_isRequest_of_isControl {msg : NodeMessage} (h : IsControl msg) :
    ¬ IsRequest msg.code := by
  cases msg <;> first | exact h.elim | (rintro (h | h | h) <;> cases h)

section

variable {ν : Type} [DecidableEq ν] {json : EncodingJson} {peer : ν × ConnId → ν × ConnId}
  {config : ν → Config} {ls : List (ν × Step)} {s : Network ν ConnId Member NodeWireMessage}
  {n : ν} {r : ConnId}

/-- A connection that was accepted has the mode of the node at its other end, and not both nodes are
passive. -/
theorem passive_of_accepted (hpeer : ∀ e, peer (peer e) = e)
    (hverify : ∀ n, json.verify.RoundTrips (config n).links.hello)
    (hr : (network json peer config).Run ls s)
    (h : ((s.node n).links.link r).accepted = true) :
    (((s.node n).links.node.heap r).mode = clusterModePASSIVE ↔
      (config (peer (n, r)).1).passive = true) ∧
      ¬ ((config (peer (n, r)).1).passive = true ∧ (config n).passive = true) := by
  obtain ⟨hmode, hnot⟩ := Links.mode_of_accepted (e := (n, r)) hpeer (hverify _) (run_links hr) h
  rw [mode_links, mode_links] at hnot
  exact ⟨by rw [← mode_links, ← hmode]; rfl, hnot⟩

/-- What the calls of a node have to send goes to nodes that are not passive. -/
theorem destined (hpeer : ∀ e, peer (peer e) = e)
    (hverify : ∀ n, json.verify.RoundTrips (config n).links.hello)
    (hr : (network json peer config).Run ls s) (n : ν) :
    (s.node n).Destined (fun x ↦ (config (peer (n, x.1)).1).passive = false)
      fun x ↦ (config (peer (n, x.1)).1).passive = false := by
  refine Network.node_invariant (n := n) (motive := fun _ m ↦ m.Destined
    (fun x ↦ (config (peer (n, x.1)).1).passive = false)
    fun x ↦ (config (peer (n, x.1)).1).passive = false) hr (fun _ ↦ id) (fun _ _ _ ↦ id) ?_
    fun ls s a s' hr _ hnode ih ↦ ih.step (step_act hnode) fun i job r rest hi hmode ↦ ?_
  · exact ⟨by simp [new, WorkerPool.empty, WorkerPool.contents],
      by simp [new, WorkerPool.empty, WorkerPool.contents], by simp [new]⟩
  · have hw := run_wired (Network.run_node hr n)
    have haccepted := (hw.fanOuts _ (List.mem_of_getElem? hi)).peers _ rfl r List.mem_cons_self
    have hpassive : (config (peer (n, r)).1).passive = false := by
      rw [← Bool.not_eq_true, ← (passive_of_accepted hpeer hverify hr haccepted).1]
      exact hmode
    exact ⟨fun _ _ ↦ hpassive, fun _ _ ↦ hpassive⟩

/-- A node sends requests to nodes that are not passive. -/
theorem sends_requests (hpeer : ∀ e, peer (peer e) = e)
    (hverify : ∀ n, json.verify.RoundTrips (config n).links.hello)
    (hr : (network json peer config).Run ls s) (n : ν) (r : ConnId) :
    Links.Sends json (fun msg ↦ IsRequest msg.code → (config (peer (n, r)).1).passive = false) r
      ((Network.acts n ls).filterMap proj) ((s.node n).links.node.heap r) := by
  refine Network.node_invariant (n := n) (motive := fun as m ↦ Links.Sends json
    (fun msg ↦ IsRequest msg.code → (config (peer (n, r)).1).passive = false) r (as.filterMap proj)
    (m.links.node.heap r)) hr (fun _ ↦ id) (fun _ _ _ ↦ id) ?_
    fun ls s a s' hr _ hnode ih ↦ step_sends (run_wired (Network.run_node hr n)) (step_act hnode) ih
      fun msg hmsg hreq ↦ ?_
  · exact ⟨by simp [new, Links.new, RemoteNode.setState, RemoteNode.newRemoteNode],
      by simp [Ports.sent]⟩
  · have hd := destined hpeer hverify hr n
    cases hmsg with
    | control h => exact absurd hreq (not_isRequest_of_isControl h)
    | replicate h => exact hd.replication _ (WorkerPool.mem_contents_of_holding h)
    | sendGet h hq => exact hd.sending _ _ h
    | respond h => rcases hreq with h | h | h <;> cases h

/-- A request that was sent was sent to a node that is not passive. -/
theorem passive_of_mem_sent (hpeer : ∀ e, peer (peer e) = e)
    (hverify : ∀ n, json.verify.RoundTrips (config n).links.hello)
    (hr : (network json peer config).Run ls s) {e : ν × ConnId} {msg : NodeWireMessage}
    (hmsg : msg ∈ Links.ports.sent (peer e).2 ((Network.acts (peer e).1 ls).filterMap proj))
    (hreq : IsRequest msg.code) : (config e.1).passive = false := by
  obtain ⟨msg, hp, rfl⟩ := (sends_requests hpeer hverify hr (peer e).1 (peer e).2).sent msg hmsg
  rw [hpeer] at hp
  refine hp ?_
  rwa [NodeMessage.serialize_code] at hreq

/-- **The cache of a passive node is not used.** -/
theorem cache_not_used (hpeer : ∀ e, peer (peer e) = e)
    (hverify : ∀ n, json.verify.RoundTrips (config n).links.hello)
    (hr : (network json peer config).Run ls s) (n : ν) :
    (s.node n).crash ≠ some .nilCache := by
  refine Network.node_invariant (n := n) (motive := fun _ m ↦ m.crash ≠ some .nilCache) hr
    (fun _ ↦ id) (fun _ _ _ ↦ id) (by simp [new]) fun ls s a s' hr _ hnode ih hcrash ↦ ?_
  rcases (step_act hnode).nilCache_of_crash hcrash with h | ⟨r, msg, hmsg, hreq, hnone⟩
  · exact ih h
  · have hrun := Network.run_node hr n
    have hsent := mem_sent_of_mem_received (e := (n, r)) hpeer hr (mem_received_of_called hrun hmsg)
    have hactive := passive_of_mem_sent hpeer hverify hr hsent hreq
    have hpassive := (cache_eq_none_iff hrun).mp hnone
    simp [hactive] at hpassive

/-- No request is queued for the node at the other end of a connection or on its way to it. -/
structure Clear (peer : ν × ConnId → ν × ConnId) (s : Network ν ConnId Member NodeWireMessage)
    (n : ν) (r : ConnId) : Prop where
  destined : (s.node n).Destined (fun x ↦ x.1 ≠ r) fun x ↦ x.1 ≠ r
  outbound : ∀ msg ∈ ((s.node n).links.node.heap r).outboundMsgQueue, ¬ IsRequest msg.code
  wire : ∀ msg ∈ s.wire (peer (n, r)), ¬ IsRequest msg.code
  inbound : ∀ msg ∈ ((s.node (peer (n, r)).1).links.link (peer (n, r)).2).inboundMsgQueue ++
    Links.inHand ((s.node (peer (n, r)).1).links.link (peer (n, r)).2).consumer,
    ¬ IsRequest msg.code

theorem clear (hpeer : ∀ e, peer (peer e) = e)
    (hverify : ∀ n, json.verify.RoundTrips (config n).links.hello)
    (hr : (network json peer config).Run ls s)
    (hpassive : (config (peer (n, r)).1).passive = true) : Clear peer s n r := by
  have hne : ∀ {r' : ConnId}, (config (peer (n, r')).1).passive = false → r' ≠ r := by
    rintro r' h rfl
    simp [hpassive] at h
  -- what is on its way has been sent, and what has been read as well
  have hsent : ∀ msg ∈ Links.ports.sent r ((Network.acts n ls).filterMap proj),
      ¬ IsRequest msg.code := by
    intro msg hmsg hreq
    have hend := passive_of_mem_sent (e := peer (n, r)) hpeer hverify hr (by rwa [hpeer]) hreq
    simp [hpassive] at hend
  constructor
  · exact (destined hpeer hverify hr n).mono (fun _ ↦ hne) fun _ ↦ hne
  · intro msg hmsg hreq
    have hend := (sends_requests hpeer hverify hr n r).queued msg hmsg hreq
    simp [hpassive] at hend
  · intro msg hmsg
    have hwire := Network.received_append_wire hpeer (run_links hr) (peer (n, r))
    rw [hpeer, Network.acts_mapActs, Network.acts_mapActs] at hwire
    exact hsent msg (hwire ▸ List.mem_append_right _ hmsg)
  · intro msg hmsg
    have hmem : msg ∈ Links.kept (peer (n, r)).2
        ((Network.acts (peer (n, r)).1 ls).filterMap proj)
        ((s.node (peer (n, r)).1).links.link (peer (n, r)).2) := by
      rw [Links.kept, List.append_assoc]
      exact List.mem_append_right _ hmsg
    have hreceived := Links.mem_received_of_mem_kept
      (run_links_node (Network.run_node hr (peer (n, r)).1)) hmem
    have hmsg' := mem_sent_of_mem_received hpeer hr hreceived
    rw [hpeer] at hmsg'
    exact hsent msg hmsg'

/-- **Passive isolation**, in a cluster of any nodes and connections.  A passive node has no passive
node in its registry; there is no `PUT`, `DEL` or `GETReq` message for a passive node, from the
channels of the sender to the queue of the receiver; and the `nil` cache of a passive node is not
used. -/
theorem passive_isolation (hpeer : ∀ e, peer (peer e) = e)
    (hverify : ∀ n, json.verify.RoundTrips (config n).links.hello)
    (hr : (network json peer config).Run ls s) :
    (∀ n id r, (config n).passive = true → (s.node n).links.node.remoteNodes.get id = some r →
      (config (peer (n, r)).1).passive = false) ∧
      (∀ n r, (config (peer (n, r)).1).passive = true → Clear peer s n r) ∧
      ∀ n, (s.node n).crash ≠ some .nilCache := by
  refine ⟨fun n id r hpassive hid ↦ ?_, fun n r ↦ clear hpeer hverify hr,
    cache_not_used hpeer hverify hr⟩
  have haccepted := (run_wired (Network.run_node hr n)).registered id r hid
  have hnot := (passive_of_accepted hpeer hverify hr haccepted).2
  simpa [hpassive] using hnot

end

/-- A passive node and an active one.  A `Put` of the passive node comes to the cache of the active
one, and a `Put` of the active one is not sent. -/
theorem passive_isolation_put :
    ∃ (ls : List (Bool × Step)) (s : Network Bool ConnId Member NodeWireMessage),
      (network (.plain Utf8.repair) Links.pairPeer (pairConfig id)).Run ls s ∧
      (s.node true).links.node.remoteNodes.get [98] = some 0 ∧
      (s.node false).cache.map (· [107]) = some (some [7]) ∧
      Clear Links.pairPeer s false 0 ∧ ∀ n, (s.node n).crash ≠ some .nilCache := by
  obtain ⟨s, hr, hs⟩ := TransitionSystem.exists_run_from
    (S := network (.plain Utf8.repair) Links.pairPeer (pairConfig id))
    (f := Network.step ports Links.pairPeer fun _ ↦ step (.plain Utf8.repair))
    (l := meet id ++ ([.write (.put [107] [7]) 0, .values 0 [0], .push 0, .take 0,
      .replicate 0 0 (.put ⟨0, [107], 0, [7]⟩)] : List Step).map (true, ·) ++
      pass false (.put ⟨0, [107], 0, [7]⟩) ++ ([.store 0, .link (.finish 0),
      .write (.put [108] [8]) 0, .values 0 [0], .push 0] : List Step).map (false, ·))
    (p := fun s ↦ decide ((s.node true).links.node.remoteNodes.get [98] = some 0 ∧
      (s.node false).cache.map (· [107]) = some (some [7])))
    (fun _ _ _ h ↦ h) rfl (by decide +kernel)
  obtain ⟨hregistered, hcache⟩ := of_decide_eq_true hs
  obtain ⟨-, hclear, hcrash⟩ := passive_isolation Links.pairPeer_pairPeer
    (fun n ↦ (EncodingJson.plain_verify _).roundTrips (by cases n <;> decide +kernel)) hr
  exact ⟨_, s, hr, hregistered, hcache, hclear false 0 rfl, hcrash⟩

end ClusteredBigCache.Member
