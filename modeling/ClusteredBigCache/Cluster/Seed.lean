import ClusteredBigCache.Cluster.Peers

/-!
# Joining through a common seed

A node that joins through a seed registers there with its `VERIFY` message, waits for the `VERIFYOK`
of the seed, and then asks it with a `SyncReq` whom it should connect to.  The seed answers from
what is in its registry at that moment.  Of two nodes that join through the same seed, the one that
is registered later asks after both are registered, and so it should be told about the other one.

`CommonSeed` is that setting.  `introduced` says that this is what happens as long as the first one
stays registered.  What can go wrong is in `not_introduced`: when the seed turns away a second
connection of the first node, tearing that connection down removes the first one from the registry,
although it is up and running.
-/

set_option autoImplicit false

namespace ClusteredBigCache

open Links

/-! ## What becomes of a request, at the two ends of a connection

A `SyncReq` is followed from the goroutine that sends it to the handler that answers it, and its
answer back again.  At each end this is a fact about one connection of `Links`, in any order of the
steps. -/

/-- What `handleMessage` does with a `SyncReq` message of a node of some mode, on the way to an
answer with the connection `other` in it. -/
def Handling.Promising (other : ConnId) (mode : UInt8) : Handling → Prop
  | .answering mode' => mode' = mode
  | .listing mode' values => mode' = mode ∧ other ∈ values
  | _ => True

namespace Links

/-- A `VERIFY` message that was accepted is answered. -/
def Replied (json : EncodingJson) (r : ConnId) (as : List Step) (c : Links) : Prop :=
  (c.link r).accepted = true → (c.link r).handler = .accepting ∨ (c.link r).handler = .replying ∨
    Posted json r as (c.node.heap r) .verifyOK

/-- A `VERIFYOK` message is followed by a `SyncReq`. -/
def Asking (json : EncodingJson) (r : ConnId) (mode : UInt8) (as : List Step) (c : Links) : Prop :=
  (∃ msg ∈ dispatched r as, msg.code = msgVERIFYOK) →
    (c.link r).waiting ≠ 0 ∨ Posted json r as (c.node.heap r) (.syncReq ⟨0, mode⟩)

/-- A `SyncReq` of a node of some mode is answered with a list in which the node with the name `id`
is, which is on the connection `other`. -/
structure Answering (json : EncodingJson) (r other : ConnId) (id : Bytes) (mode : UInt8)
    (as : List Step) (c : Links) : Prop where
  handler : (c.link r).handler.Promising other mode
  answered : (∃ msg ∈ dispatched r as, msg.code = msgSyncReq) → (c.link r).handler.IsSync ∨
    ∃ msg : SyncRspMessage, id ∈ msg.list.map (·.id) ∧
      Posted json r as (c.node.heap r) (.syncRsp msg)

section

variable {json : EncodingJson} {r other : ConnId} {id : Bytes} {mode : UInt8} {as : List Step}
  {c c' : Links} {a : Step} {rn rn' : RemoteNode} {l l' : Link}

theorem Move.replied {p : Prop} (h : Move json c r rn l a rn' l')
    (hl : l.accepted = true → l.handler = .accepting ∨ l.handler = .replying ∨ p)
    (haccepted : l'.accepted = true) :
    l'.handler = .accepting ∨ l'.handler = .replying ∨ p ∨ a = .reply r := by
  cases h with
  | add hadding => exact .inl rfl
  | accept haccepting => exact .inr (.inl rfl)
  | reply hreplying => exact .inr (.inr (.inr rfl))
  | handle hwaiting hqueue hstate hdispatch =>
    have hacc : l.accepted = true := by cases hdispatch <;> exact haccepted
    exact .inr (.inr (.inl (by simpa [hwaiting] using hl hacc)))
  | contains hplace | getRemoteNodes hplace | sendSyncResponse hplace | finish hplace =>
    exact .inr (.inr (.inl (by simpa [hplace] using hl haccepted)))
  | _ => exact (hl haccepted).imp_right (Or.imp_right .inl)

theorem Replied.step (hs : Replied json r as c) (h : c.step json a = some c')
    (hstate : c.state r ≠ .disconnected) (hopen : (c.link r).closing = false) :
    Replied json r (as ++ [a]) c' := by
  have hposted : Posted json r as (c.node.heap r) .verifyOK ∨
      r = a.conn ∧ .verifyOK ∈ c.posts a →
      Posted json r (as ++ [a]) (c'.node.heap r) .verifyOK := step_posted h hstate hopen
  intro haccepted
  by_cases hr : r = a.conn
  · subst hr
    refine ((step_move h).replied hs haccepted).imp_right (Or.imp_right fun hp ↦ hposted ?_)
    refine hp.imp_right fun ha ↦ ⟨rfl, ?_⟩
    rw [ha]
    exact List.mem_singleton_self _
  · rw [(step_of_ne h hr).2] at haccepted ⊢
    exact (hs haccepted).imp_right (Or.imp_right fun hp ↦ hposted (.inl hp))

theorem Asking.step (hs : Asking json r c.node.mode as c) (h : c.step json a = some c')
    (hstate : c.state r ≠ .disconnected) (hopen : (c.link r).closing = false)
    (hsync : (c.link r).sync = true) (hexpire : a ≠ .expire r) :
    Asking json r c.node.mode (as ++ [a]) c' := by
  have hposted : Posted json r as (c.node.heap r) (.syncReq ⟨0, c.node.mode⟩) ∨
      r = a.conn ∧ .syncReq ⟨0, c.node.mode⟩ ∈ c.posts a →
      Posted json r (as ++ [a]) (c'.node.heap r) (.syncReq ⟨0, c.node.mode⟩) :=
    step_posted h hstate hopen
  rintro ⟨msg, hmsg, hcode⟩
  rw [mem_dispatched_snoc] at hmsg
  by_cases hr : r = a.conn
  · subst hr
    rw [(step_move h).waiting]
    by_cases hreq : a = .syncReq a.conn
    · have hposts : .syncReq ⟨0, c.node.mode⟩ ∈ c.posts (.syncReq a.conn) := by
        rw [posts, if_pos hsync]
        exact List.mem_singleton_self _
      exact .inr (hposted (.inr ⟨rfl, hreq ▸ hposts⟩))
    rcases hmsg with hmsg | ha
    · refine (hs ⟨msg, hmsg, hcode⟩).imp (fun hw ↦ ?_) fun hp ↦ hposted (.inl hp)
      -- the goroutine that waits is still there
      have hle : (c.link a.conn).waiting ≤ nextWaiting (c.link a.conn).waiting a := by
        apply nextWaiting_of_ne
        · rintro r rfl
          exact hreq rfl
        · rintro r rfl
          exact hexpire rfl
      exact fun h0 ↦ hw (Nat.le_zero.mp (hle.trans h0.le))
    · left
      rw [ha, nextWaiting, if_pos hcode]
      exact Nat.succ_ne_zero _
  · have hmsg : msg ∈ dispatched r as := by
      refine hmsg.resolve_right fun ha ↦ hr ?_
      rw [ha]
      rfl
    rw [(step_of_ne h hr).2]
    exact (hs ⟨msg, hmsg, hcode⟩).imp_right fun hp ↦ hposted (.inl hp)

/-- What `handleMessage` has to do with `SyncReq` messages. -/
theorem Move.promising (h : Move json c r rn l a rn' l') (hl : l.handler.Promising other mode)
    (hmode : ∀ msg, a = .handle r msg → msg.code = msgSyncReq →
      (json.syncReq.deSerialize msg).mode = mode)
    (hother : l.handler.IsSync → other ∈ c.node.remoteNodes.values) :
    l'.handler.Promising other mode := by
  cases h with
  | handle hwaiting hqueue hstate hdispatch =>
    cases hdispatch with
    | syncReq hmsg => exact hmode _ rfl hmsg
    | verify hmsg =>
      simp only
      split_ifs <;> trivial
    | data hmsg => trivial
    | _ => exact hl
  | contains hchecking =>
    simp only
    split_ifs <;> trivial
  | getRemoteNodes hanswering hvalues =>
    rw [hanswering] at hl hother
    have hmem : other ∈ c.node.remoteNodes.values := hother trivial
    rw [← hvalues] at hmem
    exact ⟨hl, Multiset.mem_coe.mp hmem⟩
  | add hplace | accept hplace | reply hplace | sendSyncResponse hplace | finish hplace => trivial
  | _ => exact hl

/-- `handleMessage` goes on with a `SyncReq` message until it has answered it. -/
theorem Move.isSync (h : Move json c r rn l a rn' l') (hl : l.handler.IsSync) :
    l'.handler.IsSync ∨
      ∃ mode values, a = .sendSyncResponse r ∧ l.handler = .listing mode values := by
  cases h with
  | handle hwaiting => exact absurd hl (by rw [hwaiting]; exact id)
  | getRemoteNodes hanswering hvalues => exact .inl trivial
  | sendSyncResponse hlisting => exact .inr ⟨_, _, rfl, hlisting⟩
  | contains hplace | add hplace | accept hplace | reply hplace | finish hplace =>
    exact absurd hl (by rw [hplace]; exact id)
  | _ => exact .inl hl

theorem Move.isSync_of_handle {msg : NodeWireMessage}
    (h : Move json c r rn l (.handle r msg) rn' l') (hmsg : msg.code = msgSyncReq) :
    l'.handler.IsSync := by
  cases h with
  | handle hwaiting hqueue hstate hdispatch =>
    cases hdispatch with
    | syncReq hmsg' => trivial
    | other hmsg' => exact absurd hmsg hmsg'.2.2.1
    | data hmsg' => rcases hmsg' with h | h | h | h <;> rw [hmsg] at h <;> cases h
    | verify h | verifyOK h | ping h =>
      rw [hmsg] at h
      cases h

/-- The answer to a `SyncReq` message has the other node in it. -/
theorem Answering.mem_posts (hs : Answering json r other id mode as c)
    (hpeers : (c.link r).handler.IsSync → ∀ values, other ∈ values →
      id ∈ (c.node.proposedPeers r mode values).map (·.id))
    {mode' : UInt8} {values : List ConnId} (hlisting : (c.link r).handler = .listing mode' values) :
    ∃ msg : SyncRspMessage, id ∈ msg.list.map (·.id) ∧
      .syncRsp msg ∈ c.posts (.sendSyncResponse r) := by
  have hhandler := hs.handler
  rw [hlisting] at hhandler
  obtain ⟨rfl, hother⟩ := hhandler
  have hmem := hpeers (by rw [hlisting]; trivial) values hother
  have hne : c.node.proposedPeers r mode' values ≠ [] := by
    intro hnil
    rw [hnil] at hmem
    cases hmem
  refine ⟨⟨0, c.replicationFactor, c.node.proposedPeers r mode' values⟩, hmem, ?_⟩
  simp [posts, hlisting, hne]

theorem Answering.step (hs : Answering json r other id mode as c) (h : c.step json a = some c')
    (hstate : c.state r ≠ .disconnected) (hopen : (c.link r).closing = false)
    (hmode : ∀ msg, a = .handle r msg → msg.code = msgSyncReq →
      (json.syncReq.deSerialize msg).mode = mode)
    (hother : (c.link r).handler.IsSync → other ∈ c.node.remoteNodes.values)
    (hpeers : (c.link r).handler.IsSync → ∀ values, other ∈ values →
      id ∈ (c.node.proposedPeers r mode values).map (·.id)) :
    Answering json r other id mode (as ++ [a]) c' := by
  have hposted : ∀ msg, Posted json r as (c.node.heap r) msg ∨ r = a.conn ∧ msg ∈ c.posts a →
      Posted json r (as ++ [a]) (c'.node.heap r) msg := fun _ ↦ step_posted h hstate hopen
  by_cases hr : r = a.conn
  · have hmove := step_move h
    rw [← hr] at hmove
    refine ⟨hmove.promising hs.handler hmode hother, ?_⟩
    rintro ⟨msg, hmsg, hcode⟩
    rw [dispatched_append, List.mem_append] at hmsg
    rcases hmsg with hmsg | hmsg
    · rcases hs.answered ⟨msg, hmsg, hcode⟩ with hsync | ⟨rsp, hid, hrsp⟩
      · rcases hmove.isSync hsync with hsync | ⟨mode', values, ha, hlisting⟩
        · exact .inl hsync
        · obtain ⟨rsp, hid, hrsp⟩ := hs.mem_posts hpeers hlisting
          exact .inr ⟨rsp, hid, hposted _ (.inr ⟨hr, ha ▸ hrsp⟩)⟩
      · exact .inr ⟨rsp, hid, hposted _ (.inl hrsp)⟩
    · obtain rfl := List.mem_singleton.mp (mem_dispatched.mp hmsg)
      exact .inl (hmove.isSync_of_handle hcode)
  · obtain ⟨hheap, hlink⟩ := step_of_ne h hr
    refine ⟨hlink ▸ hs.handler, ?_⟩
    rw [dispatched_append, dispatched_of_conn_ne (Ne.symm hr), List.append_nil, hlink]
    exact fun hmsg ↦ (hs.answered hmsg).imp_right fun ⟨rsp, hid, hrsp⟩ ↦
      ⟨rsp, hid, hposted _ (.inl hrsp)⟩

end

end Links

/-! ## Two nodes and their seed

The seed tells a node about those that it has registered already, so of two nodes the one that is
registered second learns of the first. -/

/-- Two nodes, which are called `false` and `true`, that join through a common seed. -/
structure CommonSeed {ν : Type} (peer : ν × ConnId → ν × ConnId) (config : ν → Links.Config) where
  seed : ν
  joiner : Bool → ν
  /-- The connections to the seed. -/
  conn : Bool → ConnId
  /-- Their other ends, at the seed. -/
  seedConn : Bool → ConnId
  peer_conn (b : Bool) : peer (joiner b, conn b) = (seed, seedConn b)
  sync (b : Bool) : (config (joiner b)).sync (conn b) = true
  id_ne (b : Bool) : (config (joiner b)).hello.id ≠ (config (joiner !b)).hello.id
  not_passive (b : Bool) : ¬ ((config (joiner b)).hello.mode = clusterModePASSIVE ∧
    (config (joiner !b)).hello.mode = clusterModePASSIVE)

/-- Everything at an end of a connection has been dealt with. -/
structure Quiet {ν : Type} (s : Network ν ConnId Links NodeWireMessage) (e : ν × ConnId) :
    Prop where
  wire : s.wire e = []
  consumer : inHand ((s.node e.1).link e.2).consumer = []
  inboundMsgQueue : ((s.node e.1).link e.2).inboundMsgQueue = []
  handler : ((s.node e.1).link e.2).handler = .waiting
  waiting : ((s.node e.1).link e.2).waiting = 0
  outboundMsgQueue : ((s.node e.1).node.heap e.2).outboundMsgQueue = []

instance {ν : Type} (s : Network ν ConnId Links NodeWireMessage) (e : ν × ConnId) :
    Decidable (Quiet s e) :=
  decidable_of_iff (s.wire e = [] ∧ inHand ((s.node e.1).link e.2).consumer = [] ∧
      ((s.node e.1).link e.2).inboundMsgQueue = [] ∧ ((s.node e.1).link e.2).handler = .waiting ∧
      ((s.node e.1).link e.2).waiting = 0 ∧ ((s.node e.1).node.heap e.2).outboundMsgQueue = [])
    ⟨fun ⟨h₁, h₂, h₃, h₄, h₅, h₆⟩ ↦ ⟨h₁, h₂, h₃, h₄, h₅, h₆⟩,
      fun ⟨h₁, h₂, h₃, h₄, h₅, h₆⟩ ↦ ⟨h₁, h₂, h₃, h₄, h₅, h₆⟩⟩

namespace CommonSeed

variable {ν : Type} {peer : ν × ConnId → ν × ConnId} {config : ν → Links.Config}

theorem peer_seedConn {J : CommonSeed peer config} (hpeer : ∀ e, peer (peer e) = e) (b : Bool) :
    peer (J.seed, J.seedConn b) = (J.joiner b, J.conn b) := by
  rw [← J.peer_conn b, hpeer]

theorem seedConn_ne {J : CommonSeed peer config} (hpeer : ∀ e, peer (peer e) = e) (b : Bool) :
    J.seedConn b ≠ J.seedConn !b := by
  intro h
  have hend : (J.joiner b, J.conn b) = (J.joiner !b, J.conn !b) := by
    rw [← peer_seedConn hpeer b, ← peer_seedConn hpeer, h]
  exact J.id_ne b (by rw [(Prod.mk.inj hend).1])

/-- The `VERIFY` message of each of the two nodes. -/
def hello (J : CommonSeed peer config) (b : Bool) : VerifyMessage := (config (J.joiner b)).hello

/-- What the seed reads in the `VERIFY` message of each node. -/
theorem peerHello_seedConn {J : CommonSeed peer config} {json : EncodingJson} {b : Bool}
    (hpeer : ∀ e, peer (peer e) = e) (hverify : json.verify.Repairs)
    (hid : Utf8.repair (J.hello b).id = (J.hello b).id) :
    ((peerHello json peer config (J.seed, J.seedConn b)).id,
      (peerHello json peer config (J.seed, J.seedConn b)).mode) =
      ((J.hello b).id, (J.hello b).mode) := by
  rw [peerHello, peer_seedConn hpeer]
  have hdes : json.verify.deSerialize ⟨msgVERIFY, json.verify.marshal (J.hello b)⟩ =
    mapStrings Utf8.repair (J.hello b) := Json.deSerialize_mk (hverify (J.hello b))
  rw [show (NodeMessage.verify (config (J.joiner b)).hello).serialize json =
    ⟨msgVERIFY, json.verify.marshal (J.hello b)⟩ from rfl, hdes]
  exact Prod.ext hid rfl

variable [DecidableEq ν] {json : EncodingJson} (J : CommonSeed peer config)

/-- The two connections stay up, and the wait in `handleVerifyOK` does not expire. -/
def StaysUp (x : ν × Step) : Prop :=
  ∀ b, x ≠ (J.joiner b, .disconnect (J.conn b)) ∧ x ≠ (J.joiner b, .expire (J.conn b)) ∧
    x ≠ (J.seed, .disconnect (J.seedConn b)) ∧ x ≠ (J.seed, .tearDown (J.seedConn b))

instance (x : ν × Step) : Decidable (J.StaysUp x) :=
  inferInstanceAs (Decidable (∀ _, _ ∧ _))

/-- The network, as long as the two connections stay up. -/
def system (json : EncodingJson) :
    TransitionSystem (Network ν ConnId Links NodeWireMessage) (ν × Step) :=
  (network json peer config).restrict fun _ x ↦ J.StaysUp x

/-- The seed neither registers nor tears down another connection under the name of one of the two
nodes. -/
def Unrivalled (s : Network ν ConnId Links NodeWireMessage) (x : ν × Step) : Prop :=
  x.1 = J.seed → x.2 = .add x.2.conn ∨ x.2 = .tearDown x.2.conn →
    ∀ b, (s.node J.seed).node.idOf x.2.conn = (J.hello b).id → x.2.conn = J.seedConn b

instance (s : Network ν ConnId Links NodeWireMessage) (x : ν × Step) :
    Decidable (J.Unrivalled s x) :=
  inferInstanceAs (Decidable (_ → _ → ∀ _, _ → _))

/-- The node `b` is registered after the other one. -/
def Second (b : Bool) (s : Network ν ConnId Links NodeWireMessage) (x : ν × Step) : Prop :=
  x = (J.seed, .add (J.seedConn b)) → ((s.node J.seed).link (J.seedConn !b)).accepted = true

section

variable {J} {ls : List (ν × Step)} {s : Network ν ConnId Links NodeWireMessage} {b : Bool}

theorem run_joiner (hr : (J.system json).Run ls s) (b : Bool) :
    (steadyNetwork json peer config (J.joiner b) (J.conn b)).Run ls s :=
  hr.restrict_mono fun _ _ hx hn ha ↦ (hx b).1 (Prod.ext hn ha)

theorem run_seed (hr : (J.system json).Run ls s) (b : Bool) :
    (steadyNetwork json peer config J.seed (J.seedConn b)).Run ls s :=
  hr.restrict_mono fun _ _ hx hn ha ↦ (hx b).2.2.1 (Prod.ext hn ha)

/-- The connections are up. -/
theorem joiner_up (hpeer : ∀ e, peer (peer e) = e) (hr : (J.system json).Run ls s) (b : Bool) :
    (s.node (J.joiner b)).state (J.conn b) ≠ .disconnected ∧
      ((s.node (J.joiner b)).link (J.conn b)).closing = false :=
  have hs := steady hpeer (e := (J.joiner b, J.conn b)) (run_joiner hr b) (.inl rfl)
  ⟨hs.up, hs.opened⟩

theorem seed_up (hpeer : ∀ e, peer (peer e) = e) (hr : (J.system json).Run ls s) (b : Bool) :
    (s.node J.seed).state (J.seedConn b) ≠ .disconnected ∧
      ((s.node J.seed).link (J.seedConn b)).closing = false :=
  have hs := steady hpeer (e := (J.seed, J.seedConn b)) (run_seed hr b) (.inl rfl)
  ⟨hs.up, hs.opened⟩

/-- The seed has replied to each node that it has accepted. -/
theorem replied (hpeer : ∀ e, peer (peer e) = e) (hr : (J.system json).Run ls s) (b : Bool) :
    Replied json (J.seedConn b) (Network.acts J.seed ls) (s.node J.seed) := by
  refine Network.node_invariant (n := J.seed) (motive := Replied json (J.seedConn b)) hr
    (fun _ ↦ id) (fun _ _ _ h ↦ h.1) (by rintro ⟨⟩) fun ls s a s' hr _ hnode ih ↦ ?_
  obtain ⟨hstate, hopen⟩ := seed_up hpeer hr b
  exact ih.step hnode hstate hopen

/-- A node that has handled a `VERIFYOK` message asks the seed. -/
theorem asking (hpeer : ∀ e, peer (peer e) = e) (hr : (J.system json).Run ls s) (b : Bool) :
    Asking json (J.conn b) (J.hello b).mode (Network.acts (J.joiner b) ls)
      (s.node (J.joiner b)) := by
  refine Network.node_invariant (n := J.joiner b)
    (motive := Asking json (J.conn b) (J.hello b).mode) hr (fun _ ↦ id) (fun _ _ _ h ↦ h.1) ?_
    fun ls s a s' hr hstep hnode ih ↦ ?_
  · rintro ⟨msg, hmsg, -⟩
    cases hmsg
  · obtain ⟨hstate, hopen⟩ := joiner_up hpeer hr b
    have hrun := Network.run_node hr.of_restrict (J.joiner b)
    have hmode : (s.node (J.joiner b)).node.mode = (J.hello b).mode :=
      congrArg VerifyMessage.mode (run_hello hrun)
    rw [← hmode] at ih ⊢
    exact ih.step hnode hstate hopen ((run_sync hrun _).trans (J.sync b))
      fun ha ↦ (hstep.2 b).2.1 (by rw [ha])

/-- The seed calls each node that it registers by its name. -/
theorem seed_label (hpeer : ∀ e, peer (peer e) = e) (hverify : json.verify.Repairs)
    (hid : Utf8.repair (J.hello b).id = (J.hello b).id)
    (hr : (network json peer config).Run ls s)
    (h : ((s.node J.seed).link (J.seedConn b)).handler = .adding ∨
      ((s.node J.seed).link (J.seedConn b)).accepted = true) :
    ((s.node J.seed).node.idOf (J.seedConn b), ((s.node J.seed).node.heap (J.seedConn b)).mode) =
      ((J.hello b).id, (J.hello b).mode) := by
  have hlabel := labelled (e := (J.seed, J.seedConn b)) hpeer hr
    (verify_of_gate (Network.run_node hr J.seed) h)
  exact hlabel.trans (peerHello_seedConn hpeer hverify hid)

/-- **A node that was accepted stays registered**, if nobody else uses its name. -/
theorem registered (hpeer : ∀ e, peer (peer e) = e) (hverify : json.verify.Repairs)
    (hid : Utf8.repair (J.hello b).id = (J.hello b).id)
    (hr : ((J.system json).restrict J.Unrivalled).Run ls s)
    (haccepted : ((s.node J.seed).link (J.seedConn b)).accepted = true) :
    (s.node J.seed).node.remoteNodes.get (J.hello b).id = some (J.seedConn b) := by
  revert haccepted
  refine Network.node_invariant (n := J.seed) (motive := fun _ c ↦
    (c.link (J.seedConn b)).accepted = true →
      c.node.remoteNodes.get (J.hello b).id = some (J.seedConn b)) hr (fun _ ↦ id)
    (fun _ _ _ h ↦ h.1.1) (by rintro ⟨⟩) fun ls s a s' hr hstep hnode ih haccepted ↦ ?_
  rw [step_accepted hnode, Bool.or_eq_true] at haccepted
  rw [(step_node hnode).2]
  cases a with
  | add r =>
    rw [registry, SliceList.get_add]
    split_ifs with hkey
    · rw [show r = J.seedConn b from hstep.2 rfl (.inl rfl) b hkey.symm]
    · refine ih (haccepted.resolve_right fun ha ↦ hkey ?_)
      obtain rfl : r = J.seedConn b := by simpa using ha
      rw [step] at hnode
      split_ifs at hnode with hadding
      have hlabel := seed_label hpeer hverify hid hr.of_restrict.of_restrict (.inl hadding)
      exact (Prod.mk.inj hlabel).1.symm
  | tearDown r =>
    rw [registry, SliceList.get_remove, if_neg, ih (by simpa using haccepted)]
    intro hkey
    obtain rfl : r = J.seedConn b := hstep.2 rfl (.inr rfl) b hkey.symm
    exact (hstep.1.2 b).2.2.2 rfl
  | _ => exact ih (by simpa using haccepted)

theorem accepted_step {s' : Network ν ConnId Links NodeWireMessage} {x : ν × Step}
    (h : Network.step ports peer (fun _ ↦ step json) s x = some s') (r : ConnId) :
    ((s'.node J.seed).link r).accepted =
      (((s.node J.seed).link r).accepted || x = (J.seed, .add r)) := by
  obtain ⟨n, a⟩ := x
  obtain ⟨hnode, hothers, -⟩ := Network.step_eq_some h
  by_cases hn : n = J.seed
  · subst hn
    rw [step_accepted hnode]
    simp
  · rw [hothers J.seed (Ne.symm hn)]
    simp [hn]

/-- One of the two nodes is registered after the other one. -/
theorem exists_second (hpeer : ∀ e, peer (peer e) = e)
    (hr : ((J.system json).restrict J.Unrivalled).Run ls s) :
    ∃ b, (((J.system json).restrict J.Unrivalled).restrict (J.Second b)).Run ls s := by
  -- as long as none of them is registered, it may be either of them
  have h : (∀ b, (((J.system json).restrict J.Unrivalled).restrict (J.Second b)).Run ls s ∧
        ((s.node J.seed).link (J.seedConn b)).accepted = false) ∨
      ∃ b, (((J.system json).restrict J.Unrivalled).restrict (J.Second b)).Run ls s ∧
        ((s.node J.seed).link (J.seedConn !b)).accepted = true := by
    induction hr with
    | start h =>
      obtain rfl := h
      exact .inl fun b ↦ ⟨.start rfl, rfl⟩
    | @snoc ls s s' x hr hstep ih =>
      have haccepted := fun b ↦ accepted_step (J := J) hstep.1.1 (J.seedConn b)
      rcases ih with hnone | ⟨b, hrun, hb⟩
      · by_cases hx : ∃ b, x = (J.seed, .add (J.seedConn b))
        · obtain ⟨b, rfl⟩ := hx
          refine .inr ⟨!b, .snoc (hnone !b).1 ⟨hstep, fun h ↦ ?_⟩, ?_⟩
          · exact absurd (Step.add.inj (Prod.mk.inj h).2) (seedConn_ne hpeer b)
          · simp [haccepted]
        · refine .inl fun b ↦ ⟨.snoc (hnone b).1 ⟨hstep, fun h ↦ absurd ⟨b, h⟩ hx⟩, ?_⟩
          rw [haccepted, (hnone b).2, Bool.false_or]
          exact decide_eq_false fun h ↦ hx ⟨b, h⟩
      · refine .inr ⟨b, .snoc hrun ⟨hstep, fun _ ↦ hb⟩, ?_⟩
        rw [haccepted, hb, Bool.true_or]
  rcases h with h | ⟨b, hb, -⟩
  · exact ⟨true, (h true).1⟩
  · exact ⟨b, hb⟩

/-- The node that is registered later is accepted after the other one. -/
theorem accepted_other
    (hr : (((J.system json).restrict J.Unrivalled).restrict (J.Second b)).Run ls s)
    (h : ((s.node J.seed).link (J.seedConn b)).accepted = true) :
    ((s.node J.seed).link (J.seedConn !b)).accepted = true := by
  revert h
  refine Network.node_invariant (n := J.seed) (motive := fun _ c ↦
    (c.link (J.seedConn b)).accepted = true → (c.link (J.seedConn !b)).accepted = true) hr
    (fun _ ↦ id) (fun _ _ _ h ↦ h.1.1.1) (by rintro ⟨⟩) fun ls s a s' hr hstep hnode ih h ↦ ?_
  rw [step_accepted hnode, Bool.or_eq_true] at h ⊢
  rcases h with h | h
  · exact .inl (ih h)
  · exact .inl (hstep.2 (by rw [of_decide_eq_true h]))

/-- The seed has accepted a node that has asked. -/
theorem accepted_of_heard (hpeer : ∀ e, peer (peer e) = e) (hr : (J.system json).Run ls s)
    (h : HeardAt ls (J.seed, J.seedConn b) msgSyncReq) :
    ((s.node J.seed).link (J.seedConn b)).accepted = true := by
  have hgate := run_gate (Network.run_node hr.of_restrict J.seed) (J.seedConn b)
  refine hgate.connected ?_
  have hhandshake := ne_handshake_of_heard hpeer hr.of_restrict h (.inl rfl)
  have hup := (seed_up hpeer hr b).1
  have hstarted := hgate.started
  cases hstate : (s.node J.seed).state (J.seedConn b) <;> simp_all

/-- What the seed proposes has the other node in it. -/
theorem mem_proposedPeers (hpeer : ∀ e, peer (peer e) = e) (hverify : json.verify.Repairs)
    (hid : ∀ b, Utf8.repair (J.hello b).id = (J.hello b).id)
    (hr : (network json peer config).Run ls s)
    (haccepted : ∀ b, ((s.node J.seed).link (J.seedConn b)).accepted = true)
    {values : List ConnId} (hvalues : J.seedConn (!b) ∈ values) :
    (J.hello !b).id ∈ ((s.node J.seed).node.proposedPeers (J.seedConn b) (J.hello b).mode
      values).map (·.id) := by
  obtain ⟨hname, -⟩ := Prod.mk.inj (seed_label hpeer hverify (hid b) hr (.inr (haccepted b)))
  obtain ⟨hname', hmode'⟩ :=
    Prod.mk.inj (seed_label hpeer hverify (hid !b) hr (.inr (haccepted !b)))
  rw [← hname']
  refine Node.mem_proposedPeers hvalues ?_ ?_
  · rw [hname, hname']
    exact (J.id_ne b).symm
  · rw [hmode']
    exact fun h ↦ J.not_passive b h.symm

/-- **The seed answers the node that was registered later**, with the other one in the list. -/
theorem answering (hpeer : ∀ e, peer (peer e) = e) (hverify : json.verify.Repairs)
    (hsyncReq : json.syncReq.Repairs) (hid : ∀ b, Utf8.repair (J.hello b).id = (J.hello b).id)
    (hr : (((J.system json).restrict J.Unrivalled).restrict (J.Second b)).Run ls s) :
    Answering json (J.seedConn b) (J.seedConn !b) (J.hello !b).id (J.hello b).mode
      (Network.acts J.seed ls) (s.node J.seed) := by
  refine Network.node_invariant (n := J.seed) (motive := Answering json (J.seedConn b)
    (J.seedConn !b) (J.hello !b).id (J.hello b).mode) hr (fun _ ↦ id) (fun _ _ _ h ↦ h.1.1.1)
    ⟨trivial, ?_⟩ fun ls s a s' hr _ hnode ih ↦ ?_
  · rintro ⟨msg, hmsg, -⟩
    cases hmsg
  have hsys := hr.of_restrict.of_restrict
  have hrun := Network.run_node hsys.of_restrict J.seed
  obtain ⟨hstate, hopen⟩ := seed_up hpeer hsys b
  have haccepted : ((s.node J.seed).link (J.seedConn b)).handler.IsSync →
      ∀ b, ((s.node J.seed).link (J.seedConn b)).accepted = true := by
    intro hsync
    have hb := accepted_of_heard hpeer hsys ((run_honest hrun _).answering hsync)
    have hother := accepted_other hr hb
    cases b <;> exact Bool.forall_bool.mpr ⟨‹_›, ‹_›⟩
  refine ih.step hnode hstate hopen (fun msg ha hcode ↦ ?_) (fun hsync ↦ ?_) fun hsync values ↦ ?_
  · have hmsg := mem_received_of_handle hrun (ha ▸ hnode)
    obtain ⟨rfl, -⟩ :=
      syncReq_of_received (e := (J.seed, J.seedConn b)) hpeer hsys.of_restrict hmsg hcode
    rw [peer_seedConn hpeer]
    exact congrArg SyncReqMessage.mode
      (Json.deSerialize_mk (hsyncReq ⟨0, (J.hello b).mode⟩))
  · exact SliceList.mem_values.mpr
      ⟨_, registered hpeer hverify (hid !b) hr.of_restrict (haccepted hsync !b)⟩
  · exact mem_proposedPeers hpeer hverify hid hsys.of_restrict (haccepted hsync)

/-- What was sent at one end of a quiet connection was dispatched at the other one. -/
theorem delivered {e : ν × ConnId} (hpeer : ∀ e, peer (peer e) = e)
    (hr : (steadyNetwork json peer config e.1 e.2).Run ls s) (he : Quiet s e)
    (he' : Quiet s (peer e)) {msg : NodeMessage}
    (hcode : msg.code = msgVERIFYOK ∨ msg.code = msgSyncReq ∨ msg.code = msgSyncRsp)
    (hmsg : Posted json (peer e).2 (Network.acts (peer e).1 ls)
      ((s.node (peer e).1).node.heap (peer e).2) msg) :
    msg.serialize json ∈ dispatched e.2 (Network.acts e.1 ls) := by
  rw [Posted, he'.outboundMsgQueue, ← Network.received_append_wire hpeer hr.of_restrict, he.wire,
    List.append_nil] at hmsg
  have hsent := hmsg.resolve_left (by simp)
  have hsteady := (steady hpeer hr hcode).lossless
  rw [Lossless, kept, he.inboundMsgQueue, he.consumer, List.append_nil, List.append_nil] at hsteady
  have hmem : msg.serialize json ∈ (ports.received e.2 (Network.acts e.1 ls)).filter
      (fun w ↦ w.code = msg.code) := by
    simp [hsent]
  rw [hsteady] at hmem
  exact List.mem_of_mem_filter hmem

end

/-! ### A seed and two nodes -/

/-- A seed and two nodes that join through it. -/
inductive Party
  | seed
  | first
  | second
  deriving DecidableEq, Repr

/-- The `VERIFY` message of each of them. -/
def partyHello : Party → VerifyMessage
  | .seed => ⟨[115], [48], clusterModeACTIVE⟩
  | .first => ⟨[102], [49], clusterModeACTIVE⟩
  | .second => ⟨[103], [50], clusterModeACTIVE⟩

def partyConfig (n : Party) : Links.Config :=
  ⟨partyHello n, fun _ ↦ ⟨[], [], [], false⟩, fun _ ↦ n ≠ .seed, 1⟩

/-- The first node has two connections to the seed, and the second one has one. -/
def partyPeer : Party × ConnId → Party × ConnId
  | (.seed, 0) => (.first, 0)
  | (.seed, 1) => (.first, 1)
  | (.seed, 2) => (.second, 0)
  | (.first, 0) => (.seed, 0)
  | (.first, 1) => (.seed, 1)
  | (.second, 0) => (.seed, 2)
  | e => e

theorem partyPeer_partyPeer (e : Party × ConnId) : partyPeer (partyPeer e) = e := by
  obtain ⟨n, r⟩ := e
  cases n <;> rcases r with _ | _ | _ | r <;> rfl

/-- The two nodes and their seed. -/
def partySeed : CommonSeed partyPeer partyConfig where
  seed := .seed
  joiner b := if b then .second else .first
  conn _ := 0
  seedConn b := if b then 2 else 0
  peer_conn := by decide
  sync := by decide
  id_ne := by decide
  not_passive := by decide

/-- A message is sent, read and queued at the other end, and dispatched. -/
def pass (n : Party) (r : ConnId) (msg : NodeMessage) : List (Party × Step) :=
  let w := msg.serialize (.plain Utf8.repair)
  let (n', r') := partyPeer (n, r)
  [(n, .transmit r w), (n', .loop r'), (n', .read r' w), (n', .filter r'), (n', .queue r'),
    (n', .handle r' w)]

/-- A node sends its `VERIFY` message, and the other end looks for the name in its registry. -/
def present (n : Party) (r : ConnId) : List (Party × Step) :=
  let (n', r') := partyPeer (n, r)
  [(n, .sendVerify r)] ++ pass n r (.verify (partyHello n)) ++ [(n', .contains r')]

/-- The other end accepts a node. -/
def verifies (n : Party) (r : ConnId) : List (Party × Step) :=
  let (n', r') := partyPeer (n, r)
  present n r ++ [(n', .add r'), (n', .accept r'), (n', .reply r')] ++ pass n' r' .verifyOK

/-- A node and the seed accept each other, and the seed answers the request of the node from the
values of its registry. -/
def joins (n : Party) (r : ConnId) (values : List ConnId) : List (Party × Step) :=
  let (n', r') := partyPeer (n, r)
  verifies n' r' ++ verifies n r ++ [(n', .syncReq r'), (n, .syncReq r)] ++
    pass n r (.syncReq ⟨0, clusterModeACTIVE⟩) ++
    [(n', .getRemoteNodes r' values), (n', .sendSyncResponse r')]

/-! ### The two are introduced -/

/-- **Joining through a common seed introduces every pair**: if the seed has accepted both nodes,
and all is quiet on their connections, then one of the two has been sent the name of the other one
by the seed, as long as the seed neither registers nor tears down another connection under the name
of one of them. -/
theorem introduced {J : CommonSeed peer config} {ls : List (ν × Step)}
    {s : Network ν ConnId Links NodeWireMessage} (hpeer : ∀ e, peer (peer e) = e)
    (hverify : json.verify.Repairs)
    (hsyncReq : json.syncReq.Repairs) (hsyncRsp : json.syncRsp.Repairs)
    (hid : ∀ b, Utf8.repair (J.hello b).id = (J.hello b).id)
    (hr : ((J.system json).restrict J.Unrivalled).Run ls s)
    (haccepted : ∀ b, ((s.node J.seed).link (J.seedConn b)).accepted = true)
    (hquiet : ∀ b, Quiet s (J.joiner b, J.conn b) ∧ Quiet s (J.seed, J.seedConn b)) :
    ∃ b, ∃ msg ∈ dispatched (J.conn b) (Network.acts (J.joiner b) ls), msg.code = msgSyncRsp ∧
      (J.hello !b).id ∈ (json.syncRsp.deSerialize msg).list.map (·.id) := by
  obtain ⟨b, hsecond⟩ := exists_second hpeer hr
  have hsys := hr.of_restrict
  obtain ⟨hjoiner, hseed⟩ := hquiet b
  have hjoiner' : Quiet s (peer (J.seed, J.seedConn b)) := (peer_seedConn hpeer b).symm ▸ hjoiner
  have hseed' : Quiet s (peer (J.joiner b, J.conn b)) := (J.peer_conn b).symm ▸ hseed
  -- the `VERIFYOK` of the seed has come to the node
  have hreplied := replied hpeer hsys b (haccepted b)
  rw [hseed.handler] at hreplied
  have hverifyOK : NodeMessage.verifyOK.serialize json ∈
      dispatched (J.conn b) (Network.acts (J.joiner b) ls) :=
    delivered (e := (J.joiner b, J.conn b)) hpeer (run_joiner hsys b) hjoiner hseed' (.inl rfl)
      (by rw [J.peer_conn b]; simpa using hreplied)
  -- its `SyncReq` has come to the seed
  have hasked := (asking hpeer hsys b ⟨_, hverifyOK, rfl⟩).resolve_left (by simp [hjoiner.waiting])
  have hsyncReq' := delivered (e := (J.seed, J.seedConn b)) hpeer (run_seed hsys b) hseed hjoiner'
    (.inr (.inl rfl)) (by rwa [peer_seedConn hpeer b])
  -- and the answer of the seed to the node
  obtain ⟨rsp, hmem, hrsp⟩ := ((answering hpeer hverify hsyncReq hid hsecond).answered
    ⟨_, hsyncReq', rfl⟩).resolve_left (by rw [hseed.handler]; exact id)
  have hsyncRsp' := delivered (e := (J.joiner b, J.conn b)) hpeer (run_joiner hsys b) hjoiner hseed'
    (.inr (.inr rfl)) (by rwa [J.peer_conn b])
  refine ⟨b, _, hsyncRsp', rfl, ?_⟩
  rw [show (NodeMessage.syncRsp rsp).serialize json =
    ⟨msgSyncRsp, json.syncRsp.marshal { rsp with code := 19 }⟩ from rfl,
    Json.deSerialize_mk (hsyncRsp _)]
  obtain ⟨peer', hpeer', hname⟩ := List.mem_map.mp hmem
  refine List.mem_map.mpr ⟨_, List.mem_map.mpr ⟨peer', hpeer', rfl⟩, ?_⟩
  rw [hname]
  exact hid _

/-- The second node is told about the first one. -/
theorem introduced_second :
    ∃ (ls : List (Party × Step)) (s : Network Party ConnId Links NodeWireMessage),
      ((partySeed.system (.plain Utf8.repair)).restrict partySeed.Unrivalled).Run ls s ∧
      ∃ b, ∃ msg ∈ dispatched (partySeed.conn b) (Network.acts (partySeed.joiner b) ls),
        msg.code = msgSyncRsp ∧ (partySeed.hello !b).id ∈
          ((EncodingJson.plain Utf8.repair).syncRsp.deSerialize msg).list.map (·.id) := by
  obtain ⟨s, hr, hs⟩ := TransitionSystem.exists_run_from
    (S := (partySeed.system (.plain Utf8.repair)).restrict partySeed.Unrivalled)
    (f := TransitionSystem.guarded (TransitionSystem.guarded
      (Network.step ports partyPeer fun _ ↦ step (.plain Utf8.repair))
      fun _ x ↦ partySeed.StaysUp x) partySeed.Unrivalled)
    (l := joins .first 0 [0] ++ joins .second 0 [0, 2] ++
      pass .seed 2 (.syncRsp ⟨0, 1, [⟨[102], [58, 49]⟩]⟩))
    (p := fun s ↦ decide ((∀ b, ((s.node partySeed.seed).link (partySeed.seedConn b)).accepted =
      true) ∧ ∀ b, Quiet s (partySeed.joiner b, partySeed.conn b) ∧
        Quiet s (partySeed.seed, partySeed.seedConn b)))
    (fun _ _ _ h ↦ by
      obtain ⟨h, hunrivalled⟩ := TransitionSystem.guarded_eq_some.mp h
      exact ⟨TransitionSystem.guarded_eq_some.mp h, hunrivalled⟩) rfl (by decide +kernel)
  obtain ⟨haccepted, hquiet⟩ := of_decide_eq_true hs
  exact ⟨_, s, hr, introduced partyPeer_partyPeer (EncodingJson.plain_verify _)
    (EncodingJson.plain_syncReq _) (EncodingJson.plain_syncRsp _) (by decide +kernel) hr haccepted
    hquiet⟩

/-- **Two nodes that are not introduced**: the seed turns away a second connection of the first
node, and with it the first node goes out of the registry, before the second one joins. -/
theorem not_introduced :
    ∃ (ls : List (Party × Step)) (s : Network Party ConnId Links NodeWireMessage),
      (partySeed.system (.plain Utf8.repair)).Run ls s ∧
      (∀ b, ((s.node partySeed.seed).link (partySeed.seedConn b)).accepted = true) ∧
      (∀ b, ((s.node (partySeed.joiner b)).link (partySeed.conn b)).accepted = true) ∧
      (∀ b, Quiet s (partySeed.joiner b, partySeed.conn b) ∧
        Quiet s (partySeed.seed, partySeed.seedConn b)) ∧
      ∀ b, ∀ msg ∈ dispatched (partySeed.conn b) (Network.acts (partySeed.joiner b) ls),
        msg.code ≠ msgSyncRsp := by
  obtain ⟨s, hr, hs⟩ := TransitionSystem.exists_run_from
    (S := partySeed.system (.plain Utf8.repair))
    (f := TransitionSystem.guarded (Network.step ports partyPeer fun _ ↦ step (.plain Utf8.repair))
      fun _ x ↦ partySeed.StaysUp x)
    (l := joins .first 0 [0] ++ present .first 1 ++
      [(.seed, .disconnect 1), (.seed, .tearDown 1)] ++ joins .second 0 [2])
    (p := fun s ↦ decide ((∀ b, ((s.node partySeed.seed).link (partySeed.seedConn b)).accepted =
      true) ∧ (∀ b, ((s.node (partySeed.joiner b)).link (partySeed.conn b)).accepted = true) ∧
      ∀ b, Quiet s (partySeed.joiner b, partySeed.conn b) ∧
        Quiet s (partySeed.seed, partySeed.seedConn b)))
    TransitionSystem.step_of_guarded rfl (by decide +kernel)
  obtain ⟨hseed, hjoiner, hquiet⟩ := of_decide_eq_true hs
  exact ⟨_, s, hr, hseed, hjoiner, hquiet, by decide +kernel⟩

end CommonSeed
end ClusteredBigCache
