import ClusteredBigCache.Cluster.Traffic

/-!
# The handshake

A connection is in the handshake until `handleVerify` has accepted a `VERIFY` message on it.  As
long as it is, `queueInboundMessage` lets nothing through but `VERIFY` and `VERIFYOK`.

`handshake_gate` says that this keeps everything else from being dispatched, whatever is read from
the connection and however the goroutines interleave.  The reader looks at the state twice, and
between the two looks the connection may go down; but it never goes back into the handshake, so if
the second look finds it up, a `VERIFY` message has been accepted in the meantime.

The gate has a price.  A node that has accepted its peer may send it a `PUT`, and the reader of the
peer may look at it before the handler has accepted the `VERIFY` message that came before it.
`handshake_lossless_iff` says that this is the only way in which a write is lost.
-/

set_option autoImplicit false

namespace ClusteredBigCache.Links

open scoped List

/-! ## The gate

What the reader has looked at is worth something only because a connection never goes back into the
handshake.  `Gate` carries this from the reader through the queue to the handler. -/

/-- A `VERIFY` message that passes the check of the modes, at a node of some mode. -/
def Admissible (json : EncodingJson) (mode : UInt8) (msg : NodeWireMessage) : Prop :=
  msg.code = msgVERIFY ∧
    ¬ ((json.verify.deSerialize msg).mode = clusterModePASSIVE ∧ mode = clusterModePASSIVE)

/-- What is true of a connection `r` in a state, after some steps of its node. -/
structure Gate (json : EncodingJson) (mode : UInt8) (r : ConnId) (ls : List Step)
    (state : RemoteNodeState) (l : Link) : Prop where
  started : state ≠ .connecting
  checking : l.handler = .checking → ∃ msg, Admissible json mode msg ∧ [.handle r msg] <+ ls
  adding : l.handler = .adding →
    ∃ msg, Admissible json mode msg ∧ [.handle r msg, .contains r] <+ ls
  accepting : l.handler = .accepting → l.accepted = true
  accepted : l.accepted = true →
    ∃ msg, Admissible json mode msg ∧ [.handle r msg, .contains r, .add r] <+ ls
  connected : state = .connected → l.accepted = true
  queueing : ∀ msg, l.consumer = .queueing msg → ¬ msg.IsHandshake → state ≠ .handshake
  queued : ∀ msg ∈ l.inboundMsgQueue, ¬ msg.IsHandshake → l.accepted = true

section

variable {json : EncodingJson} {mode : UInt8} {r : ConnId} {ls : List Step}
  {state : RemoteNodeState} {l : Link} {c c' : Links} {a : Step}

theorem Gate.mono (hg : Gate json mode r ls state l) (a : Step) :
    Gate json mode r (ls ++ [a]) state l := by
  have hmono : ∀ {l₁ : List Step}, l₁ <+ ls → l₁ <+ ls ++ [a] := fun h ↦
    h.trans (List.sublist_append_left _ _)
  refine { hg with checking := fun h ↦ ?_, adding := fun h ↦ ?_, accepted := fun h ↦ ?_ }
  · obtain ⟨msg, hmsg, hls⟩ := hg.checking h
    exact ⟨msg, hmsg, hmono hls⟩
  · obtain ⟨msg, hmsg, hls⟩ := hg.adding h
    exact ⟨msg, hmsg, hmono hls⟩
  · obtain ⟨msg, hmsg, hls⟩ := hg.accepted h
    exact ⟨msg, hmsg, hmono hls⟩

/-- The handler goes to a place that says nothing about acceptance. -/
theorem Gate.goto (hg : Gate json mode r ls state l) {handler : Handling}
    (hchecking : handler ≠ .checking) (hadding : handler ≠ .adding)
    (haccepting : handler ≠ .accepting) :
    Gate json mode r ls state { l with handler := handler } :=
  { hg with
    checking := fun h ↦ absurd h hchecking
    adding := fun h ↦ absurd h hadding
    accepting := fun h ↦ absurd h haccepting }

/-- The reader goes to a place where it has no message that it has looked at. -/
theorem Gate.consume (hg : Gate json mode r ls state l) {consumer : Consumer}
    (h : ∀ msg, consumer ≠ .queueing msg) :
    Gate json mode r ls state { l with consumer := consumer } :=
  { hg with queueing := fun msg hmsg ↦ absurd hmsg (h msg) }

theorem Gate.dequeue (hg : Gate json mode r ls state l) {msg : NodeWireMessage}
    {rest : List NodeWireMessage} (h : l.inboundMsgQueue = msg :: rest) :
    Gate json mode r ls state { l with inboundMsgQueue := rest } :=
  { hg with queued := fun msg' hmsg' ↦ hg.queued msg' (h ▸ List.mem_cons_of_mem _ hmsg') }

theorem Gate.dispatch {node : Node} {rn rn' : RemoteNode} {l' : Link} {msg : NodeWireMessage}
    (hg : Gate json node.mode r (ls ++ [.handle r msg]) rn.state l)
    (h : Dispatch json node rn l msg rn' l') :
    Gate json node.mode r (ls ++ [.handle r msg]) rn'.state l' := by
  cases h with
  | verify hmsg =>
    split_ifs with hpassive
    · exact hg.goto (by simp) (by simp) (by simp)
    · refine { hg with
        checking := fun _ ↦ ⟨msg, ⟨hmsg, by simpa [Node.bothPassive] using hpassive⟩, by simp⟩
        adding := ?_
        accepting := ?_ }
      · rintro ⟨⟩
      · rintro ⟨⟩
  | verifyOK hmsg => exact { hg with }
  | ping hmsg =>
    rw [RemoteNode.state_sendMessage]
    exact hg
  | syncReq hmsg => exact hg.goto (by simp) (by simp) (by simp)
  | data hmsg => exact hg.goto (by simp) (by simp) (by simp)
  | other hmsg => exact hg

/-- **A step on the connection.** -/
theorem Gate.move {rn rn' : RemoteNode} {l' : Link} (hg : Gate json c.node.mode r ls rn.state l)
    (h : Move json c r rn l a rn' l') : Gate json c.node.mode r (ls ++ [a]) rn'.state l' := by
  have hm := hg.mono a
  cases h with
  | sendVerify hsent =>
    rw [RemoteNode.sendVerify, RemoteNode.state_sendMessage]
    exact { hm with }
  | loop hlooping hconsumer =>
    refine hm.consume fun msg ↦ ?_
    rintro rfl
    simp at hconsumer
  | read hreading => exact hm.consume (by simp)
  | readError hreading => exact hm.consume (by simp)
  | drop hmsg hstate hnot => exact { hm.consume (by simp) with }
  | pass hmsg hpass =>
    refine { hm with queueing := fun msg' hmsg' hnot hstate ↦ hnot ?_ }
    cases hmsg'
    exact hpass hstate
  | forget hmsg hstate => exact hm.consume (by simp)
  | @queue msg hmsg hstate =>
    refine { hm.consume (by simp) with queued := fun msg' hmsg' hnot ↦ ?_ }
    rcases List.mem_append.mp hmsg' with hmsg' | hmsg'
    · exact hg.queued msg' hmsg' hnot
    · -- the state was not the handshake at the first look, and it is not down at the second one
      obtain rfl := List.mem_singleton.mp hmsg'
      have hne := hg.queueing msg' hmsg hnot
      have hcon := hg.started
      refine hg.connected ?_
      cases hs : rn.state <;> simp_all
  | lose hmsg hclosing => exact hm.consume (by simp)
  | handle hwaiting hqueue hstate hdispatch => exact (hm.dequeue hqueue).dispatch hdispatch
  | skip hwaiting hqueue hstate => exact hm.dequeue hqueue
  | contains hchecking =>
    split_ifs with hcontains
    · exact hm.goto (by simp) (by simp) (by simp)
    · refine { hm with checking := ?_, adding := fun _ ↦ ?_, accepting := ?_ }
      · rintro ⟨⟩
      · obtain ⟨msg, hmsg, hls⟩ := hg.checking hchecking
        exact ⟨msg, hmsg, hls.append (.refl _)⟩
      · rintro ⟨⟩
  | add hadding =>
    refine { hm with
      checking := ?_
      adding := ?_
      accepting := fun _ ↦ rfl
      accepted := fun _ ↦ ?_
      connected := fun _ ↦ rfl
      queued := fun _ _ _ ↦ rfl }
    · rintro ⟨⟩
    · rintro ⟨⟩
    · obtain ⟨msg, hmsg, hls⟩ := hg.adding hadding
      exact ⟨msg, hmsg, hls.append (.refl _)⟩
  | accept haccepting =>
    have hacc := hg.accepting haccepting
    exact { hm.goto (by simp) (by simp) (by simp) with
      started := by simp
      connected := fun _ ↦ hacc
      queueing := by simp }
  | reply hreplying =>
    rw [RemoteNode.state_sendMessage]
    exact hm.goto (by simp) (by simp) (by simp)
  | getRemoteNodes hanswering hvalues => exact hm.goto (by simp) (by simp) (by simp)
  | sendSyncResponse hlisting =>
    have hstate : ∀ p : Prop, [Decidable p] → ∀ msg,
        (if p then rn else rn.sendMessage msg).state = rn.state := by
      intro p _ msg
      split_ifs <;> simp
    rw [hstate]
    exact hm.goto (by simp) (by simp) (by simp)
  | finish hbusy => exact hm.goto (by simp) (by simp) (by simp)
  | syncReq hwaiting hstate =>
    split_ifs
    · rw [RemoteNode.state_sendMessage]
      exact { hm with }
    · exact { hm with }
  | expire hwaiting => exact { hm with }
  | send hsend =>
    rw [RemoteNode.state_sendMessage]
    exact hm
  | transmit hqueue hstate => exact hm
  | discard hqueue hstate => exact hm
  | disconnect =>
    exact { hm with
      started := by simp [RemoteNode.setState]
      connected := by simp [RemoteNode.setState]
      queueing := by simp [RemoteNode.setState] }
  | tearDown => exact hm

/-- A `PUT` message, on the wire. -/
def somePut : NodeWireMessage :=
  (NodeMessage.put ⟨0, [107], 0, [7]⟩).serialize (.plain Utf8.repair)

theorem step_gate {r : ConnId}
    (hg : Gate json c.node.mode r ls (c.state r) (c.link r)) (h : c.step json a = some c') :
    Gate json c'.node.mode r (ls ++ [a]) (c'.state r) (c'.link r) := by
  have hmode : c'.node.mode = c.node.mode := congrArg VerifyMessage.mode (step_node h).1
  rw [hmode]
  by_cases hr : r = a.conn
  · subst hr
    exact hg.move (step_move h)
  · obtain ⟨hheap, hlink⟩ := step_of_ne h hr
    rw [state, hheap, hlink]
    exact hg.mono a

theorem run_gate {config : Config} (hr : (system json config).Run ls c) (r : ConnId) :
    Gate json config.hello.mode r ls (c.state r) (c.link r) := by
  have hg : c.node.mode = config.hello.mode ∧
      Gate json c.node.mode r ls (c.state r) (c.link r) := by
    refine hr.history_invariant ?_ fun ls c a c' hg h ↦ ⟨?_, step_gate hg.2 h⟩
    · rintro _ rfl
      exact ⟨rfl, by constructor <;> simp [new, state, RemoteNode.setState, Link.new]⟩
    · exact (congrArg VerifyMessage.mode (step_node h).1).trans hg.1
  exact hg.1 ▸ hg.2

/-- **The handshake gate**: whatever is read from the connections, and in whatever order the
goroutines take their steps, when `handleMessage` dispatches a message other than `VERIFY` and
`VERIFYOK`, a `VERIFY` message that was dispatched on the same connection has passed the check of
the modes, and the connection has been registered. -/
theorem handshake_gate {config : Config} (hr : (system json config).Run ls c) {pre : List Step}
    {msg : NodeWireMessage} (hpre : pre ++ [.handle r msg] <+: ls) (hmsg : ¬ msg.IsHandshake) :
    ∃ verify, Admissible json config.hello.mode verify ∧
      [.handle r verify, .contains r, .add r] <+ pre := by
  obtain ⟨c₁, hr₁⟩ := hr.of_prefix hpre
  obtain ⟨c₀, hr₀, hstep⟩ := hr₁.of_append_singleton
  have hg := run_gate hr₀ r
  have hqueued : msg ∈ (c₀.link r).inboundMsgQueue := (step_move hstep).mem_of_handle
  exact hg.accepted (hg.queued msg hqueued hmsg)

/-- A `PUT` that is read after the handshake. -/
theorem handshake_gate_put : ∃ (config : Config) (ls pre : List Step) (c : Links),
    (system (.plain Utf8.repair) config).Run ls c ∧ pre ++ [.handle 0 somePut] <+: ls ∧
    ∃ verify, Admissible (.plain Utf8.repair) config.hello.mode verify ∧
      [.handle 0 verify, .contains 0, .add 0] <+ pre := by
  let config : Config :=
    ⟨⟨[97], [49], clusterModeACTIVE⟩, fun _ ↦ ⟨[], [], [], false⟩, fun _ ↦ false, 1⟩
  let hello : NodeWireMessage :=
    (NodeMessage.verify ⟨[98], [50], clusterModePASSIVE⟩).serialize (.plain Utf8.repair)
  let pre : List Step := [.loop 0, .read 0 hello, .filter 0, .queue 0, .handle 0 hello,
    .contains 0, .add 0, .accept 0, .reply 0, .loop 0, .read 0 somePut, .filter 0, .queue 0]
  obtain ⟨c, hr, -⟩ := TransitionSystem.exists_run_from (S := system (.plain Utf8.repair) config)
    (f := step (.plain Utf8.repair)) (l := pre ++ [.handle 0 somePut])
    (p := fun _ ↦ true) (fun _ _ _ ↦ id) rfl (by decide +kernel)
  exact ⟨config, _, pre, c, hr, List.prefix_refl _,
    handshake_gate hr (List.prefix_refl _) (by decide)⟩

end

/-! ## Writes that arrive in the handshake

The state of a connection is that of one end.  The node that accepts first may write at once, while
the other end is still in the handshake. -/

/-- A replicated write. -/
def IsWrite (msg : NodeWireMessage) : Prop := msg.code = msgPUT ∨ msg.code = msgDEL

instance (msg : NodeWireMessage) : Decidable (IsWrite msg) := inferInstanceAs (Decidable (_ ∨ _))

section

variable {ν : Type} [DecidableEq ν] {json : EncodingJson} {peer : ν × ConnId → ν × ConnId}
  {config : ν → Config} {ls : List (ν × Step)} {s : Network ν ConnId Links NodeWireMessage}

/-- The nodes of a network, as long as a connection of one of them stays up. -/
def steadyNetwork (json : EncodingJson) (peer : ν × ConnId → ν × ConnId) (config : ν → Config)
    (n : ν) (r : ConnId) :
    TransitionSystem (Network ν ConnId Links NodeWireMessage) (ν × Step) :=
  (network json peer config).restrict fun _ x ↦ x.1 = n → Up r x.2

/-- **When no replicated write is lost at the handshake**: on a connection that stays up, every
`PUT` and `DEL` that the reader of the node `n` has read has been dispatched, or is in the queue or
in the hand of the reader, all along a run, if and only if the reader never looks at one of them
while the handler of `n` has not ended the handshake yet. -/
theorem handshake_lossless_iff {n : ν} {r : ConnId}
    (hr : (steadyNetwork json peer config n r).Run ls s) :
    (∀ pre t, pre <+: ls → (steadyNetwork json peer config n r).Run pre t →
      Lossless IsWrite r (Network.acts n pre) ((t.node n).link r)) ↔
    ((steadyNetwork json peer config n r).restrict
      fun s x ↦ x.1 = n → Patient IsWrite r (s.node n) x.2).Run ls s := by
  refine TransitionSystem.Run.history_always_iff_restrict
    (I := fun ls s ↦ Steady IsWrite r (Network.acts n ls) ((s.node n).state r) ((s.node n).link r))
    (fun ls s t hs ht ↦ ?_) ?_ (fun _ _ hs ↦ hs.lossless) (fun ls s x t hs hstep hok ↦ ?_)
    (fun ls s x t hs hstep hlossless ↦ ?_) hr
  · exact TransitionSystem.run_ofStep_unique ls s t hs.of_restrict ht.of_restrict
  · rintro _ rfl
    exact ⟨by simp [Network.new, new, state, RemoteNode.setState], rfl, rfl⟩
  · obtain ⟨hnode, hothers, -⟩ := Network.step_eq_some hstep.1
    rw [Network.acts_append, Network.acts_singleton]
    split_ifs with hx
    · subst hx
      exact step_steady hs hnode (hstep.2 rfl) (hok rfl)
    · rw [hothers n (Ne.symm hx), List.append_nil]
      exact hs
  · rintro rfl
    obtain ⟨hnode, -, -⟩ := Network.step_eq_some hstep.1
    rw [Network.acts_append, Network.acts_singleton, if_pos rfl] at hlossless
    exact step_patient hs hnode hlossless

/-- What two active nodes are started with. -/
def pairConfig (n : Bool) : Config :=
  ⟨if n then ⟨[97], [49], clusterModeACTIVE⟩ else ⟨[98], [50], clusterModeACTIVE⟩,
    fun _ ↦ ⟨[], [], [], false⟩, fun _ ↦ false, 1⟩

/-- The two nodes are connected to each other. -/
def pairPeer (e : Bool × ConnId) : Bool × ConnId := (!e.1, e.2)

theorem pairPeer_pairPeer (e : Bool × ConnId) : pairPeer (pairPeer e) = e := by
  simp [pairPeer]

/-- A message comes from the other node, and the reader of the node `n` reads it. -/
def carry (n : Bool) (msg : NodeWireMessage) : List (Bool × Step) :=
  [(!n, .transmit 0 msg), (n, .loop 0), (n, .read 0 msg)]

/-- The reader of a node queues what it has read. -/
def enqueue (n : Bool) : List (Bool × Step) := [(n, .filter 0), (n, .queue 0)]

/-- The `VERIFY` message of a node. -/
def pairVerify (n : Bool) : NodeWireMessage :=
  (NodeMessage.verify (pairConfig n).hello).serialize (.plain Utf8.repair)

/-- A node handles the `VERIFY` message of the other one, and accepts it. -/
def verify (n : Bool) : List (Bool × Step) :=
  [(n, .handle 0 (pairVerify !n)), (n, .contains 0), (n, .add 0), (n, .accept 0), (n, .reply 0)]

/-- The node `false` has accepted the node `true` and then sends it a `PUT` message; the node `true`
has the `VERIFY` message of the node `false` in its queue. -/
def putAfterVerify : List (Bool × Step) :=
  [(true, .sendVerify 0), (false, .sendVerify 0)] ++ carry false (pairVerify true) ++
    enqueue false ++ verify false ++ [(false, .send 0 (.put ⟨0, [107], 0, [7]⟩))] ++
    carry true (pairVerify false) ++ enqueue true ++ carry true ⟨msgVERIFYOK, []⟩ ++ enqueue true

/-- The node `true` handles the `VERIFY` message before its reader comes to the `PUT`. -/
theorem handshake_lossless_put :
    ∃ (ls : List (Bool × Step)) (s : Network Bool ConnId Links NodeWireMessage),
      (steadyNetwork (.plain Utf8.repair) pairPeer pairConfig true 0).Run ls s ∧
      somePut ∈ dispatched 0 (Network.acts true ls) ∧
      ∀ pre t, pre <+: ls →
        (steadyNetwork (.plain Utf8.repair) pairPeer pairConfig true 0).Run pre t →
        Lossless IsWrite 0 (Network.acts true pre) ((t.node true).link 0) := by
  obtain ⟨s, hr, -⟩ := TransitionSystem.exists_run_from
    (S := (steadyNetwork (.plain Utf8.repair) pairPeer pairConfig true 0).restrict
      fun s x ↦ x.1 = true → Patient IsWrite 0 (s.node true) x.2)
    (f := TransitionSystem.guarded (TransitionSystem.guarded
      (Network.step ports pairPeer fun _ ↦ step (.plain Utf8.repair))
      fun _ x ↦ x.1 = true → Up 0 x.2) fun s x ↦ x.1 = true → Patient IsWrite 0 (s.node true) x.2)
    (l := putAfterVerify ++ verify true ++ carry true somePut ++ enqueue true ++
      [(true, .handle 0 ⟨msgVERIFYOK, []⟩), (true, .handle 0 somePut)])
    (p := fun _ ↦ true)
    (fun _ _ _ h ↦ by
      obtain ⟨h, hpatient⟩ := TransitionSystem.guarded_eq_some.mp h
      exact ⟨TransitionSystem.guarded_eq_some.mp h, hpatient⟩) rfl (by decide +kernel)
  exact ⟨_, s, hr.of_restrict, by decide +kernel,
    (handshake_lossless_iff hr.of_restrict).mpr hr⟩

/-- **A write that is lost**: the reader of the node `true` looks at the `PUT`, which the node
`false` sent after it had registered the node `true`, before the handler has come to the `VERIFY`.
The connection stays up and the handshake is accepted at both ends. -/
theorem write_lost_at_handshake :
    ∃ (ls : List (Bool × Step)) (s : Network Bool ConnId Links NodeWireMessage),
      (steadyNetwork (.plain Utf8.repair) pairPeer pairConfig true 0).Run ls s ∧
      (false, .disconnect 0) ∉ ls ∧
      [(false, .add 0), (false, .send 0 (.put ⟨0, [107], 0, [7]⟩))] <+ ls ∧
      ((s.node true).link 0).accepted = true ∧ ((s.node true).link 0).dropped = [somePut] ∧
      ¬ Lossless IsWrite 0 (Network.acts true ls) ((s.node true).link 0) := by
  obtain ⟨s, hr, hs⟩ := TransitionSystem.exists_run_from
    (S := steadyNetwork (.plain Utf8.repair) pairPeer pairConfig true 0)
    (f := TransitionSystem.guarded (Network.step ports pairPeer fun _ ↦ step (.plain Utf8.repair))
      fun _ x ↦ x.1 = true → Up 0 x.2)
    (l := putAfterVerify ++ carry true somePut ++ [(true, .filter 0)] ++ verify true)
    (p := fun s ↦ decide (((s.node true).link 0).accepted = true ∧
      ((s.node true).link 0).dropped = [somePut] ∧
      ((s.node true).link 0).inboundMsgQueue = [⟨msgVERIFYOK, []⟩] ∧
      ((s.node true).link 0).consumer = .looping))
    TransitionSystem.step_of_guarded rfl (by decide +kernel)
  obtain ⟨haccepted, hdropped, hqueue, hconsumer⟩ := of_decide_eq_true hs
  refine ⟨_, s, hr, by decide +kernel, by decide +kernel, haccepted, hdropped, fun h ↦ ?_⟩
  rw [Lossless, kept, hqueue, hconsumer] at h
  revert h
  decide +kernel

end

end ClusteredBigCache.Links
