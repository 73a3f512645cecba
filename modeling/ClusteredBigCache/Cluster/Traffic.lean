import ClusteredBigCache.Cluster.Links

/-!
# What comes in and what goes out on a connection

The reader of a connection takes a message from the wire, may discard it in `queueInboundMessage`,
and queues it for `handleMessage` otherwise.  What is sent goes into the outbound queue, and
`networkSender` takes it from there to the wire.  This module follows the messages on these two
ways.

* What was dispatched, is queued or is in the hand of the reader has been read (`step_kept`); and on
  a connection that stays up nothing of a kind is lost on the way if the reader looks at none of it
  in the handshake (`step_steady`, and `step_patient` for the converse).
* `Links.posts` is what a step sends.  Everything on the way out was sent (`step_sends`), and
  nothing that was sent is lost if the connection stays up (`step_posted`).
-/

set_option autoImplicit false

namespace ClusteredBigCache.Links

open scoped List

/-! ## Messages that come in

The messages that were read are those that were dispatched, those in the queue and the one in the
hand of the reader, in this order, except for what `queueInboundMessage` has dropped.  On a
connection that stays up it drops messages in the handshake only. -/

/-- The message that the reader has read and not queued yet. -/
def inHand : Consumer → List NodeWireMessage
  | .filtering msg => [msg]
  | .queueing msg => [msg]
  | _ => []

/-- The messages that `handleMessage` has dispatched on a connection. -/
def dispatched (r : ConnId) (ls : List Step) : List NodeWireMessage :=
  ls.filterMap fun
    | .handle r' msg => if r' = r then some msg else none
    | _ => none

/-- What has been dispatched, what is in the queue, and what the reader has in its hand. -/
def kept (r : ConnId) (ls : List Step) (l : Link) : List NodeWireMessage :=
  dispatched r ls ++ l.inboundMsgQueue ++ inHand l.consumer

/-- No message of a kind that was read is lost. -/
def Lossless (p : NodeWireMessage → Prop) [DecidablePred p] (r : ConnId) (ls : List Step)
    (l : Link) : Prop :=
  (ports.received r ls).filter p = (kept r ls l).filter p

/-- The connection stays up. -/
def Up (r : ConnId) (a : Step) : Prop := a ≠ .disconnect r

instance (r : ConnId) (a : Step) : Decidable (Up r a) := inferInstanceAs (Decidable (_ ≠ _))

/-- The reader looks at no message of a kind while the connection is in the handshake, other than
those that the handshake is made of. -/
def Patient (p : NodeWireMessage → Prop) (r : ConnId) (c : Links) (a : Step) : Prop :=
  a = .filter r → c.state r = .handshake →
    ∀ msg ∈ inHand (c.link r).consumer, p msg → msg.IsHandshake

instance (p : NodeWireMessage → Prop) [DecidablePred p] (r : ConnId) (c : Links) (a : Step) :
    Decidable (Patient p r c a) :=
  inferInstanceAs (Decidable (_ → _ → ∀ _ ∈ _, _ → _))

/-- What is true of a connection that stays up, as long as its reader is patient. -/
structure Steady (p : NodeWireMessage → Prop) [DecidablePred p] (r : ConnId) (ls : List Step)
    (state : RemoteNodeState) (l : Link) : Prop where
  up : state ≠ .disconnected
  opened : l.closing = false
  lossless : Lossless p r ls l

theorem dispatched_append (r : ConnId) (ls ms : List Step) :
    dispatched r (ls ++ ms) = dispatched r ls ++ dispatched r ms :=
  List.filterMap_append

section

variable {p : NodeWireMessage → Prop} [DecidablePred p] {json : EncodingJson} {r : ConnId}
  {ls : List Step} {l l' : Link} {rn rn' : RemoteNode} {c c' : Links} {a : Step}

theorem mem_dispatched {msg : NodeWireMessage} : msg ∈ dispatched r ls ↔ .handle r msg ∈ ls := by
  rw [dispatched, List.mem_filterMap]
  constructor
  · rintro ⟨a, ha, h⟩
    cases a with
    | handle r' msg' =>
      simp only [Option.ite_none_right_eq_some, Option.some.injEq] at h
      exact h.1 ▸ h.2 ▸ ha
    | _ => cases h
  · exact fun h ↦ ⟨_, h, if_pos rfl⟩

theorem mem_dispatched_snoc {msg : NodeWireMessage} :
    msg ∈ dispatched r (ls ++ [a]) ↔ msg ∈ dispatched r ls ∨ a = .handle r msg := by
  rw [mem_dispatched, mem_dispatched, List.mem_append, List.mem_singleton, eq_comm]

/-- What a step does to the messages that have come in. -/
inductive Keeps (r : ConnId) (ls : List Step) (state : RemoteNodeState) (l : Link) (a : Step)
    (l' : Link) : Prop
  /-- It only adds what it reads. -/
  | all (h : kept r (ls ++ [a]) l' = kept r ls l ++ ports.received r [a])
  /-- The reader discards a message in the handshake. -/
  | drop {msg : NodeWireMessage} (ha : a = .filter r) (hstate : state = .handshake)
      (hnot : ¬ msg.IsHandshake) (hmsg : inHand l.consumer = [msg])
      (h : kept r ls l = kept r (ls ++ [a]) l' ++ [msg])
  /-- A message is discarded as the connection is going down. -/
  | down (hstate : state = .disconnected ∨ l.closing = true) (ha : ports.input a = none)
      (h : kept r (ls ++ [a]) l' <+ kept r ls l)

theorem Dispatch.inbound {node : Node} {msg : NodeWireMessage}
    (h : Dispatch json node rn l msg rn' l') :
    l'.inboundMsgQueue = l.inboundMsgQueue ∧ l'.consumer = l.consumer ∧ l'.closing = l.closing := by
  cases h <;> exact ⟨rfl, rfl, rfl⟩

/-- A step that neither reads nor dispatches a message. -/
theorem Keeps.of_eq {state : RemoteNodeState} (hdispatched : dispatched r [a] = [])
    (hreceived : ports.received r [a] = [])
    (h : l'.inboundMsgQueue ++ inHand l'.consumer = l.inboundMsgQueue ++ inHand l.consumer) :
    Keeps r ls state l a l' := by
  refine .all ?_
  rw [kept, kept, dispatched_append, hdispatched, hreceived, List.append_nil, List.append_nil,
    List.append_assoc, List.append_assoc, h]

theorem Move.keeps (h : Move json c r rn l a rn' l') : Keeps r ls rn.state l a l' := by
  cases h with
  | loop hlooping hconsumer =>
    rcases hconsumer with rfl | ⟨rfl, -⟩ <;> exact .of_eq rfl rfl (by rw [hlooping]; rfl)
  | read hreading =>
    exact .all (by simp [kept, dispatched, inHand, ports, Ports.received, Ports.on, hreading])
  | readError hreading => exact .of_eq rfl rfl (by rw [hreading]; rfl)
  | drop hmsg hstate hnot =>
    exact .drop rfl hstate hnot (by rw [hmsg, inHand])
      (by simp [kept, dispatched, inHand, hmsg])
  | pass hmsg hpass => exact .of_eq rfl rfl (by rw [hmsg]; rfl)
  | forget hmsg hstate =>
    exact .down (.inl hstate) rfl (by simp [kept, dispatched, inHand, hmsg])
  | queue hmsg hstate => exact .of_eq rfl rfl (by simp [inHand, hmsg])
  | lose hmsg hclosing =>
    exact .down (.inr hclosing) rfl (by simp [kept, dispatched, inHand, hmsg])
  | handle hwaiting hqueue hstate hdispatch =>
    obtain ⟨hrest, hconsumer, -⟩ := hdispatch.inbound
    exact .all (by
      simp [kept, dispatched, ports, Ports.received, Ports.on, hrest, hconsumer, hqueue])
  | skip hwaiting hqueue hstate =>
    exact .down (.inl hstate) rfl (by simp [kept, dispatched, hqueue])
  | _ => exact .of_eq rfl rfl rfl

theorem received_of_conn_ne (hr : a.conn ≠ r) : ports.received r [a] = [] := by
  cases a with
  | read r' msg => simp [ports, Ports.received, Ports.on, show r' ≠ r from hr]
  | _ => rfl

theorem dispatched_of_conn_ne (hr : a.conn ≠ r) : dispatched r [a] = [] := by
  cases a with
  | handle r' msg => simp [dispatched, show r' ≠ r from hr]
  | _ => rfl

theorem step_keeps (h : c.step json a = some c') :
    Keeps r ls (c.state r) (c.link r) a (c'.link r) := by
  by_cases hr : r = a.conn
  · subst hr
    exact (step_move h).keeps
  · rw [(step_of_ne h hr).2]
    exact .of_eq (dispatched_of_conn_ne (Ne.symm hr)) (received_of_conn_ne (Ne.symm hr)) rfl

/-- What is kept after a step was kept before it, or is what the step read. -/
theorem step_kept {msg : NodeWireMessage} (h : c.step json a = some c')
    (hmsg : msg ∈ kept r (ls ++ [a]) (c'.link r)) :
    msg ∈ kept r ls (c.link r) ∨ msg ∈ ports.received r [a] := by
  cases step_keeps h with
  | all h => exact List.mem_append.mp (h ▸ hmsg)
  | drop ha hstate hnot hmsg' h => exact .inl (h ▸ List.mem_append_left _ hmsg)
  | down hstate ha h => exact .inl (h.mem hmsg)

/-- **What is kept has been read.** -/
theorem mem_received_of_mem_kept {config : Config} {msg : NodeWireMessage}
    (hr : (system json config).Run ls c) (hmsg : msg ∈ kept r ls (c.link r)) :
    msg ∈ ports.received r ls := by
  revert hmsg
  refine hr.history_invariant ?_ fun ls c a c' hc h hmsg ↦ ?_
  · rintro _ rfl hmsg
    exact hmsg
  · rw [Ports.received_append, List.mem_append]
    exact (step_kept h hmsg).imp_left hc

theorem Move.mem_of_handle {msg : NodeWireMessage} (h : Move json c r rn l (.handle r msg) rn' l') :
    msg ∈ l.inboundMsgQueue := by
  cases h with
  | handle hwaiting hqueue hstate hdispatch => simp [hqueue]

/-- What is dispatched has been read. -/
theorem mem_received_of_handle {config : Config} {msg : NodeWireMessage}
    (hr : (system json config).Run ls c) (h : c.step json (.handle r msg) = some c') :
    msg ∈ ports.received r ls := by
  have hmsg : msg ∈ (c.link r).inboundMsgQueue := (step_move h).mem_of_handle
  exact mem_received_of_mem_kept hr (by simp [kept, hmsg])

theorem Move.closing (h : Move json c r rn l a rn' l') (hup : Up r a) : l'.closing = l.closing := by
  cases h with
  | handle hwaiting hqueue hstate hdispatch => exact hdispatch.inbound.2.2
  | disconnect => exact absurd rfl hup
  | _ => rfl

/-- A connection that stays up does not go down. -/
theorem step_up (h : c.step json a = some c') (hup : Up r a) (hstate : c.state r ≠ .disconnected)
    (hopen : (c.link r).closing = false) :
    c'.state r ≠ .disconnected ∧ (c'.link r).closing = false := by
  rw [step_state h]
  split_ifs with hr
  · subst hr
    refine ⟨?_, ((step_move h).closing hup).trans hopen⟩
    cases a with
    | accept r => simp [nextState]
    | disconnect r => exact absurd rfl hup
    | _ => exact hstate
  · exact ⟨hstate, (step_of_ne h hr).2 ▸ hopen⟩

theorem step_steady (hs : Steady p r ls (c.state r) (c.link r)) (h : c.step json a = some c')
    (hup : Up r a) (hpatient : Patient p r c a) :
    Steady p r (ls ++ [a]) (c'.state r) (c'.link r) := by
  obtain ⟨hup', hopen'⟩ := step_up h hup hs.up hs.opened
  refine ⟨hup', hopen', ?_⟩
  have hlossless := hs.lossless
  rw [Lossless] at hlossless ⊢
  rw [Ports.received_append, List.filter_append, hlossless, ← List.filter_append]
  cases step_keeps h with
  | all h => rw [h]
  | @drop msg ha hstate hnot hmsg h =>
    have hp : ¬ p msg := fun hp ↦ hnot (hpatient ha hstate msg (by simp [hmsg]) hp)
    subst ha
    rw [h]
    simp [ports, Ports.received, Ports.on, hp]
  | down hstate ha h =>
    rcases hstate with hstate | hclosing
    · exact absurd hstate hs.up
    · exact absurd (hs.opened.symm.trans hclosing) (by simp)

theorem Move.discards {msg : NodeWireMessage} (h : Move json c r rn l (.filter r) rn' l')
    (hstate : rn.state = .handshake) (hmsg : msg ∈ inHand l.consumer) (hnot : ¬ msg.IsHandshake) :
    kept r ls l = kept r (ls ++ [.filter r]) l' ++ [msg] := by
  cases h with
  | drop hmsg' hstate' hnot' =>
    rw [hmsg', inHand, List.mem_singleton] at hmsg
    simp [kept, dispatched, inHand, hmsg', hmsg]
  | pass hmsg' hpass =>
    rw [hmsg', inHand, List.mem_singleton] at hmsg
    exact absurd (hmsg ▸ hpass hstate) hnot

/-- **A reader that is not patient loses a message.** -/
theorem step_patient (hs : Steady p r ls (c.state r) (c.link r)) (h : c.step json a = some c')
    (hlossless : Lossless p r (ls ++ [a]) (c'.link r)) : Patient p r c a := by
  rintro rfl hstate msg hmsg hp
  by_contra hnot
  have hsteady := hs.lossless
  have hkept : kept r ls (c.link r) = kept r (ls ++ [.filter r]) (c'.link r) ++ [msg] :=
    (step_move h).discards hstate hmsg hnot
  rw [Lossless] at hlossless hsteady
  rw [Ports.received_append_of_input rfl, hsteady, hkept] at hlossless
  simp [hp] at hlossless

end

/-! ## Messages that go out -/

/-- The messages that a step sends, if the connection is up. -/
def posts (c : Links) : Step → List NodeMessage
  | .sendVerify _ => [.verify c.node.hello]
  | .handle _ msg => if msg.code = msgPING then [.pong] else []
  | .reply _ => [.verifyOK]
  | .sendSyncResponse r =>
    match (c.link r).handler with
    | .listing mode values =>
      let nodeList := c.node.proposedPeers r mode values
      if nodeList = [] then [] else [.syncRsp ⟨0, c.replicationFactor, nodeList⟩]
    | _ => []
  | .syncReq r => if (c.link r).sync then [.syncReq ⟨0, c.node.mode⟩] else []
  | .send _ msg => [msg]
  | _ => []

/-- What a step does to the messages that are on the way out. -/
inductive Sending (json : EncodingJson) (c : Links) (r : ConnId) (rn : RemoteNode) (l : Link)
    (a : Step) (rn' : RemoteNode) : Prop
  /-- It queues what it sends, if the connection is up. -/
  | queue (ha : ports.output a = none) (h : rn'.outboundMsgQueue =
      rn.outboundMsgQueue ++ if rn.state = .disconnected then [] else c.posts a)
  /-- It writes the first one to the wire. -/
  | transmit {msg : NodeMessage} (ha : a = .transmit r (msg.serialize json))
      (h : rn.outboundMsgQueue = msg :: rn'.outboundMsgQueue)
  /-- It discards the first one, as the connection is going down. -/
  | discard {msg : NodeMessage} (ha : a = .discard r)
      (hstate : rn.state = .disconnected ∨ l.closing = true)
      (h : rn.outboundMsgQueue = msg :: rn'.outboundMsgQueue)

/-- All messages that are or were on the way out are of a kind. -/
structure Sends (json : EncodingJson) (p : NodeMessage → Prop) (r : ConnId) (ls : List Step)
    (rn : RemoteNode) : Prop where
  queued : ∀ msg ∈ rn.outboundMsgQueue, p msg
  sent : ∀ w ∈ ports.sent r ls, ∃ msg, p msg ∧ msg.serialize json = w

/-- A message is or was on the way out. -/
def Posted (json : EncodingJson) (r : ConnId) (ls : List Step) (rn : RemoteNode)
    (msg : NodeMessage) : Prop :=
  msg ∈ rn.outboundMsgQueue ∨ msg.serialize json ∈ ports.sent r ls

section

variable {json : EncodingJson} {r : ConnId} {ls : List Step} {rn rn' : RemoteNode} {l l' : Link}
  {c c' : Links} {a : Step} {p : NodeMessage → Prop} {msg : NodeMessage}

theorem Dispatch.outbound {node : Node} {msg : NodeWireMessage}
    (h : Dispatch json node rn l msg rn' l') (hstate : rn.state ≠ .disconnected) :
    rn'.outboundMsgQueue =
      rn.outboundMsgQueue ++ if msg.code = msgPING then [.pong] else [] := by
  cases h with
  | ping hmsg => rw [RemoteNode.outboundMsgQueue_sendMessage, if_neg hstate, if_pos hmsg]
  | other hmsg => rw [if_neg hmsg.2.1, List.append_nil]
  | data hmsg =>
    have hping : msg.code ≠ msgPING := by
      rcases hmsg with hmsg | hmsg | hmsg | hmsg <;> rw [hmsg] <;> decide
    rw [if_neg hping, List.append_nil]
  | verify hmsg | verifyOK hmsg | syncReq hmsg =>
    rw [if_neg (by rw [hmsg]; decide), List.append_nil]
    try rfl

theorem Move.sending (h : Move json c r rn (c.link r) a rn' l') :
    Sending json c r rn (c.link r) a rn' := by
  cases h with
  | sendVerify hsent => exact .queue rfl (RemoteNode.outboundMsgQueue_sendMessage _ _)
  | handle hwaiting hqueue hstate hdispatch =>
    refine .queue rfl ?_
    rw [if_neg hstate]
    exact hdispatch.outbound hstate
  | reply hreplying => exact .queue rfl (RemoteNode.outboundMsgQueue_sendMessage _ _)
  | sendSyncResponse hlisting =>
    refine .queue rfl ?_
    simp only [posts, hlisting]
    split_ifs <;> simp_all [RemoteNode.outboundMsgQueue_sendMessage]
  | syncReq hwaiting hstate =>
    refine .queue rfl ?_
    simp only [posts]
    split_ifs <;> simp_all [RemoteNode.outboundMsgQueue_sendMessage]
  | send hsend => exact .queue rfl (RemoteNode.outboundMsgQueue_sendMessage _ _)
  | transmit hqueue hstate => exact .transmit rfl hqueue
  | discard hqueue hstate => exact .discard rfl hstate hqueue
  | _ => exact .queue rfl (by simp [posts, RemoteNode.setState])

theorem sent_of_conn_ne (hr : a.conn ≠ r) : ports.sent r [a] = [] := by
  cases a with
  | transmit r' msg => simp [ports, Ports.sent, Ports.on, show r' ≠ r from hr]
  | _ => rfl

theorem Sends.mono {q : NodeMessage → Prop} (hs : Sends json p r ls rn)
    (h : ∀ msg, p msg → q msg) : Sends json q r ls rn where
  queued msg hmsg := h msg (hs.queued msg hmsg)
  sent w hw := (hs.sent w hw).imp fun msg hmsg ↦ hmsg.imp_left (h msg)

/-- **What is on the way out was sent.** -/
theorem step_sends (hs : Sends json p r ls (c.node.heap r)) (h : c.step json a = some c')
    (hposts : r = a.conn → ∀ msg ∈ c.posts a, p msg) :
    Sends json p r (ls ++ [a]) (c'.node.heap r) := by
  by_cases hr : r = a.conn
  · have hsending := (step_move h).sending
    rw [← hr] at hsending
    cases hsending with
    | queue ha hqueue =>
      refine ⟨fun msg hmsg ↦ ?_,
        fun w hw ↦ hs.sent w (by simpa [Ports.sent, Ports.on, ha] using hw)⟩
      rw [hqueue, List.mem_append] at hmsg
      rcases hmsg with hmsg | hmsg
      · exact hs.queued msg hmsg
      · split_ifs at hmsg
        · cases hmsg
        · exact hposts hr msg hmsg
    | @transmit msg ha hqueue =>
      have hmem := hs.queued
      rw [hqueue, List.forall_mem_cons] at hmem
      refine ⟨hmem.2, fun w hw ↦ ?_⟩
      rw [Ports.sent_append, List.mem_append, ha] at hw
      rcases hw with hw | hw
      · exact hs.sent w hw
      · refine ⟨msg, hmem.1, ?_⟩
        simpa [ports, Ports.sent, Ports.on, eq_comm] using hw
    | discard ha hstate hqueue =>
      subst ha
      have hmem := hs.queued
      rw [hqueue, List.forall_mem_cons] at hmem
      exact ⟨hmem.2, fun w hw ↦ hs.sent w (by simpa [ports, Ports.sent, Ports.on] using hw)⟩
  · rw [(step_of_ne h hr).1]
    refine ⟨hs.queued, fun w hw ↦ hs.sent w ?_⟩
    rwa [Ports.sent_append, sent_of_conn_ne (Ne.symm hr), List.append_nil] at hw

/-- **What was sent is on its way**, if the connection is up. -/
theorem step_posted (h : c.step json a = some c') (hstate : c.state r ≠ .disconnected)
    (hopen : (c.link r).closing = false)
    (hmsg : Posted json r ls (c.node.heap r) msg ∨ r = a.conn ∧ msg ∈ c.posts a) :
    Posted json r (ls ++ [a]) (c'.node.heap r) msg := by
  rw [state] at hstate
  rw [Posted, Ports.sent_append, List.mem_append]
  by_cases hr : r = a.conn
  · have hsending := (step_move h).sending
    rw [← hr] at hsending
    cases hsending with
    | queue ha hqueue =>
      rw [hqueue, if_neg hstate, List.mem_append]
      rcases hmsg with (hmsg | hmsg) | ⟨-, hmsg⟩
      · exact .inl (.inl hmsg)
      · exact .inr (.inl hmsg)
      · exact .inl (.inr hmsg)
    | @transmit msg' ha hqueue =>
      subst ha
      rcases hmsg with (hmsg | hmsg) | ⟨-, hmsg⟩
      · rw [hqueue, List.mem_cons] at hmsg
        rcases hmsg with rfl | hmsg
        · exact .inr (.inr (by simp [ports, Ports.sent, Ports.on]))
        · exact .inl hmsg
      · exact .inr (.inl hmsg)
      · cases hmsg
    | discard ha hdown hqueue =>
      rcases hdown with hdown | hclosing
      · exact absurd hdown hstate
      · exact absurd (hopen.symm.trans hclosing) (by simp)
  · rw [(step_of_ne h hr).1]
    rcases hmsg with (hmsg | hmsg) | ⟨hconn, -⟩
    · exact .inl hmsg
    · exact .inr (.inl hmsg)
    · exact absurd hconn hr

end

end ClusteredBigCache.Links
