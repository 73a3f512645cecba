import ClusteredBigCache.Cluster.Handshake

/-!
# What a message tells about its sender

A node sends a message for a reason: a `VERIFYOK` when it has left the handshake, a `SyncReq` when
it has been sent a `VERIFYOK`, a `SyncRsp` when it has been sent a `SyncReq`; and every `VERIFY`
that it sends has its own name and mode in it.  `run_honest` says so for a node on its own, which
may be sent anything.  In a network what is read was sent at the other end, so that each end of a
connection knows these things about the other one: for instance, a connection on which a `VERIFY`
message was dispatched has the name and the mode of the node at the other end (`labelled`).
-/

set_option autoImplicit false

namespace ClusteredBigCache

/-- `handleMessage` deals with a `SyncReq` message. -/
def Handling.IsSync : Handling → Prop
  | .answering _ => True
  | .listing _ _ => True
  | _ => False

namespace Links

/-- A message with some code has been read on the connection `r`. -/
def Heard (r : ConnId) (as : List Step) (code : UInt16) : Prop :=
  ∃ msg ∈ ports.received r as, msg.code = code

/-- The reason for which a node sends a message on the connection `r`, after some steps. -/
def Cause (c : Links) (r : ConnId) (as : List Step) : NodeMessage → Prop
  | .verify msg => msg = c.node.hello
  | .verifyOK => c.state r ≠ .handshake
  | .syncReq msg => msg = ⟨0, c.node.mode⟩ ∧ c.state r ≠ .handshake ∧ Heard r as msgVERIFYOK
  | .syncRsp _ => Heard r as msgSyncReq
  | _ => True

/-- A node has a reason for everything that it sends. -/
structure Honest (json : EncodingJson) (r : ConnId) (as : List Step) (c : Links) : Prop where
  replying : (c.link r).handler = .replying → c.state r ≠ .handshake
  waiting : (c.link r).waiting ≠ 0 → Heard r as msgVERIFYOK
  answering : (c.link r).handler.IsSync → Heard r as msgSyncReq
  sends : Sends json (c.Cause r as) r as (c.node.heap r)

section

variable {json : EncodingJson} {r : ConnId} {as : List Step} {c c' : Links} {a : Step}
  {rn rn' : RemoteNode} {l l' : Link}

theorem Heard.append {code : UInt16} (h : Heard r as code) (a : Step) : Heard r (as ++ [a]) code :=
  h.imp fun _ hmsg ↦ hmsg.imp_left (Ports.mem_received_append · [a])

/-- A message that is in the queue has been read. -/
theorem heard_of_mem_kept {config : Config} (hr : (system json config).Run as c)
    {msg : NodeWireMessage} (hmsg : msg ∈ kept r as (c.link r)) : Heard r as msg.code :=
  ⟨msg, mem_received_of_mem_kept hr hmsg, rfl⟩

theorem step_ne_handshake (h : c.step json a = some c') (hstate : c.state r ≠ .handshake) :
    c'.state r ≠ .handshake := by
  rw [step_state h]
  split_ifs with hr
  · cases a with
    | accept r | disconnect r => simp [nextState]
    | _ => exact hstate
  · exact hstate

theorem Cause.step {msg : NodeMessage} (hmsg : c.Cause r as msg) (h : c.step json a = some c') :
    c'.Cause r (as ++ [a]) msg := by
  have hhello := (step_node h).1
  cases msg with
  | verify msg => exact hmsg.trans hhello.symm
  | verifyOK => exact step_ne_handshake h hmsg
  | syncReq msg =>
    obtain ⟨hmode, hstate, hverify⟩ := hmsg
    refine ⟨?_, step_ne_handshake h hstate, hverify.append a⟩
    rw [hmode, show c'.node.mode = c.node.mode from congrArg VerifyMessage.mode hhello]
  | syncRsp msg => exact Heard.append hmsg a
  | _ => trivial

/-- The handler goes on to reply only when it has accepted. -/
theorem Move.replying (h : Move json c r rn l a rn' l') (hl : l'.handler = .replying) :
    l.handler = .replying ∨ a = .accept r := by
  cases h with
  | accept haccepting => exact .inr rfl
  | handle hwaiting hqueue hstate hdispatch =>
    cases hdispatch with
    | verify hmsg =>
      simp only at hl
      split_ifs at hl
    | _ => first | exact .inl hl | cases hl
  | contains hchecking =>
    simp only at hl
    split_ifs at hl
  | _ => first | exact .inl hl | cases hl

/-- A goroutine waits only when a `VERIFYOK` has been dispatched. -/
theorem Move.waited (h : Move json c r rn l a rn' l') (hl : l'.waiting ≠ 0) :
    l.waiting ≠ 0 ∨ ∃ msg ∈ l.inboundMsgQueue, msg.code = msgVERIFYOK := by
  rw [h.waiting] at hl
  cases h with
  | @handle msg _ _ _ hwaiting hqueue hstate hdispatch =>
    by_cases hmsg : msg.code = msgVERIFYOK
    · exact .inr ⟨msg, by simp [hqueue], hmsg⟩
    · exact .inl (by rwa [nextWaiting, if_neg hmsg] at hl)
  | syncReq hwaiting hstate => exact .inl hwaiting
  | expire hwaiting => exact .inl hwaiting
  | _ => exact .inl hl

/-- The handler deals with a `SyncReq` message only when it has dispatched one. -/
theorem Move.answering (h : Move json c r rn l a rn' l') (hl : l'.handler.IsSync) :
    l.handler.IsSync ∨ ∃ msg ∈ l.inboundMsgQueue, msg.code = msgSyncReq := by
  cases h with
  | handle hwaiting hqueue hstate hdispatch =>
    cases hdispatch with
    | verify hmsg =>
      simp only at hl
      split_ifs at hl <;> exact hl.elim
    | syncReq hmsg => exact .inr ⟨_, by simp [hqueue], hmsg⟩
    | _ => first | exact .inl hl | exact hl.elim
  | contains hchecking =>
    simp only at hl
    split_ifs at hl <;> exact hl.elim
  | getRemoteNodes hanswering hvalues => exact .inl (by rw [hanswering]; trivial)
  | _ => first | exact .inl hl | exact hl.elim

/-- A node has a reason for what it sends. -/
theorem Honest.posts {msg : NodeMessage} (hh : Honest json r as c)
    (h : Move json c r (c.node.heap r) (c.link r) a rn' l') (hmsg : msg ∈ c.posts a) :
    c.Cause r as msg := by
  cases h with
  | sendVerify hsent =>
    obtain rfl := List.mem_singleton.mp hmsg
    rfl
  | handle hwaiting hqueue hstate hdispatch =>
    rw [Links.posts] at hmsg
    split_ifs at hmsg
    · obtain rfl := List.mem_singleton.mp hmsg
      trivial
    · cases hmsg
  | reply hreplying =>
    obtain rfl := List.mem_singleton.mp hmsg
    exact hh.replying hreplying
  | sendSyncResponse hlisting =>
    simp only [Links.posts, hlisting] at hmsg
    split_ifs at hmsg
    · cases hmsg
    · obtain rfl := List.mem_singleton.mp hmsg
      exact hh.answering (by rw [hlisting]; trivial)
  | syncReq hwaiting hstate =>
    rw [Links.posts] at hmsg
    split_ifs at hmsg
    · obtain rfl := List.mem_singleton.mp hmsg
      exact ⟨rfl, hstate, hh.waiting hwaiting⟩
    · cases hmsg
  | send hsend =>
    obtain rfl := List.mem_singleton.mp hmsg
    cases msg <;> trivial
  | _ => cases hmsg

theorem Honest.step {config : Config} (hr : (system json config).Run as c)
    (hh : Honest json r as c) (h : c.step json a = some c') : Honest json r (as ++ [a]) c' := by
  have hsends : Sends json (c'.Cause r (as ++ [a])) r (as ++ [a]) (c'.node.heap r) := by
    refine step_sends (hh.sends.mono fun msg hmsg ↦ hmsg.step h) h fun hr msg hmsg ↦ ?_
    subst hr
    exact (hh.posts (step_move h) hmsg).step h
  by_cases hconn : r = a.conn
  · subst hconn
    have hmove := step_move h
    refine ⟨fun hl ↦ ?_, fun hl ↦ ?_, fun hl ↦ ?_, hsends⟩
    · rcases hmove.replying hl with hl | ha
      · exact step_ne_handshake h (hh.replying hl)
      · rw [step_state h, if_pos rfl, ha]
        simp [nextState]
    · rcases hmove.waited hl with hl | ⟨msg, hqueue, hmsg⟩
      · exact (hh.waiting hl).append a
      · exact hmsg ▸ (heard_of_mem_kept hr (by simp [kept, hqueue])).append a
    · rcases hmove.answering hl with hl | ⟨msg, hqueue, hmsg⟩
      · exact (hh.answering hl).append a
      · exact hmsg ▸ (heard_of_mem_kept hr (by simp [kept, hqueue])).append a
  · obtain ⟨hheap, hlink⟩ := step_of_ne h hconn
    refine ⟨fun hl ↦ ?_, fun hl ↦ ?_, fun hl ↦ ?_, hsends⟩
    all_goals rw [hlink] at hl
    · exact step_ne_handshake h (hh.replying hl)
    · exact (hh.waiting hl).append a
    · exact (hh.answering hl).append a

/-- **A node has a reason for everything that it sends**, whatever it is sent. -/
theorem run_honest {config : Config} (hr : (system json config).Run as c) (r : ConnId) :
    Honest json r as c := by
  refine (hr.history_invariant
    (motive := fun as c ↦ (system json config).Run as c ∧ Honest json r as c) ?_ ?_).2
  · rintro _ rfl
    refine ⟨.start rfl, ?_⟩
    constructor
    · rintro ⟨⟩
    · exact fun h ↦ absurd rfl h
    · rintro ⟨⟩
    · exact ⟨by simp [new, RemoteNode.setState, RemoteNode.newRemoteNode], by simp [Ports.sent]⟩
  · rintro as c a c' ⟨hr, hh⟩ h
    exact ⟨.snoc hr h, hh.step hr h⟩

/-- A connection has the name and the mode of the `VERIFY` messages that were dispatched on it. -/
theorem step_label {label : Bytes × UInt8} (h : c.step json a = some c')
    (hlabel : (∃ msg ∈ dispatched r as, msg.code = msgVERIFY) →
      ((c.node.heap r).config.id, (c.node.heap r).mode) = label)
    (ha : ∀ msg, a = .handle r msg → msg.code = msgVERIFY →
      ((json.verify.deSerialize msg).id, (json.verify.deSerialize msg).mode) = label)
    (hmsg : ∃ msg ∈ dispatched r (as ++ [a]), msg.code = msgVERIFY) :
    ((c'.node.heap r).config.id, (c'.node.heap r).mode) = label := by
  obtain ⟨msg, hmsg, hcode⟩ := hmsg
  rw [mem_dispatched_snoc] at hmsg
  by_cases hverify : ∃ msg, a = .handle r msg ∧ msg.code = msgVERIFY
  · obtain ⟨msg', rfl, hcode'⟩ := hverify
    have hl : ((c'.node.heap r).config.id, (c'.node.heap r).mode) = nextLabel json _ _ :=
      (step_move h).label
    rw [hl, nextLabel, if_pos hcode']
    exact ha msg' rfl hcode'
  · have hmsg : msg ∈ dispatched r as := hmsg.resolve_right fun h ↦ hverify ⟨msg, h, hcode⟩
    by_cases hr : r = a.conn
    · subst hr
      rw [(step_move h).label, nextLabel_of_ne]
      · exact hlabel ⟨msg, hmsg, hcode⟩
      · rintro r' msg' rfl hcode'
        exact hverify ⟨msg', rfl, hcode'⟩
    · rw [(step_of_ne h hr).1]
      exact hlabel ⟨msg, hmsg, hcode⟩

theorem run_hello {config : Config} (hr : (system json config).Run as c) :
    c.node.hello = config.hello := by
  refine hr.invariant ?_ fun c a c' hc h ↦ (step_node h).1.trans hc
  rintro _ rfl
  rfl

theorem run_sync {config : Config} (hr : (system json config).Run as c) (r : ConnId) :
    (c.link r).sync = config.sync r := by
  refine hr.invariant ?_ fun c a c' hc h ↦ (step_sync h).trans hc
  rintro _ rfl
  rfl

/-- A `VERIFY` message was dispatched before the connection is registered. -/
theorem verify_of_gate {config : Config} (hr : (system json config).Run as c)
    (h : (c.link r).handler = .adding ∨ (c.link r).accepted = true) :
    ∃ msg ∈ dispatched r as, msg.code = msgVERIFY := by
  have hg := run_gate hr r
  rcases h with h | h
  · obtain ⟨msg, hmsg, hls⟩ := hg.adding h
    exact ⟨msg, mem_dispatched.mpr (hls.mem (by simp)), hmsg.1⟩
  · obtain ⟨msg, hmsg, hls⟩ := hg.accepted h
    exact ⟨msg, mem_dispatched.mpr (hls.mem (by simp)), hmsg.1⟩

end

/-! ## In a network -/

section

variable {ν : Type} [DecidableEq ν] {json : EncodingJson} {peer : ν × ConnId → ν × ConnId}
  {config : ν → Config} {ls : List (ν × Step)} {s : Network ν ConnId Links NodeWireMessage}
  {e : ν × ConnId}

/-- What an end of a connection reads in the `VERIFY` message of the node at the other end. -/
def peerHello (json : EncodingJson) (peer : ν × ConnId → ν × ConnId) (config : ν → Config)
    (e : ν × ConnId) : VerifyMessage :=
  json.verify.deSerialize ((NodeMessage.verify (config (peer e).1).hello).serialize json)

/-- An end of a connection has read a message with some code. -/
def HeardAt (ls : List (ν × Step)) (e : ν × ConnId) (code : UInt16) : Prop :=
  Heard e.2 (Network.acts e.1 ls) code

/-- The other end has a reason for what is read at one end. -/
theorem cause_of_received (hpeer : ∀ e, peer (peer e) = e)
    (hr : (network json peer config).Run ls s) {w : NodeWireMessage}
    (hw : w ∈ ports.received e.2 (Network.acts e.1 ls)) :
    ∃ msg, (s.node (peer e).1).Cause (peer e).2 (Network.acts (peer e).1 ls) msg ∧
      msg.serialize json = w :=
  (run_honest (Network.run_node hr (peer e).1) (peer e).2).sends.sent w
    (Network.mem_sent_of_mem_received hpeer hr hw)

theorem verify_of_received (hpeer : ∀ e, peer (peer e) = e)
    (hr : (network json peer config).Run ls s) {w : NodeWireMessage}
    (hw : w ∈ ports.received e.2 (Network.acts e.1 ls)) (hcode : w.code = msgVERIFY) :
    json.verify.deSerialize w = peerHello json peer config e := by
  obtain ⟨msg, hcause, rfl⟩ := cause_of_received hpeer hr hw
  rw [NodeMessage.serialize_code] at hcode
  cases msg with
  | verify msg =>
    rw [peerHello, ← run_hello (Network.run_node hr (peer e).1), hcause]
  | _ => cases hcode

theorem syncReq_of_received (hpeer : ∀ e, peer (peer e) = e)
    (hr : (network json peer config).Run ls s) {w : NodeWireMessage}
    (hw : w ∈ ports.received e.2 (Network.acts e.1 ls)) (hcode : w.code = msgSyncReq) :
    w = (NodeMessage.syncReq ⟨0, (config (peer e).1).hello.mode⟩).serialize json ∧
      HeardAt ls (peer e) msgVERIFYOK ∧ (s.node (peer e).1).state (peer e).2 ≠ .handshake := by
  obtain ⟨msg, hcause, rfl⟩ := cause_of_received hpeer hr hw
  rw [NodeMessage.serialize_code] at hcode
  cases msg with
  | syncReq msg =>
    obtain ⟨hmsg, hstate, hheard⟩ := hcause
    refine ⟨?_, hheard, hstate⟩
    rw [← run_hello (Network.run_node hr (peer e).1), hmsg]
    rfl
  | _ => cases hcode

theorem verifyOK_of_heard (hpeer : ∀ e, peer (peer e) = e)
    (hr : (network json peer config).Run ls s) (h : HeardAt ls e msgVERIFYOK) :
    (s.node (peer e).1).state (peer e).2 ≠ .handshake := by
  obtain ⟨w, hw, hcode⟩ := h
  obtain ⟨msg, hcause, rfl⟩ := cause_of_received hpeer hr hw
  rw [NodeMessage.serialize_code] at hcode
  cases msg with
  | verifyOK => exact hcause
  | _ => cases hcode

theorem syncReq_of_heard_syncRsp (hpeer : ∀ e, peer (peer e) = e)
    (hr : (network json peer config).Run ls s) (h : HeardAt ls e msgSyncRsp) :
    HeardAt ls (peer e) msgSyncReq := by
  obtain ⟨w, hw, hcode⟩ := h
  obtain ⟨msg, hcause, rfl⟩ := cause_of_received hpeer hr hw
  rw [NodeMessage.serialize_code] at hcode
  cases msg with
  | syncRsp msg => exact hcause
  | _ => cases hcode

/-- **A sync message comes after the handshake** of the end at which it is read. -/
theorem ne_handshake_of_heard (hpeer : ∀ e, peer (peer e) = e)
    (hr : (network json peer config).Run ls s) {code : UInt16} (h : HeardAt ls e code)
    (hcode : code = msgSyncReq ∨ code = msgSyncRsp) :
    (s.node e.1).state e.2 ≠ .handshake := by
  rcases hcode with rfl | rfl
  · -- the other end was sent a `VERIFYOK`, by this one
    obtain ⟨w, hw, hcode⟩ := h
    have hstate := verifyOK_of_heard hpeer hr (syncReq_of_received hpeer hr hw hcode).2.1
    rwa [hpeer] at hstate
  · -- the other end was sent a `SyncReq`, by this one
    obtain ⟨w, hw, hcode⟩ := syncReq_of_heard_syncRsp hpeer hr h
    have hstate := (syncReq_of_received hpeer hr hw hcode).2.2
    rwa [hpeer] at hstate

/-- **A connection has the name and the mode of the node at its other end**, once a `VERIFY` message
was dispatched. -/
theorem labelled (hpeer : ∀ e, peer (peer e) = e) (hr : (network json peer config).Run ls s)
    (h : ∃ msg ∈ dispatched e.2 (Network.acts e.1 ls), msg.code = msgVERIFY) :
    ((s.node e.1).node.idOf e.2, ((s.node e.1).node.heap e.2).mode) =
      ((peerHello json peer config e).id, (peerHello json peer config e).mode) := by
  revert h
  refine Network.node_invariant (n := e.1) (motive := fun as c ↦
    (∃ msg ∈ dispatched e.2 as, msg.code = msgVERIFY) → (c.node.idOf e.2, (c.node.heap e.2).mode) =
      ((peerHello json peer config e).id, (peerHello json peer config e).mode))
    hr (fun _ ↦ id) (fun _ _ _ ↦ id) ?_ fun ls s a s' hr _ hnode ih h ↦ ?_
  · rintro ⟨msg, hmsg, -⟩
    cases hmsg
  · refine step_label hnode ih (fun msg ha hcode ↦ ?_) h
    rw [verify_of_received hpeer hr
      (mem_received_of_handle (Network.run_node hr e.1) (ha ▸ hnode)) hcode]

/-- A connection that was accepted has the mode of the node at its other end, and not both nodes are
passive. -/
theorem mode_of_accepted (hpeer : ∀ e, peer (peer e) = e)
    (hverify : json.verify.RoundTrips (config (peer e).1).hello)
    (hr : (network json peer config).Run ls s)
    (h : ((s.node e.1).link e.2).accepted = true) :
    ((s.node e.1).node.heap e.2).mode = (config (peer e).1).hello.mode ∧
      ¬ ((config (peer e).1).hello.mode = clusterModePASSIVE ∧
        (config e.1).hello.mode = clusterModePASSIVE) := by
  have hrun := Network.run_node hr e.1
  have hhello : peerHello json peer config e = (config (peer e).1).hello :=
    Json.deSerialize_mk hverify
  obtain ⟨-, hmode⟩ := Prod.mk.inj (labelled hpeer hr (verify_of_gate hrun (.inr h)))
  refine ⟨by rw [hmode, hhello], ?_⟩
  obtain ⟨msg, ⟨hcode, hnot⟩, hls⟩ := (run_gate hrun e.2).accepted h
  have hdispatched : msg ∈ dispatched e.2 (Network.acts e.1 ls) :=
    mem_dispatched.mpr (hls.mem (by simp))
  have hmsg : msg ∈ ports.received e.2 (Network.acts e.1 ls) :=
    mem_received_of_mem_kept hrun (by simp [kept, hdispatched])
  rwa [verify_of_received hpeer hr hmsg hcode, hhello] at hnot

/-- No message of the handshake, and no sync message, is discarded in the handshake. -/
theorem patient (hpeer : ∀ e, peer (peer e) = e) (hr : (network json peer config).Run ls s)
    {code : UInt16} (hcode : code = msgVERIFYOK ∨ code = msgSyncReq ∨ code = msgSyncRsp)
    (a : Step) : Patient (fun msg ↦ msg.code = code) e.2 (s.node e.1) a := by
  rintro rfl hstate msg hmsg rfl
  rcases hcode with hcode | hcode
  · exact .inr hcode
  · have hheard : HeardAt ls e msg.code :=
      heard_of_mem_kept (Network.run_node hr e.1) (by simp [kept, hmsg])
    exact absurd hstate (ne_handshake_of_heard hpeer hr hheard hcode)

/-- **No message of the handshake, and no sync message, is lost** on a connection that stays up. -/
theorem steady (hpeer : ∀ e, peer (peer e) = e)
    (hr : (steadyNetwork json peer config e.1 e.2).Run ls s) {code : UInt16}
    (hcode : code = msgVERIFYOK ∨ code = msgSyncReq ∨ code = msgSyncRsp) :
    Steady (fun msg ↦ msg.code = code) e.2 (Network.acts e.1 ls) ((s.node e.1).state e.2)
      ((s.node e.1).link e.2) := by
  refine Network.node_invariant (n := e.1)
    (motive := fun as c ↦ Steady (fun msg ↦ msg.code = code) e.2 as (c.state e.2) (c.link e.2))
    hr (fun _ ↦ id) (fun _ _ _ h ↦ h.1) ?_ fun ls s a s' hr hstep hnode ih ↦ ?_
  · exact ⟨by simp [new, state, RemoteNode.setState], rfl, rfl⟩
  · exact step_steady ih hnode (hstep.2 rfl) (patient hpeer hr.of_restrict hcode a)

end

end Links
end ClusteredBigCache
