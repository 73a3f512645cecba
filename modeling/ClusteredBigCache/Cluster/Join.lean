import ClusteredBigCache.Cluster.Links

/-!
# Connections in the making

A node learns of other nodes from the proposals in its `joinQueue`: those of a `SyncRsp`, and its
own when a connection is torn down that is to be made again.  `connectToExistingNodes` takes them
one by one.  It passes over a peer that is in `pendingConn` or is registered; for any other one it
makes a remote node, starts the goroutine of `join`, and only then stores the `Id` in `pendingConn`.

`Joiner` is a node with all of this: the goroutine that takes the proposals, cut at each access to
something shared, the goroutines of `join` with their tries, the connections that come in, and the
goroutines of every connection that has been made, which are those of `Links`.

The `Id` is deleted from `pendingConn` when all tries have failed, and when a connection is accepted
under this very `Id`.  There are other ways for an attempt to come to an end: the peer is registered
already, the connection is lost in the handshake, the peer has another name than the one proposed,
or all is over before the `Id` is stored.  Then it stays in `pendingConn` and the peer is never
tried again.  `no_phantom_iff` says that `pendingConn` has only peers with an attempt in progress,
in every state of a run and so between two proposals, if and only if each step of the run is
`Settled`: a handshake that is over has released its peer, and the attempt that was started is still
in progress when its `Id` is stored.  In `lost_in_handshake` a connection is lost, made again, and
lost in the handshake, which is the end of it.
-/

set_option autoImplicit false

namespace ClusteredBigCache

/-! ## What a connection does to `pendingConn` -/

namespace Links

variable {json : EncodingJson} {c c' : Links} {a : Step}

theorem pendingConn_dispatch (json : EncodingJson) (c : Links) (r : ConnId)
    (msg : NodeWireMessage) : (c.dispatch json r msg).node.pendingConn = c.node.pendingConn := by
  rw [dispatch]
  split_ifs <;> rfl

theorem pendingConn_tearDown (node : Node) (r : ConnId) :
    (node.tearDown r).pendingConn = node.pendingConn := by
  rw [Node.tearDown]
  split_ifs <;> rfl

/-- Only `Add` touches `pendingConn`. -/
theorem pendingConn_of_step (h : c.step json a = some c') :
    c'.node.pendingConn =
      match a with
      | .add r => c.node.pendingConn.erase (c.node.idOf r)
      | _ => c.node.pendingConn := by
  cases a with
  | handle r msg =>
    rw [step] at h
    split at h
    · split_ifs at h
      obtain rfl := Option.some.inj h
      exact pendingConn_dispatch json _ r msg
    · cases h
  | tearDown r =>
    obtain rfl := Option.some.inj h
    exact pendingConn_tearDown c.node r
  | _ =>
    simp only [step] at h
    repeat' split at h
    all_goals cases h
    all_goals rfl

end Links

/-! ## The model -/

/-- Where a remote node is in being connected. -/
inductive Attempt
  /-- There is no such remote node yet. -/
  | absent
  /-- `join` has started its goroutine. -/
  | launched
  /-- The goroutine of `join` tries to connect. -/
  | dialling (tries : ℕ)
  /-- The last try has failed, and `eventUnableToConnect` is about to be called. -/
  | failed
  /-- There is a connection, and the goroutines of `start` are running. -/
  | running
  /-- The goroutine of `join` has given up. -/
  | abandoned
  deriving DecidableEq, Repr

namespace Attempt

/-- The goroutine of `join` is at work. -/
def Dialling : Attempt → Prop
  | .launched | .dialling _ | .failed => True
  | .absent | .running | .abandoned => False

/-- Dialling, or in the handshake. -/
def InProgress (state : RemoteNodeState) : Attempt → Prop
  | .launched | .dialling _ | .failed => True
  | .running => state = .handshake
  | .absent | .abandoned => False

theorem Dialling.inProgress {attempt : Attempt} (h : attempt.Dialling) (state : RemoteNodeState) :
    attempt.InProgress state := by
  cases attempt <;> trivial

instance (state : RemoteNodeState) (attempt : Attempt) : Decidable (attempt.InProgress state) :=
  match attempt with
  | .launched | .dialling _ | .failed => inferInstanceAs (Decidable True)
  | .running => inferInstanceAs (Decidable (state = .handshake))
  | .absent | .abandoned => inferInstanceAs (Decidable False)

end Attempt

/-- Where `connectToExistingNodes` is. -/
inductive Connector
  /-- Between two elements of the queue. -/
  | idle
  /-- Before `Keys`. -/
  | looking (p : ProposedPeer)
  /-- Before `join`. -/
  | joining (p : ProposedPeer)
  /-- Before `Store`. -/
  | storing (p : ProposedPeer)
  deriving DecidableEq

/-- The element that `connectToExistingNodes` deals with. -/
def Connector.value : Connector → Option ProposedPeer
  | .idle => none
  | .looking p | .joining p | .storing p => some p

/-- Where `Start` is. -/
inductive Startup
  /-- Before `joinCluster`. -/
  | starting
  /-- Before the state is set to started. -/
  | joining
  | started
  deriving DecidableEq

/-- A node with its connections, those that are being made included. -/
structure Joiner where
  links : Links
  startup : Startup
  connector : Connector
  /-- The next remote node to be made. -/
  next : ConnId
  attempt : ConnId → Attempt
  /-- The `Id` in the proposal that a remote node was made for. -/
  proposed : ConnId → Option Bytes

namespace Joiner

/-- What a node is started with. -/
structure Config where
  hello : VerifyMessage
  replicationFactor : Int64
  /-- `config.JoinIp`, if there is a cluster to join. -/
  join : Option Bytes
  connectRetries : ℕ
  reconnectOnDisconnect : Bool

/-- What can happen. -/
inductive Step
  /-- `joinCluster`, when there is a cluster to join. -/
  | joinCluster
  /-- `Start` sets the state to started. -/
  | start
  /-- `listen` accepts a connection. -/
  | incoming (ipAddress : Bytes)
  /-- `connectToExistingNodes` takes a proposal, and looks at the state and into `pendingConn`. -/
  | take
  /-- `connectToExistingNodes` looks into the registry. -/
  | keys
  /-- `connectToExistingNodes` makes a remote node and calls `join`. -/
  | join
  /-- `connectToExistingNodes` stores the `Id` in `pendingConn`. -/
  | store
  /-- The goroutine of `join` begins. -/
  | dial (r : ConnId)
  /-- `connect` has returned an error. -/
  | dialFails (r : ConnId)
  /-- `connect` has returned, and the goroutines of the connection are started. -/
  | connects (r : ConnId)
  /-- `eventUnableToConnect`. -/
  | unableToConnect (r : ConnId)
  /-- A goroutine of a connection does something. -/
  | link (a : Links.Step)

/-- The peers that are being connected to, or so it seems. -/
def pendingConn (c : Joiner) : Finset Bytes := c.links.node.pendingConn

/-- Change `pendingConn`. -/
def modifyPending (c : Joiner) (f : Finset Bytes → Finset Bytes) : Joiner :=
  { c with links.node.pendingConn := f c.links.node.pendingConn }

/-- A goroutine of `join` moves on, or a connection is there. -/
def goto (c : Joiner) (r : ConnId) (attempt : Attempt) : Joiner :=
  { c with attempt := Function.update c.attempt r attempt }

/-- Set the state of a remote node. -/
def setState (c : Joiner) (r : ConnId) (state : RemoteNodeState) : Joiner :=
  { c with links := c.links.modifyNode r (·.setState state) }

/-- Make a remote node, in a state and for a proposal, if for any. -/
def newRemoteNode (c : Joiner) (config : RemoteNodeConfig) (sync : Bool)
    (state : RemoteNodeState) (attempt : Attempt) (proposed : Option Bytes) : Joiner :=
  { c with
    links := (c.links.modifyNode c.next fun _ ↦
      (RemoteNode.newRemoteNode config).setState state).modify c.next fun _ ↦ .new sync
    next := c.next + 1
    attempt := Function.update c.attempt c.next attempt
    proposed := Function.update c.proposed c.next proposed }

/-- The goroutine of `tearDown` waits until all others have been told to end. -/
def mayStep (c : Joiner) : Links.Step → Bool
  | .tearDown r => (c.links.link r).closing
  | _ => true

def step (json : EncodingJson) (config : Config) (c : Joiner) : Step → Option Joiner
  | .joinCluster =>
    if c.startup = .starting then
      let c := match config.join with
        | none => c
        | some joinIp => c.newRemoteNode ⟨[], joinIp, [], config.reconnectOnDisconnect⟩ true
            .disconnected .launched none
      some { c with startup := .joining }
    else none
  | .start => if c.startup = .joining then some { c with startup := .started } else none
  | .incoming ipAddress =>
    some (c.newRemoteNode ⟨[], ipAddress, [], false⟩ false .handshake .running none)
  | .take =>
    match c.connector, c.links.node.joinQueue with
    | .idle, p :: rest =>
      let c := { c with links.node.joinQueue := rest }
      some (if c.startup ≠ .started then c
        else if p.id ∈ c.pendingConn then c
        else { c with connector := .looking p })
    | _, _ => none
  | .keys =>
    match c.connector with
    | .looking p => some { c with
        connector := if c.links.node.remoteNodes.contains p.id then .idle else .joining p }
    | _ => none
  | .join =>
    match c.connector with
    | .joining p =>
      let c := c.newRemoteNode ⟨p.id, p.ipAddress, [], config.reconnectOnDisconnect⟩ false
        .disconnected .launched (some p.id)
      some { c with connector := .storing p }
    | _ => none
  | .store =>
    match c.connector with
    | .storing p => some { c.modifyPending (insert p.id) with connector := .idle }
    | _ => none
  | .dial r =>
    match c.attempt r with
    | .launched => some ((c.setState r .connecting).goto r (.dialling 0))
    | _ => none
  | .dialFails r =>
    match c.attempt r with
    | .dialling tries => some (c.goto r
        (if config.connectRetries = 0 then .dialling tries
          else if config.connectRetries ≤ tries + 1 then .failed
          else .dialling (tries + 1)))
    | _ => none
  | .connects r =>
    match c.attempt r with
    | .dialling _ => some ((c.setState r .handshake).goto r .running)
    | _ => none
  | .unableToConnect r =>
    match c.attempt r with
    | .failed => some ((c.modifyPending (·.erase (c.links.node.idOf r))).goto r .abandoned)
    | _ => none
  | .link a =>
    if c.attempt a.conn = .running ∧ c.mayStep a then
      (c.links.step json a).map fun links ↦ { c with links := links }
    else none

/-- A node that has just been made. -/
def new (config : Config) : Joiner where
  links := .new ⟨config.hello, fun _ ↦ ⟨[], [], [], false⟩, fun _ ↦ false, config.replicationFactor⟩
  startup := .starting
  connector := .idle
  next := 0
  attempt _ := .absent
  proposed _ := none

/-- A node whose connections are made and lost, under any interleaving. -/
def system (json : EncodingJson) (config : Config) : TransitionSystem Joiner Step :=
  .ofStep (· = new config) (step json config)

/-! ## Phantoms

`Outcome` divides the steps by what they do to `pendingConn` and to the attempts in progress.  Most
keep both, and a goroutine of `join` that gives up deletes the `Id` of its own attempt.  Only
`store` and the end of a handshake can leave a phantom, and `Settled` is about these two. -/

/-- A remote node was made for a peer, and is being connected. -/
def Attempting (c : Joiner) (id : Bytes) (r : ConnId) : Prop :=
  c.proposed r = some id ∧ (c.attempt r).InProgress (c.links.state r)

instance (c : Joiner) (id : Bytes) (r : ConnId) : Decidable (c.Attempting id r) :=
  inferInstanceAs (Decidable (_ ∧ _))

/-- A connection attempt for a peer is in progress. -/
def Attempted (c : Joiner) (id : Bytes) : Prop := ∃ r < c.next, c.Attempting id r

instance (c : Joiner) (id : Bytes) : Decidable (c.Attempted id) :=
  inferInstanceAs (Decidable (∃ r < _, _))

/-- Every peer in `pendingConn` is really being connected to. -/
def NoPhantom (c : Joiner) : Prop := ∀ id ∈ c.pendingConn, c.Attempted id

instance (c : Joiner) : Decidable c.NoPhantom := inferInstanceAs (Decidable (∀ _ ∈ _, _))

/-- The peer that a remote node was made for is not pending, or another remote node is being
connected to it. -/
def Released (c : Joiner) (r : ConnId) : Prop :=
  ∀ id ∈ c.proposed r, id ∈ c.pendingConn → ∃ r' < c.next, r' ≠ r ∧ c.Attempting id r'

instance (c : Joiner) (r : ConnId) : Decidable (c.Released r) :=
  inferInstanceAs (Decidable (∀ _ ∈ _, _ → ∃ r' < _, _))

/-- The connection whose handshake is over with a step. -/
def handshakeOver : Links.Step → Option ConnId
  | .accept r | .disconnect r => some r
  | _ => none

theorem conn_of_handshakeOver {l : Links.Step} {r : ConnId} (h : handshakeOver l = some r) :
    l.conn = r := by
  cases l <;> cases h <;> rfl

theorem nextState_of_handshakeOver {l : Links.Step} {r : ConnId} (h : handshakeOver l = some r)
    (state : RemoteNodeState) : Links.nextState state l ≠ .handshake := by
  cases l <;> cases h <;> nofun

/-- A step that leaves no phantom: a handshake is over only when its peer has been released, and
when the `Id` of a proposal is stored, an attempt for it is still in progress. -/
def Settled (c : Joiner) : Step → Prop
  | .store => ∀ p ∈ c.connector.value, c.Attempted p.id
  | .link a => ∀ r ∈ handshakeOver a, c.Released r
  | .joinCluster | .start | .incoming _ | .take | .keys | .join | .dial _ | .dialFails _
  | .connects _ | .unableToConnect _ => True

instance (c : Joiner) (step : Step) : Decidable (c.Settled step) :=
  match step with
  | .store => inferInstanceAs (Decidable (∀ _ ∈ _, _))
  | .link _ => inferInstanceAs (Decidable (∀ _ ∈ _, _))
  | .joinCluster | .start | .incoming _ | .take | .keys | .join | .dial _ | .dialFails _
  | .connects _ | .unableToConnect _ => inferInstanceAs (Decidable True)

/-- A remote node has the `Id` of its proposal as long as there is no connection. -/
def Named (c : Joiner) : Prop :=
  ∀ r id, c.proposed r = some id → (c.attempt r).Dialling → c.links.node.idOf r = id

/-- What a step does to `pendingConn` and to the attempts in progress. -/
inductive Outcome (c c' : Joiner) : Step → Prop
  /-- No peer becomes pending, and no attempt for a pending peer ends. -/
  | kept {a : Step}
      (hkept : ∀ id ∈ c'.pendingConn, id ∈ c.pendingConn ∧ (c.Attempted id → c'.Attempted id))
      (hsettled : c.Settled a) : Outcome c c' a
  | stored {p : ProposedPeer} (hstoring : c.connector = .storing p)
      (hpending : c'.pendingConn = insert p.id c.pendingConn) (hatt : c'.Attempted = c.Attempted) :
      Outcome c c' .store
  /-- The handshake of a connection is over. -/
  | concluded {a : Links.Step} {r : ConnId} (hover : handshakeOver a = some r)
      (hpending : c'.pendingConn = c.pendingConn)
      (hatt : ∀ id, c'.Attempted id ↔ ∃ r' < c.next, r' ≠ r ∧ c.Attempting id r') :
      Outcome c c' (.link a)

section

variable {json : EncodingJson} {config : Config} {c c' : Joiner} {a : Step} {id : Bytes}

theorem Attempted.of_kept (h : c.Attempted id) (hnext : c.next ≤ c'.next)
    (hkept : ∀ r < c.next, c.Attempting id r → c'.Attempting id r) : c'.Attempted id := by
  obtain ⟨r, hr, hatt⟩ := h
  exact ⟨r, hr.trans_le hnext, hkept r hr hatt⟩

/-- A new remote node leaves the others alone. -/
theorem Attempted.newRemoteNode (h : c.Attempted id) (remote : RemoteNodeConfig) (sync : Bool)
    (state : RemoteNodeState) (attempt : Attempt) (proposed : Option Bytes) :
    (c.newRemoteNode remote sync state attempt proposed).Attempted id := by
  refine h.of_kept (Nat.le_succ _) fun r hr hatt ↦ ?_
  have hne : r ≠ c.next := hr.ne
  simpa [Attempting, Joiner.newRemoteNode, Links.state, Function.update_of_ne hne] using hatt

/-- While a goroutine of `join` is at work, the state does not matter. -/
theorem Attempted.setState {r : ConnId} (h : c.Attempted id) (hdial : (c.attempt r).Dialling)
    (state : RemoteNodeState) : (c.setState r state).Attempted id := by
  refine h.of_kept le_rfl fun r' _ hatt ↦ ⟨hatt.1, ?_⟩
  by_cases hne : r' = r
  · subst hne
    exact hdial.inProgress _
  · simpa [Joiner.setState, Links.state, Function.update_of_ne hne] using hatt.2

theorem Attempted.goto {r : ConnId} {attempt : Attempt} (h : c.Attempted id)
    (hgoes : attempt.InProgress (c.links.state r)) : (c.goto r attempt).Attempted id := by
  refine h.of_kept le_rfl fun r' _ hatt ↦ ⟨hatt.1, ?_⟩
  by_cases hne : r' = r
  · subst hne
    simpa [Joiner.goto] using hgoes
  · simpa [Joiner.goto, Function.update_of_ne hne] using hatt.2

/-- A step on a connection leaves an attempt in progress, unless the handshake is over. -/
theorem Attempting.link {l : Links.Step} {links : Links} {r : ConnId} (h : c.Attempting id r)
    (hstep : c.links.step json l = some links) (hover : handshakeOver l ≠ some r) :
    ({ c with links := links } : Joiner).Attempting id r := by
  refine ⟨h.1, ?_⟩
  have hstate : links.state r = c.links.state r := by
    rw [Links.step_state hstep]
    split_ifs with hr
    · subst hr
      cases l <;> first | rfl | exact absurd rfl hover
    · rfl
  exact hstate ▸ h.2

/-- When the handshake is over, no attempt is in progress. -/
theorem not_attempting_link {l : Links.Step} {links : Links} {r : ConnId}
    (hrunning : c.attempt r = .running) (hstep : c.links.step json l = some links)
    (hover : handshakeOver l = some r) :
    ¬ ({ c with links := links } : Joiner).Attempting id r := by
  rintro ⟨-, hprogress⟩
  change (c.attempt r).InProgress (links.state r) at hprogress
  rw [hrunning, Links.step_state hstep, if_pos (conn_of_handshakeOver hover).symm] at hprogress
  exact nextState_of_handshakeOver hover _ hprogress

/-- A new remote node has the `Id` of its proposal. -/
theorem Named.newRemoteNode (hnamed : c.Named) (remote : RemoteNodeConfig) (sync : Bool)
    (state : RemoteNodeState) (attempt : Attempt) {proposed : Option Bytes}
    (hid : ∀ id ∈ proposed, remote.id = id) :
    (c.newRemoteNode remote sync state attempt proposed).Named := by
  intro r id hr hdial
  by_cases hne : r = c.next
  · subst hne
    simp only [Joiner.newRemoteNode, Function.update_self] at hr
    simpa [Joiner.newRemoteNode, Node.idOf, RemoteNode.newRemoteNode, RemoteNode.setState] using
      hid id hr
  · simp only [Joiner.newRemoteNode, Function.update_of_ne hne] at hr hdial
    simpa [Joiner.newRemoteNode, Node.idOf, Function.update_of_ne hne] using hnamed r id hr hdial

theorem Named.setState (hnamed : c.Named) (r : ConnId) (state : RemoteNodeState) :
    (c.setState r state).Named := by
  intro r' id hr' hdial
  have hid : (c.setState r state).links.node.idOf = c.links.node.idOf :=
    Node.idOf_modify_of_eq c.links.node r (f := (·.setState state)) rfl
  rw [hid]
  exact hnamed r' id hr' hdial

theorem Named.goto (hnamed : c.Named) {r : ConnId} {attempt : Attempt}
    (hdial : attempt.Dialling → (c.attempt r).Dialling) : (c.goto r attempt).Named := by
  intro r' id hr' hdial'
  refine hnamed r' id hr' ?_
  by_cases hne : r' = r
  · subst hne
    simp only [Joiner.goto, Function.update_self] at hdial'
    exact hdial hdial'
  · simpa [Joiner.goto, Function.update_of_ne hne] using hdial'

/-- A goroutine of `join` that gives up deletes the peer it was started for. -/
theorem outcome_unableToConnect {r : ConnId} (hnamed : c.Named) (hfailed : c.attempt r = .failed) :
    c.Outcome ((c.modifyPending (·.erase (c.links.node.idOf r))).goto r .abandoned)
      (.unableToConnect r) := by
  refine .kept (fun id hid ↦ ?_) trivial
  obtain ⟨hne, hmem⟩ := Finset.mem_erase.mp hid
  refine ⟨hmem, fun hatt ↦ hatt.of_kept le_rfl fun r' _ hatt' ↦ ⟨hatt'.1, ?_⟩⟩
  have hr' : r' ≠ r := by
    rintro rfl
    exact hne (hnamed r' id hatt'.1 (by rw [hfailed]; trivial)).symm
  change Attempt.InProgress _ (Function.update c.attempt r .abandoned r')
  rw [Function.update_of_ne hr']
  exact hatt'.2

/-- A goroutine of a connection ends an attempt when the handshake is over. -/
theorem outcome_link {l : Links.Step} {links : Links} (hrunning : c.attempt l.conn = .running)
    (hstep : c.links.step json l = some links) : c.Outcome { c with links := links } (.link l) := by
  have hpending := Links.pendingConn_of_step hstep
  cases hover : handshakeOver l with
  | none =>
    refine .kept (fun id hid ↦ ⟨?_, fun hatt ↦ ?_⟩) ?_
    · change id ∈ links.node.pendingConn at hid
      rw [hpending] at hid
      split at hid
      · exact Finset.mem_of_mem_erase hid
      · exact hid
    · exact hatt.of_kept le_rfl fun r _ hatt' ↦ hatt'.link hstep (by rw [hover]; nofun)
    · intro r hr
      rw [hover] at hr
      cases hr
  | some r =>
    have hr := conn_of_handshakeOver hover
    refine .concluded hover ?_ fun id ↦ ⟨?_, ?_⟩
    · change links.node.pendingConn = _
      rw [hpending]
      cases l <;> cases hover <;> rfl
    · rintro ⟨r', hlt, hatt⟩
      have hne : r' ≠ r := by
        rintro rfl
        exact not_attempting_link (hr ▸ hrunning) hstep hover hatt
      refine ⟨r', hlt, hne, hatt.1, ?_⟩
      have hprogress := hatt.2
      change (c.attempt r').InProgress (links.state r') at hprogress
      rwa [Links.step_state hstep, if_neg (hr ▸ hne)] at hprogress
    · rintro ⟨r', hlt, hne, hatt⟩
      refine ⟨r', hlt, hatt.link hstep ?_⟩
      rw [hover]
      exact fun heq ↦ hne (Option.some.inj heq).symm

/-- The goroutines of a connection run only when the one of `join` is done. -/
theorem Named.link {l : Links.Step} {links : Links} (hnamed : c.Named)
    (hrunning : c.attempt l.conn = .running) (hstep : c.links.step json l = some links) :
    Named { c with links := links } := by
  intro r id hr hdial
  have hne : r ≠ l.conn := by
    rintro rfl
    simp only [hrunning] at hdial
    cases hdial
  change (links.node.heap r).config.id = id
  rw [(Links.step_of_ne hstep hne).1]
  exact hnamed r id hr hdial

/-- **What each step does.**  Until it is connected, a remote node keeps the `Id` of its
proposal. -/
theorem step_outcome (hnamed : c.Named) (h : c.step json config a = some c') :
    c'.Named ∧ c.Outcome c' a := by
  cases a with
  | joinCluster =>
    simp only [step] at h
    split_ifs at h
    obtain rfl := Option.some.inj h
    cases config.join with
    | none => exact ⟨hnamed, .kept (fun id hid ↦ ⟨hid, fun h ↦ h⟩) trivial⟩
    | some joinIp =>
      exact ⟨hnamed.newRemoteNode _ _ _ _ (by simp), .kept
        (fun id hid ↦ ⟨hid, fun hatt ↦ hatt.newRemoteNode _ _ _ _ _⟩) trivial⟩
  | start =>
    simp only [step] at h
    split_ifs at h
    obtain rfl := Option.some.inj h
    exact ⟨hnamed, .kept (fun id hid ↦ ⟨hid, fun h ↦ h⟩) trivial⟩
  | incoming ipAddress =>
    obtain rfl := Option.some.inj h
    exact ⟨hnamed.newRemoteNode _ _ _ _ (by simp), .kept
      (fun id hid ↦ ⟨hid, fun hatt ↦ hatt.newRemoteNode _ _ _ _ _⟩) trivial⟩
  | take =>
    simp only [step] at h
    split at h
    · obtain rfl := Option.some.inj h
      split_ifs <;>
        exact ⟨hnamed, .kept (fun id hid ↦ ⟨hid, fun h ↦ h⟩) trivial⟩
    · cases h
  | keys =>
    simp only [step] at h
    split at h
    · obtain rfl := Option.some.inj h
      exact ⟨hnamed, .kept (fun id hid ↦ ⟨hid, fun h ↦ h⟩) trivial⟩
    · cases h
  | join =>
    simp only [step] at h
    split at h
    · next p hjoining =>
      obtain rfl := Option.some.inj h
      exact ⟨hnamed.newRemoteNode _ _ _ _ fun id hid ↦ Option.some.inj hid, .kept
        (fun id hid ↦ ⟨hid, fun hatt ↦ hatt.newRemoteNode _ _ _ _ _⟩) trivial⟩
    · cases h
  | store =>
    simp only [step] at h
    split at h
    · next p hstoring =>
      obtain rfl := Option.some.inj h
      exact ⟨hnamed, .stored hstoring rfl rfl⟩
    · cases h
  | dial r =>
    simp only [step] at h
    split at h
    · next hlaunched =>
      obtain rfl := Option.some.inj h
      have hdial : (c.attempt r).Dialling := by rw [hlaunched]; trivial
      exact ⟨(hnamed.setState r _).goto fun _ ↦ hdial, .kept
        (fun id hid ↦ ⟨hid, fun hatt ↦ (hatt.setState hdial _).goto trivial⟩) trivial⟩
    · cases h
  | dialFails r =>
    simp only [step] at h
    split at h
    · next tries hdialling =>
      obtain rfl := Option.some.inj h
      have hdial : (c.attempt r).Dialling := by rw [hdialling]; trivial
      refine ⟨hnamed.goto fun _ ↦ hdial, .kept
        (fun id hid ↦ ⟨hid, fun hatt ↦ hatt.goto ?_⟩) trivial⟩
      split_ifs <;> trivial
    · cases h
  | connects r =>
    simp only [step] at h
    split at h
    · next tries hdialling =>
      obtain rfl := Option.some.inj h
      have hdial : (c.attempt r).Dialling := by rw [hdialling]; trivial
      refine ⟨(hnamed.setState r _).goto False.elim, .kept
        (fun id hid ↦ ⟨hid, fun hatt ↦ (hatt.setState hdial _).goto ?_⟩) trivial⟩
      simp [Attempt.InProgress, setState, Links.state, RemoteNode.setState]
    · cases h
  | unableToConnect r =>
    simp only [step] at h
    split at h
    · next hfailed =>
      obtain rfl := Option.some.inj h
      exact ⟨Named.goto (c := c.modifyPending _) hnamed False.elim,
        outcome_unableToConnect hnamed hfailed⟩
    · cases h
  | link l =>
    simp only [step] at h
    split_ifs at h with hguard
    obtain ⟨links, hstep, rfl⟩ := Option.map_eq_some_iff.mp h
    exact ⟨hnamed.link hguard.1 hstep, outcome_link hguard.1 hstep⟩

/-- What holds when every step has been settled. -/
structure Inv (c : Joiner) : Prop where
  noPhantom : c.NoPhantom
  named : c.Named

/-- **A settled step leaves no phantom.** -/
theorem Inv.step (hi : c.Inv) (h : c.step json config a = some c') (hok : c.Settled a) :
    c'.Inv := by
  obtain ⟨hnamed, ho⟩ := step_outcome hi.named h
  refine ⟨?_, hnamed⟩
  cases ho with
  | kept hkept =>
    intro id hid
    obtain ⟨hmem, hatt⟩ := hkept id hid
    exact hatt (hi.noPhantom id hmem)
  | stored hstoring hpending hatt =>
    intro id hid
    rw [hpending, Finset.mem_insert] at hid
    rw [hatt]
    rcases hid with rfl | hid
    · exact hok _ (by rw [hstoring]; rfl)
    · exact hi.noPhantom id hid
  | @concluded l r hover hpending hatt =>
    intro id hid
    rw [hpending] at hid
    obtain ⟨r', hlt, hatt'⟩ := hi.noPhantom id hid
    rw [hatt]
    by_cases hne : r' = r
    · subst hne
      exact hok r' hover id hatt'.1 hid
    · exact ⟨r', hlt, hne, hatt'⟩

/-- **A step that is not settled leaves a phantom.** -/
theorem Inv.settled_of_step (hi : c.Inv) (h : c.step json config a = some c')
    (hno : c'.NoPhantom) : c.Settled a := by
  cases (step_outcome hi.named h).2 with
  | kept hkept hsettled => exact hsettled
  | @stored p hstoring hpending hatt =>
    intro p' hp'
    rw [hstoring] at hp'
    obtain rfl := Option.some.inj hp'
    rw [NoPhantom, hpending, hatt] at hno
    exact hno p.id (Finset.mem_insert_self _ _)
  | concluded hover hpending hatt =>
    intro r hr id _ hid
    obtain rfl := Option.some.inj (hover.symm.trans hr)
    exact (hatt id).mp (hno id (hpending ▸ hid))

end

/-- **No phantom pending connection.**  Every peer in `pendingConn` is being connected to, in every
state of a run, if and only if every step of the run is settled.  A proposal is passed over as
pending just when its peer is in `pendingConn`. -/
theorem no_phantom_iff {json : EncodingJson} {config : Config} {ls : List Step} {c : Joiner}
    (hr : (system json config).Run ls c) :
    (∀ pre c', pre <+: ls → (system json config).Run pre c' → c'.NoPhantom) ↔
      ((system json config).restrict Settled).Run ls c := by
  refine hr.always_iff_restrict TransitionSystem.run_ofStep_unique ?_ (fun _ ↦ Inv.noPhantom) ?_ ?_
  · rintro _ rfl
    exact ⟨nofun, nofun⟩
  · exact fun _ _ _ hi hstep hok ↦ hi.step hstep hok
  · exact fun _ _ _ hi hstep hno ↦ hi.settled_of_step hstep hno

/-- A node that joins a cluster, and makes a connection again when it is lost. -/
def someConfig : Config := ⟨⟨[1], [80], clusterModeACTIVE⟩, 1, some [9], 5, true⟩

/-- The `VERIFY` message of a peer. -/
def peerHello : NodeWireMessage :=
  (NodeMessage.verify ⟨[7], [80], clusterModeACTIVE⟩).serialize (.plain id)

/-- A connection gets through the handshake. -/
def shakeHands (r : ConnId) : List Step :=
  [.loop r, .read r peerHello, .filter r, .queue r, .handle r peerHello, .contains r, .add r,
    .accept r].map .link

/-- The node joins the cluster, and the connection is lost. -/
def joinAndLose : List Step :=
  [.joinCluster, .dial 0, .connects 0, .start] ++ shakeHands 0 ++
    [.link (.disconnect 0), .link (.tearDown 0)]

/-- The connection is made again. -/
def reconnect : List Step := [.take, .keys, .join, .store, .dial 1, .dialFails 1, .connects 1]

/-- The connection is lost and made again. -/
theorem no_phantom_reconnected :
    ∃ c, (system (.plain id) someConfig).Run (joinAndLose ++ reconnect ++ shakeHands 1) c ∧
      (c.connector = .idle ∧ c.links.state 1 = .connected ∧ c.pendingConn = ∅) ∧ c.NoPhantom := by
  refine Exists.imp (fun c hc ↦ ⟨hc.1.of_restrict, of_decide_eq_true hc.2, ?_⟩)
    (TransitionSystem.exists_run_from (S := (system (.plain id) someConfig).restrict Settled)
      (fun _ _ _ ↦ TransitionSystem.step_of_guarded _ _ _) rfl (by decide +kernel))
  exact (no_phantom_iff hc.1.of_restrict).mpr hc.1 _ c (List.prefix_refl _) hc.1.of_restrict

/-- **A connection that is lost in the handshake is never made again**: when the second attempt is
cut off, the proposal of its `tearDown` is passed over, although there is no connection to the peer
and none is being made. -/
theorem lost_in_handshake :
    ∃ c, (system (.plain id) someConfig).Run (joinAndLose ++ reconnect ++
        [.link (.disconnect 1), .link (.tearDown 1), .take]) c ∧
      c.connector = .idle ∧ c.links.node.joinQueue = [] ∧ [7] ∈ c.pendingConn ∧
        c.links.node.remoteNodes.contains [7] = false ∧ ¬ c.Attempted [7] :=
  Exists.imp (fun _ hc ↦ ⟨hc.1, of_decide_eq_true hc.2⟩)
    (TransitionSystem.exists_run_from (S := system (.plain id) someConfig)
      (fun _ _ _ ↦ id) rfl (by decide +kernel))

end Joiner
end ClusteredBigCache
