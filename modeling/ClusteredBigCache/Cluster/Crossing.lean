import ClusteredBigCache.Cluster.Registry

/-!
# Two connections between two nodes

Two nodes that dial each other have two connections, `0` and `1`, and verify each other on both.
Each of them is meant to keep one and to reject the other.  But each decides for itself which one it
keeps; and a connection that is rejected has the `Id` of the peer already, so that its `tearDown`
takes the registration of the one that was kept.

`crossing_connected_iff` says in which orders the two nodes end up connected: when neither rejects
anything, because at both ends both handlers look for the `Id` before either registers its
connection, and when the connection that is registered last is the same at both ends.  In
`crossing_disconnected` every handler runs without interruption, and in the end neither node has the
other.

The handlers of each node are those of `Connections`.  The network loses nothing: a connection is
closed at one end when the handler there has rejected it or when the other end is closed, and
`tearDown` runs when it is closed and its handler is not in the middle of a message.  After that the
handler takes no more messages.
-/

set_option autoImplicit false

namespace ClusteredBigCache

/-- The two nodes. -/
inductive Side
  | a
  | b
  deriving DecidableEq, Repr

instance Side.fintype : Fintype Side := ⟨{.a, .b}, fun s ↦ by cases s <;> simp⟩

/-- The node at the other end. -/
def Side.other : Side → Side
  | .a => .b
  | .b => .a

/-- Two nodes and the two connections between them. -/
structure Crossing where
  conns : Side → Connections
  /-- The handler has taken the `VERIFY` message of the peer. -/
  handled : Side → ConnId → Bool
  /-- The connection is closed at this end. -/
  closed : Side → ConnId → Bool

namespace Crossing

/-- What can happen at an end of a connection. -/
inductive Step
  /-- The handler takes the `VERIFY` message. -/
  | verify (s : Side) (r : ConnId)
  | contains (s : Side) (r : ConnId)
  | add (s : Side) (r : ConnId)
  /-- The goroutines end and close the connection. -/
  | close (s : Side) (r : ConnId)
  | tearDown (s : Side) (r : ConnId)
  deriving DecidableEq, Repr

/-- The node at one end takes a step. -/
def act (c : Crossing) (s : Side) (a : Connections.Step) : Option Crossing :=
  ((c.conns s).step a).map fun conns ↦ { c with conns := Function.update c.conns s conns }

/-- Mark an end of a connection. -/
def mark (f : Side → ConnId → Bool) (s : Side) (r : ConnId) : Side → ConnId → Bool :=
  Function.update f s (Function.update (f s) r true)

/-- A step; `hello s` is the `VERIFY` message that the node `s` sends. -/
def step (hello : Side → VerifyMessage) (c : Crossing) : Step → Option Crossing
  | .verify s r =>
    if r < 2 ∧ c.handled s r = false ∧ c.closed s r = false then
      ({ c with handled := mark c.handled s r } : Crossing).act s (.verify r (hello s.other))
    else none
  | .contains s r => c.act s (.contains r)
  | .add s r => c.act s (.add r)
  | .close s r =>
    if c.closed s r = false ∧
        ((c.conns s).handler r = .returned ∨ c.closed s.other r = true) then
      ({ c with closed := mark c.closed s r } : Crossing).act s (.disconnect r)
    else none
  | .tearDown s r =>
    if c.closed s r = true ∧ (c.conns s).down r = false ∧
        ((c.conns s).handler r = .waiting ∨ (c.conns s).handler r = .returned) then
      c.act s (.tearDown r)
    else none

/-- Both connections have just been made. -/
def new (hello : Side → VerifyMessage) (config : Side → ConnId → RemoteNodeConfig) : Crossing where
  conns s := .new (hello s).id (hello s).servicePort (hello s).mode (config s)
  handled _ _ := false
  closed _ _ := false

def system (hello : Side → VerifyMessage) (config : Side → ConnId → RemoteNodeConfig) :
    TransitionSystem Crossing Step :=
  .ofStep (· = new hello config) (step hello)

/-- Nothing is in flight and everything that is closed is torn down: on each of the two connections,
at each end, an open connection has been verified, one that was rejected or closed by the peer is
closed, and one that is closed is torn down. -/
def Final (c : Crossing) : Prop :=
  ∀ s, ∀ r < 2,
    (c.closed s r = false → c.handled s r = true ∧ (c.conns s).handler r = .waiting) ∧
    ((c.conns s).handler r = .returned ∨ c.closed s.other r = true → c.closed s r = true) ∧
    (c.closed s r = true → (c.conns s).down r = true)

instance (c : Crossing) : Decidable c.Final :=
  inferInstanceAs (Decidable (∀ _, ∀ _ < _, _))

/-- Each node has the other one registered, by a connection that is open at both ends. -/
def Connected (hello : Side → VerifyMessage) (c : Crossing) : Prop :=
  ∃ r, ∀ s, (c.conns s).registered (hello s.other).id = some r ∧ c.closed s r = false

/-- The connection that a node was the last to register. -/
def lastAdd (s : Side) (ls : List Step) : Option ConnId :=
  (ls.filterMap fun
    | .add s' r => if s' = s then some r else none
    | _ => none).getLast?

/-- Whether one step registers the peer at the end where another one looks for it. -/
def Step.spoils : Step → Step → Bool
  | .add s _, .contains s' _ => s = s'
  | _, _ => false

/-- At each end, every handler looks for the peer before any of them registers it. -/
def ContainsFirst (ls : List Step) : Prop := ls.Pairwise fun a b ↦ a.spoils b = false

instance (ls : List Step) : Decidable (ContainsFirst ls) :=
  inferInstanceAs (Decidable (ls.Pairwise _))

/-- No handler has rejected its connection. -/
def NoneRejected (c : Crossing) : Prop := ∀ s r, (c.conns s).handler r ≠ .returned

/-! ## One end

At one end there are two connections and one registry, so the invariant can say outright which of
the two is registered: the one that was added last, as long as none was torn down. -/

/-- There are only two connections. -/
theorem eq_of_lt_two {r r' r'' : ℕ} (h : r < 2) (h' : r' < 2) (h'' : r'' < 2) (hne : r' ≠ r)
    (hne' : r'' ≠ r) : r' = r'' := by
  omega

/-- What is true at one end: `mode` is the mode of the node, `peer` the `Id` of the other one, and
`added` the connection that was registered last. -/
structure EndInv (mode : UInt8) (peer : Bytes) (c : Connections) (handled closed : ConnId → Bool)
    (added : Option ConnId) : Prop where
  mode : c.node.mode = mode
  two : ∀ r, handled r = true → r < 2
  idle : ∀ r, handled r = false → c.handler r = .waiting ∧ c.accepted r = false
  accepted : ∀ r, c.accepted r = true → c.handler r = .waiting
  named : ∀ r, c.handler r ≠ .waiting → c.node.idOf r = peer
  registered : ∀ r, c.registered peer = some r → c.accepted r = true
  /-- When a connection is rejected, the other one is accepted. -/
  rejected : ∀ r, c.handler r = .returned → ∀ r', r' < 2 → r' ≠ r → c.accepted r' = true
  down : ∀ r, c.down r = true →
    closed r = true ∧ (c.handler r = .waiting ∨ c.handler r = .returned)
  /-- When a rejected connection is torn down, nothing is registered. -/
  removed : ∀ r, c.handler r = .returned → c.down r = true → c.registered peer = none
  last : (∀ r, c.down r = false) → c.registered peer = added

section

variable {mode : UInt8} {peer : Bytes} {c c' : Connections} {handled closed : ConnId → Bool}
  {added : Option ConnId} {r : ConnId}

theorem EndInv.lt_two (hi : EndInv mode peer c handled closed added)
    (h : c.handler r ≠ .waiting ∨ c.accepted r = true) : r < 2 := by
  refine hi.two r (Bool.eq_true_of_not_eq_false fun hf ↦ ?_)
  obtain ⟨hw, ha⟩ := hi.idle r hf
  rcases h with h | h
  · exact h hw
  · rw [ha] at h
    cases h

theorem EndInv.handled_eq (hi : EndInv mode peer c handled closed added)
    (h : c.handler r ≠ .waiting) : handled r = true :=
  Bool.eq_true_of_not_eq_false fun hf ↦ h (hi.idle r hf).1

theorem EndInv.accepted_eq (hi : EndInv mode peer c handled closed added)
    (h : c.handler r ≠ .waiting) : c.accepted r = false :=
  Bool.eq_false_iff.mpr fun ha ↦ h (hi.accepted r ha)

/-- A handler that is in the middle of `handleVerify` moves on. -/
theorem EndInv.moved {handler : Handler} (hi : EndInv mode peer c handled closed added)
    (hlt : r < 2) (haccepted : c.accepted r = false) (hdown : c.down r = false)
    (hrejected : handler = .returned → ∀ r', r' < 2 → r' ≠ r → c.accepted r' = true)
    (hm : c'.node.mode = c.node.mode) (hh : c'.handler = Function.update c.handler r handler)
    (hacc : c'.accepted = c.accepted) (hd : c'.down = c.down)
    (hreg : c'.registered = c.registered)
    (hid : c'.node.idOf = Function.update c.node.idOf r peer) :
    EndInv mode peer c' (Function.update handled r true) closed added where
  mode := hm.trans hi.mode
  two r' hr' := by
    rw [Function.update_apply] at hr'
    split_ifs at hr' with hrr
    · exact hrr ▸ hlt
    · exact hi.two r' hr'
  idle r' hr' := by
    rw [Function.update_apply] at hr'
    split_ifs at hr' with hrr
    rw [hh, hacc, Function.update_of_ne hrr]
    exact hi.idle r' hr'
  accepted r' hr' := by
    rw [hacc] at hr'
    have hrr : r' ≠ r := by
      rintro rfl
      cases haccepted.symm.trans hr'
    rw [hh, Function.update_of_ne hrr]
    exact hi.accepted r' hr'
  named r' hr' := by
    rw [hh, Function.update_apply] at hr'
    rw [hid, Function.update_apply]
    split_ifs at hr' ⊢
    · rfl
    · exact hi.named r' hr'
  registered := by
    rw [hreg, hacc]
    exact hi.registered
  rejected r' hr' := by
    rw [hh, Function.update_apply] at hr'
    rw [hacc]
    split_ifs at hr' with hrr
    · exact hrr ▸ hrejected hr'
    · exact hi.rejected r' hr'
  down r' hr' := by
    rw [hd] at hr'
    have hrr : r' ≠ r := by
      rintro rfl
      cases hdown.symm.trans hr'
    rw [hh, Function.update_of_ne hrr]
    exact hi.down r' hr'
  removed r' hr' hr'' := by
    rw [hd] at hr''
    have hrr : r' ≠ r := by
      rintro rfl
      cases hdown.symm.trans hr''
    rw [hh, Function.update_of_ne hrr] at hr'
    rw [hreg]
    exact hi.removed r' hr' hr''
  last := by
    rw [hd, hreg]
    exact hi.last

/-- The handler takes the `VERIFY` message of the peer. -/
theorem EndInv.verify {msg : VerifyMessage} (hi : EndInv mode peer c handled closed added)
    (hlt : r < 2) (hhandled : handled r = false) (hclosed : closed r = false)
    (hid : msg.id = peer) (hmode : ¬ (msg.mode = clusterModePASSIVE ∧ mode = clusterModePASSIVE))
    (h : c.step (.verify r msg) = some c') :
    EndInv mode peer c' (Function.update handled r true) closed added := by
  obtain ⟨hwaiting, haccepted⟩ := hi.idle r hhandled
  by_cases hstate : (c.node.heap r).state = .disconnected
  · -- the message is ignored
    rw [Connections.step, if_pos hwaiting, if_pos hstate] at h
    obtain rfl := Option.some.inj h
    refine { hi with two := fun r' hr' ↦ ?_, idle := fun r' hr' ↦ hi.idle r' ?_ }
    · rw [Function.update_apply] at hr'
      split_ifs at hr' with hrr
      · exact hrr ▸ hlt
      · exact hi.two r' hr'
    · rw [Function.update_apply] at hr'
      split_ifs at hr'
      exact hr'
  · have hpassive : ¬ (c.node.modify r (·.label msg)).bothPassive msg = true := by
      intro hb
      obtain ⟨hb, hb'⟩ := Bool.and_eq_true_iff.mp hb
      exact hmode ⟨of_decide_eq_true hb, hi.mode ▸ of_decide_eq_true hb'⟩
    have hdown : c.down r = false := by
      refine Bool.eq_false_iff.mpr fun hd ↦ ?_
      cases hclosed.symm.trans (hi.down r hd).1
    rw [Connections.step_verify_eq msg hwaiting hstate, if_neg hpassive] at h
    obtain rfl := Option.some.inj h
    refine hi.moved hlt haccepted hdown (by rintro ⟨⟩) rfl rfl rfl rfl rfl ?_
    rw [← hid]
    exact Node.idOf_modify c.node r (·.label msg)

/-- The handler looks whether the peer is registered. -/
theorem EndInv.contains (hi : EndInv mode peer c handled closed added)
    (h : c.step (.contains r) = some c') : EndInv mode peer c' handled closed added := by
  rw [Connections.step] at h
  split_ifs at h with hchecking hreg
  all_goals
    obtain rfl := Option.some.inj h
    have hne : c.handler r ≠ .waiting := by
      rw [hchecking]
      decide
    have hhandled := hi.handled_eq hne
    have hid := hi.named r hne
    have hdown : c.down r = false := by
      refine Bool.eq_false_iff.mpr fun hd ↦ ?_
      rcases (hi.down r hd).2 with hw | hw
      all_goals cases hchecking.symm.trans hw
    have hupdate : Function.update handled r true = handled :=
      Function.update_eq_self_iff.mpr hhandled.symm
    rw [← hupdate]
  · refine hi.moved (hi.lt_two (.inl hne)) (hi.accepted_eq hne) hdown
      (fun _ r' hlt hrr ↦ ?_) rfl rfl rfl rfl rfl (by rw [← hid]; simp [Connections.goto])
    -- what is registered is the other connection
    obtain ⟨r'', hr''⟩ := Option.isSome_iff_exists.mp hreg
    rw [hid] at hr''
    have hacc := hi.registered r'' hr''
    have hlt'' := hi.lt_two (.inr hacc)
    have hltr := hi.lt_two (.inl hne)
    have hrr'' : r'' ≠ r := by
      rintro rfl
      exact hne (hi.accepted _ hacc)
    rwa [eq_of_lt_two hltr hlt hlt'' hrr hrr'']
  · exact hi.moved (hi.lt_two (.inl hne)) (hi.accepted_eq hne) hdown
      (by rintro ⟨⟩) rfl rfl rfl rfl rfl (by rw [← hid]; simp [Connections.goto])

/-- The handler registers the connection. -/
theorem EndInv.add (hi : EndInv mode peer c handled closed added)
    (h : c.step (.add r) = some c') : EndInv mode peer c' handled closed (some r) := by
  rw [Connections.step] at h
  split_ifs at h with hadding
  have hne : c.handler r ≠ .waiting := by
    rw [hadding]
    decide
  have hlt := hi.lt_two (.inl hne)
  -- no connection is rejected, as this one is not accepted yet
  have hnone : ∀ r', c.handler r' ≠ .returned := by
    intro r' hr'
    have hrr : r ≠ r' := by
      rintro rfl
      cases hadding.symm.trans hr'
    exact hne (hi.accepted r (hi.rejected r' hr' r hlt hrr))
  have hhandler : ∀ r', c'.handler r' = if r' = r then .waiting else c.handler r' := by
    intro r'
    rw [← Option.some.inj h, ← Function.update_apply]
    rfl
  have haccepted : ∀ r', c'.accepted r' = if r' = r then true else c.accepted r' := by
    intro r'
    rw [← Option.some.inj h, ← Function.update_apply]
    rfl
  have hreg : c'.registered peer = some r := by
    rw [← Option.some.inj h, ← hi.named r hne]
    exact (SliceList.get_add _ _ _ _).trans (if_pos rfl)
  have hid : c'.node.idOf = c.node.idOf := by
    rw [← Option.some.inj h]
    exact Node.idOf_modify_of_eq (c.node.addRemoteNode r) r (f := fun rn ↦ rn.welcome rn.mode)
      (RemoteNode.id_welcome _ _)
  have hdown : c'.down = c.down := by rw [← Option.some.inj h]; rfl
  have hnot : ∀ r', c'.handler r' ≠ .returned := by
    intro r' hr'
    rw [hhandler] at hr'
    split_ifs at hr'
    exact hnone r' hr'
  exact {
    mode := by rw [← Option.some.inj h, ← hi.mode]; rfl
    two := hi.two
    idle := fun r' hr' ↦ by
      have hrr : r' ≠ r := by
        rintro rfl
        cases hr'.symm.trans (hi.handled_eq hne)
      rw [hhandler, haccepted, if_neg hrr, if_neg hrr]
      exact hi.idle r' hr'
    accepted := fun r' hr' ↦ by
      rw [haccepted] at hr'
      rw [hhandler]
      split_ifs at hr' ⊢
      · rfl
      · exact hi.accepted r' hr'
    named := fun r' hr' ↦ by
      rw [hhandler] at hr'
      rw [hid]
      split_ifs at hr' with hrr
      · exact absurd rfl hr'
      · exact hi.named r' hr'
    registered := fun r' hr' ↦ by
      rw [haccepted, if_pos (Option.some.inj (hreg.symm.trans hr')).symm]
    rejected := fun r' hr' ↦ absurd hr' (hnot r')
    down := fun r' hr' ↦ by
      rw [hdown] at hr'
      rw [hhandler]
      split_ifs
      · exact ⟨(hi.down r' hr').1, .inl rfl⟩
      · exact hi.down r' hr'
    removed := fun r' hr' ↦ absurd hr' (hnot r')
    last := fun _ ↦ hreg }

/-- The connection is torn down. -/
theorem EndInv.tearDown (hi : EndInv mode peer c handled closed added) (hclosed : closed r = true)
    (hhandler : c.handler r = .waiting ∨ c.handler r = .returned)
    (h : c.step (.tearDown r) = some c') : EndInv mode peer c' handled closed added := by
  have hreg : ∀ id, c'.registered id = if id = c.node.idOf r then none else c.registered id := by
    intro id
    rw [← Option.some.inj h, Connections.registered, Node.tearDown_remoteNodes]
    exact SliceList.get_remove _ _ _
  have hdown : ∀ r', c'.down r' = if r' = r then true else c.down r' := by
    intro r'
    rw [← Option.some.inj h, ← Function.update_apply]
  have hid : c'.node.idOf = c.node.idOf := by
    rw [← Option.some.inj h]
    exact Node.idOf_tearDown _ _
  have hm : c'.node.mode = c.node.mode := by
    rw [← Option.some.inj h]
    exact Node.mode_tearDown _ _
  have hh : c'.handler = c.handler := by rw [← Option.some.inj h]
  have hacc : c'.accepted = c.accepted := by rw [← Option.some.inj h]
  exact {
    mode := hm.trans hi.mode
    two := hi.two
    idle := by
      rw [hh, hacc]
      exact hi.idle
    accepted := by
      rw [hh, hacc]
      exact hi.accepted
    named := by
      rw [hh, hid]
      exact hi.named
    registered := fun r' hr' ↦ by
      rw [hreg] at hr'
      rw [hacc]
      split_ifs at hr'
      exact hi.registered r' hr'
    rejected := by
      rw [hh, hacc]
      exact hi.rejected
    down := fun r' hr' ↦ by
      rw [hdown] at hr'
      rw [hh]
      split_ifs at hr' with hrr
      · exact hrr ▸ ⟨hclosed, hhandler⟩
      · exact hi.down r' hr'
    removed := fun r' hr' hd ↦ by
      rw [hh] at hr'
      rw [hdown] at hd
      rw [hreg]
      split_ifs with hname
      · rfl
      · -- a connection without the name of the peer is not the rejected one
        have hrr : r' ≠ r := by
          rintro rfl
          refine hname (hi.named _ fun hw ↦ ?_).symm
          cases hw.symm.trans hr'
        rw [if_neg hrr] at hd
        exact hi.removed r' hr' hd
    last := fun hd ↦ by
      have := hd r
      rw [hdown, if_pos rfl] at this
      cases this }

/-- The goroutines of the connection end. -/
theorem EndInv.close (hi : EndInv mode peer c handled closed added)
    (h : c.step (.disconnect r) = some c') :
    EndInv mode peer c' handled (Function.update closed r true) added := by
  obtain rfl := Option.some.inj h
  refine { hi with named := fun r' hr' ↦ ?_, down := fun r' hr' ↦ ?_ }
  · rw [Node.idOf_modify_of_eq c.node r (f := (·.setState .disconnected)) rfl]
    exact hi.named r' hr'
  · obtain ⟨hc, hh⟩ := hi.down r' hr'
    refine ⟨?_, hh⟩
    rw [Function.update_apply, hc, ite_self]

end

/-! ## Both ends -/

/-- A handler that has returned has returned for good. -/
theorem returned_of_step {c c' : Connections} {a : Connections.Step} {r : ConnId}
    (h : c.step a = some c') (hr : c.handler r = .returned) : c'.handler r = .returned := by
  have hgoto : ∀ {r' handler}, c.handler r' ≠ .returned →
      Function.update c.handler r' handler r = .returned := by
    intro r' handler hne
    rw [Function.update_of_ne, hr]
    rintro rfl
    exact hne hr
  cases a with
  | verify r' msg =>
    rw [Connections.step] at h
    split_ifs at h with hw
    all_goals obtain rfl := Option.some.inj h
    · exact hr
    · exact hgoto (by rw [hw]; decide)
  | contains r' =>
    rw [Connections.step] at h
    split_ifs at h with hw
    all_goals
      obtain rfl := Option.some.inj h
      exact hgoto (by rw [hw]; decide)
  | add r' =>
    rw [Connections.step] at h
    split_ifs at h with hw
    obtain rfl := Option.some.inj h
    exact hgoto (by rw [hw]; decide)
  | tearDown r' =>
    obtain rfl := Option.some.inj h
    exact hr
  | disconnect r' =>
    obtain rfl := Option.some.inj h
    exact hr

theorem lastAdd_append_of_ne {s : Side} {ls : List Step} {a : Step} (h : ∀ r, a ≠ .add s r) :
    lastAdd s (ls ++ [a]) = lastAdd s ls := by
  cases a with
  | add s' r =>
    have hne : s' ≠ s := by
      rintro rfl
      exact h r rfl
    simp [lastAdd, hne]
  | _ => simp [lastAdd]

theorem lastAdd_append_add (s : Side) (ls : List Step) (r : ConnId) :
    lastAdd s (ls ++ [.add s r]) = some r := by
  simp [lastAdd]

/-- What is true along a run. -/
structure Inv (hello : Side → VerifyMessage) (ls : List Step) (c : Crossing) : Prop where
  ends : ∀ s, EndInv (hello s).mode (hello s.other).id (c.conns s) (c.handled s) (c.closed s)
    (lastAdd s ls)
  /-- A connection is only closed when one of the two ends has rejected it. -/
  closed : ∀ s r, c.closed s r = true → ∃ s', (c.conns s').handler r = .returned

section

variable {hello : Side → VerifyMessage} {config : Side → ConnId → RemoteNodeConfig}
  {ls : List Step} {c c' : Crossing} {a : Step} {s : Side} {b : Connections.Step}

theorem act_eq_some (h : c.act s b = some c') :
    ∃ conns, (c.conns s).step b = some conns ∧
      c' = { c with conns := Function.update c.conns s conns } := by
  obtain ⟨conns, hb, rfl⟩ := Option.map_eq_some_iff.mp h
  exact ⟨conns, hb, rfl⟩

/-- **A step at one end** has to keep what is true there. -/
theorem Inv.act (hi : Inv hello ls c) {handled closed : ConnId → Bool} {conns : Connections}
    (hb : (c.conns s).step b = some conns)
    (hend : EndInv (hello s).mode (hello s.other).id conns handled closed (lastAdd s (ls ++ [a])))
    (hadd : ∀ s', s' ≠ s → ∀ r, a ≠ .add s' r)
    (hclosed : ∀ r, closed r = true → ∃ s', (c.conns s').handler r = .returned) :
    Inv hello (ls ++ [a]) ⟨Function.update c.conns s conns, Function.update c.handled s handled,
      Function.update c.closed s closed⟩ := by
  have hreturned : ∀ r, (∃ s', (c.conns s').handler r = .returned) →
      ∃ s', (Function.update c.conns s conns s').handler r = .returned := by
    rintro r ⟨s', hr⟩
    refine ⟨s', ?_⟩
    rw [Function.update_apply]
    split_ifs with hs
    · exact returned_of_step hb (hs ▸ hr)
    · exact hr
  constructor
  · intro s'
    rcases eq_or_ne s' s with rfl | hs
    · simpa using hend
    · simp only [Function.update_of_ne hs]
      rw [lastAdd_append_of_ne (hadd s' hs)]
      exact hi.ends s'
  · intro s' r hr
    refine hreturned r ?_
    rcases eq_or_ne s' s with rfl | hs
    · exact hclosed r (by simpa using hr)
    · exact hi.closed s' r (by simpa [Function.update_of_ne hs] using hr)

theorem Inv.step (hi : Inv hello ls c)
    (hpassive : ∀ s, ¬ ((hello s).mode = clusterModePASSIVE ∧
      (hello s.other).mode = clusterModePASSIVE)) (h : c.step hello a = some c') :
    Inv hello (ls ++ [a]) c' := by
  cases a with
  | verify s r =>
    rw [Crossing.step] at h
    split_ifs at h with hok
    obtain ⟨conns, hb, rfl⟩ := act_eq_some h
    have hend := (hi.ends s).verify hok.1 hok.2.1 hok.2.2 rfl
      (fun hp ↦ hpassive s ⟨hp.2, hp.1⟩) hb
    rw [← lastAdd_append_of_ne (a := .verify s r) (by rintro _ ⟨⟩)] at hend
    have := hi.act hb hend (by rintro _ _ _ ⟨⟩) (hi.closed s)
    rwa [Function.update_eq_self] at this
  | contains s r =>
    obtain ⟨conns, hb, rfl⟩ := act_eq_some h
    have hend := (hi.ends s).contains hb
    rw [← lastAdd_append_of_ne (a := .contains s r) (by rintro _ ⟨⟩)] at hend
    have := hi.act hb hend (by rintro _ _ _ ⟨⟩) (hi.closed s)
    rwa [Function.update_eq_self, Function.update_eq_self] at this
  | add s r =>
    obtain ⟨conns, hb, rfl⟩ := act_eq_some h
    have hend := (hi.ends s).add hb
    rw [← lastAdd_append_add s ls r] at hend
    have := hi.act hb hend (by rintro _ hs _ ⟨⟩; exact hs rfl) (hi.closed s)
    rwa [Function.update_eq_self, Function.update_eq_self] at this
  | close s r =>
    rw [Crossing.step] at h
    split_ifs at h with hok
    obtain ⟨conns, hb, rfl⟩ := act_eq_some h
    have hend := (hi.ends s).close hb
    rw [← lastAdd_append_of_ne (a := .close s r) (by rintro _ ⟨⟩)] at hend
    have := hi.act hb hend (by rintro _ _ _ ⟨⟩) ?_
    · rwa [Function.update_eq_self] at this
    · intro r' hr'
      rw [Function.update_apply] at hr'
      split_ifs at hr' with hrr
      · subst hrr
        rcases hok.2 with hreturned | hother
        · exact ⟨s, hreturned⟩
        · exact hi.closed s.other r' hother
      · exact hi.closed s r' hr'
  | tearDown s r =>
    rw [Crossing.step] at h
    split_ifs at h with hok
    obtain ⟨conns, hb, rfl⟩ := act_eq_some h
    have hend := (hi.ends s).tearDown hok.1 hok.2.2 hb
    rw [← lastAdd_append_of_ne (a := .tearDown s r) (by rintro _ ⟨⟩)] at hend
    have := hi.act hb hend (by rintro _ _ _ ⟨⟩) (hi.closed s)
    rwa [Function.update_eq_self, Function.update_eq_self] at this

theorem new_inv : Inv hello [] (new hello config) where
  ends s := {
    mode := rfl
    two := by rintro _ ⟨⟩
    idle := fun _ _ ↦ ⟨rfl, rfl⟩
    accepted := by rintro _ ⟨⟩
    named := fun _ h ↦ absurd rfl h
    registered := by rintro _ ⟨⟩
    rejected := by rintro _ ⟨⟩
    down := by rintro _ ⟨⟩
    removed := by rintro _ ⟨⟩
    last := fun _ ↦ rfl }
  closed := by rintro _ _ ⟨⟩

theorem run_inv
    (hpassive : ∀ s, ¬ ((hello s).mode = clusterModePASSIVE ∧
      (hello s.other).mode = clusterModePASSIVE))
    (hr : (system hello config).Run ls c) : Inv hello ls c := by
  refine hr.history_invariant ?_ fun ls c a c' hi hstep ↦ hi.step hpassive hstep
  rintro _ rfl
  exact new_inv

/-! ## When the pair stays connected

Either nothing is rejected, and then nothing is ever closed, or some connection is, and then at most
the other one can survive, if both ends have kept it. -/

/-- As long as nothing is rejected, nothing is closed and nothing is torn down. -/
theorem Inv.registered_eq (hi : Inv hello ls c) (hnone : c.NoneRejected) (s : Side) :
    (c.conns s).registered (hello s.other).id = lastAdd s ls := by
  refine (hi.ends s).last fun r ↦ Bool.eq_false_iff.mpr fun hdown ↦ ?_
  obtain ⟨s', hr⟩ := hi.closed s r ((hi.ends s).down r hdown).1
  exact hnone s' r hr

theorem NoneRejected.of_step (hnone : c'.NoneRejected) (h : c.step hello a = some c') :
    c.NoneRejected := by
  have hact : ∀ {c₀ : Crossing} {s b}, c₀.conns = c.conns → c₀.act s b = some c' →
      c.NoneRejected := by
    intro c₀ s b hc₀ hact s' r hr
    obtain ⟨conns, hb, rfl⟩ := act_eq_some hact
    refine hnone s' r ?_
    simp only [Function.update_apply, hc₀] at hb ⊢
    split_ifs with hs
    · exact returned_of_step hb (hs ▸ hr)
    · exact hr
  cases a with
  | contains s r => exact hact rfl h
  | add s r => exact hact rfl h
  | _ =>
    rw [Crossing.step] at h
    split_ifs at h
    exact hact (by rfl) h

/-- Only the handler that takes the step can return. -/
theorem NoneRejected.update {conns : Connections} {r : ConnId} {handler : Handler}
    (hnone : c.NoneRejected) (hne : handler ≠ .returned)
    (hh : conns.handler = Function.update (c.conns s).handler r handler) :
    ∀ s' r', (Function.update c.conns s conns s').handler r' ≠ .returned := by
  intro s' r'
  rcases eq_or_ne s' s with rfl | hs
  · rw [Function.update_self, hh, Function.update_apply]
    split_ifs
    · exact hne
    · exact hnone s' r'
  · rw [Function.update_of_ne hs]
    exact hnone s' r'

/-- A connection is rejected when its handler looks for the peer and one is registered. -/
theorem Inv.noneRejected_step (hi : Inv hello ls c)
    (hpassive : ∀ s, ¬ ((hello s).mode = clusterModePASSIVE ∧
      (hello s.other).mode = clusterModePASSIVE))
    (hnone : c.NoneRejected) (h : c.step hello a = some c') :
    c'.NoneRejected ↔ ∀ s r, a = .contains s r → lastAdd s ls = none := by
  have hsame : ∀ {s : Side} {conns : Connections}, conns.handler = (c.conns s).handler →
      ∀ s' r', (Function.update c.conns s conns s').handler r' ≠ .returned := by
    intro s conns hh
    refine hnone.update (r := 0) (hnone s 0) ?_
    rw [hh, Function.update_eq_self]
  cases a with
  | verify s r =>
    rw [Crossing.step] at h
    split_ifs at h with hok
    obtain ⟨conns, hb, rfl⟩ := act_eq_some h
    refine iff_of_true ?_ (by rintro _ _ ⟨⟩)
    rw [Connections.step] at hb
    split_ifs at hb with hwaiting hstate
    all_goals obtain rfl := Option.some.inj hb
    · exact hsame rfl
    · refine hnone.update ?_ rfl
      split_ifs with hboth
      · obtain ⟨hm, hm'⟩ := Bool.and_eq_true_iff.mp hboth
        exact absurd ⟨(hi.ends s).mode ▸ of_decide_eq_true hm', of_decide_eq_true hm⟩ (hpassive s)
      · decide
  | contains s r =>
    obtain ⟨conns, hb, rfl⟩ := act_eq_some h
    have hreg := hi.registered_eq hnone s
    rw [Connections.step] at hb
    split_ifs at hb with hchecking hcontains
    all_goals obtain rfl := Option.some.inj hb
    · refine iff_of_false (fun hall ↦ hall s r ?_) fun hlast ↦ ?_
      · simp [Connections.goto]
      · have hid := (hi.ends s).named r (by rw [hchecking]; decide)
        rw [hlast s r rfl] at hreg
        rw [hid] at hcontains
        cases (Option.isSome_iff_ne_none.mp hcontains) hreg
    · refine iff_of_true (hnone.update (by decide) rfl) ?_
      rintro s' r' ⟨⟩
      rw [← hreg, ← (hi.ends s).named r (by rw [hchecking]; decide)]
      exact Option.not_isSome_iff_eq_none.mp hcontains
  | add s r =>
    obtain ⟨conns, hb, rfl⟩ := act_eq_some h
    refine iff_of_true ?_ (by rintro _ _ ⟨⟩)
    rw [Connections.step] at hb
    split_ifs at hb
    obtain rfl := Option.some.inj hb
    exact hnone.update (by decide) rfl
  | close s r =>
    rw [Crossing.step] at h
    split_ifs at h
    obtain ⟨conns, hb, rfl⟩ := act_eq_some h
    obtain rfl := Option.some.inj hb
    exact iff_of_true (hsame rfl) (by rintro _ _ ⟨⟩)
  | tearDown s r =>
    rw [Crossing.step] at h
    split_ifs at h
    obtain ⟨conns, hb, rfl⟩ := act_eq_some h
    obtain rfl := Option.some.inj hb
    exact iff_of_true (hsame rfl) (by rintro _ _ ⟨⟩)

theorem lastAdd_eq_none_iff : lastAdd s ls = none ↔ ∀ r, .add s r ∉ ls := by
  rw [lastAdd, List.getLast?_eq_none_iff, List.filterMap_eq_nil_iff]
  constructor
  · intro h r hr
    simpa using h _ hr
  · intro h b hb
    cases b with
    | add s' r =>
      have hs : s' ≠ s := by
        rintro rfl
        exact h r hb
      simp [hs]
    | _ => rfl

theorem containsFirst_append :
    ContainsFirst (ls ++ [a]) ↔
      ContainsFirst ls ∧ ∀ s r, a = .contains s r → lastAdd s ls = none := by
  simp only [ContainsFirst, List.pairwise_append, List.pairwise_singleton, true_and,
    List.mem_singleton, forall_eq, lastAdd_eq_none_iff]
  refine and_congr_right fun _ ↦ ⟨?_, fun h b hb ↦ ?_⟩
  · rintro h s r rfl r' hr'
    simpa [Step.spoils] using h _ hr'
  · cases b with
    | add s r =>
      cases a with
      | contains s' r' =>
        refine decide_eq_false ?_
        rintro rfl
        exact h s r' rfl r hb
      | _ => rfl
    | _ => rfl

/-- **When a connection is rejected**: when a handler looks for the peer after another one has
registered it. -/
theorem noneRejected_iff
    (hpassive : ∀ s, ¬ ((hello s).mode = clusterModePASSIVE ∧
      (hello s.other).mode = clusterModePASSIVE))
    (hr : (system hello config).Run ls c) : c.NoneRejected ↔ ContainsFirst ls := by
  induction hr with
  | start h =>
    obtain rfl : _ = new hello config := h
    exact iff_of_true (fun _ _ ↦ by rintro ⟨⟩) .nil
  | snoc hr h ih =>
    have hi := run_inv hpassive hr
    rw [containsFirst_append, ← ih]
    constructor
    · intro hnone'
      have hnone := hnone'.of_step h
      exact ⟨hnone, (hi.noneRejected_step hpassive hnone h).mp hnone'⟩
    · rintro ⟨hnone, hlast⟩
      exact (hi.noneRejected_step hpassive hnone h).mpr hlast

/-- **When crossing connections leave the pair connected**: two nodes, not both passive, that have
dialled each other end up with each other registered by one connection that is open at both ends if
and only if at each end both handlers look for the peer before either of them registers it, and
the connection that is registered last is the same at both ends. -/
theorem crossing_connected_iff
    (hpassive : ∀ s, ¬ ((hello s).mode = clusterModePASSIVE ∧
      (hello s.other).mode = clusterModePASSIVE))
    (hr : (system hello config).Run ls c) (hfinal : c.Final) :
    c.Connected hello ↔ ContainsFirst ls ∧ ∃ r, ∀ s, lastAdd s ls = some r := by
  have hi := run_inv hpassive hr
  rw [← noneRejected_iff hpassive hr]
  constructor
  · rintro ⟨r, hr⟩
    -- a connection that is rejected is torn down in the end, and then nothing is registered
    have hnone : c.NoneRejected := by
      intro s r' hr'
      have hlt := (hi.ends s).lt_two (.inl (by rw [hr']; decide))
      obtain ⟨-, hclosed, hdown⟩ := hfinal s r' hlt
      have hdown := hdown (hclosed (.inl hr'))
      cases ((hi.ends s).removed r' hr' hdown).symm.trans (hr s).1
    exact ⟨hnone, r, fun s ↦ hi.registered_eq hnone s ▸ (hr s).1⟩
  · rintro ⟨hnone, r, hr⟩
    refine ⟨r, fun s ↦ ⟨(hi.registered_eq hnone s).trans (hr s), ?_⟩⟩
    refine Bool.eq_false_iff.mpr fun hc ↦ ?_
    obtain ⟨s', hr'⟩ := hi.closed s r hc
    exact hnone s' r hr'

/-- Both connections are registered at both ends, the second one last: nothing is rejected. -/
theorem crossing_connected_second : ∃ hello config ls c,
    (∀ s, ¬ ((hello s).mode = clusterModePASSIVE ∧ (hello s.other).mode = clusterModePASSIVE)) ∧
    (system hello config).Run ls c ∧ c.Final ∧ c.Connected hello := by
  let hello : Side → VerifyMessage
    | .a => ⟨[97], [49], clusterModeACTIVE⟩
    | .b => ⟨[98], [50], clusterModeACTIVE⟩
  let config : Side → ConnId → RemoteNodeConfig := fun _ _ ↦ ⟨[], [], [], false⟩
  let ls : List Step := [.verify .a 0, .verify .a 1, .contains .a 0, .contains .a 1, .add .a 0,
    .add .a 1, .verify .b 0, .verify .b 1, .contains .b 1, .contains .b 0, .add .b 0, .add .b 1]
  have hpassive : ∀ s, ¬ ((hello s).mode = clusterModePASSIVE ∧
      (hello s.other).mode = clusterModePASSIVE) := by decide
  obtain ⟨c, hr, hfinal⟩ := TransitionSystem.exists_run_from (S := system hello config)
    (f := Crossing.step hello) (l := ls)
    (p := fun c ↦ decide c.Final) (fun _ _ _ ↦ id) rfl
    (by decide +kernel)
  have hfinal := of_decide_eq_true hfinal
  refine ⟨hello, config, ls, c, hpassive, hr, hfinal, ?_⟩
  exact (crossing_connected_iff hpassive hr hfinal).mpr
    ⟨by decide, 1, by decide⟩

/-- Each node accepts the connection that the other one rejects: in the end both are torn down, and
neither node has the other one registered. -/
theorem crossing_disconnected : ∃ hello config ls c,
    (∀ s, ¬ ((hello s).mode = clusterModePASSIVE ∧ (hello s.other).mode = clusterModePASSIVE)) ∧
    (system hello config).Run ls c ∧ c.Final ∧ ¬ c.Connected hello ∧
    ∀ s, (c.conns s).registered (hello s.other).id = none := by
  let hello : Side → VerifyMessage
    | .a => ⟨[97], [49], clusterModeACTIVE⟩
    | .b => ⟨[98], [50], clusterModeACTIVE⟩
  let config : Side → ConnId → RemoteNodeConfig := fun _ _ ↦ ⟨[], [], [], false⟩
  let ls : List Step := [.verify .a 0, .contains .a 0, .add .a 0, .verify .b 1, .contains .b 1,
    .add .b 1, .verify .a 1, .contains .a 1, .verify .b 0, .contains .b 0, .close .a 1,
    .close .b 0, .close .a 0, .close .b 1, .tearDown .a 0, .tearDown .a 1, .tearDown .b 0,
    .tearDown .b 1]
  obtain ⟨c, hr, hc⟩ := TransitionSystem.exists_run_from (S := system hello config)
    (f := Crossing.step hello) (l := ls)
    (p := fun c ↦ decide (c.Final ∧ ∀ s, (c.conns s).registered (hello s.other).id = none))
    (fun _ _ _ ↦ id) rfl (by decide +kernel)
  obtain ⟨hfinal, hnone⟩ := of_decide_eq_true hc
  refine ⟨hello, config, ls, c, by decide, hr, hfinal, ?_, hnone⟩
  rintro ⟨r, hr⟩
  cases (hnone .a).symm.trans (hr .a).1

end

end Crossing
end ClusteredBigCache
