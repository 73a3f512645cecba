import ClusteredBigCache.Cluster.Node
import ClusteredBigCache.Lib.TransitionSystem

/-!
# Who is registered

The handlers of the connections of a node run concurrently.  `handleVerify` is cut where another
connection can come in between: it labels the connection and compares modes, looks whether the `Id`
is registered, and registers it, in three steps.  `handleVerify_steps` says that the three steps in
a row are `handleVerify`.  A connection can be torn down at any time, its own handler's progress
notwithstanding, as `ShutDown` does.

The registry is keyed by `Id` alone, and a connection has the `Id` of its peer before it is
accepted.  So what `tearDown` removes, and what `Add` overwrites, may be the registration of another
connection; and a second `VERIFY` on a connection gives it another name.  `Careful` excludes
exactly these steps: `verified_registered_iff` says that every accepted connection stays registered
all along a run if and only if every step of the run is careful.  In `rejected_takes_registration`
a duplicate connection is rejected, and its `tearDown` takes the first one out of the registry.

What is left in the registry is the other question.  `no_dead_node_iff` says that every binding
leads to a connection of that name which is not torn down, all along a run, if and only if the steps
are `Orderly`: no registered connection gets another name, and none is registered after its
`tearDown`.  In `renamed_stays_registered` a second `VERIFY` is enough for a binding that is never
removed.
-/

set_option autoImplicit false

namespace ClusteredBigCache

/-- Where the message handler of a connection is. -/
inductive Handler
  /-- Waiting for a message. -/
  | waiting
  /-- In `handleVerify`, before `Contains`. -/
  | checking
  /-- In `handleVerify`, before `Add`. -/
  | adding
  /-- `handleVerify` returned false, and the handler has returned. -/
  | returned
  deriving DecidableEq, Repr

/-- A node with the handlers of its connections. -/
structure Connections where
  node : Node
  handler : ConnId → Handler
  /-- `handleVerify` has returned true. -/
  accepted : ConnId → Bool
  /-- `tearDown` has been called. -/
  down : ConnId → Bool

namespace Connections

/-- What can happen on a connection. -/
inductive Step
  /-- The handler takes a `VERIFY` message, which it ignores when the connection is down. -/
  | verify (r : ConnId) (msg : VerifyMessage)
  /-- `Contains` of `eventVerifyRemoteNode`. -/
  | contains (r : ConnId)
  /-- `Add` of `eventVerifyRemoteNode`, and the rest of `handleVerify`. -/
  | add (r : ConnId)
  /-- `tearDown`. -/
  | tearDown (r : ConnId)
  /-- One of the goroutines of the connection has ended. -/
  | disconnect (r : ConnId)

/-- The handler of a connection moves on. -/
def goto (c : Connections) (r : ConnId) (handler : Handler) : Connections :=
  { c with handler := Function.update c.handler r handler }

def step (c : Connections) : Step → Option Connections
  | .verify r msg =>
    if c.handler r = .waiting then
      if (c.node.heap r).state = .disconnected then some c
      else
        let c := { c with node := c.node.modify r (·.label msg) }
        some (c.goto r (if c.node.bothPassive msg then .returned else .checking))
    else none
  | .contains r =>
    if c.handler r = .checking then
      some (c.goto r (if c.node.remoteNodes.contains (c.node.idOf r) then .returned else .adding))
    else none
  | .add r =>
    if c.handler r = .adding then
      some ({ c with
        node := (c.node.addRemoteNode r).modify r fun rn ↦ rn.welcome rn.mode
        accepted := Function.update c.accepted r true }.goto r .waiting)
    else none
  | .tearDown r =>
    some { c with node := c.node.tearDown r, down := Function.update c.down r true }
  | .disconnect r => some { c with node := c.node.modify r (·.setState .disconnected) }

/-- A node whose connections have just been started. -/
def new (id servicePort : Bytes) (mode : UInt8) (config : ConnId → RemoteNodeConfig) :
    Connections where
  node := .new id servicePort mode config
  handler _ := .waiting
  accepted _ := false
  down _ := false

/-- The connections of a node, under any interleaving. -/
def system (id servicePort : Bytes) (mode : UInt8) (config : ConnId → RemoteNodeConfig) :
    TransitionSystem Connections Step :=
  .ofStep (· = new id servicePort mode config) step

section

variable {c : Connections} {r : ConnId}

theorem step_verify_eq (msg : VerifyMessage) (hwaiting : c.handler r = .waiting)
    (hstate : (c.node.heap r).state ≠ .disconnected) :
    c.step (.verify r msg) = some ({ c with node := c.node.modify r (·.label msg) }.goto r
      (if (c.node.modify r (·.label msg)).bothPassive msg then .returned else .checking)) := by
  simp only [step, if_pos hwaiting, if_neg hstate]

theorem step_contains_eq : (c.goto r .checking).step (.contains r) = some (c.goto r
    (if c.node.remoteNodes.contains (c.node.idOf r) then .returned else .adding)) := by
  simp only [step, goto, Function.update_self, if_true, Function.update_idem]
  rfl

theorem step_add_eq : (c.goto r .adding).step (.add r) = some ({ c with
    node := (c.node.addRemoteNode r).modify r fun rn ↦ rn.welcome rn.mode
    accepted := Function.update c.accepted r true }.goto r .waiting) := by
  simp only [step, goto, Function.update_self, if_true, Function.update_idem]

/-- **The three steps in a row are `handleVerify`.** -/
theorem handleVerify_steps {msg : VerifyMessage} {node : Node} {ok : Bool}
    (hwaiting : c.handler r = .waiting) (hstate : (c.node.heap r).state ≠ .disconnected)
    (h : c.node.handleVerify r msg = (node, ok)) :
    ∃ ls : List Step, ls.foldlM step c = some ({ c with
      node := node
      accepted := if ok then Function.update c.accepted r true else c.accepted }.goto r
        (if ok then .waiting else .returned)) := by
  have hverify := step_verify_eq msg hwaiting hstate
  rw [Node.handleVerify, Node.eventVerifyRemoteNode] at h
  generalize hlabel : c.node.modify r (·.label msg) = labelled at h hverify
  by_cases hpassive : labelled.bothPassive msg
  · rw [if_pos hpassive] at h hverify
    obtain ⟨rfl, rfl⟩ := Prod.mk.inj h
    exact ⟨[.verify r msg], by simp [hverify]⟩
  · rw [if_neg hpassive] at h hverify
    by_cases hcontains : labelled.remoteNodes.contains (labelled.idOf r)
    · rw [if_pos hcontains] at h
      obtain ⟨rfl, rfl⟩ := Prod.mk.inj h
      exact ⟨[.verify r msg, .contains r], by simp [hverify, step_contains_eq, hcontains]⟩
    · rw [if_neg hcontains] at h
      obtain ⟨rfl, rfl⟩ := Prod.mk.inj h
      refine ⟨[.verify r msg, .contains r, .add r], ?_⟩
      -- the mode that `handleVerify` looks at is the one the connection was labelled with
      have hmode : (labelled.heap r).mode = msg.mode := by
        rw [← hlabel, Node.modify_heap_self, RemoteNode.label]
      have hwelcome : (labelled.addRemoteNode r).modify r (fun rn ↦ rn.welcome rn.mode) =
          (labelled.addRemoteNode r).modify r (·.welcome msg.mode) := by
        rw [← hmode]
        rfl
      simp [hverify, step_contains_eq, hcontains, step_add_eq, hwelcome]

end

/-! ## Registrations

An `Add` and a `tearDown` go by the `Id` of their connection, and take the registration under it
whoever has it.  `Spares` says that it is not that of another connection that is live. -/

/-- Accepted, and not torn down. -/
def Live (c : Connections) (r : ConnId) : Prop := c.accepted r = true ∧ c.down r = false

instance (c : Connections) (r : ConnId) : Decidable (c.Live r) :=
  inferInstanceAs (Decidable (_ ∧ _))

/-- The connection that is registered under an `Id`. -/
def registered (c : Connections) (id : Bytes) : Option ConnId := c.node.remoteNodes.get id

/-- Every live connection is registered under its `Id`. -/
def AllRegistered (c : Connections) : Prop :=
  ∀ r, c.Live r → c.registered (c.node.idOf r) = some r

/-- The registration under the `Id` of a connection is not that of another one that is live. -/
def Spares (c : Connections) (r : ConnId) : Prop :=
  ∀ r' ∈ c.registered (c.node.idOf r), r' = r ∨ ¬ c.Live r'

instance (c : Connections) (r : ConnId) : Decidable (c.Spares r) :=
  inferInstanceAs (Decidable (∀ _ ∈ _, _))

/-- A step that takes no registration away: `Add` and `tearDown` leave those of other connections
alone, and a further message does not give a live connection another name. -/
def Careful (c : Connections) : Step → Prop
  | .verify r msg => (c.node.heap r).state ≠ .disconnected → c.Live r → msg.id = c.node.idOf r
  | .contains _ => True
  | .add r => c.Spares r
  | .tearDown r => c.Spares r
  | .disconnect _ => True

instance (c : Connections) (step : Step) : Decidable (c.Careful step) :=
  match step with
  | .verify _ _ => inferInstanceAs (Decidable (_ → _ → _))
  | .contains _ => inferInstanceAs (Decidable True)
  | .add r => inferInstanceAs (Decidable (c.Spares r))
  | .tearDown r => inferInstanceAs (Decidable (c.Spares r))
  | .disconnect _ => inferInstanceAs (Decidable True)

/-- What a step does to the registrations, the names and the lives of the connections. -/
inductive Outcome (c c' : Connections) : Step → Prop
  | unchanged {a : Step} (hreg : c'.registered = c.registered) (hid : c'.node.idOf = c.node.idOf)
      (hacc : c'.accepted = c.accepted) (hdown : c'.down = c.down)
      (hcareful : c.Careful a) : Outcome c c' a
  | labelled {r : ConnId} {msg : VerifyMessage} (hstate : (c.node.heap r).state ≠ .disconnected)
      (hreg : c'.registered = c.registered)
      (hid : c'.node.idOf = Function.update c.node.idOf r msg.id)
      (hacc : c'.accepted = c.accepted) (hdown : c'.down = c.down) : Outcome c c' (.verify r msg)
  | added {r : ConnId}
      (hreg : c'.registered = Function.update c.registered (c.node.idOf r) (some r))
      (hid : c'.node.idOf = c.node.idOf) (hacc : c'.accepted = Function.update c.accepted r true)
      (hdown : c'.down = c.down) : Outcome c c' (.add r)
  | tornDown {r : ConnId}
      (hreg : c'.registered = Function.update c.registered (c.node.idOf r) none)
      (hid : c'.node.idOf = c.node.idOf) (hacc : c'.accepted = c.accepted)
      (hdown : c'.down = Function.update c.down r true) : Outcome c c' (.tearDown r)

variable {c c' : Connections} {a : Step}

/-- **What each step does.** -/
theorem step_outcome (h : c.step a = some c') : c.Outcome c' a := by
  cases a with
  | verify r msg =>
    simp only [step] at h
    split_ifs at h with hwaiting hstate
    · obtain rfl := Option.some.inj h
      exact .unchanged rfl rfl rfl rfl fun hne ↦ absurd hstate hne
    all_goals
      obtain rfl := Option.some.inj h
      exact .labelled hstate rfl (Node.idOf_modify c.node r (·.label msg)) rfl rfl
  | contains r =>
    simp only [step] at h
    split_ifs at h
    all_goals
      obtain rfl := Option.some.inj h
      exact .unchanged rfl rfl rfl rfl trivial
  | add r =>
    simp only [step] at h
    split_ifs at h
    obtain rfl := Option.some.inj h
    refine .added ?_ (Node.idOf_modify_of_eq (c.node.addRemoteNode r) r
      (f := fun rn ↦ rn.welcome rn.mode) (RemoteNode.id_welcome _ _)) rfl rfl
    funext id
    rw [Function.update_apply]
    exact SliceList.get_add _ _ _ _
  | tearDown r =>
    obtain rfl := Option.some.inj h
    refine .tornDown ?_ (Node.idOf_tearDown _ _) rfl rfl
    funext id
    rw [Function.update_apply, registered, Node.tearDown_remoteNodes]
    exact SliceList.get_remove _ _ _
  | disconnect r =>
    obtain rfl := Option.some.inj h
    exact .unchanged rfl
      (Node.idOf_modify_of_eq c.node r (f := (·.setState .disconnected)) rfl) rfl rfl trivial

/-- The live connections are registered, and those that are registered and not torn down are live
and have that `Id`. -/
structure Inv (c : Connections) : Prop where
  all : c.AllRegistered
  named : ∀ id r, c.registered id = some r → c.down r = false → c.Live r ∧ c.node.idOf r = id

/-- A connection whose registration is spared has another name. -/
theorem Spares.ne_of_live {r r' : ConnId} (hok : c.Spares r) (hall : c.AllRegistered)
    (hlive : c.Live r') (hne : r' ≠ r) : c.node.idOf r' ≠ c.node.idOf r := by
  intro hid
  rcases hok r' (hid ▸ hall r' hlive) with heq | hnot
  · exact hne heq
  · exact hnot hlive

/-- A connection that is live keeps its name. -/
theorem Inv.labelled {r : ConnId} {msg : VerifyMessage} (hi : c.Inv)
    (hok : c.Live r → msg.id = c.node.idOf r) (hreg : c'.registered = c.registered)
    (hid : c'.node.idOf = Function.update c.node.idOf r msg.id) (hacc : c'.accepted = c.accepted)
    (hdown : c'.down = c.down) : c'.Inv := by
  have hname : ∀ r', c.Live r' → c'.node.idOf r' = c.node.idOf r' := by
    intro r' hlive
    rw [hid, Function.update_apply]
    split_ifs with h
    · rw [h]
      exact hok (h ▸ hlive)
    · rfl
  constructor
  · intro r' hr'
    have hlive : c.Live r' := by rwa [Live, hacc, hdown] at hr'
    rw [hreg, hname r' hlive]
    exact hi.all r' hlive
  · intro id r' hr' hd
    rw [hreg] at hr'
    rw [hdown] at hd
    obtain ⟨hlive, hid'⟩ := hi.named id r' hr' hd
    exact ⟨by rwa [Live, hacc, hdown], by rw [hname r' hlive, hid']⟩

/-- A connection is registered, and no other live one was under its name. -/
theorem Inv.added {r : ConnId} (hi : c.Inv) (hok : c.Spares r)
    (hreg : c'.registered = Function.update c.registered (c.node.idOf r) (some r))
    (hid : c'.node.idOf = c.node.idOf) (hacc : c'.accepted = Function.update c.accepted r true)
    (hdown : c'.down = c.down) : c'.Inv := by
  constructor
  · intro r' hr'
    rw [hreg, hid, Function.update_apply]
    by_cases hne : r' = r
    · rw [hne, if_pos rfl]
    · have hlive : c.Live r' := by rwa [Live, hacc, hdown, Function.update_of_ne hne] at hr'
      rw [if_neg (hok.ne_of_live hi.all hlive hne)]
      exact hi.all r' hlive
  · intro id r' hr' hd
    rw [hreg, Function.update_apply] at hr'
    rw [hdown] at hd
    split_ifs at hr' with h
    · obtain rfl := Option.some.inj hr'
      exact ⟨⟨by rw [hacc, Function.update_self], by rwa [hdown]⟩, by rw [hid, h]⟩
    · obtain ⟨hlive, hname⟩ := hi.named id r' hr' hd
      refine ⟨⟨?_, by rwa [hdown]⟩, by rw [hid, hname]⟩
      rw [hacc, Function.update_apply, hlive.1, ite_self]

/-- A connection is torn down, and no other live one is registered under its name. -/
theorem Inv.tornDown {r : ConnId} (hi : c.Inv) (hok : c.Spares r)
    (hreg : c'.registered = Function.update c.registered (c.node.idOf r) none)
    (hid : c'.node.idOf = c.node.idOf) (hacc : c'.accepted = c.accepted)
    (hdown : c'.down = Function.update c.down r true) : c'.Inv := by
  have hother : ∀ r', c'.down r' = false → r' ≠ r ∧ c.down r' = false := by
    intro r' hd
    rw [hdown, Function.update_apply] at hd
    split_ifs at hd with h
    exact ⟨h, hd⟩
  constructor
  · intro r' hr'
    obtain ⟨hne, hd⟩ := hother r' hr'.2
    have hlive : c.Live r' := ⟨hacc ▸ hr'.1, hd⟩
    rw [hreg, hid, Function.update_of_ne (hok.ne_of_live hi.all hlive hne)]
    exact hi.all r' hlive
  · intro id r' hr' hd
    rw [hreg, Function.update_apply] at hr'
    split_ifs at hr'
    obtain ⟨hlive, hname⟩ := hi.named id r' hr' (hother r' hd).2
    exact ⟨⟨hacc ▸ hlive.1, hd⟩, by rw [hid, hname]⟩

/-- **A careful step keeps the registrations.** -/
theorem Inv.step (hi : c.Inv) (ho : c.Outcome c' a) (hok : c.Careful a) : c'.Inv := by
  cases ho with
  | unchanged hreg hid hacc hdown =>
    have hall := hi.all
    have hnamed := hi.named
    constructor
    · simpa only [AllRegistered, Live, hreg, hid, hacc, hdown] using hall
    · simpa only [Live, hreg, hid, hacc, hdown] using hnamed
  | labelled hstate hreg hid hacc hdown => exact hi.labelled (hok hstate) hreg hid hacc hdown
  | added hreg hid hacc hdown => exact hi.added hok hreg hid hacc hdown
  | tornDown hreg hid hacc hdown => exact hi.tornDown hok hreg hid hacc hdown

/-- **A step that is not careful takes a registration away.** -/
theorem Inv.careful_of_step (hi : c.Inv) (ho : c.Outcome c' a) (hall : c'.AllRegistered) :
    c.Careful a := by
  cases ho with
  | unchanged hreg hid hacc hdown hcareful => exact hcareful
  | @labelled r msg hstate hreg hid hacc hdown =>
    intro _ hlive
    have hr := hall r (by rwa [Live, hacc, hdown])
    rw [hid, hreg, Function.update_self] at hr
    exact ((hi.named msg.id r hr hlive.2).2).symm
  | @added r hreg hid hacc hdown =>
    refine fun r' hr' ↦ or_iff_not_imp_left.mpr fun hne hlive ↦ hne ?_
    have hr := hall r' ⟨by rw [hacc, Function.update_of_ne hne, hlive.1], hdown ▸ hlive.2⟩
    rw [hreg, hid, (hi.named _ r' hr' hlive.2).2, Function.update_self] at hr
    exact (Option.some.inj hr).symm
  | @tornDown r hreg hid hacc hdown =>
    refine fun r' hr' ↦ or_iff_not_imp_left.mpr fun hne hlive ↦ ?_
    have hr := hall r' ⟨hacc ▸ hlive.1, by rw [hdown, Function.update_of_ne hne, hlive.2]⟩
    rw [hreg, hid, (hi.named _ r' hr' hlive.2).2, Function.update_self] at hr
    cases hr

theorem inv_new (id servicePort : Bytes) (mode : UInt8) (config : ConnId → RemoteNodeConfig) :
    (new id servicePort mode config).Inv where
  all r hr := by cases hr.1
  named id r hr _ := by cases hr

/-- **An accepted connection stays registered** under its `Id` until it is torn down, all along a
run, if and only if every step of the run is careful. -/
theorem verified_registered_iff {id servicePort : Bytes} {mode : UInt8}
    {config : ConnId → RemoteNodeConfig} {ls : List Step}
    (hr : (system id servicePort mode config).Run ls c) :
    (∀ pre c', pre <+: ls → (system id servicePort mode config).Run pre c' →
      c'.AllRegistered) ↔ ((system id servicePort mode config).restrict Careful).Run ls c := by
  refine hr.always_iff_restrict TransitionSystem.run_ofStep_unique ?_ (fun _ ↦ Inv.all) ?_ ?_
  · rintro _ rfl
    exact inv_new id servicePort mode config
  · exact fun _ _ _ hi hstep hok ↦ hi.step (step_outcome hstep) hok
  · exact fun _ _ _ hi hstep hall ↦ hi.careful_of_step (step_outcome hstep) hall

/-- A duplicate is rejected, and torn down after the connection it is a duplicate of; meanwhile
another peer is accepted. -/
theorem verified_registered_duplicate :
    ∃ c, (system [1] [80] clusterModeACTIVE fun _ ↦ ⟨[], [], [], false⟩).Run
        [.verify 0 ⟨[7], [80], clusterModeACTIVE⟩, .contains 0, .add 0,
          .verify 1 ⟨[7], [80], clusterModeACTIVE⟩, .contains 1,
          .verify 2 ⟨[8], [80], clusterModePASSIVE⟩, .contains 2, .tearDown 0, .add 2,
          .disconnect 1, .tearDown 1] c ∧
      (c.Live 2 ∧ c.handler 1 = .returned) ∧ c.registered (c.node.idOf 2) = some 2 := by
  refine Exists.imp (fun c hc ↦ ⟨hc.1.of_restrict, of_decide_eq_true hc.2, ?_⟩)
    (TransitionSystem.exists_run_from
      (S := (system [1] [80] clusterModeACTIVE fun _ ↦ ⟨[], [], [], false⟩).restrict Careful)
      (fun _ _ _ ↦ TransitionSystem.step_of_guarded _ _ _) rfl (by decide +kernel))
  exact (verified_registered_iff hc.1.of_restrict).mpr hc.1 _ c (List.prefix_refl _)
    hc.1.of_restrict 2 (of_decide_eq_true hc.2).1

/-- **The `tearDown` of a rejected connection takes the registration of another one**: a second
connection from a peer is rejected, as it should be, and then the first one, which is up, is not
registered any more. -/
theorem rejected_takes_registration :
    ∃ c, (system [1] [80] clusterModeACTIVE fun _ ↦ ⟨[], [], [], false⟩).Run
        [.verify 0 ⟨[7], [80], clusterModeACTIVE⟩, .contains 0, .add 0,
          .verify 1 ⟨[7], [80], clusterModeACTIVE⟩, .contains 1, .disconnect 1, .tearDown 1] c ∧
      c.handler 1 = .returned ∧ c.Live 0 ∧ (c.node.heap 0).state = .connected ∧
        c.registered (c.node.idOf 0) = none :=
  Exists.imp (fun _ hc ↦ ⟨hc.1, of_decide_eq_true hc.2⟩)
    (TransitionSystem.exists_run_from (S := system [1] [80] clusterModeACTIVE _)
      (fun _ _ _ ↦ id) rfl (by decide +kernel))

/-! ## Bindings -/

/-- Every binding of the registry leads to a connection that has that `Id` and has not been torn
down. -/
def NoDeadNode (c : Connections) : Prop :=
  ∀ id r, c.registered id = some r → c.node.idOf r = id ∧ c.down r = false

/-- A step that leaves no binding behind: a further message does not give a registered connection
another name, and `Add` comes before the `tearDown` of the connection. -/
def Orderly (c : Connections) : Step → Prop
  | .verify r msg =>
    (c.node.heap r).state ≠ .disconnected → c.registered (c.node.idOf r) = some r →
      msg.id = c.node.idOf r
  | .contains _ => True
  | .add r => c.down r = false
  | .tearDown _ => True
  | .disconnect _ => True

instance (c : Connections) (step : Step) : Decidable (c.Orderly step) :=
  match step with
  | .verify _ _ => inferInstanceAs (Decidable (_ → _ → _))
  | .contains _ => inferInstanceAs (Decidable True)
  | .add _ => inferInstanceAs (Decidable (_ = _))
  | .tearDown _ => inferInstanceAs (Decidable True)
  | .disconnect _ => inferInstanceAs (Decidable True)

theorem idOf_of_step_verify {r : ConnId} {msg : VerifyMessage}
    (h : c.step (.verify r msg) = some c') (hstate : (c.node.heap r).state ≠ .disconnected) :
    c'.node.idOf r = msg.id := by
  simp only [step, if_neg hstate] at h
  split_ifs at h
  all_goals
    obtain rfl := Option.some.inj h
    exact congrFun (Node.idOf_modify c.node r (·.label msg)) r |>.trans (Function.update_self ..)

/-- **An orderly step leaves no binding behind.**  For `tearDown` there is nothing to ask: whatever
is bound to the connection is bound under its `Id`, which is what `tearDown` removes. -/
theorem NoDeadNode.step (hp : c.NoDeadNode) (h : c.step a = some c') (hok : c.Orderly a) :
    c'.NoDeadNode := by
  intro id r' hr'
  cases step_outcome h with
  | unchanged hreg hid hacc hdown =>
    rw [hid, hdown]
    exact hp id r' (hreg ▸ hr')
  | @labelled r msg hstate hreg hid hacc hdown =>
    obtain ⟨hname, hd⟩ := hp id r' (hreg ▸ hr')
    refine ⟨?_, hdown ▸ hd⟩
    rw [hid, Function.update_apply]
    split_ifs with heq
    · subst heq hname
      exact hok hstate (hreg ▸ hr')
    · exact hname
  | @added r hreg hid hacc hdown =>
    rw [hreg, Function.update_apply] at hr'
    rw [hid, hdown]
    split_ifs at hr' with heq
    · obtain rfl := Option.some.inj hr'
      exact ⟨heq.symm, hok⟩
    · exact hp id r' hr'
  | @tornDown r hreg hid hacc hdown =>
    rw [hreg, Function.update_apply] at hr'
    split_ifs at hr' with heq
    obtain ⟨hname, hd⟩ := hp id r' hr'
    have hne : r' ≠ r := by
      rintro rfl
      exact heq hname.symm
    rw [hid, hdown, Function.update_of_ne hne]
    exact ⟨hname, hd⟩

/-- **A step that is not orderly leaves a binding behind.** -/
theorem NoDeadNode.orderly_of_step (h : c.step a = some c') (hp : c'.NoDeadNode) : c.Orderly a := by
  cases a with
  | verify r msg =>
    intro hstate hreg
    have hreg' : c'.registered = c.registered := by cases step_outcome h <;> assumption
    rw [← idOf_of_step_verify h hstate]
    exact (hp _ r (hreg' ▸ hreg)).1
  | contains r => trivial
  | add r =>
    simp only [Connections.step] at h
    split_ifs at h
    obtain rfl := Option.some.inj h
    exact (hp (c.node.idOf r) r ((SliceList.get_add _ _ _ _).trans (if_pos rfl))).2
  | tearDown r => trivial
  | disconnect r => trivial

/-- **No dead node stays registered** all along a run, if and only if every step of the run is
orderly. -/
theorem no_dead_node_iff {id servicePort : Bytes} {mode : UInt8}
    {config : ConnId → RemoteNodeConfig} {ls : List Step}
    (hr : (system id servicePort mode config).Run ls c) :
    (∀ pre c', pre <+: ls → (system id servicePort mode config).Run pre c' →
      c'.NoDeadNode) ↔ ((system id servicePort mode config).restrict Orderly).Run ls c := by
  refine hr.always_iff_restrict TransitionSystem.run_ofStep_unique ?_ (fun _ hp ↦ hp) ?_ ?_
  · rintro _ rfl id r hr
    cases hr
  · exact fun _ _ _ hp hstep hok ↦ hp.step hstep hok
  · exact fun _ _ _ _ hstep hp ↦ hp.orderly_of_step hstep

/-- A second `VERIFY` with the same `Id` is rejected; another peer is accepted, and the first
connection is torn down. -/
theorem no_dead_node_repeated :
    ∃ c, (system [1] [80] clusterModeACTIVE fun _ ↦ ⟨[], [], [], false⟩).Run
        [.verify 0 ⟨[7], [80], clusterModeACTIVE⟩, .contains 0, .add 0,
          .verify 0 ⟨[7], [80], clusterModeACTIVE⟩, .verify 1 ⟨[8], [80], clusterModeACTIVE⟩,
          .contains 0, .contains 1, .add 1, .disconnect 0, .tearDown 0] c ∧
      (c.handler 0 = .returned ∧ c.registered [7] = none ∧ c.registered [8] = some 1) ∧
        c.NoDeadNode := by
  refine Exists.imp (fun c hc ↦ ⟨hc.1.of_restrict, of_decide_eq_true hc.2, ?_⟩)
    (TransitionSystem.exists_run_from
      (S := (system [1] [80] clusterModeACTIVE fun _ ↦ ⟨[], [], [], false⟩).restrict Orderly)
      (fun _ _ _ ↦ TransitionSystem.step_of_guarded _ _ _) rfl (by decide +kernel))
  exact (no_dead_node_iff hc.1.of_restrict).mpr hc.1 _ c (List.prefix_refl _) hc.1.of_restrict

/-- **A second `VERIFY` with another `Id`** registers the connection under both, and its `tearDown`
removes the second one only. -/
theorem renamed_stays_registered :
    ∃ c, (system [1] [80] clusterModeACTIVE fun _ ↦ ⟨[], [], [], false⟩).Run
        [.verify 0 ⟨[7], [80], clusterModeACTIVE⟩, .contains 0, .add 0,
          .verify 0 ⟨[8], [80], clusterModeACTIVE⟩, .contains 0, .add 0, .disconnect 0,
          .tearDown 0] c ∧
      c.registered [7] = some 0 ∧ c.node.idOf 0 = [8] ∧ c.down 0 = true :=
  Exists.imp (fun _ hc ↦ ⟨hc.1, of_decide_eq_true hc.2⟩)
    (TransitionSystem.exists_run_from (S := system [1] [80] clusterModeACTIVE _)
      (fun _ _ _ ↦ id) rfl (by decide +kernel))

end Connections
end ClusteredBigCache
