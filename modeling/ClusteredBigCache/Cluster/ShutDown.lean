import ClusteredBigCache.Cluster.Stoppable
import ClusteredBigCache.Lib.Custody

/-!
# Shutting a node down

`ShutDown` sets the state of the node, tears down every remote node that is registered, and closes
the three channels.  It waits for nobody.  A call of `Put`, `Get` or `Delete` that has looked at the
state may still have to send on a channel; the goroutines of `requestSenderForGET` and the handler
of a `GETRsp` use the `pendingGet` of a connection, which `tearDown` sets to `nil` while the
connection stays up; the handler of a `SyncRsp` sends on the `joinQueue`, and so does the `tearDown`
of a connection that was not registered.

The channels and the `pendingGet`s are resources in the sense of `Custody`: `step_outcome` says what
each step does to what is needed and what is gone, and a crash is the use of something that is gone
(`forall_crash_eq_none_iff`).  `shutDown_safe_iff` says that no step can crash the node, all along a
run, if and only if nobody takes away what is needed, or comes to need what is gone.  In
`put_on_closed_channel` a `Put` looks at the state just before `ShutDown` is called.
-/

set_option autoImplicit false

namespace ClusteredBigCache
namespace Stoppable

section

variable {json : EncodingJson} {c c' : Stoppable} {a : Step} {x : Resource} {i : ℕ} {r : ConnId}
  {w : Fin 5}

theorem gone_congr (hjoin : c'.joinQueueClosed = c.joinQueueClosed)
    (hget : c'.getRequestChanClosed = c.getRequestChanClosed)
    (hrepl : c'.replicationChanClosed = c.replicationChanClosed)
    (hpending : ∀ r, c'.pendingGet r = none ↔ c.pendingGet r = none) (x : Resource) :
    c'.Gone x ↔ c.Gone x := by
  cases x with
  | joinQueue => rw [Gone, Gone, hjoin]
  | getRequestChan => rw [Gone, Gone, hget]
  | replicationChan => rw [Gone, Gone, hrepl]
  | pendingGet r => exact hpending r

/-- A method of a `pendingGet` leaves it in place. -/
theorem setPendingGet_eq_none_iff {pending : Finset Bytes} (h : c.pendingGet r = some pending)
    (pending' : Finset Bytes) (r' : ConnId) :
    (c.setPendingGet r (some pending')).pendingGet r' = none ↔ c.pendingGet r' = none := by
  simp only [setPendingGet, Function.update_apply]
  split_ifs with heq
  · simp [heq, h]
  · rfl

theorem setPendingGet_none_eq_none_iff (r' : ConnId) :
    (c.setPendingGet r none).pendingGet r' = none ↔ c.pendingGet r' = none ∨ r' = r := by
  simp only [setPendingGet, Function.update_apply]
  split_ifs with heq
  · simp [heq]
  · simp [heq]

theorem gone_setPendingGet_none (x : Resource) :
    (c.setPendingGet r none).Gone x ↔ c.Gone x ∨ some (.pendingGet r) = some x := by
  cases x with
  | pendingGet r' =>
    have h := setPendingGet_none_eq_none_iff (c := c) (r := r) r'
    simpa [Gone, eq_comm] using h
  | joinQueue | getRequestChan | replicationChan => simp [Gone, setPendingGet]

theorem needs_of_setCall {errand : Errand} {old stage : CallStage}
    (hi : c.calls[i]? = some ⟨errand, old⟩) (h : (c.setCall i stage).Needs x) :
    c.Needs x ∨ ClientCall.needs ⟨errand, stage⟩ = some x := by
  rcases h with ⟨call, hcall, hx⟩ | h
  · obtain ⟨j, hj⟩ := List.mem_iff_getElem?.mp hcall
    simp only [setCall, List.getElem?_modify] at hj
    obtain ⟨call₀, hcall₀, hmodify⟩ := Option.map_eq_some_iff.mp hj
    split_ifs at hmodify with heq
    · subst heq
      obtain rfl := Option.some.inj (hi.symm.trans hcall₀)
      exact .inr (hmodify ▸ hx)
    · exact .inl (.inl ⟨call, List.mem_iff_getElem?.mpr ⟨j, hmodify ▸ hcall₀⟩, hx⟩)
  · exact .inl (.inr h)

theorem needs_setCall {errand : Errand} {old stage : CallStage}
    (hi : c.calls[i]? = some ⟨errand, old⟩) (hx : ClientCall.needs ⟨errand, stage⟩ = some x) :
    (c.setCall i stage).Needs x := by
  refine .inl ⟨⟨errand, stage⟩, List.mem_iff_getElem?.mpr ⟨i, ?_⟩, hx⟩
  simp [setCall, hi]

theorem needs_of_setWorker {worker : GetWorker} (h : (c.setWorker w worker).Needs x) :
    c.Needs x ∨ worker.needs = some x := by
  rcases h with h | ⟨w', hx⟩ | h
  · exact .inl (.inl h)
  · simp only [setWorker, Function.update_apply] at hx
    split_ifs at hx with heq
    · exact .inr hx
    · exact .inl (.inr (.inl ⟨w', hx⟩))
  · exact .inl (.inr (.inr h))

theorem needs_setWorker {worker : GetWorker} (hx : worker.needs = some x) :
    (c.setWorker w worker).Needs x :=
  .inr (.inl ⟨w, by simpa [setWorker] using hx⟩)

theorem needs_of_setDuty {duty : Duty} (h : (c.setDuty r duty).Needs x) :
    c.Needs x ∨ duty.needs r = some x := by
  rcases h with h | h | ⟨r', hlt, hx⟩ | h
  · exact .inl (.inl h)
  · exact .inl (.inr (.inl h))
  · simp only [setDuty, Function.update_apply] at hx
    split_ifs at hx with heq
    · exact .inr (heq ▸ hx)
    · exact .inl (.inr (.inr (.inl ⟨r', hlt, hx⟩)))
  · exact .inl (.inr (.inr (.inr h)))

theorem needs_setDuty {duty : Duty} (hlt : r < c.size) (hx : duty.needs r = some x) :
    (c.setDuty r duty).Needs x :=
  .inr (.inr (.inl ⟨r, hlt, by simpa [setDuty] using hx⟩))

theorem needs_of_setTearDown {tearDown : TearDown} (h : (c.setTearDown r tearDown).Needs x) :
    c.Needs x ∨ tearDown.needs = some x := by
  rcases h with h | h | h | ⟨r', hlt, hx⟩
  · exact .inl (.inl h)
  · exact .inl (.inr (.inl h))
  · exact .inl (.inr (.inr (.inl h)))
  · simp only [setTearDown, Function.update_apply] at hx
    split_ifs at hx with heq
    · exact .inr hx
    · exact .inl (.inr (.inr (.inr ⟨r', hlt, hx⟩)))

theorem needs_setTearDown {tearDown : TearDown} (hlt : r < c.size) (hx : tearDown.needs = some x) :
    (c.setTearDown r tearDown).Needs x :=
  .inr (.inr (.inr ⟨r, hlt, by simpa [setTearDown] using hx⟩))

/-- What a step does to what is needed and what is gone. -/
inductive Outcome (json : EncodingJson) (c : Stoppable) (a : Step) (c' : Stoppable) : Prop
  | frame (hacq : c.acquires json a = none) (hdrop : c.drops a = none)
      (hneeds : ∀ x, c'.Needs x → c.Needs x) (hgone : ∀ x, c'.Gone x ↔ c.Gone x)
  | acquire {y : Resource} (hacq : c.acquires json a = some y) (hdrop : c.drops a = none)
      (hneeds : ∀ x, c'.Needs x → c.Needs x ∨ some y = some x) (hnew : c'.Needs y)
      (hgone : ∀ x, c'.Gone x ↔ c.Gone x)
  | drop {y : Resource} (hacq : c.acquires json a = none) (hdrop : c.drops a = some y)
      (hneeds : ∀ x, c'.Needs x ↔ c.Needs x) (hgone : ∀ x, c'.Gone x ↔ c.Gone x ∨ some y = some x)

/-- A call goes on to where it needs nothing. -/
theorem Outcome.setCall {errand : Errand} {old stage : CallStage}
    (hi : c.calls[i]? = some ⟨errand, old⟩) (hstage : ClientCall.needs ⟨errand, stage⟩ = none)
    (hacq : c.acquires json a = none) (hdrop : c.drops a = none) :
    Outcome json c a (c.setCall i stage) :=
  .frame hacq hdrop
    (fun _ h ↦ (needs_of_setCall hi h).resolve_right fun hx ↦ by rw [hstage] at hx; cases hx)
    (gone_congr rfl rfl rfl fun _ ↦ Iff.rfl)

theorem pushErrand_eq_ok {errand : Errand} (h : c.pushErrand r errand = .ok c') :
    ∃ requests msgs, c' = { c with getRequestChan := requests, replicationChan := msgs } := by
  cases errand with
  | replicate msg =>
    simp only [pushErrand] at h
    split_ifs at h
    exact ⟨_, _, (Except.ok.inj h).symm⟩
  | get key randStr =>
    simp only [pushErrand] at h
    split_ifs at h
    exact ⟨_, _, (Except.ok.inj h).symm⟩

theorem pushErrand_of_gone {errand : Errand} (h : c.Gone errand.chan) :
    c.pushErrand r errand = .error .closedChannel := by
  cases errand with
  | replicate msg => exact if_pos h
  | get key randStr => exact if_pos h

theorem gone_of_pushErrand {errand : Errand} {crash : Crash}
    (h : c.pushErrand r errand = .error crash) : c.Gone errand.chan := by
  cases errand with
  | replicate msg =>
    simp only [pushErrand] at h
    split_ifs at h with hclosed
    exact hclosed
  | get key randStr =>
    simp only [pushErrand] at h
    split_ifs at h with hclosed
    exact hclosed

theorem pushProposal_eq_ok {p : ProposedPeer} (h : c.pushProposal p = .ok c') :
    c' = { c with links.node.joinQueue := c.links.node.joinQueue ++ [p] } := by
  rw [pushProposal] at h
  split_ifs at h
  exact (Except.ok.inj h).symm

theorem pushProposal_of_gone (h : c.Gone .joinQueue) (p : ProposedPeer) :
    c.pushProposal p = .error .closedChannel := if_pos h

theorem gone_of_pushProposal {p : ProposedPeer} {crash : Crash}
    (h : c.pushProposal p = .error crash) : c.Gone .joinQueue := by
  rw [pushProposal] at h
  split_ifs at h with hclosed
  exact hclosed

theorem withPendingGet_eq_ok {f : Finset Bytes → Stoppable} (h : c.withPendingGet r f = .ok c') :
    ∃ pending, c.pendingGet r = some pending ∧ c' = f pending := by
  rw [withPendingGet] at h
  split at h
  · cases h
  · next pending hpending => exact ⟨pending, hpending, (Except.ok.inj h).symm⟩

theorem withPendingGet_of_gone (h : c.Gone (.pendingGet r)) (f : Finset Bytes → Stoppable) :
    c.withPendingGet r f = .error .nilPendingGet := by
  have hnone : c.pendingGet r = none := h
  rw [withPendingGet, hnone]

theorem gone_of_withPendingGet {f : Finset Bytes → Stoppable} {crash : Crash}
    (h : c.withPendingGet r f = .error crash) : c.Gone (.pendingGet r) := by
  rw [withPendingGet] at h
  split at h
  · next hnone => exact hnone
  · cases h

/-- A goroutine of a connection leaves everything in place, and only a `GETRsp` gives its handler
something to do. -/
theorem linkStep_outcome {l : Links.Step} (hlt : l.conn < c.size)
    (h : c.linkStep json l = some c') : Outcome json c (.link l) c' := by
  rw [linkStep] at h
  split_ifs at h
  split at h
  · next links duty hlinks hduty =>
    obtain rfl := Option.some.inj h
    have hgone : ∀ x, ({ c with links := links, duty := duty } : Stoppable).Gone x ↔ c.Gone x :=
      gone_congr rfl rfl rfl fun _ ↦ Iff.rfl
    cases l with
    | handle r msg =>
      simp only [nextDuty] at hduty
      split_ifs at hduty with hcode
      · split at hduty
        · next rsp hrsp =>
          obtain rfl := Option.some.inj hduty
          refine .acquire (if_pos hcode) rfl
            (fun x hx ↦ needs_of_setDuty (c := { c with links := links }) hx)
            (needs_setDuty (c := { c with links := links }) hlt rfl) hgone
        · cases hduty
      · obtain rfl := Option.some.inj hduty
        exact .frame (if_neg hcode) rfl (fun _ hx ↦ hx) hgone
    | _ =>
      obtain rfl := Option.some.inj hduty
      exact .frame rfl rfl (fun _ hx ↦ hx) hgone
  · cases h

theorem react_eq_some {e : Except Crash Stoppable} (h : c.react json a = some e) :
    (∀ r ∈ a.conn, r < c.size) ∧ c.act json a = some e := by
  rw [react] at h
  split_ifs at h with hlt
  exact ⟨hlt, h⟩

theorem step_eq_some (h : c.step json a = some c') :
    (∀ r ∈ a.conn, r < c.size) ∧ c.act json a = some (.ok c') := by
  rw [step] at h
  split at h
  · next c₁ hreact =>
    obtain rfl := Option.some.inj h
    exact react_eq_some hreact
  · cases h

theorem crash_eq_some {crash : Crash} (h : c.crash json a = some crash) :
    (∀ r ∈ a.conn, r < c.size) ∧ c.act json a = some (.error crash) := by
  rw [Stoppable.crash] at h
  split at h
  · next crash' hreact =>
    obtain rfl := Option.some.inj h
    exact react_eq_some hreact
  · cases h

theorem crash_of_act {crash : Crash} (hconn : ∀ r ∈ a.conn, r < c.size)
    (h : c.act json a = some (.error crash)) : c.crash json a = some crash := by
  rw [Stoppable.crash, react, if_pos hconn, h]

/-- A call that comes to a peer needs its channel, unless the peer is passive. -/
theorem outcome_next (h : c.act json (.next i) = some (.ok c')) :
    Outcome json c (.next i) c' := by
  simp only [act] at h
  split at h
  · next errand hi =>
    obtain rfl := Except.ok.inj (Option.some.inj h)
    exact .setCall hi rfl (by simp only [acquires, hi]) rfl
  · next errand r rest hi =>
    obtain rfl := Except.ok.inj (Option.some.inj h)
    split_ifs with hmode
    · exact .setCall hi rfl (by simp only [acquires, hi, if_pos hmode]) rfl
    · exact .acquire (by simp only [acquires, hi, if_neg hmode]) rfl
        (fun x hx ↦ needs_of_setCall hi hx) (needs_setCall hi rfl)
        (gone_congr rfl rfl rfl fun _ ↦ Iff.rfl)
  · cases h

/-- `getData` needs the `pendingGet` unless the connection is down. -/
theorem outcome_lookGet (h : c.act json (.lookGet w) = some (.ok c')) :
    Outcome json c (.lookGet w) c' := by
  simp only [act] at h
  split at h
  · next r key randStr htook =>
    obtain rfl := Except.ok.inj (Option.some.inj h)
    split_ifs with hstate
    · exact .frame (by simp only [acquires, htook, if_pos hstate]) rfl
        (fun x hx ↦ (needs_of_setWorker hx).resolve_right nofun)
        (gone_congr rfl rfl rfl fun _ ↦ Iff.rfl)
    · exact .acquire (by simp only [acquires, htook, if_neg hstate]) rfl
        (fun x hx ↦ needs_of_setWorker hx) (needs_setWorker rfl)
        (gone_congr rfl rfl rfl fun _ ↦ Iff.rfl)
  · cases h

/-- `handleGetResponse` goes on to `Delete` or returns. -/
theorem outcome_load (hlt : r < c.size) (h : c.act json (.load r) = some (.ok c')) :
    Outcome json c (.load r) c' := by
  simp only [act] at h
  split at h
  · next rsp hload =>
    obtain ⟨pending, hpending, rfl⟩ := withPendingGet_eq_ok (Option.some.inj h)
    refine .frame rfl rfl (fun x hx ↦ ?_) (gone_congr rfl rfl rfl fun _ ↦ Iff.rfl)
    rcases needs_of_setDuty hx with hx | hx
    · exact hx
    -- it goes on to `Delete`, and needs what it needed
    · refine .inr (.inr (.inl ⟨r, hlt, ?_⟩))
      split_ifs at hx
      · exact hload ▸ hx
      · cases hx
  · cases h

/-- The handler of a `SyncRsp` needs the `joinQueue`, unless no peer is proposed. -/
theorem outcome_syncRsp {msg : NodeWireMessage} (hlt : r < c.size)
    (h : c.act json (.syncRsp r msg) = some (.ok c')) :
    Outcome json c (.syncRsp r msg) c' := by
  simp only [act] at h
  split at h
  · next msg' rest hwaiting hqueue =>
    split_ifs at h with hguard
    obtain rfl := Except.ok.inj (Option.some.inj h)
    have hgone := gone_congr (c := c) rfl rfl rfl fun _ ↦ Iff.rfl
    cases hlist : (json.syncRsp.deSerialize msg).list with
    | nil =>
      refine .frame (by simp only [acquires, if_pos hlist]) rfl (fun x hx ↦ ?_) hgone
      exact (needs_of_setDuty (c := { c with links := _ }) hx).resolve_right nofun
    | cons p list =>
      refine .acquire (by simp only [acquires, hlist]; rfl) rfl (fun x hx ↦ ?_)
        (needs_setDuty (c := { c with links := _ }) hlt rfl) hgone
      exact needs_of_setDuty (c := { c with links := _ }) hx
  · cases h

/-- `handleSyncResponse` goes on to the next peer or returns. -/
theorem outcome_propose (hlt : r < c.size) (h : c.act json (.propose r) = some (.ok c')) :
    Outcome json c (.propose r) c' := by
  simp only [act] at h
  split at h
  · obtain rfl := Except.ok.inj (Option.some.inj h)
    exact .frame rfl rfl (fun x hx ↦ (needs_of_setDuty hx).resolve_right nofun)
      (gone_congr rfl rfl rfl fun _ ↦ Iff.rfl)
  · next p list hpropose =>
    obtain rfl := pushProposal_eq_ok (Option.some.inj h)
    refine .frame rfl rfl (fun x hx ↦ ?_) (gone_congr rfl rfl rfl fun _ ↦ Iff.rfl)
    have hx : c.Needs x ∨ Duty.needs r (.propose list) = some x := needs_of_setDuty hx
    rcases hx with hx | hx
    · exact hx
    -- it has sent one peer, and goes on to the next one
    · refine .inr (.inr (.inl ⟨r, hlt, ?_⟩))
      rw [hpropose]
      cases list with
      | nil => cases hx
      | cons q list => exact hx
  · cases h

/-- `tearDown` needs the `joinQueue` if the connection is to be made again. -/
theorem outcome_reconnect (hlt : r < c.size) (h : c.act json (.reconnect r) = some (.ok c')) :
    Outcome json c (.reconnect r) c' := by
  simp only [act] at h
  split_ifs at h with hremoved hagain
  · obtain rfl := Except.ok.inj (Option.some.inj h)
    exact .acquire (if_pos hagain) rfl (fun x hx ↦ needs_of_setTearDown hx)
      (needs_setTearDown hlt rfl) (gone_congr rfl rfl rfl fun _ ↦ Iff.rfl)
  · obtain rfl := Except.ok.inj (Option.some.inj h)
    exact .frame (if_neg hagain) rfl (fun x hx ↦ (needs_of_setTearDown hx).resolve_right nofun)
      (gone_congr rfl rfl rfl fun _ ↦ Iff.rfl)

/-- `tearDown` takes the `pendingGet` of its connection away. -/
theorem outcome_clear (h : c.act json (.clear r) = some (.ok c')) :
    Outcome json c (.clear r) c' := by
  simp only [act] at h
  split_ifs at h with hclearing
  obtain rfl := Except.ok.inj (Option.some.inj h)
  refine .drop rfl rfl (fun x ↦ ⟨fun hx ↦ ?_, fun hx ↦ ?_⟩) fun x ↦ ?_
  · exact (needs_of_setTearDown (c := c.setPendingGet r none) hx).resolve_right nofun
  · rcases hx with hx | hx | hx | ⟨r', hlt', hx⟩
    · exact .inl hx
    · exact .inr (.inl hx)
    · exact .inr (.inr (.inl hx))
    · refine .inr (.inr (.inr ⟨r', hlt', ?_⟩))
      have hne : r' ≠ r := by
        rintro rfl
        rw [hclearing] at hx
        cases hx
      simpa [setTearDown, setPendingGet, Function.update_of_ne hne] using hx
  · exact (gone_congr (c := c.setPendingGet r none) rfl rfl rfl (fun _ ↦ Iff.rfl) x).trans
      (gone_setPendingGet_none x)

/-- **What each step does.** -/
theorem step_outcome (h : c.step json a = some c') : Outcome json c a c' := by
  obtain ⟨hlt, h⟩ := step_eq_some h
  cases a with
  | call errand =>
    obtain rfl := Except.ok.inj (Option.some.inj h)
    refine .frame rfl rfl (fun x hx ↦ ?_) (gone_congr rfl rfl rfl fun _ ↦ Iff.rfl)
    rcases hx with ⟨call, hcall, hx⟩ | hx
    · rcases List.mem_append.mp hcall with hcall | hcall
      · exact .inl ⟨call, hcall, hx⟩
      · obtain rfl := List.mem_singleton.mp hcall
        cases hx
    · exact .inr hx
  | check i =>
    simp only [act] at h
    split at h
    · next errand hi =>
      obtain rfl := Except.ok.inj (Option.some.inj h)
      refine .setCall hi ?_ rfl rfl
      split_ifs <;> rfl
    · cases h
  | settle i =>
    simp only [act] at h
    split at h
    · next errand hi =>
      obtain rfl := Except.ok.inj (Option.some.inj h)
      exact .setCall hi rfl rfl rfl
    · cases h
  | values i peers =>
    simp only [act] at h
    split at h
    · next errand hi =>
      split_ifs at h
      obtain rfl := Except.ok.inj (Option.some.inj h)
      exact .setCall hi rfl rfl rfl
    · cases h
  | next i => exact outcome_next h
  | push i =>
    simp only [act] at h
    split at h
    · next errand r rest hi =>
      obtain ⟨requests, msgs, rfl⟩ := pushErrand_eq_ok (Option.some.inj h)
      refine .frame rfl rfl (fun x hx ↦ ?_) (gone_congr rfl rfl rfl fun _ ↦ Iff.rfl)
      have hx : c.Needs x ∨ ClientCall.needs ⟨errand, .looping rest⟩ = some x :=
        needs_of_setCall hi hx
      exact hx.resolve_right nofun
    · cases h
  | take w =>
    simp only [act] at h
    split at h
    · obtain rfl := Except.ok.inj (Option.some.inj h)
      exact .frame rfl rfl (fun _ hx ↦ hx) (gone_congr rfl rfl rfl fun _ ↦ Iff.rfl)
    · cases h
  | replicate w =>
    simp only [act] at h
    split at h
    · obtain rfl := Except.ok.inj (Option.some.inj h)
      exact .frame rfl rfl (fun _ hx ↦ hx) (gone_congr rfl rfl rfl fun _ ↦ Iff.rfl)
    · cases h
  | takeGet w =>
    simp only [act] at h
    split at h
    · next r key randStr rest hidle hchan =>
      obtain rfl := Except.ok.inj (Option.some.inj h)
      refine .frame rfl rfl (fun x hx ↦ ?_) (gone_congr rfl rfl rfl fun _ ↦ Iff.rfl)
      exact (needs_of_setWorker (c := { c with getRequestChan := rest }) hx).resolve_right nofun
    · cases h
  | lookGet w => exact outcome_lookGet h
  | storeGet w =>
    simp only [act] at h
    split at h
    · next r key randStr hlooked =>
      obtain ⟨pending, hpending, rfl⟩ := withPendingGet_eq_ok (Option.some.inj h)
      exact .frame rfl rfl
        (fun x hx ↦ (needs_of_setWorker (c := c.setPendingGet r _) hx).resolve_right nofun)
        (gone_congr rfl rfl rfl (setPendingGet_eq_none_iff hpending _))
    · cases h
  | sendGet w =>
    simp only [act] at h
    split at h
    · next r key randStr hstored =>
      obtain rfl := Except.ok.inj (Option.some.inj h)
      exact .frame rfl rfl
        (fun x hx ↦ (needs_of_setWorker (c := c.sendMessage r _) hx).resolve_right nofun)
        (gone_congr rfl rfl rfl fun _ ↦ Iff.rfl)
    · cases h
  | link l =>
    obtain ⟨c₁, hstep, heq⟩ := Option.map_eq_some_iff.mp h
    obtain rfl := Except.ok.inj heq
    exact linkStep_outcome (hlt l.conn rfl) hstep
  | load r => exact outcome_load (hlt r rfl) h
  | forget r =>
    simp only [act] at h
    split at h
    · next rsp hforget =>
      obtain ⟨pending, hpending, rfl⟩ := withPendingGet_eq_ok (Option.some.inj h)
      exact .frame rfl rfl
        (fun x hx ↦ (needs_of_setDuty (c := c.setPendingGet r _) hx).resolve_right nofun)
        (gone_congr rfl rfl rfl (setPendingGet_eq_none_iff hpending _))
    · cases h
  | syncRsp r msg => exact outcome_syncRsp (hlt r rfl) h
  | propose r => exact outcome_propose (hlt r rfl) h
  | tearDown r =>
    simp only [act] at h
    split_ifs at h
    obtain rfl := Except.ok.inj (Option.some.inj h)
    exact .frame rfl rfl
      (fun x hx ↦ (needs_of_setTearDown (c := { c with links := _ }) hx).resolve_right nofun)
      (gone_congr rfl rfl rfl fun _ ↦ Iff.rfl)
  | reconnect r => exact outcome_reconnect (hlt r rfl) h
  | proposeAgain r =>
    simp only [act] at h
    split_ifs at h
    obtain rfl := pushProposal_eq_ok (Option.some.inj h)
    refine .frame rfl rfl (fun x hx ↦ ?_) (gone_congr rfl rfl rfl fun _ ↦ Iff.rfl)
    have hx : c.Needs x ∨ TearDown.needs .clearing = some x := needs_of_setTearDown (r := r) hx
    exact hx.resolve_right nofun
  | clear r => exact outcome_clear h
  | shutDown =>
    simp only [act] at h
    split_ifs at h
    obtain rfl := Except.ok.inj (Option.some.inj h)
    exact .frame rfl rfl (fun _ hx ↦ hx) (gone_congr rfl rfl rfl fun _ ↦ Iff.rfl)
  | shutDownValues rs =>
    simp only [act] at h
    split_ifs at h
    obtain rfl := Except.ok.inj (Option.some.inj h)
    exact .frame rfl rfl (fun _ hx ↦ hx) (gone_congr rfl rfl rfl fun _ ↦ Iff.rfl)
  | shutDownNode =>
    simp only [act] at h
    split at h
    · next r rs htearing =>
      obtain rfl := Except.ok.inj (Option.some.inj h)
      refine .drop (y := .pendingGet r) rfl (by simp only [drops, htearing]) (fun _ ↦ Iff.rfl)
        fun x ↦ ?_
      exact (gone_congr (c := c.setPendingGet r none) rfl rfl rfl (fun _ ↦ Iff.rfl) x).trans
        (gone_setPendingGet_none x)
    · cases h
  | closeJoinQueue | closeGetRequestChan | closeReplicationChan =>
    simp only [act] at h
    split_ifs at h
    obtain rfl := Except.ok.inj (Option.some.inj h)
    refine .drop rfl rfl (fun _ ↦ Iff.rfl) fun x ↦ ?_
    cases x <;> simp [Gone]

/-- A step that crashes uses something that is gone. -/
theorem needs_of_crash {crash : Crash} (h : c.crash json a = some crash) :
    ∃ x, c.Needs x ∧ c.Gone x := by
  obtain ⟨hlt, h⟩ := crash_eq_some h
  cases a with
  | push i =>
    simp only [act] at h
    split at h
    · next errand r rest hi =>
      have hgone := gone_of_pushErrand (Option.some.inj h)
      refine ⟨errand.chan, .inl ⟨_, List.mem_of_getElem? hi, rfl⟩, ?_⟩
      exact (gone_congr rfl rfl rfl (fun _ ↦ Iff.rfl) _).mp hgone
    · cases h
  | storeGet w =>
    simp only [act] at h
    split at h
    · next r key randStr hlooked =>
      exact ⟨.pendingGet r, .inr (.inl ⟨w, by rw [hlooked]; rfl⟩),
        gone_of_withPendingGet (Option.some.inj h)⟩
    · cases h
  | load r =>
    simp only [act] at h
    split at h
    · next rsp hload =>
      exact ⟨.pendingGet r, .inr (.inr (.inl ⟨r, hlt r rfl, by rw [hload]; rfl⟩)),
        gone_of_withPendingGet (Option.some.inj h)⟩
    · cases h
  | forget r =>
    simp only [act] at h
    split at h
    · next rsp hforget =>
      exact ⟨.pendingGet r, .inr (.inr (.inl ⟨r, hlt r rfl, by rw [hforget]; rfl⟩)),
        gone_of_withPendingGet (Option.some.inj h)⟩
    · cases h
  | propose r =>
    simp only [act] at h
    split at h
    · cases h
    · next p list hpropose =>
      exact ⟨.joinQueue, .inr (.inr (.inl ⟨r, hlt r rfl, by rw [hpropose]; rfl⟩)),
        gone_of_pushProposal (c := c.setDuty r (.propose list)) (Option.some.inj h)⟩
    · cases h
  | proposeAgain r =>
    simp only [act] at h
    split_ifs at h with hproposing
    exact ⟨.joinQueue, .inr (.inr (.inr ⟨r, hlt r rfl, by rw [hproposing]; rfl⟩)),
      gone_of_pushProposal (c := c.setTearDown r .clearing) (Option.some.inj h)⟩
  | link l =>
    obtain ⟨c₁, -, heq⟩ := Option.map_eq_some_iff.mp h
    cases heq
  | _ =>
    simp only [act] at h
    repeat' split at h
    all_goals cases h

/-- Whoever needs something that is gone crashes with its next step. -/
theorem exists_crash (json : EncodingJson) (hneeds : c.Needs x) (hgone : c.Gone x) :
    ∃ a crash, c.crash json a = some crash := by
  rcases hneeds with ⟨⟨errand, stage⟩, hcall, hx⟩ | ⟨w, hx⟩ | ⟨r, hlt, hx⟩ | ⟨r, hlt, hx⟩
  · cases stage with
    | pushing r rest =>
      obtain rfl := Option.some.inj hx
      obtain ⟨i, hi⟩ := List.mem_iff_getElem?.mp hcall
      have hgone' : (c.setCall i (.looping rest)).Gone errand.chan :=
        (gone_congr rfl rfl rfl (fun _ ↦ Iff.rfl) _).mpr hgone
      refine ⟨.push i, .closedChannel, crash_of_act (a := .push i) nofun ?_⟩
      simp only [act, hi, pushErrand_of_gone hgone']
    | _ => cases hx
  · cases hworker : c.getWorker w with
    | looked r key randStr =>
      rw [hworker] at hx
      obtain rfl := Option.some.inj hx
      refine ⟨.storeGet w, .nilPendingGet, crash_of_act (a := .storeGet w) nofun ?_⟩
      simp only [act, hworker, withPendingGet_of_gone hgone]
    | _ => rw [hworker] at hx; cases hx
  · have hconn : ∀ r' ∈ some r, r' < c.size := fun r' hr' ↦ Option.some.inj hr' ▸ hlt
    cases hduty : c.duty r with
    | idle => rw [hduty] at hx; cases hx
    | load rsp =>
      rw [hduty] at hx
      obtain rfl := Option.some.inj hx
      refine ⟨.load r, .nilPendingGet, crash_of_act (a := .load r) hconn ?_⟩
      simp only [act, hduty, withPendingGet_of_gone hgone]
    | forget rsp =>
      rw [hduty] at hx
      obtain rfl := Option.some.inj hx
      refine ⟨.forget r, .nilPendingGet, crash_of_act (a := .forget r) hconn ?_⟩
      simp only [act, hduty, withPendingGet_of_gone hgone]
    | propose list =>
      rw [hduty] at hx
      cases list with
      | nil => cases hx
      | cons p list =>
        obtain rfl := Option.some.inj hx
        refine ⟨.propose r, .closedChannel, crash_of_act (a := .propose r) hconn ?_⟩
        simp only [act, hduty, pushProposal_of_gone (c := c.setDuty r (.propose list)) hgone]
  · have hconn : ∀ r' ∈ some r, r' < c.size := fun r' hr' ↦ Option.some.inj hr' ▸ hlt
    cases htear : c.tearDown r with
    | proposing =>
      rw [htear] at hx
      obtain rfl := Option.some.inj hx
      refine ⟨.proposeAgain r, .closedChannel, crash_of_act (a := .proposeAgain r) hconn ?_⟩
      simp only [act, htear, if_true, pushProposal_of_gone (c := c.setTearDown r .clearing) hgone]
    | _ => rw [htear] at hx; cases hx

/-- **No step crashes** if and only if nothing that is needed is gone. -/
theorem forall_crash_eq_none_iff :
    (∀ a, c.crash json a = none) ↔ ∀ x, c.Needs x → ¬ c.Gone x := by
  constructor
  · intro h x hneeds hgone
    obtain ⟨a, crash, hcrash⟩ := exists_crash json hneeds hgone
    rw [h a] at hcrash
    cases hcrash
  · intro h a
    cases hcrash : c.crash json a with
    | none => rfl
    | some crash =>
      obtain ⟨x, hneeds, hgone⟩ := needs_of_crash hcrash
      exact absurd hgone (h x hneeds)

end

/-- The channels and the `pendingGet`s of a node, with those who use them and take them away. -/
def custody (json : EncodingJson) (config : Links.Config) (size : ℕ) :
    (system json config size).Custody Resource where
  needs := Needs
  gone := Gone
  acquires := acquires json
  drops := drops
  init_safe := by
    rintro _ rfl x (⟨call, hcall, -⟩ | ⟨w, hx⟩ | ⟨r, -, hx⟩ | ⟨r, -, hx⟩)
    · cases hcall
    · cases hx
    · cases hx
    · cases hx
  needs_of_step := by
    intro c a c' h x hx
    cases step_outcome h with
    | frame hacq hdrop hneeds hgone => exact .inl (hneeds x hx)
    | acquire hacq hdrop hneeds hnew hgone => exact hacq ▸ hneeds x hx
    | drop hacq hdrop hneeds hgone => exact .inl ((hneeds x).mp hx)
  needs_of_acquires := by
    intro c a c' h x hx
    cases step_outcome h with
    | frame hacq hdrop hneeds hgone => rw [hacq] at hx; cases hx
    | acquire hacq hdrop hneeds hnew hgone =>
      rw [hacq] at hx
      obtain rfl := Option.some.inj hx
      exact hnew
    | drop hacq hdrop hneeds hgone => rw [hacq] at hx; cases hx
  gone_iff := by
    intro c a c' h x
    cases step_outcome h with
    | frame hacq hdrop hneeds hgone => simp [hgone, hdrop]
    | acquire hacq hdrop hneeds hnew hgone => simp [hgone, hdrop]
    | drop hacq hdrop hneeds hgone => rw [hgone, hdrop]
  needs_of_drops := by
    intro c a c' h x hx hneeds'
    cases step_outcome h with
    | frame hacq hdrop hneeds hgone => rw [hdrop] at hx; cases hx
    | acquire hacq hdrop hneeds hnew hgone => rw [hdrop] at hx; cases hx
    | drop hacq hdrop hneeds hgone => exact (hneeds x).mpr hneeds'
  drops_ne := by
    intro c a x hx hdrop
    cases a <;> first | cases hx | cases hdrop

/-- A step that neither comes to need what is gone nor takes away what is needed. -/
def Ordered (json : EncodingJson) (c : Stoppable) (a : Step) : Prop :=
  (∀ x ∈ c.acquires json a, ¬ c.Gone x) ∧ ∀ x ∈ c.drops a, ¬ c.Needs x

instance (json : EncodingJson) (c : Stoppable) (a : Step) : Decidable (c.Ordered json a) :=
  inferInstanceAs (Decidable (_ ∧ _))

/-- **When it is safe to shut a node down.**  No step that can be made crashes the node, all along a
run, if and only if every step of the run is ordered. -/
theorem shutDown_safe_iff {json : EncodingJson} {config : Links.Config} {size : ℕ}
    {ls : List Step} {c : Stoppable} (hr : (system json config size).Run ls c) :
    (∀ pre c', pre <+: ls → (system json config size).Run pre c' →
      ∀ a, c'.crash json a = none) ↔
      ((system json config size).restrict fun c a ↦ c.Ordered json a).Run ls c := by
  simp only [forall_crash_eq_none_iff]
  exact TransitionSystem.Custody.safe_iff (C := custody json config size)
    TransitionSystem.run_ofStep_unique hr

/-- An active node. -/
def someConfig : Links.Config :=
  ⟨⟨[1], [80], clusterModeACTIVE⟩, fun _ ↦ ⟨[], [], [], false⟩, fun _ ↦ false, 1⟩

/-- A peer is accepted. -/
def meetPeer : List Step :=
  let hello := (NodeMessage.verify ⟨[7], [80], clusterModeACTIVE⟩).serialize (.plain id)
  [.loop 0, .read 0 hello, .filter 0, .queue 0, .handle 0 hello, .contains 0, .add 0, .accept 0,
    .reply 0].map .link

/-- A call comes to the point where it sends something for the peer. -/
def fanOut (i : ℕ) (errand : Errand) : List Step :=
  [.call errand, .check i, .values i [0], .next i]

/-- The whole of `ShutDown`. -/
def shutDownAll : List Step :=
  [.shutDown, .shutDownValues [0], .shutDownNode, .closeJoinQueue, .closeGetRequestChan,
    .closeReplicationChan]

/-- A `Put` and a `Get` are done when `ShutDown` is called; a `Delete` comes too late, and finds
that the node is not started. -/
theorem shutDown_safe_idle :
    ∃ c, (system (.plain id) someConfig 1).Run (meetPeer ++
        fanOut 0 (.replicate (.put ⟨0, [75], 0, [1]⟩)) ++
        [.push 0, .next 0, .take 2, .replicate 2] ++ fanOut 1 (.get [76] [1]) ++
        [.push 1, .next 1, .takeGet 3, .lookGet 3, .storeGet 3, .sendGet 3] ++
        shutDownAll ++ [.call (.replicate (.delete ⟨0, [75]⟩)), .check 2]) c ∧
      (c.shutDown = .returned ∧ c.calls.map (·.stage) = [.returned, .returned, .returned]) ∧
        ∀ a, c.crash (.plain id) a = none := by
  refine Exists.imp (fun c hc ↦ ⟨hc.1.of_restrict, of_decide_eq_true hc.2, ?_⟩)
    (TransitionSystem.exists_run_from
      (S := (system (.plain id) someConfig 1).restrict fun c a ↦ c.Ordered (.plain id) a)
      (fun _ _ _ ↦ TransitionSystem.step_of_guarded _ _ _) rfl (by decide +kernel))
  exact (shutDown_safe_iff hc.1.of_restrict).mpr hc.1 _ c (List.prefix_refl _) hc.1.of_restrict

/-- **A `Put` that has looked at the state before `ShutDown` was called** sends on a channel that is
closed. -/
theorem put_on_closed_channel :
    ∃ c, (system (.plain id) someConfig 1).Run (meetPeer ++
        fanOut 0 (.replicate (.put ⟨0, [75], 0, [1]⟩)) ++ shutDownAll) c ∧
      c.crash (.plain id) (.push 0) = some .closedChannel :=
  Exists.imp (fun _ hc ↦ ⟨hc.1, of_decide_eq_true hc.2⟩)
    (TransitionSystem.exists_run_from (S := system (.plain id) someConfig 1)
      (fun _ _ _ ↦ id) rfl (by decide +kernel))

end Stoppable
end ClusteredBigCache
