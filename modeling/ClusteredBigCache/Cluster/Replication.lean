import ClusteredBigCache.Cluster.Node
import ClusteredBigCache.Cluster.Replica
import ClusteredBigCache.Lib.TransitionSystem
import ClusteredBigCache.Lib.WorkerPool

/-!
# Replication of the calls of one caller

`Put` and `Delete` push one message for each peer to `replicationChan`.  Five goroutines take the
messages from there and queue each one in the `outboundMsgQueue` of its peer, from where it goes
over the connection to the replica.  Taking a message and queueing it are two steps, so a goroutine
can overtake another one.

`replication_in_order_iff` says that the messages enter the queue of every peer in the order of the
calls exactly when no goroutine does: it only queues a message for a peer when no message that was
taken earlier is still to be queued for the same peer.  Then a replica answers, once everything is
delivered, with what the last call for a key left there; this is about its cache, a `BigCache`, so
the keys may not share a hash.  In `stale_replica` a `Delete` overtakes the `Put` before it, and the
replica keeps the data.

The messages carry the number of their call, which the code does not have, to tell two calls with
the same arguments apart.  Every call replicates: one that returns an error before it does so is as
if it were not made.  The peers are connected; nothing else is done to the cache of a replica, and
nothing in it expires.
-/

set_option autoImplicit false

namespace ClusteredBigCache

/-- A call of `Put` or `Delete`, with the peers it replicates to. -/
structure Replication.Call where
  write : Write
  expiry : UInt64
  /-- `node.remoteNodes.Values()`, without the passive ones. -/
  peers : List ConnId
  deriving DecidableEq, Repr

/-- The message that a call sends to each peer. -/
def Replication.Call.message (call : Call) : NodeMessage := call.write.message call.expiry

/-- A message, with the number of its call. -/
abbrev Numbered := ℕ × NodeMessage

/-- A node with its peers, as far as replication goes. -/
structure Replication (T M : Type) where
  /-- The calls that were made. -/
  calls : List Replication.Call
  /-- What the last call has still to push. -/
  pending : List (ConnId × Numbered)
  /-- `replicationChan` and the goroutines behind it. -/
  pool : WorkerPool (Fin 5) ConnId Numbered
  outboundMsgQueue : ConnId → List Numbered
  /-- What the replicas have handled. -/
  delivered : ConnId → List Numbered
  /-- The caches of the replicas. -/
  replica : ConnId → BigCache T M

namespace Replication

variable {T M : Type}

inductive Step
  /-- `Put` or `Delete` is called, after the call before it has returned. -/
  | call (call : Call)
  /-- The call pushes the message for the next peer. -/
  | push
  /-- A goroutine of `replication` takes a message from `replicationChan`. -/
  | take (w : Fin 5)
  /-- The goroutine calls `sendMessage`. -/
  | sendMessage (w : Fin 5)
  /-- The next message for a peer is sent over the connection and handled, at some time. -/
  | deliver (r : ConnId) (now : ℕ)
  deriving DecidableEq, Repr

section

variable [OrderedMap T ℤ Ptr] [OrderedMap M UInt64 (Finset Key)]

def step (json : EncodingJson) (timeLeft : ℕ → UInt64 → Int64) (c : Replication T M) :
    Step → Option (Replication T M)
  | .call call =>
    if c.pending = [] ∧ call.peers.Nodup then
      some { c with
        calls := c.calls ++ [call]
        pending := call.peers.map fun r ↦ (r, c.calls.length, call.message) }
    else none
  | .push =>
    match c.pending with
    | [] => none
    | (r, msg) :: rest => some { c with pending := rest, pool := c.pool.push r msg }
  | .take w => (c.pool.take w).map fun pool ↦ { c with pool := pool }
  | .sendMessage w =>
    (c.pool.holding w).map fun (r, msg) ↦ { c with
      pool := c.pool.put w
      outboundMsgQueue :=
        Function.update c.outboundMsgQueue r (c.outboundMsgQueue r ++ [msg]) }
  | .deliver r now =>
    match c.outboundMsgQueue r with
    | [] => none
    | msg :: rest =>
      match (c.replica r).handleMessage json (timeLeft now) now (msg.2.serialize json) with
      | .error _ => none
      | .ok cache => some { c with
          outboundMsgQueue := Function.update c.outboundMsgQueue r rest
          delivered := Function.update c.delivered r (c.delivered r ++ [msg])
          replica := Function.update c.replica r cache }

/-- Nothing has been called yet. -/
def new (replica : ConnId → BigCache T M) : Replication T M where
  calls := []
  pending := []
  pool := .empty
  outboundMsgQueue _ := []
  delivered _ := []
  replica := replica

def system (json : EncodingJson) (timeLeft : ℕ → UInt64 → Int64)
    (replica : ConnId → BigCache T M) : TransitionSystem (Replication T M) Step :=
  .ofStep (· = new replica) (step json timeLeft)

end

/-- The messages for a peer, in the order of the calls. -/
def messages (calls : List Call) (r : ConnId) : List Numbered :=
  (calls.zipIdx.filter fun x ↦ r ∈ x.1.peers).map fun x ↦ (x.2, x.1.message)

/-- The messages that have entered the queue of a peer. -/
def entered (c : Replication T M) (r : ConnId) : List Numbered :=
  c.delivered r ++ c.outboundMsgQueue r

/-- The messages for every peer enter its queue in the order of the calls. -/
def InOrder (c : Replication T M) : Prop := ∀ r, c.entered r <+: messages c.calls r

/-- A goroutine does not overtake another one that has a message for the same peer. -/
def Careful (c : Replication T M) : Step → Prop
  | .sendMessage w => c.pool.Oldest w
  | _ => True

instance (c : Replication T M) (step : Step) : Decidable (c.Careful step) :=
  match step with
  | .sendMessage w => inferInstanceAs (Decidable (c.pool.Oldest w))
  | .call _ | .push | .take _ | .deliver _ _ => inferInstanceAs (Decidable True)

/-- What is still to be pushed for a peer. -/
def unpushed (c : Replication T M) (r : ConnId) : List Numbered :=
  (c.pending.filter (·.1 = r)).map Prod.snd

/-- Every message for a peer is delivered. -/
def Delivered (c : Replication T M) (r : ConnId) : Prop :=
  c.unpushed r = [] ∧ c.pool.inFlight r = [] ∧ c.outboundMsgQueue r = []

instance (c : Replication T M) (r : ConnId) : Decidable (c.Delivered r) :=
  inferInstanceAs (Decidable (_ ∧ _ ∧ _))

/-! ## The messages of the calls

Their numbers tell them apart, so that the list of them says what was sent and in which order. -/

theorem messages_append (calls : List Call) (call : Call) (r : ConnId) :
    messages (calls ++ [call]) r =
      messages calls r ++ if r ∈ call.peers then [(calls.length, call.message)] else [] := by
  rw [messages, List.zipIdx_append, List.filter_append, List.map_append]
  split_ifs with h <;> simp [messages, h]

/-- The messages for a peer are those of the calls that were sent to it. -/
theorem mem_messages {calls : List Call} {r : ConnId} {msg : Numbered} :
    msg ∈ messages calls r ↔
      ∃ call, calls[msg.1]? = some call ∧ r ∈ call.peers ∧ msg.2 = call.message := by
  obtain ⟨n, msg⟩ := msg
  simp only [messages, List.mem_map, List.mem_filter, decide_eq_true_eq, Prod.exists,
    Prod.mk.injEq, List.mem_zipIdx_iff_getElem?]
  constructor
  · rintro ⟨call, _, ⟨hcall, hr⟩, rfl, rfl⟩
    exact ⟨call, hcall, hr, rfl⟩
  · rintro ⟨call, hcall, hr, rfl⟩
    exact ⟨call, n, ⟨hcall, hr⟩, rfl, rfl⟩

/-- No message is sent twice. -/
theorem nodup_messages (calls : List Call) (r : ConnId) : (messages calls r).Nodup := by
  refine List.Nodup.of_map Prod.fst ?_
  rw [messages, List.map_map]
  refine List.Nodup.sublist (List.filter_sublist.map _) ?_
  exact List.nodup_zipIdx_map_snd calls

/-! ## What each step does -/

section

variable [OrderedMap T ℤ Ptr] [OrderedMap M UInt64 (Finset Key)] {json : EncodingJson}
  {timeLeft : ℕ → UInt64 → Int64} {c c' : Replication T M} {a : Step}

/-- Everything a step can do. -/
inductive Outcome (json : EncodingJson) (timeLeft : ℕ → UInt64 → Int64) (c : Replication T M) :
    Step → Replication T M → Prop
  | call {call : Call} (hpending : c.pending = []) (hnodup : call.peers.Nodup) :
      Outcome json timeLeft c (.call call) { c with
        calls := c.calls ++ [call]
        pending := call.peers.map fun r ↦ (r, c.calls.length, call.message) }
  | push {r : ConnId} {msg : Numbered} {rest : List (ConnId × Numbered)}
      (hpending : c.pending = (r, msg) :: rest) :
      Outcome json timeLeft c .push { c with pending := rest, pool := c.pool.push r msg }
  | take {w : Fin 5} {pool : WorkerPool (Fin 5) ConnId Numbered}
      (htake : c.pool.take w = some pool) :
      Outcome json timeLeft c (.take w) { c with pool := pool }
  | sendMessage {w : Fin 5} {r : ConnId} {msg : Numbered}
      (hholding : c.pool.holding w = some (r, msg)) :
      Outcome json timeLeft c (.sendMessage w) { c with
        pool := c.pool.put w
        outboundMsgQueue :=
          Function.update c.outboundMsgQueue r (c.outboundMsgQueue r ++ [msg]) }
  | deliver {r : ConnId} {now : ℕ} {msg : Numbered} {rest : List Numbered} {cache : BigCache T M}
      (hqueue : c.outboundMsgQueue r = msg :: rest)
      (hcache : (c.replica r).handleMessage json (timeLeft now) now (msg.2.serialize json) =
        .ok cache) :
      Outcome json timeLeft c (.deliver r now) { c with
        outboundMsgQueue := Function.update c.outboundMsgQueue r rest
        delivered := Function.update c.delivered r (c.delivered r ++ [msg])
        replica := Function.update c.replica r cache }

/-- **A step does one of these.** -/
theorem step_outcome (h : c.step json timeLeft a = some c') : c.Outcome json timeLeft a c' := by
  cases a with
  | call call =>
    obtain ⟨⟨hpending, hnodup⟩, h⟩ := Option.ite_none_right_eq_some.mp h
    obtain rfl := Option.some.inj h
    exact .call hpending hnodup
  | push =>
    rw [step] at h
    split at h
    · cases h
    · next hpending =>
      obtain rfl := Option.some.inj h
      exact .push hpending
  | take w =>
    obtain ⟨pool, htake, rfl⟩ := Option.map_eq_some_iff.mp h
    exact .take htake
  | sendMessage w =>
    obtain ⟨⟨r, msg⟩, hholding, rfl⟩ := Option.map_eq_some_iff.mp h
    exact .sendMessage hholding
  | deliver r now =>
    rw [step] at h
    split at h
    · cases h
    · next hqueue =>
      split at h
      · cases h
      · next hcache =>
        obtain rfl := Option.some.inj h
        exact .deliver hqueue hcache

end

/-- What is delivered had entered the queue. -/
theorem entered_deliver {c : Replication T M} {r' : ConnId} {msg : Numbered} {rest : List Numbered}
    {cache : BigCache T M} (hqueue : c.outboundMsgQueue r' = msg :: rest) (r : ConnId) :
    entered { c with
      outboundMsgQueue := Function.update c.outboundMsgQueue r' rest
      delivered := Function.update c.delivered r' (c.delivered r' ++ [msg])
      replica := Function.update c.replica r' cache } r = c.entered r := by
  rcases eq_or_ne r r' with rfl | hr
  · simp [entered, hqueue]
  · simp [entered, Function.update_of_ne hr]

/-! ## What is in flight

A message goes through three places: it is still to be pushed, it is in the channel or with a
goroutine, and it has entered the queue of its peer.  As long as no goroutine overtakes another one,
the messages in the three places together are those of the calls, in their order. -/

section

variable [OrderedMap T ℤ Ptr] [OrderedMap M UInt64 (Finset Key)] {json : EncodingJson}
  {timeLeft : ℕ → UInt64 → Int64} {replica : ConnId → BigCache T M} {c c' : Replication T M}
  {a : Step} {ls : List Step} {r : ConnId}

/-- Every message is in one place, and those for each peer are in order. -/
def Inv (c : Replication T M) : Prop :=
  ∀ r, messages c.calls r = c.entered r ++ c.pool.inFlight r ++ c.unpushed r

/-- A call has one message for each of its peers. -/
theorem filter_peers {peers : List ConnId} (hnodup : peers.Nodup) (r : ConnId) (msg : Numbered) :
    ((peers.map fun r' ↦ (r', msg)).filter (·.1 = r)).map Prod.snd =
      if r ∈ peers then [msg] else [] := by
  induction peers with
  | nil => rfl
  | cons r' peers ih =>
    obtain ⟨hr', hnodup⟩ := List.nodup_cons.mp hnodup
    rw [List.map_cons, List.filter_cons]
    by_cases hr : r' = r
    · subst hr
      simp [ih hnodup, hr']
    · simp [ih hnodup, hr, Ne.symm hr]

theorem Inv.step (hi : c.Inv) (h : c.step json timeLeft a = some c') (hok : c.Careful a) :
    c'.Inv := by
  intro r
  cases step_outcome h with
  | call hpending hnodup =>
    have hnil : c.unpushed r = [] := by simp [unpushed, hpending]
    rw [messages_append, hi r, hnil, List.append_nil, ← filter_peers hnodup]
    rfl
  | @push r' msg rest hpending =>
    have hunpushed : c.unpushed r =
        (if r' = r then [msg] else []) ++ (rest.filter (·.1 = r)).map Prod.snd := by
      rw [unpushed, hpending]
      split_ifs with hr <;> simp [hr]
    rw [hi r, hunpushed]
    simp only [entered, unpushed, WorkerPool.inFlight_push, List.append_assoc]
  | take htake =>
    have hi := hi r
    rwa [← WorkerPool.inFlight_take htake] at hi
  | sendMessage hholding =>
    rw [hi r, WorkerPool.inFlight_put hholding hok]
    simp only [entered, unpushed, Function.update_apply]
    split_ifs with hr hr' hr'
    · simp [hr]
    · exact absurd hr.symm hr'
    · exact absurd hr'.symm hr
    · simp
  | deliver hqueue =>
    rw [entered_deliver hqueue]
    exact hi r

/-- **A goroutine that overtakes another one** puts a message out of order. -/
theorem Inv.careful_of_inOrder (hi : c.Inv) (h : c.step json timeLeft a = some c')
    (horder : c'.InOrder) : c.Careful a := by
  cases step_outcome h with
  | @sendMessage w r msg hholding =>
    have hnodup := nodup_messages c.calls r
    rw [hi r, List.append_assoc, List.nodup_append, List.nodup_append] at hnodup
    refine WorkerPool.oldest_of_head? hholding hnodup.2.1.1 ?_
    -- what enters the queue is the first message that is in flight for the peer
    have hprefix : c.entered r ++ [msg] <+: messages c.calls r := by
      simpa [entered] using horder r
    rw [hi r, List.append_assoc, List.prefix_append_right_inj] at hprefix
    obtain ⟨rest, hrest⟩ := hprefix
    cases hflight : c.pool.inFlight r with
    | nil =>
      obtain ⟨later, hcontents, -⟩ := WorkerPool.contents_put hholding
      rw [WorkerPool.inFlight, hcontents] at hflight
      simp at hflight
    | cons msg' _ =>
      rw [hflight, List.cons_append, List.cons_append] at hrest
      rw [List.head?_cons, (List.cons.inj hrest).1]
  | _ => trivial

omit [OrderedMap T ℤ Ptr] [OrderedMap M UInt64 (Finset Key)] in
theorem new_inv (replica : ConnId → BigCache T M) : (new replica).Inv := fun _ ↦ rfl

omit [OrderedMap T ℤ Ptr] [OrderedMap M UInt64 (Finset Key)] in
theorem Inv.inOrder (hi : c.Inv) : c.InOrder := by
  intro r
  rw [hi r, List.append_assoc]
  exact List.prefix_append _ _

/-! ## What the replicas have

A replica handles one message after the other.  On its cache this is `BigCache.handleMessage`, and
as long as its keys do not share a hash it is a write to the store that the cache holds. -/

/-- A message that is a write to one of some keys. -/
def WritesTo (keys : Set Key) (msg : Numbered) : Prop :=
  ∃ (w : Write) (expiry : UInt64), msg.2 = w.message expiry ∧ w.key ∈ keys

omit [OrderedMap T ℤ Ptr] [OrderedMap M UInt64 (Finset Key)] in
theorem writesTo_of_mem_messages {calls : List Call} {keys : Set Key}
    (hkeys : ∀ call ∈ calls, r ∈ call.peers → call.write.key ∈ keys) {msg : Numbered}
    (hmsg : msg ∈ messages calls r) : WritesTo keys msg := by
  obtain ⟨call, hcall, hr, hmessage⟩ := mem_messages.mp hmsg
  exact ⟨call.write, call.expiry, hmessage, hkeys call (List.mem_of_getElem? hcall) hr⟩

/-- **The cache of a replica holds what the messages left**, in the order in which they were
handled, as long as positions in its queues fit thirty-two bits. -/
theorem replica_holds {keys : Set Key} {store : Store} (hdelete : json.delete.KeepsValid)
    (hr : (system json timeLeft replica).Run ls c) (hstart : (replica r).Holds keys store)
    (hinj : Set.InjOn (replica r).hash keys) (hkeys : ∀ key ∈ keys, Storable key)
    (hsmall : ∀ pre t, pre <+: ls → (system json timeLeft replica).Run pre t →
      (t.replica r).Small)
    (hdelivered : ∀ msg ∈ c.delivered r, WritesTo keys msg) :
    ∃ store', (c.delivered r).foldlM
        (fun store msg ↦ store.handleMessage json (msg.2.serialize json)) store = .ok store' ∧
      (c.replica r).Holds keys store' ∧ (c.replica r).hash = (replica r).hash := by
  revert hdelivered
  refine hr.invariant_of_always hsmall ?_ fun c a c' ih h hsmall hdelivered ↦ ?_
  · rintro _ rfl -
    exact ⟨store, rfl, hstart, rfl⟩
  · cases step_outcome h with
    | call | push | take | sendMessage => exact ih hdelivered
    | @deliver r' now msg rest cache hqueue hcache =>
      simp only [Function.update_apply] at hsmall hdelivered ⊢
      split_ifs at hsmall hdelivered ⊢ with hr
      · subst hr
        obtain ⟨store₁, hfold, hholds, hhash⟩ :=
          ih fun msg' hmem ↦ hdelivered msg' (List.mem_append_left _ hmem)
        obtain ⟨w, expiry, hmsg, hkey⟩ := hdelivered msg (by simp)
        rw [hmsg] at hcache
        obtain ⟨hholds', hhash'⟩ := hholds.handleMessage (hhash ▸ hinj) hdelete hkey
          (hkeys _ hkey) hcache hsmall
        have hwrite := Store.handleMessage_message hdelete store₁ (hkeys _ hkey).sendable expiry
        refine ⟨store₁.write w, ?_, hholds', hhash'.trans hhash⟩
        rw [List.foldlM_append, hfold]
        simp [hmsg, hwrite]
      · exact ih hdelivered

omit [OrderedMap T ℤ Ptr] [OrderedMap M UInt64 (Finset Key)] in
/-- Messages that can be sent are writes to the store of the replica. -/
theorem foldlM_handleMessage (hdelete : json.delete.KeepsValid) {calls : List Call}
    (hkeys : ∀ call ∈ calls, Sendable call.write.key) (store : Store) :
    (messages calls r).foldlM (fun store msg ↦ store.handleMessage json (msg.2.serialize json))
      store = .ok (((calls.filter fun call ↦ r ∈ call.peers).map Call.write).foldl
        Store.write store) := by
  induction calls using List.reverseRecOn with
  | nil => rfl
  | append_singleton calls call ih =>
    rw [messages_append, List.foldlM_append, ih fun call' h ↦ hkeys call' (by simp [h]),
      List.filter_append, List.map_append, List.foldl_append]
    split_ifs with hr
    · have hcall := Store.handleMessage_message hdelete
        (((calls.filter fun call ↦ r ∈ call.peers).map Call.write).foldl Store.write store)
        (hkeys call (by simp)) call.expiry
      simp [hr, Call.message, hcall]
    · simp [hr]

/-- **When replication keeps the order of the calls**: the messages for every peer enter its queue
in the order of the calls, all along a run, if and only if no goroutine of `replication` overtakes
another one that has a message for the same peer.  And if so, `Get` on a replica to which every call
was sent returns, once everything for it is delivered, the result of the last call for each key, as
long as the keys of the replica can be sent and stored and do not share a hash, and positions in its
queues fit thirty-two bits. -/
theorem replication_in_order_iff (hdelete : json.delete.KeepsValid)
    (hr : (system json timeLeft replica).Run ls c) :
    ((∀ pre t, pre <+: ls → (system json timeLeft replica).Run pre t → t.InOrder) ↔
      ((system json timeLeft replica).restrict Careful).Run ls c) ∧
    (((system json timeLeft replica).restrict Careful).Run ls c →
      ∀ r keys store, (replica r).Holds keys store → Set.InjOn (replica r).hash keys →
      (∀ key ∈ keys, Storable key) →
      (∀ pre t, pre <+: ls → (system json timeLeft replica).Run pre t → (t.replica r).Small) →
      (∀ call ∈ c.calls, r ∈ call.peers ∧ call.write.key ∈ keys) → c.Delivered r →
        ∀ key, ∀ call ∈ (c.calls.filter (·.write.key = key)).getLast?,
          (c.replica r).Reads key call.write.value) := by
  constructor
  · refine TransitionSystem.Run.always_iff_restrict ?_ ?_ (fun _ ↦ Inv.inOrder) ?_ ?_ hr
    · exact TransitionSystem.run_ofStep_unique
    · rintro _ rfl
      exact new_inv replica
    · exact fun _ _ _ hi h hok ↦ hi.step h hok
    · exact fun _ _ _ hi h horder ↦ hi.careful_of_inOrder h horder
  · rintro hres r keys store hstart hinj hkeys hsmall hcalls ⟨hunpushed, hflight, hqueue⟩ key call
      hcall
    have hi : c.Inv := hres.invariant (by rintro _ rfl; exact new_inv replica)
      fun _ _ _ hi h ↦ hi.step h.1 h.2
    have hdelivered : messages c.calls r = c.delivered r := by
      simp [hi r, entered, hqueue, hflight, hunpushed]
    obtain ⟨store', hfold, hholds, hhash⟩ := replica_holds hdelete hr hstart hinj hkeys hsmall
      (hdelivered ▸ fun msg ↦ writesTo_of_mem_messages fun call h _ ↦ (hcalls call h).2)
    rw [← hdelivered,
      foldlM_handleMessage hdelete fun call h ↦ (hkeys _ (hcalls call h).2).sendable,
      List.filter_eq_self.mpr fun call h ↦ decide_eq_true (hcalls call h).1] at hfold
    have hmem := List.mem_filter.mp (List.mem_of_getLast? hcall)
    obtain rfl : call.write.key = key := of_decide_eq_true hmem.2
    have hread := hholds.reads (hhash ▸ hinj) (hcalls call hmem.1).2
    rw [← Except.ok.inj hfold, Store.foldl_write_apply, List.filter_map, List.getLast?_map] at hread
    have hlast : (c.calls.filter
        ((fun w ↦ decide (w.key = call.write.key)) ∘ Call.write)).getLast? = some call := hcall
    rwa [hlast] at hread

end

section

variable [OrderedMap T ℤ Ptr] [OrderedMap M UInt64 (Finset Key)]

/-- Positions in the queues of the first replica fit thirty-two bits after a step. -/
def Fits (c : Replication T M) (a : Step) : Prop :=
  ∀ c' ∈ c.step (.plain Utf8.repair) (fun _ _ ↦ 0) a, (c'.replica 0).Small

instance (c : Replication T M) (a : Step) : Decidable (c.Fits a) :=
  inferInstanceAs (Decidable (∀ _ ∈ _, _))

/-- And so they do all along a run of such steps. -/
theorem always_small {cache : BigCache T M} {ls : List Step} {c : Replication T M}
    (hcache : cache.Small)
    (hr : ((system (.plain Utf8.repair) (fun _ _ ↦ 0) fun _ ↦ cache).restrict Fits).Run ls c) :
    ∀ pre t, pre <+: ls → (system (.plain Utf8.repair) (fun _ _ ↦ 0) fun _ ↦ cache).Run pre t →
      (t.replica 0).Small := by
  refine hr.always_of_restrict TransitionSystem.run_ofStep_unique ?_ fun _ _ c' h hok ↦ hok c' h
  rintro _ rfl
  exact hcache

end

/-- A `Put` and a `Delete` for one peer, one goroutine at a time. -/
theorem replication_in_order_delete : ∃ cache, BigCache.someCache = some cache ∧ ∃ ls c,
    (system (.plain Utf8.repair) (fun _ _ ↦ 0) fun _ ↦ cache).Run ls c ∧
    c.calls = [⟨.put [107] [7], 0, [0]⟩, ⟨.delete [107], 0, [0]⟩] ∧ c.Delivered 0 ∧
    (∀ pre t, pre <+: ls →
      (system (.plain Utf8.repair) (fun _ _ ↦ 0) fun _ ↦ cache).Run pre t → t.InOrder) ∧
    (c.replica 0).Reads [107] none := by
  obtain ⟨cache, hcache, c, hres, hc⟩ := TransitionSystem.exists_run_of_param
    (S := fun cache ↦ (system (.plain Utf8.repair) (fun _ _ ↦ 0) fun _ ↦ cache).restrict
      fun c a ↦ c.Careful a ∧ c.Fits a)
    (f := TransitionSystem.guarded (Replication.step (.plain Utf8.repair) fun _ _ ↦ 0)
      fun c a ↦ c.Careful a ∧ c.Fits a)
    (x := BigCache.someCache.filter fun c ↦ c.Small)
    (l := [.call ⟨.put [107] [7], 0, [0]⟩, .push, .call ⟨.delete [107], 0, [0]⟩, .push, .take 0,
      .take 1, .sendMessage 0, .sendMessage 1, .deliver 0 0, .deliver 0 0])
    (p := fun c ↦ decide (c.calls = [⟨.put [107] [7], 0, [0]⟩, ⟨.delete [107], 0, [0]⟩] ∧
      c.Delivered 0))
    (fun _ ↦ TransitionSystem.step_of_guarded) (fun _ ↦ rfl) (by decide +kernel)
  obtain ⟨hcache, hsmall⟩ := Option.filter_eq_some_iff.mp hcache
  obtain ⟨hcalls, hdelivered⟩ := of_decide_eq_true hc
  have hcareful := hres.restrict_mono fun _ _ h ↦ h.1
  obtain ⟨horder, hlast⟩ := replication_in_order_iff
    (Json.Repairs.keepsValid (EncodingJson.plain_delete Utf8.repair)) hres.of_restrict
  refine ⟨cache, hcache, _, c, hres.of_restrict, hcalls, hdelivered, horder.mpr hcareful, ?_⟩
  refine hlast hcareful 0 {[107]} _ (BigCache.someCache_holds hcache _) (Set.injOn_singleton _ _)
    (by rintro _ rfl; decide)
    (always_small (of_decide_eq_true hsmall) (hres.restrict_mono fun _ _ h ↦ h.2))
    (by rw [hcalls]; simp [Write.key]) hdelivered [107] ⟨.delete [107], 0, [0]⟩
    (by rw [hcalls]; decide)

/-- The second goroutine overtakes the first one: the `Delete` is handled before the `Put` that was
called before it, and the replica keeps the data. -/
theorem stale_replica : ∃ cache, BigCache.someCache = some cache ∧ ∃ ls c,
    (system (.plain Utf8.repair) (fun _ _ ↦ 0) fun _ ↦ cache).Run ls c ∧
    c.calls = [⟨.put [107] [7], 0, [0]⟩, ⟨.delete [107], 0, [0]⟩] ∧ c.Delivered 0 ∧
    ¬ c.InOrder ∧ (c.replica 0).Reads [107] (some [7]) := by
  obtain ⟨cache, hcache, c, hr, hc⟩ := TransitionSystem.exists_run_of_param
    (S := fun cache ↦ system (.plain Utf8.repair) (fun _ _ ↦ 0) fun _ ↦ cache)
    (f := Replication.step (.plain Utf8.repair) fun _ _ ↦ 0)
    (x := BigCache.someCache)
    (l := [.call ⟨.put [107] [7], 0, [0]⟩, .push, .call ⟨.delete [107], 0, [0]⟩, .push, .take 0,
      .take 1, .sendMessage 1, .sendMessage 0, .deliver 0 0, .deliver 0 0])
    (p := fun c ↦ decide (c.calls = [⟨.put [107] [7], 0, [0]⟩, ⟨.delete [107], 0, [0]⟩] ∧
      c.Delivered 0 ∧ ¬ c.entered 0 <+: messages c.calls 0 ∧
      (c.replica 0).Reads [107] (some [7])))
    (fun _ _ _ _ ↦ id) (fun _ ↦ rfl) (by decide +kernel)
  obtain ⟨hcalls, hdelivered, horder, hreplica⟩ := of_decide_eq_true hc
  exact ⟨cache, hcache, _, c, hr, hcalls, hdelivered, fun h ↦ horder (h 0), hreplica⟩

end Replication
end ClusteredBigCache
