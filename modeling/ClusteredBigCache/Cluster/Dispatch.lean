import ClusteredBigCache.Cache.Limit
import ClusteredBigCache.Cluster.Links
import ClusteredBigCache.Cluster.Replica

/-!
# What a message can do to an active node

`handleMessage` runs without a `recover`, so a panic in a handler brings the whole process down.
Here the handlers that deal with values work on the cache itself, a `BigCache` of the configuration
that `New` gives it: a handler may fail where it reads a message, and where the cache reads an
entry.  The other messages are dispatched as in `Links`; what their handlers go on to do takes no
slice of anything.

`handleMessage_returns_iff` says for which messages the handler returns.  A `PUT` or a `GETRsp` has
to be as long as it says, and the end of its key has to fit sixteen bits: an empty one is enough to
bring a node down (`empty_put_crashes`).  A `GETReq` is handled unless the cache has an entry under
the hash of its key that `readKeyFromEntry` cannot read; such an entry may have come with a `PUT`
that is well formed (`long_key_crashes`).

The handlers run one at a time here.  The data that a `GETRsp` brings is offered to a call of `Get`,
which is left out.
-/

set_option autoImplicit false

namespace ClusteredBigCache

/-! ## The cache of a node

A handler calls `Get`, `Set` and `Delete` without asking whether they can panic.  With the
configuration of `New` there is no limit and no callback, and what remains is an entry whose key
cannot be read. -/

/-- The configuration of the cache that `New` makes. -/
def nodeConfig (shardSize : Int64) : Config :=
  { Config.defaultConfig with shards := if shardSize < 16 then 16 else shardSize }

/-- An entry whose key `readKeyFromEntry` can read. -/
def Entry.Readable (e : Entry) : Prop := (UInt16.ofNat e.key.length).toNat ≤ maxKeyLength

instance (e : Entry) : Decidable e.Readable := inferInstanceAs (Decidable (_ ≤ _))

/-- **When a key cannot be read from a table.** -/
theorem Table.get_cases (m : Table) (key : Key) (h : UInt64) :
    ((∀ e, m h = some e → e.Readable) ∧ ∃ r, m.get key h = .ok r) ∨
      ((∃ e, m h = some e ∧ ¬ e.Readable) ∧ m.get key h = .error .panic) := by
  rw [Table.get]
  cases hm : m h with
  | none => exact .inl ⟨fun e he ↦ (by cases he), _, rfl⟩
  | some e =>
    by_cases hread : e.Readable
    · have hkey : e.readKey = .ok (e.key.take (UInt16.ofNat e.key.length).toNat) := if_pos hread
      refine .inl ⟨fun e' he' ↦ Option.some.inj he' ▸ hread, ?_⟩
      simp only [hkey, Go.ok_bind]
      split_ifs
      · exact ⟨_, rfl⟩
      · exact ⟨_, rfl⟩
    · have hkey : e.readKey = .error .panic := if_neg hread
      refine .inr ⟨⟨e, rfl, hread⟩, ?_⟩
      simp only [hkey]
      rfl

namespace CacheShard

variable {T M : Type} [OrderedMap T ℤ Ptr] [OrderedMap M UInt64 (Finset Key)]
  {s s' : CacheShard T M} {m : Table} {h : UInt64} {key : Key} {now : ℕ}

/-- `del` returns when there is no callback. -/
theorem Rep.del_ok (hr : s.Rep m) (hq : s.onRemove = false) (key : Key) (now : ℕ) :
    ∃ s' r, s.del key h now = .ok (s', r) ∧ s'.onRemove = false := by
  cases hm : m h with
  | none => exact ⟨_, _, hr.del_of_none hm key now, hq⟩
  | some e =>
    obtain ⟨i, hb⟩ := hr.block hm
    have hcb : e.callback s.onRemove h = .ok [] := by rw [hq]; rfl
    refine ⟨_, _, ((hb.readable hr).del key now).trans (by rw [hcb]; rfl), ?_⟩
    exact hq

end CacheShard

namespace BigCache

variable {T M : Type} [OrderedMap T ℤ Ptr] [OrderedMap M UInt64 (Finset Key)]
  {c c' : BigCache T M} {m : Table} {key : Key} {now : ℕ}

/-- No shard has a callback. -/
def Quiet (c : BigCache T M) : Prop := ∀ s ∈ c.shards, s.onRemove = false

omit [OrderedMap T ℤ Ptr] [OrderedMap M UInt64 (Finset Key)] in
theorem Quiet.set_shard {i : ℕ} {s : CacheShard T M} (hq : c.Quiet) (hs : s.onRemove = false) :
    Quiet ({ c with shards := c.shards.set i s } : BigCache T M) := by
  intro s' hs'
  rcases List.mem_or_eq_of_mem_set hs' with hs' | rfl
  · exact hq s' hs'
  · exact hs

/-- A call leaves a cache without callbacks so. -/
theorem Quiet.call {op : Op} (hq : c.Quiet) (hr : c.Rep m) (hstep : c.call op = some c') :
    c'.Quiet := by
  obtain ⟨s, s', hs, hpassed, rfl⟩ := call_cases hstep
  exact hq.set_shard ((hpassed.onRemove_eq (hr.shard _ s hs).1).trans
    (hq s (List.mem_of_getElem? hs)))

/-- `Set` returns. -/
theorem Rep.set_ok (hr : c.Rep m) (hq : c.Quiet) (key : Key) (entry : Bytes) (duration : Int64)
    (now : ℕ) : ∃ c' r, c.set key entry duration now = .ok (c', r) ∧ c'.Quiet := by
  obtain ⟨s, hget, hs⟩ := getShard_of_mask hr.mask (c.hash key)
  obtain ⟨s', r, hset, -⟩ := (hr.shard _ s hs).1.set_cases key entry duration now (h := c.hash key)
  exact ⟨_, r, set_of_set hget hset, hq.call hr (call_of_set hget hset)⟩

/-- `Delete` returns. -/
theorem Rep.delete_ok (hr : c.Rep m) (hq : c.Quiet) (key : Key) (now : ℕ) :
    ∃ c' r, c.delete key now = .ok (c', r) ∧ c'.Quiet := by
  obtain ⟨s, hget, hs⟩ := getShard_of_mask hr.mask (c.hash key)
  obtain ⟨s', r, hdel, hs'⟩ := (hr.shard _ s hs).1.del_ok (hq s (List.mem_of_getElem? hs)) key now
    (h := c.hash key)
  exact ⟨_, r, delete_of_del hget hdel, hq.set_shard hs'⟩

/-- The cache of a node, under any sequence of calls that leave positions in the queues below
thirty-two bits. -/
def ofNode (T M : Type) [OrderedMap T ℤ Ptr] [OrderedMap M UInt64 (Finset Key)]
    (shardSize : Int64) : TransitionSystem (BigCache T M) Op :=
  .ofStep (fun c ↦ ∃ now, newBigCache (nodeConfig shardSize) none now = .ok (.ok c))
    fun c op ↦ (c.call op).filter fun c' ↦ c'.Small

theorem one_le_nodeConfig_shards (shardSize : Int64) : 1 ≤ (nodeConfig shardSize).shards := by
  simp only [nodeConfig]
  split_ifs with h
  · decide
  · have h16 : Int64.toInt 16 = 16 := rfl
    have h1 : Int64.toInt 1 = 1 := rfl
    rw [Int64.lt_iff_toInt_lt, h16] at h
    rw [Int64.le_iff_toInt_le, h1]
    omega

/-- **The cache of a node stores the entries of its calls.** -/
theorem ofNode_rep {shardSize : Int64} {ls : List Op} (hr : (ofNode T M shardSize).Run ls c) :
    c.Rep (c.contents ls) ∧ c.Quiet := by
  refine hr.history_invariant ?_ ?_
  · rintro c ⟨now, hnew⟩
    refine ⟨newBigCache_rep hnew (one_le_nodeConfig_shards shardSize) rfl, fun s hs ↦ ?_⟩
    obtain ⟨-, -, -, -, -, -, hall⟩ := newBigCache_spec hnew
    exact (CacheShard.initNewShard_fields (hall s hs)).2.1
  · rintro ls c op c' ⟨hrep, hq⟩ hstep
    obtain ⟨hcall, hsmall⟩ := Option.filter_eq_some_iff.mp hstep
    obtain ⟨hrep', hhash, hmask⟩ := hrep.call hcall fun _ _ _ _ _ ↦ of_decide_eq_true hsmall
    refine ⟨?_, hq.call hrep hcall⟩
    rw [contents, hhash, hmask, List.foldl_append]
    exact hrep'

/-- `New` makes a cache. -/
theorem exists_newBigCache :
    ∃ c : BigCache T M, newBigCache (nodeConfig 0) none 0 = .ok (.ok c) := by
  obtain ⟨s, hs⟩ : ∃ s : CacheShard T M, CacheShard.initNewShard (nodeConfig 0) 0 = .ok s :=
    ⟨_, rfl⟩
  have hshards : ∀ n, ∃ shards : List (CacheShard T M),
      initShards (nodeConfig 0) 0 n = .ok shards := by
    intro n
    induction n with
    | zero => exact ⟨[], rfl⟩
    | succ n ih =>
      obtain ⟨shards, hshards⟩ := ih
      exact ⟨s :: shards, by rw [initShards, hs, Go.ok_bind, hshards]; rfl⟩
  obtain ⟨shards, hshards⟩ := hshards (nodeConfig 0).shards.toInt.toNat
  refine ⟨⟨shards, fnv64a, nodeConfig 0, ((nodeConfig 0).shards - 1).toUInt64⟩, ?_⟩
  rw [newBigCache, if_pos (by decide), if_neg (by decide),
    show (nodeConfig 0).maximumShardSize = .ok 0 from rfl, Go.ok_bind, hshards]
  rfl

end BigCache

/-! ## The handlers

A handler fails where it reads its message or where the cache fails.  `handleMessage_cases` puts the
two together: which messages it survives is decided by the message and by the entries of the cache.
-/

/-- An active node: its connections, its cache, and the `pendingGet` of each connection, if it is
not `nil`. -/
structure Server (T M : Type) where
  links : Links
  cache : BigCache T M
  pendingGet : ConnId → Option (Bytes → Option ℕ)

namespace Server

variable {T M : Type} [OrderedMap T ℤ Ptr] [OrderedMap M UInt64 (Finset Key)]

def handleGetRequest (json : EncodingJson) (a : Server T M) (r : ConnId) (msg : NodeWireMessage) :
    Go (Server T M) := do
  let reqMsg := json.getReq.deSerialize msg
  let (cache, result) ← a.cache.get reqMsg.key
  let data := match result with
    | .ok data => data
    | .error _ => []
  pure { a with
    cache := cache
    links := a.links.modifyNode r (·.sendMessage (.getRsp ⟨0, reqMsg.pendingKey, data⟩)) }

def handleGetResponse (a : Server T M) (r : ConnId) (msg : NodeWireMessage) :
    Go (Server T M) := do
  let rspMsg ← GetRspMessage.deSerialize msg
  match a.pendingGet r with
  | none => .error .panic
  | some pending =>
    match pending rspMsg.pendingKey with
    | none => pure a
    | some _ => pure { a with
        pendingGet := Function.update a.pendingGet r
          (some (Function.update pending rspMsg.pendingKey none)) }

/-- `handlePut` changes the cache of the node only. -/
def handlePut (timeLeft : UInt64 → Int64) (now : ℕ) (a : Server T M) (msg : NodeWireMessage) :
    Go (Server T M) := do
  let cache ← a.cache.handlePut timeLeft now msg
  pure { a with cache := cache }

def handleDelete (json : EncodingJson) (now : ℕ) (a : Server T M) (msg : NodeWireMessage) :
    Go (Server T M) := do
  let cache ← a.cache.handleDelete json now msg
  pure { a with cache := cache }

/-- `handleMessage` deals with one message. -/
def handleMessage (json : EncodingJson) (timeLeft : UInt64 → Int64) (now : ℕ) (a : Server T M)
    (r : ConnId) (msg : NodeWireMessage) : Go (Server T M) :=
  if a.links.state r = .disconnected then pure a
  else if msg.code = msgGETReq then a.handleGetRequest json r msg
  else if msg.code = msgGETRsp then a.handleGetResponse r msg
  else if msg.code = msgPUT then a.handlePut timeLeft now msg
  else if msg.code = msgDEL then a.handleDelete json now msg
  else pure { a with links := a.links.dispatch json r msg }

/-- A message that the handlers can deal with, when the cache has the given entries. -/
def Digestible (json : EncodingJson) (hash : Hasher) (m : Table) (msg : NodeWireMessage) : Prop :=
  if msg.code = msgGETReq then
    ∀ e, m (hash (json.getReq.deSerialize msg).key) = some e → e.Readable
  else if msg.code = msgGETRsp then Keyed msg.data 0
  else if msg.code = msgPUT then Keyed msg.data 8
  else True

section

variable {a : Server T M} {m : Table} {r : ConnId} {json : EncodingJson}

omit [OrderedMap M UInt64 (Finset Key)] in
theorem handleGetRequest_cases (hrep : a.cache.Rep m) (r : ConnId) (msg : NodeWireMessage) :
    ((∀ e, m (a.cache.hash (json.getReq.deSerialize msg).key) = some e → e.Readable) ∧
      ∃ a', a.handleGetRequest json r msg = .ok a') ∨
    ((∃ e, m (a.cache.hash (json.getReq.deSerialize msg).key) = some e ∧ ¬ e.Readable) ∧
      a.handleGetRequest json r msg = .error .panic) := by
  obtain ⟨i, s, stats, -, hget⟩ := hrep.represents.get (json.getReq.deSerialize msg).key
  rw [handleGetRequest]
  simp only [hget]
  rcases m.get_cases (json.getReq.deSerialize msg).key
    (a.cache.hash (json.getReq.deSerialize msg).key) with ⟨hread, res, hres⟩ | ⟨hno, hres⟩
  · exact .inl ⟨hread, by rw [hres]; exact ⟨_, rfl⟩⟩
  · exact .inr ⟨hno, by rw [hres]; rfl⟩

omit [OrderedMap T ℤ Ptr] [OrderedMap M UInt64 (Finset Key)] in
theorem handleGetResponse_cases (hup : a.pendingGet r ≠ none) (msg : NodeWireMessage) :
    (Keyed msg.data 0 ∧ ∃ a', a.handleGetResponse r msg = .ok a') ∨
      (¬ Keyed msg.data 0 ∧ a.handleGetResponse r msg = .error .panic) := by
  obtain ⟨pending, hpending⟩ := Option.ne_none_iff_exists'.mp hup
  rw [handleGetResponse]
  refine (GetRspMessage.deSerialize_cases msg).imp (fun ⟨hk, rspMsg, hmsg⟩ ↦ ⟨hk, ?_⟩)
    fun ⟨hk, hmsg⟩ ↦ ⟨hk, by rw [hmsg]; rfl⟩
  rw [hmsg, Go.ok_bind, hpending]
  simp only
  split <;> exact ⟨_, rfl⟩

theorem handlePut_cases (hrep : a.cache.Rep m) (hq : a.cache.Quiet) (timeLeft : UInt64 → Int64)
    (now : ℕ) (msg : NodeWireMessage) :
    (Keyed msg.data 8 ∧ ∃ a', a.handlePut timeLeft now msg = .ok a') ∨
      (¬ Keyed msg.data 8 ∧ a.handlePut timeLeft now msg = .error .panic) := by
  rw [handlePut, BigCache.handlePut]
  rcases PutMessage.deSerialize_cases msg with ⟨hk, putMsg, hmsg⟩ | ⟨hk, hmsg⟩
  · obtain ⟨c', res, hset, -⟩ := hrep.set_ok hq putMsg.key putMsg.data
      (if putMsg.expiry = 0 then 0 else timeLeft putMsg.expiry) now
    rw [hmsg, Go.ok_bind]
    simp only [hset]
    exact .inl ⟨hk, _, rfl⟩
  · rw [hmsg]
    exact .inr ⟨hk, rfl⟩

/-- **A handler returns or panics**, and which of the two is up to the message and the entries. -/
theorem handleMessage_cases (json : EncodingJson) (hrep : a.cache.Rep m) (hq : a.cache.Quiet)
    (hconn : a.links.state r = .connected) (hup : a.pendingGet r ≠ none)
    (timeLeft : UInt64 → Int64) (now : ℕ) (msg : NodeWireMessage) :
    (Digestible json a.cache.hash m msg ∧ ∃ a', a.handleMessage json timeLeft now r msg = .ok a') ∨
      (¬ Digestible json a.cache.hash m msg ∧
        a.handleMessage json timeLeft now r msg = .error .panic) := by
  rw [handleMessage, if_neg (by rw [hconn]; decide), Digestible]
  split_ifs with hreq hrsp hput hdel
  · refine (handleGetRequest_cases hrep r msg).imp id fun ⟨⟨e, he, hno⟩, hpanic⟩ ↦ ⟨?_, hpanic⟩
    exact fun hall ↦ hno (hall e he)
  · exact handleGetResponse_cases hup msg
  · exact handlePut_cases hrep hq timeLeft now msg
  · obtain ⟨c', res, hok, -⟩ := hrep.delete_ok hq (json.delete.deSerialize msg).key now
    refine .inl ⟨trivial, ?_⟩
    rw [handleDelete, BigCache.handleDelete, hok]
    exact ⟨_, rfl⟩
  · exact .inl ⟨trivial, _, rfl⟩

/-- **A key that fits the message but not the entry.**  The `PUT` is stored, and the next `GETReq`
for the same key brings the node down. -/
theorem long_key_crashes (hrep : a.cache.Rep m) (hq : a.cache.Quiet)
    (hconn : a.links.state r = .connected) (hup : a.pendingGet r ≠ none) {pm : PutMessage}
    (hlong : maxKeyLength < pm.key.length) (hfits : pm.key.length ≤ 65525)
    {req : NodeWireMessage} (hcode : req.code = msgGETReq)
    (hreq : (json.getReq.deSerialize req).key = pm.key) (timeLeft : UInt64 → Int64) (now : ℕ) :
    ∃ a', a.handleMessage json timeLeft now r pm.serialize = .ok a' ∧
      (a'.cache.Small → ∀ later, a'.handleMessage json timeLeft later r req = .error .panic) := by
  obtain ⟨c', res, hset, hq'⟩ := hrep.set_ok hq pm.key pm.data
    (if pm.expiry = 0 then 0 else timeLeft pm.expiry) now
  refine ⟨{ a with cache := c' }, ?_, fun hsmall later ↦ ?_⟩
  · have hput : pm.serialize.code = msgPUT := rfl
    rw [handleMessage, if_neg (by rw [hconn]; decide), if_neg (by rw [hput]; decide),
      if_neg (by rw [hput]; decide), if_pos hput, handlePut,
      BigCache.handlePut, PutMessage.deSerialize_serialize pm hfits, Go.ok_bind]
    simp only [hset]
    rfl
  · obtain ⟨hrep', hhash, -⟩ := hrep.set hset hsmall
    rcases handleMessage_cases (a := { a with cache := c' }) json hrep' hq' hconn hup
      timeLeft later req with ⟨hd, -⟩ | ⟨-, hpanic⟩
    · rw [Digestible, if_pos hcode] at hd
      have hread := hd _ (by rw [hreq, hhash, Function.update_self])
      change (UInt16.ofNat pm.key.length).toNat ≤ maxKeyLength at hread
      rw [UInt16.toNat_ofNat', Nat.mod_eq_of_lt (by omega)] at hread
      omega
    · exact hpanic

end

/-- **Which messages a node survives.**  The cache of the node is one that calls and messages can
lead to, and the connection is up.  The handler of a message returns if and only if the message can
be digested; otherwise it panics. -/
theorem handleMessage_returns_iff {shardSize : Int64} {ls : List BigCache.Op} {a : Server T M}
    {r : ConnId} (hr : (BigCache.ofNode T M shardSize).Run ls a.cache)
    (hconn : a.links.state r = .connected) (hup : a.pendingGet r ≠ none) (json : EncodingJson)
    (timeLeft : UInt64 → Int64) (now : ℕ) (msg : NodeWireMessage) :
    (a.handleMessage json timeLeft now r msg ≠ .error .panic ↔
      Digestible json a.cache.hash (a.cache.contents ls) msg) ∧
    ((∃ a', a.handleMessage json timeLeft now r msg = .ok a') ↔
      Digestible json a.cache.hash (a.cache.contents ls) msg) := by
  obtain ⟨hrep, hq⟩ := BigCache.ofNode_rep hr
  rcases handleMessage_cases json hrep hq hconn hup timeLeft now msg with
    ⟨hd, a', hok⟩ | ⟨hd, hpanic⟩
  · rw [hok]
    exact ⟨iff_of_true (by simp) hd, iff_of_true ⟨a', rfl⟩ hd⟩
  · rw [hpanic]
    exact ⟨iff_of_false (by simp) hd, iff_of_false (by simp) hd⟩

/-- A node with a connection that is up. -/
def up (cache : BigCache T M) : Server T M where
  links :=
    Links.modifyNode (.new ⟨⟨[65], [], clusterModeACTIVE⟩, fun _ ↦ ⟨[66], [], [], false⟩,
      fun _ ↦ false, 1⟩) 0 (·.setState .connected)
  cache := cache
  pendingGet _ := some fun _ ↦ none

/-- A `PUT` for a key of one byte is handled by a new node. -/
theorem handleMessage_returns_put :
    ∃ c : BigCache (SortedAssoc ℤ Ptr) (SortedAssoc UInt64 (Finset Key)),
      BigCache.newBigCache (nodeConfig 0) none 0 = .ok (.ok c) ∧
      ∃ a', (up c).handleMessage (.plain id) (fun _ ↦ 0) 0 0
        ⟨msgPUT, [0, 0, 0, 0, 0, 0, 0, 0, 1, 0, 75, 1, 2, 3]⟩ = .ok a' := by
  obtain ⟨c, hc⟩ := BigCache.exists_newBigCache (T := SortedAssoc ℤ Ptr)
    (M := SortedAssoc UInt64 (Finset Key))
  refine ⟨c, hc, ?_⟩
  have hr : (BigCache.ofNode _ _ 0).Run [] (up c).cache := .start ⟨0, hc⟩
  have hkeyed : Keyed [0, 0, 0, 0, 0, 0, 0, 0, 1, 0, 75, 1, 2, 3] 8 := by decide
  exact (handleMessage_returns_iff hr rfl (Option.some_ne_none _) (.plain id) _ 0 _).2.mpr hkeyed

/-- **An empty `PUT`** brings a new node down. -/
theorem empty_put_crashes :
    ∃ c : BigCache (SortedAssoc ℤ Ptr) (SortedAssoc UInt64 (Finset Key)),
      BigCache.newBigCache (nodeConfig 0) none 0 = .ok (.ok c) ∧ (up c).links.state 0 = .connected ∧
      (up c).handleMessage (.plain id) (fun _ ↦ 0) 0 0 ⟨msgPUT, []⟩ = .error .panic := by
  obtain ⟨c, hc⟩ := BigCache.exists_newBigCache (T := SortedAssoc ℤ Ptr)
    (M := SortedAssoc UInt64 (Finset Key))
  exact ⟨c, hc, rfl, rfl⟩

end Server
end ClusteredBigCache
