import ClusteredBigCache.Cache.Store
import ClusteredBigCache.Cluster.Message

/-!
# What a replica makes of a write

`Put` and `Delete` send the key they were called with to every peer, and `Get` asks every peer for
it.  The three messages name the key in two different ways: a `PUT` has its bytes, and `DEL` and
`GETReq` have it as a string of a JSON text, which can only be UTF-8.

`BigCache.handlePut` and `BigCache.handleDelete` are the handlers, on the cache of the replica, and
those of `Store` are the same on what the cache is for the cluster.  `Holds.handleMessage` is the
step between the two: on a cache that holds a store, used with keys that can be stored and do not
share a hash, the handler of a message makes the write that was sent.

`same_key_iff` says that a replica reads the same key from all three exactly when the key is UTF-8.
When it is not, as in `undeleted_key`, a `Delete` does not remove from the replica what the `Put`
stored there.
-/

set_option autoImplicit false

namespace ClusteredBigCache

/-! ## The messages of a key

A write is sent with the time at which its value expires, or zero. -/

/-- What `Put` and `Delete` send to a peer. -/
def Write.message (expiry : UInt64) : Write → NodeMessage
  | .put key data => .put { code := 0, key := key, expiry := expiry, data := data }
  | .delete key => .delete { code := 0, key := key }

/-- What `Get` sends to a peer, by `getData`. -/
def getMessage (key randStr : Bytes) : NodeMessage :=
  .getReq { code := 0, key := key, pendingKey := key ++ randStr }

/-! ## The handlers

They come twice: on the cache itself, as the source has them, and on the store that the cache is for
the cluster.  What they do to the rest of the node is not much, and is left to `Dispatch`. -/

namespace BigCache

variable {T M : Type} [OrderedMap T ℤ Ptr] [OrderedMap M UInt64 (Finset Key)]

/-- `handlePut`, at a given time; `timeLeft` is the duration until an expiry time, as the package
`time` computes it. -/
def handlePut (timeLeft : UInt64 → Int64) (now : ℕ) (c : BigCache T M) (msg : NodeWireMessage) :
    Go (BigCache T M) := do
  let putMsg ← PutMessage.deSerialize msg
  let duration := if putMsg.expiry = 0 then 0 else timeLeft putMsg.expiry
  let (c, _) ← c.set putMsg.key putMsg.data duration now
  pure c

def handleDelete (json : EncodingJson) (now : ℕ) (c : BigCache T M) (msg : NodeWireMessage) :
    Go (BigCache T M) := do
  let (c, _) ← c.delete (json.delete.deSerialize msg).key now
  pure c

/-- What `handleMessage` does to the cache of the node, when the message is a write. -/
def handleMessage (json : EncodingJson) (timeLeft : UInt64 → Int64) (now : ℕ) (c : BigCache T M)
    (msg : NodeWireMessage) : Go (BigCache T M) :=
  if msg.code = msgPUT then c.handlePut timeLeft now msg
  else if msg.code = msgDEL then c.handleDelete json now msg
  else pure c

/-- What `Put`, of a value that does not expire, and `Delete` do to the cache of their own node;
and whether they go on to send messages, which `Put` does when `Set` has returned no error. -/
def write (now : ℕ) (c : BigCache T M) : Write → Go (BigCache T M × Bool)
  | .put key data => do
    let (c, r) ← c.set key data 0 now
    pure (c, r.toOption.isSome)
  | .delete key => do
    let (c, _) ← c.delete key now
    pure (c, true)

end BigCache

namespace Store

/-- `handlePut` stores the data in the cache of the node. -/
def handlePut (store : Store) (msg : NodeWireMessage) : Go Store := do
  let putMsg ← PutMessage.deSerialize msg
  pure (store.write (.put putMsg.key putMsg.data))

/-- `handleDelete` deletes the key from the cache of the node. -/
def handleDelete (json : EncodingJson) (store : Store) (msg : NodeWireMessage) : Store :=
  store.write (.delete (json.delete.deSerialize msg).key)

/-- What `handleMessage` does to the cache of the node. -/
def handleMessage (json : EncodingJson) (store : Store) (msg : NodeWireMessage) : Go Store :=
  if msg.code = msgPUT then store.handlePut msg
  else if msg.code = msgDEL then pure (store.handleDelete json msg)
  else pure store

end Store

/-- A key that the messages can carry: valid UTF-8, and not too long for a `PUT`. -/
def Sendable (key : Bytes) : Prop := Utf8.repair key = key ∧ key.length ≤ 65525

instance (key : Bytes) : Decidable (Sendable key) := inferInstanceAs (Decidable (_ ∧ _))

/-- A key that the messages can carry and the cache can read back from its entry. -/
def Storable (key : Bytes) : Prop := Utf8.repair key = key ∧ key.length ≤ maxKeyLength

instance (key : Bytes) : Decidable (Storable key) := inferInstanceAs (Decidable (_ ∧ _))

theorem Storable.sendable {key : Bytes} (h : Storable key) : Sendable key :=
  ⟨h.1, h.2.trans (by decide)⟩

/-! ## The keys that are read back

The bytes of a `PUT` come back as they are.  A JSON text brings back its own repair of the key. -/

variable {json : EncodingJson} {key : Bytes}

theorem put_message_key (hlen : key.length ≤ 65525) (data : Bytes) (expiry : UInt64) :
    PutMessage.deSerialize (((Write.put key data).message expiry).serialize json) =
      .ok ⟨msgPUT, key, expiry, data⟩ :=
  PutMessage.deSerialize_serialize ⟨0, key, expiry, data⟩ hlen

theorem delete_message_key (hdelete : json.delete.Repairs) (key : Bytes) (expiry : UInt64) :
    (json.delete.deSerialize (((Write.delete key).message expiry).serialize json)).key =
      Utf8.repair key :=
  congrArg DeleteMessage.key (Json.deSerialize_mk (hdelete ⟨msgDEL, key⟩))

/-- A key that is valid comes back from a `DEL` as it is. -/
theorem delete_message_valid (hdelete : json.delete.KeepsValid) (hkey : Utf8.repair key = key)
    (expiry : UInt64) :
    (json.delete.deSerialize (((Write.delete key).message expiry).serialize json)).key = key :=
  congrArg DeleteMessage.key (Json.deSerialize_mk
    (hdelete ⟨msgDEL, key⟩ (congrArg (DeleteMessage.mk msgDEL) hkey)))

theorem getReq_message_key (hgetReq : json.getReq.Repairs) (key randStr : Bytes) :
    (json.getReq.deSerialize ((getMessage key randStr).serialize json)).key = Utf8.repair key :=
  congrArg GetReqMessage.key (Json.deSerialize_mk (hgetReq ⟨msgGETReq, key, key ++ randStr⟩))

namespace Store

theorem handlePut_message (store : Store) (hlen : key.length ≤ 65525) (data : Bytes)
    (expiry : UInt64) :
    store.handlePut (((Write.put key data).message expiry).serialize json) =
      .ok (store.write (.put key data)) := by
  rw [handlePut, put_message_key hlen, Go.ok_bind]
  rfl

theorem handleDelete_message (hdelete : json.delete.Repairs) (store : Store) (key : Bytes)
    (expiry : UInt64) :
    store.handleDelete json (((Write.delete key).message expiry).serialize json) =
      store.write (.delete (Utf8.repair key)) := by
  rw [handleDelete, delete_message_key hdelete]

/-- **A replica makes the write that was sent to it**, if its key can be sent. -/
theorem handleMessage_message {w : Write} (hdelete : json.delete.KeepsValid) (store : Store)
    (hkey : Sendable w.key) (expiry : UInt64) :
    store.handleMessage json ((w.message expiry).serialize json) = .ok (store.write w) := by
  cases w with
  | put key data => exact store.handlePut_message hkey.2 data expiry
  | delete key =>
    have hvalid : Utf8.repair key = key := hkey.1
    have hdel : store.handleDelete json (((Write.delete key).message expiry).serialize json) =
        store.write (.delete key) := by
      rw [handleDelete, delete_message_valid hdelete hvalid]
    exact congrArg Except.ok hdel

end Store

namespace BigCache

variable {T M : Type} [OrderedMap T ℤ Ptr] [OrderedMap M UInt64 (Finset Key)]
  {c c' : BigCache T M} {keys : Set Key} {store : Store} {w : Write} {now : ℕ}

/-- **The local part of a call is its write**, and the call goes on to send its messages. -/
theorem Holds.write {goesOn : Bool} (h : c.Holds keys store) (hinj : Set.InjOn c.hash keys)
    (hkey : w.key ∈ keys) (hlen : w.key.length ≤ maxKeyLength)
    (hok : c.write now w = .ok (c', goesOn)) (hsmall : c'.Small) :
    c'.Holds keys (store.write w) ∧ c'.hash = c.hash ∧ goesOn = true := by
  cases w with
  | put key data =>
    obtain ⟨⟨c₁, r⟩, hset, hpair⟩ := Go.bind_eq_ok.mp hok
    obtain ⟨rfl, rfl⟩ := Prod.mk.inj (Except.ok.inj hpair)
    obtain ⟨hholds, hhash, expiry, rfl⟩ := h.set hinj hkey hlen hset hsmall
    exact ⟨hholds, hhash, rfl⟩
  | delete key =>
    obtain ⟨⟨c₁, r⟩, hdel, hpair⟩ := Go.bind_eq_ok.mp hok
    obtain ⟨rfl, rfl⟩ := Prod.mk.inj (Except.ok.inj hpair)
    obtain ⟨hholds, hhash⟩ := h.delete hinj hkey hdel
    exact ⟨hholds, hhash, rfl⟩

/-- **The cache of a replica makes the write that was sent to it**, when its keys do not share a
hash and can be sent and stored. -/
theorem Holds.handleMessage {timeLeft : UInt64 → Int64} {expiry : UInt64}
    (h : c.Holds keys store) (hinj : Set.InjOn c.hash keys) (hdelete : json.delete.KeepsValid)
    (hkey : w.key ∈ keys) (hstorable : Storable w.key)
    (hok : c.handleMessage json timeLeft now ((w.message expiry).serialize json) = .ok c')
    (hsmall : c'.Small) : c'.Holds keys (store.write w) ∧ c'.hash = c.hash := by
  cases w with
  | put key data =>
    have hsendable : Sendable key := hstorable.sendable
    have hput : c.handlePut timeLeft now (((Write.put key data).message expiry).serialize json) =
        .ok c' := hok
    rw [handlePut, put_message_key hsendable.2, Go.ok_bind] at hput
    obtain ⟨⟨c₁, r⟩, hset, hpair⟩ := Go.bind_eq_ok.mp hput
    obtain rfl := Except.ok.inj hpair
    obtain ⟨hholds, hhash, -⟩ := h.set hinj hkey hstorable.2 hset hsmall
    exact ⟨hholds, hhash⟩
  | delete key =>
    have hvalid : Utf8.repair key = key := hstorable.1
    have hhandle : c.handleDelete json now
        (((Write.delete key).message expiry).serialize json) = .ok c' := hok
    rw [handleDelete, delete_message_valid hdelete hvalid] at hhandle
    obtain ⟨⟨c₁, r⟩, hdel, hpair⟩ := Go.bind_eq_ok.mp hhandle
    obtain rfl := Except.ok.inj hpair
    exact h.delete hinj hkey hdel

/-- The cache of a node that has just been made, with little room in the beginning. -/
def someCache : Option (BigCache (SortedAssoc ℤ Ptr) (SortedAssoc UInt64 (Finset Key))) :=
  (newBigCache ⟨16, 0, 1, 0, false⟩ none 0).toOption.bind Except.toOption

/-- It is empty. -/
theorem someCache_holds {cache : BigCache (SortedAssoc ℤ Ptr) (SortedAssoc UInt64 (Finset Key))}
    (h : someCache = some cache) (keys : Set Key) : cache.Holds keys fun _ ↦ none :=
  newBigCache_holds (newBigCache_of_toOption h) (by decide) rfl keys

end BigCache

/-! ## Keys that are not UTF-8

`Put` does not look at its key, and a key of any bytes is stored. -/

/-- **A replica reads the same key from a `PUT`, a `DEL` and a `GETReq`**, and a replicated `Delete`
removes what the replicated `Put` stored, exactly when the key is valid UTF-8. -/
theorem same_key_iff (hdelete : json.delete.Repairs) (hgetReq : json.getReq.Repairs)
    (hlen : key.length ≤ 65525) :
    ((∀ data expiry, ∃ msg, PutMessage.deSerialize
          (((Write.put key data).message expiry).serialize json) = .ok msg ∧ msg.key = key) ∧
      (∀ expiry, (json.delete.deSerialize
        (((Write.delete key).message expiry).serialize json)).key = key) ∧
      (∀ randStr, (json.getReq.deSerialize
        ((getMessage key randStr).serialize json)).key = key) ∧
      ∀ (store : Store) data expiry, ∃ store', store.handlePut
          (((Write.put key data).message expiry).serialize json) = .ok store' ∧
        store'.handleDelete json (((Write.delete key).message expiry).serialize json) key = none) ↔
      Utf8.Valid key := by
  rw [← Utf8.repair_eq_self_iff]
  constructor
  · rintro ⟨-, hdel, -⟩
    rw [← delete_message_key hdelete key 0, hdel]
  · intro hkey
    refine ⟨fun data expiry ↦ ⟨_, put_message_key hlen data expiry, rfl⟩,
      fun expiry ↦ (delete_message_key hdelete key expiry).trans hkey,
      fun randStr ↦ (getReq_message_key hgetReq key randStr).trans hkey,
      fun store data expiry ↦ ⟨_, store.handlePut_message hlen data expiry, ?_⟩⟩
    rw [Store.handleDelete_message hdelete, hkey]
    exact Function.update_self ..

/-- The key `é`, in UTF-8. -/
theorem same_key_accented :
    ∃ store', Store.handlePut (fun _ ↦ none) (((Write.put [0xC3, 0xA9] [7]).message 0).serialize
        (.plain Utf8.repair)) = .ok store' ∧
      store'.handleDelete (.plain Utf8.repair)
        (((Write.delete [0xC3, 0xA9]).message 0).serialize (.plain Utf8.repair))
        [0xC3, 0xA9] = none := by
  have hvalid : Utf8.Valid [0xC3, 0xA9] := Utf8.repair_eq_self_iff.mp (by decide)
  exact ((same_key_iff (EncodingJson.plain_delete _) (EncodingJson.plain_getReq _)
    (by decide)).mpr hvalid).2.2.2 (fun _ ↦ none) [7] 0

/-- **A `Delete` that leaves the data on the replica**: the key is the single byte `FF`, and the
`DEL` message names the key `U+FFFD`. -/
theorem undeleted_key :
    ∃ store', Store.handlePut (fun _ ↦ none) (((Write.put [0xFF] [7]).message 0).serialize
        (.plain Utf8.repair)) = .ok store' ∧
      (EncodingJson.delete (.plain Utf8.repair)).Repairs ∧
      ((EncodingJson.delete (.plain Utf8.repair)).deSerialize
        (((Write.delete [0xFF]).message 0).serialize (.plain Utf8.repair))).key =
          [0xEF, 0xBF, 0xBD] ∧
      store'.handleDelete (.plain Utf8.repair)
        (((Write.delete [0xFF]).message 0).serialize (.plain Utf8.repair)) [0xFF] = some [7] := by
  have hrepair : Utf8.repair [0xFF] = [0xEF, 0xBF, 0xBD] := by decide
  refine ⟨_, Store.handlePut_message _ (by decide) [7] 0, EncodingJson.plain_delete _, ?_, ?_⟩
  · rw [delete_message_key (EncodingJson.plain_delete _), hrepair]
  · rw [Store.handleDelete_message (EncodingJson.plain_delete _), hrepair]
    decide

end ClusteredBigCache
