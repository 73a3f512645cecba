import ClusteredBigCache.Queue.Storage
import ClusteredBigCache.Shard.Shard

/-!
# Tables, and the queues that store them

Seen from outside, a shard is a table: under a hash there is an entry — a key, a value and an
expiry timestamp — or there is none.  This file has the tables, what the readers of an encoded
entry make of them, and `Stores q index m`: the live blocks of the queue `q` are the entries of the
table `m`, wrapped, at the positions that `index` gives.  `Stores.freed` and `Stores.pushed` say how
the three change together when a block is given back and when an entry is pushed.
-/

set_option autoImplicit false

namespace ClusteredBigCache

/-! ## Tables -/

/-- What is stored under a hash. -/
structure Entry where
  key : Key
  value : Bytes
  timestamp : UInt64
  deriving DecidableEq, Repr

/-- The entry of each hash. -/
abbrev Table := UInt64 → Option Entry

namespace Entry

/-- The bytes of an entry stored under a hash. -/
def data (h : UInt64) (e : Entry) : Bytes := wrapped e.timestamp h e.key e.value

/-- What `readKeyFromEntry` reads of an entry. -/
def readKey (e : Entry) : Go Key :=
  if (UInt16.ofNat e.key.length).toNat ≤ maxKeyLength then
    .ok (e.key.take (UInt16.ofNat e.key.length).toNat)
  else .error .panic

/-- What `readEntry` reads of an entry. -/
def readValue (h : UInt64) (e : Entry) : Bytes :=
  (e.data h).drop (18 + UInt16.ofNat e.key.length).toNat

/-- What the callback for removed entries is called with, if there is one. -/
def callback (onRemove : Bool) (h : UInt64) (e : Entry) : Go (List (Key × Bytes)) :=
  if onRemove then do
    let key ← e.readKey
    pure [(key, e.readValue h)]
  else pure []

theorem length_data (h : UInt64) (e : Entry) :
    (e.data h).length = 18 + e.key.length + e.value.length := length_wrapped

/-- Entries stored under different hashes have different bytes. -/
theorem hash_eq_of_data_eq {h h' : UInt64} {e e' : Entry} (heq : e.data h = e'.data h') :
    h = h' := by
  have h1 : readHashFromEntry ⟨e.data h, []⟩ = .ok h := readHashFromEntry_wrapped rfl
  have h2 : readHashFromEntry ⟨e.data h, []⟩ = .ok h' := readHashFromEntry_wrapped heq
  exact Except.ok.inj (h1.symm.trans h2)

theorem timestamp_eq_of_data_eq {h h' : UInt64} {e e' : Entry} (heq : e.data h = e'.data h') :
    e.timestamp = e'.timestamp := by
  have h1 : readTimestampFromEntry ⟨e.data h, []⟩ = .ok e.timestamp :=
    readTimestampFromEntry_wrapped rfl
  have h2 : readTimestampFromEntry ⟨e.data h, []⟩ = .ok e'.timestamp :=
    readTimestampFromEntry_wrapped heq
  exact Except.ok.inj (h1.symm.trans h2)

theorem readKey_of_le {e : Entry} (hk : e.key.length ≤ maxKeyLength) : e.readKey = .ok e.key := by
  rw [readKey, ofNat_length_toNat hk, if_pos hk, List.take_length]

theorem readValue_of_le {e : Entry} (hk : e.key.length ≤ maxKeyLength) (h : UInt64) :
    e.readValue h = e.value := by
  have h1 : readEntry ⟨e.data h, []⟩ = .ok (e.readValue h) := readEntry_wrapped rfl
  have h2 : readEntry ⟨e.data h, []⟩ = .ok e.value := readEntry_of_le hk rfl
  exact Except.ok.inj (h1.symm.trans h2)

/-- An entry that reads as having a key is encoded as one with this key. -/
theorem exists_data_eq_of_readKey {e : Entry} {key : Key} (hk : e.readKey = .ok key) :
    key.length ≤ maxKeyLength ∧
      ∃ value, ∀ h, e.data h = data h ⟨key, value, e.timestamp⟩ := by
  rw [readKey] at hk
  split_ifs at hk with hle
  obtain rfl := Except.ok.inj hk
  have hmod : (UInt16.ofNat e.key.length).toNat ≤ e.key.length := by
    rw [UInt16.toNat_ofNat']
    exact Nat.mod_le _ _
  have hlen : (e.key.take (UInt16.ofNat e.key.length).toNat).length =
      (UInt16.ofNat e.key.length).toNat := List.length_take_of_le hmod
  refine ⟨hlen.trans_le hle, e.key.drop (UInt16.ofNat e.key.length).toNat ++ e.value, fun h ↦ ?_⟩
  rw [data, data, wrapped, wrapped]
  simp only
  rw [hlen, UInt16.ofNat_toNat, ← List.append_assoc (List.take _ _), List.take_append_drop]

theorem callback_of_le {e : Entry} (hk : e.key.length ≤ maxKeyLength) (onRemove : Bool)
    (h : UInt64) :
    e.callback onRemove h = .ok (if onRemove then [(e.key, e.value)] else []) := by
  rw [callback, readKey_of_le hk, readValue_of_le hk]
  split <;> rfl

end Entry

namespace Table

/-- What a shard that represents the table returns for a key. -/
def get (m : Table) (key : Key) (h : UInt64) : Go (Except CacheError Bytes) :=
  match m h with
  | none => .ok (.error (.notFound key))
  | some e => do
    let entryKey ← e.readKey
    if key ≠ entryKey then pure (.error (.notFound key)) else pure (.ok (e.readValue h))

/-- The table after one key was evicted: its hash loses an entry with that timestamp. -/
def evictKey (hasher : Hasher) (t : UInt64) (m : Table) (v : Key) : Table :=
  if (m (hasher v)).map Entry.timestamp = some t then Function.update m (hasher v) none else m

theorem evictKey_of_ne {hasher : Hasher} {t : UInt64} {m : Table} {v : Key}
    (hm : ∀ e, m (hasher v) = some e → e.timestamp ≠ t) : m.evictKey hasher t v = m := by
  refine if_neg fun hts ↦ ?_
  obtain ⟨e, he, ht⟩ := Option.map_eq_some_iff.mp hts
  exact hm e he ht

theorem evictKey_of_eq {hasher : Hasher} {t : UInt64} {m : Table} {v : Key} {e : Entry}
    (hm : m (hasher v) = some e) (ht : e.timestamp = t) :
    m.evictKey hasher t v = Function.update m (hasher v) none :=
  if_pos (by rw [hm, Option.map_some, ht])

theorem evictKey_apply (hasher : Hasher) (t : UInt64) (m : Table) (v : Key) (h : UInt64) :
    evictKey hasher t m v h =
      if hasher v = h ∧ (m h).map Entry.timestamp = some t then none else m h := by
  rw [evictKey]
  by_cases hv : hasher v = h
  · subst hv
    split_ifs with ht ht' ht'
    · rw [Function.update_self]
    · exact absurd ⟨rfl, ht⟩ ht'
    · exact absurd ht'.2 ht
    · rfl
  · rw [if_neg (fun hc : hasher v = h ∧ _ ↦ hv hc.1)]
    split_ifs
    · rw [Function.update_of_ne (Ne.symm hv)]
    · rfl

/-- **What an eviction does to a table**: the hashes of the keys lose an entry with that
timestamp. -/
theorem foldl_evictKey (hasher : Hasher) (t : UInt64) (keys : List Key) (m : Table) (h : UInt64) :
    keys.foldl (evictKey hasher t) m h =
      if (∃ v ∈ keys, hasher v = h) ∧ (m h).map Entry.timestamp = some t then none else m h := by
  induction keys generalizing m with
  | nil => simp
  | cons v keys ih =>
    rw [List.foldl_cons, ih, evictKey_apply]
    by_cases ht : (m h).map Entry.timestamp = some t
    · by_cases hv : hasher v = h <;> simp [hv, ht]
    · simp [ht]

end Table

/-! ## Freeing a block -/

namespace BytesQueue

variable {T : Type} [OrderedMap T ℤ Ptr]

/-- The queue after the hash of an entry was erased and the entry deleted. -/
def freed (q : BytesQueue T) (e : ℕ × Bytes) : BytesQueue T :=
  ({ q with array := Bytes.blit q.array (e.1 + 12) (Bytes.toLE 8 0) } : BytesQueue T).removed e

omit [OrderedMap T ℤ Ptr] in
theorem getElem?_erased {q : BytesQueue T} {e : ℕ × Bytes} (hlen : 16 ≤ e.2.length) (i : ℕ)
    (hi : i < e.1 + 4 ∨ e.1 + (e.2.length + 4) ≤ i) :
    (Bytes.blit q.array (e.1 + 12) (Bytes.toLE 8 0))[i]? = q.array[i]? := by
  rw [Bytes.getElem?_blit, if_neg]
  rw [Bytes.length_toLE]
  omega

/-- Erasing the hash of an entry and deleting it. -/
theorem Framed.freed {q : BytesQueue T} {e : ℕ × Bytes} (h : q.Framed e) (hlen : 16 ≤ e.2.length) :
    (do
      let q' ← resetKeyFromEntry q (q.view e)
      q'.delete e.1) = .ok (q.freed e, .ok ()) := by
  have hstore : resetKeyFromEntry q (q.view e) =
      .ok { q with array := Bytes.blit q.array (e.1 + 12) (Bytes.toLE 8 0) } := by
    have hge : ¬ (q.view e).len < timestampSizeInBytes + hashSizeInBytes := not_lt.mpr hlen
    have hbase : ¬ (q.view e).base < q.retired.length := lt_irrefl _
    rw [resetKeyFromEntry, if_neg hge, store, if_neg hbase]
    rfl
  rw [hstore, Go.ok_bind]
  exact h.delete_scribbled (Bytes.length_blit _ _ _) (getElem?_erased hlen)

/-- Erasing the hash of a live entry and deleting it keeps the invariant. -/
theorem Inv.freed {q : BytesQueue T} (h : q.Inv) {e : ℕ × Bytes} (he : e ∈ q.live)
    (hlen : 16 ≤ e.2.length) : (q.freed e).Inv :=
  (h.delete_scribbled he (Bytes.length_blit _ _ _) (getElem?_erased hlen)).2

theorem mem_freed_live {q : BytesQueue T} {e f : ℕ × Bytes} :
    f ∈ (q.freed e).live ↔ f ∈ q.live ∧ f.1 ≠ e.1 := mem_removed_live

/-- What a slice over an entry shows after the entry was freed: the hash is zero. -/
theorem Framed.load_freed {q : BytesQueue T} {e : ℕ × Bytes} (h : q.Framed e)
    (hlen : 16 ≤ e.2.length) :
    ((q.freed e).load (q.view e)).bytes = Bytes.blit e.2 8 (Bytes.toLE 8 0) := by
  have hle := h.le
  have hzero : (Bytes.toLE 8 0).length = 8 := rfl
  rw [← data_of_frame h.bytes]
  refine ((q.freed e).load_view e).trans ?_
  exact Bytes.sub_blit_inside (i := 8) (by omega) (by omega)

end BytesQueue

theorem Entry.blit_data (h : UInt64) (e : Entry) :
    Bytes.blit (e.data h) 8 (Bytes.toLE 8 0) = e.data 0 := blit_wrapped

/-! ## Representing a table

`Stores` relates the hash table and the queue to a `Table`: every entry has its block, which its
hash leads to, and there is no live block that no hash leads to. -/

section Stores

variable {T : Type} [OrderedMap T ℤ Ptr]

/-- The blocks of the queue are the entries of the table, at the positions the index gives. -/
structure Stores (q : BytesQueue T) (index : UInt64 → Option UInt32) (m : Table) : Prop where
  inv : q.Inv
  absent : ∀ h, m h = none → index h = none
  present : ∀ h e, m h = some e → ∃ i, index h = some i ∧ (i.toNat, e.data h) ∈ q.live
  referenced : ∀ x ∈ q.live, ∃ h i, index h = some i ∧ i.toNat = x.1

namespace Stores

variable {q : BytesQueue T} {index : UInt64 → Option UInt32} {m : Table}

/-- An empty queue. -/
theorem of_live_nil (hinv : q.Inv) (hlive : q.live = []) :
    Stores q (fun _ ↦ none) fun _ ↦ none where
  inv := hinv
  absent _ _ := rfl
  present h e he := by cases he
  referenced x hx := by simp [hlive] at hx

/-- The block of an entry. -/
theorem live_of_index (hs : Stores q index m) {h : UInt64} {i : UInt32} (hi : index h = some i) :
    ∃ e, m h = some e ∧ (i.toNat, e.data h) ∈ q.live := by
  cases hm : m h with
  | none =>
    rw [hs.absent h hm] at hi
    cases hi
  | some e =>
    obtain ⟨j, hj, hlive⟩ := hs.present h e hm
    obtain rfl : i = j := Option.some.inj (hi.symm.trans hj)
    exact ⟨e, rfl, hlive⟩

/-- A hash without an entry has no block. -/
theorem not_live_of_none (hs : Stores q index m) {h : UInt64} (hm : m h = none) (i : ℕ)
    (e : Entry) : (i, e.data h) ∉ q.live := by
  intro hlive
  obtain ⟨h', j, hj, hji⟩ := hs.referenced _ hlive
  obtain ⟨e', he', hlive'⟩ := hs.live_of_index hj
  have heq := hs.inv.eq_of_index hlive' hlive hji
  obtain rfl : h' = h := Entry.hash_eq_of_data_eq (congrArg Prod.snd heq)
  rw [hm] at he'
  cases he'

/-- An index is not zero: a zero index means that there is no entry. -/
theorem index_ne_zero (hs : Stores q index m) {h : UInt64} {i : UInt32} (hi : index h = some i) :
    i ≠ 0 := by
  rintro rfl
  obtain ⟨e, -, hlive⟩ := hs.live_of_index hi
  have hpos : 1 ≤ UInt32.toNat 0 := (hs.inv.stored _ hlive).pos
  exact absurd hpos (by decide)

/-- **Different hashes have different indices.** -/
theorem index_injective (hs : Stores q index m) {h h' : UInt64} {i : UInt32}
    (hi : index h = some i) (hi' : index h' = some i) : h = h' := by
  obtain ⟨e, -, hlive⟩ := hs.live_of_index hi
  obtain ⟨e', -, hlive'⟩ := hs.live_of_index hi'
  have heq := hs.inv.eq_of_index hlive hlive' rfl
  exact Entry.hash_eq_of_data_eq (congrArg Prod.snd heq)

/-- Freeing the block of an entry takes the entry out of the table. -/
theorem freed (hs : Stores q index m) {h : UInt64} {i : UInt32} {e : Entry}
    (hi : index h = some i) (hlive : (i.toNat, e.data h) ∈ q.live) :
    Stores (q.freed (i.toNat, e.data h)) (Function.update index h none)
      (Function.update m h none) where
  inv := hs.inv.freed hlive (by simp only [Entry.length_data]; omega)
  absent h' hm := by
    by_cases hh : h' = h
    · rw [hh, Function.update_self]
    · rw [Function.update_of_ne hh] at hm ⊢
      exact hs.absent h' hm
  present h' e' hm := by
    have hh : h' ≠ h := by
      rintro rfl
      simp at hm
    rw [Function.update_of_ne hh] at hm ⊢
    obtain ⟨j, hj, hlive'⟩ := hs.present h' e' hm
    refine ⟨j, hj, BytesQueue.mem_freed_live.mpr ⟨hlive', fun hji ↦ hh ?_⟩⟩
    exact hs.index_injective hj (UInt32.toNat_inj.mp hji ▸ hi)
  referenced x hx := by
    obtain ⟨hx, hne⟩ := BytesQueue.mem_freed_live.mp hx
    obtain ⟨h', j, hj, hjx⟩ := hs.referenced x hx
    have hh : h' ≠ h := by
      rintro rfl
      obtain rfl : i = j := Option.some.inj (hi.symm.trans hj)
      exact hne hjx.symm
    exact ⟨h', j, by rwa [Function.update_of_ne hh], hjx⟩

/-- Pushing an entry puts it into the table, as long as its index and its length fit thirty-two
bits. -/
theorem pushed (hs : Stores q index m) {h : UInt64} (hm : m h = none) {e : Entry}
    {q' : BytesQueue T} {i : ℕ} (ho : BytesQueue.PushOutcome q (e.data h) q' (.ok i))
    (hfit : i < 2 ^ 32 ∧ (e.data h).length < 2 ^ 32) :
    Stores q' (Function.update index h (some (UInt32.ofNat i)))
      (Function.update m h (some e)) := by
  have hlen := Entry.length_data h e
  have htoNat : (UInt32.ofNat i).toNat = i := by
    rw [UInt32.toNat_ofNat']
    exact Nat.mod_eq_of_lt (by omega)
  have hlive : q'.live = (i, e.data h) :: q.live := ho.live_of_ok
  exact {
    inv := ho.inv hs.inv (by omega) (by omega)
    absent := by
      intro h' hm'
      have hh : h' ≠ h := by
        rintro rfl
        simp at hm'
      rw [Function.update_of_ne hh] at hm' ⊢
      exact hs.absent h' hm'
    present := by
      intro h' e' hm'
      rw [hlive]
      by_cases hh : h' = h
      · subst hh
        obtain rfl : e = e' := by simpa using hm'
        exact ⟨_, Function.update_self _ _ _, by rw [htoNat]; exact List.mem_cons_self⟩
      · rw [Function.update_of_ne hh] at hm' ⊢
        obtain ⟨j, hj, hmem⟩ := hs.present h' e' hm'
        exact ⟨j, hj, List.mem_cons_of_mem _ hmem⟩
    referenced := by
      intro x hx
      rw [hlive] at hx
      rcases List.mem_cons.mp hx with rfl | hx
      · exact ⟨h, _, Function.update_self _ _ _, htoNat⟩
      · obtain ⟨h', j, hj, hjx⟩ := hs.referenced x hx
        have hh : h' ≠ h := by
          rintro rfl
          rw [hs.absent h' hm] at hj
          cases hj
        exact ⟨h', j, by rwa [Function.update_of_ne hh], hjx⟩ }

end Stores
end Stores

end ClusteredBigCache
