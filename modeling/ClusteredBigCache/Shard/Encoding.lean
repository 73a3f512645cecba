import ClusteredBigCache.Queue.BytesQueue

/-!
# The encoding of an entry

What a shard pushes into its queue is the timestamp, the hash, the length of the key, the key and
the value, one after the other: `wrapped timestamp hash key entry`.  `wrapEntry` builds it in a
buffer that is shared between calls and only replaced when it is too small; `wrapEntry_fst` says
that what it returns does not depend on what the buffer held.

The length of the key is kept in two bytes, and both `readEntry` and `readKeyFromEntry` compute
the end of the key in sixteen-bit arithmetic.  What they return on a wrapped entry is spelled out
for keys of every length (`readKeyFromEntry_wrapped`, `readEntry_wrapped`): keys of at most
`maxKeyLength = 65517` bytes are read back, with longer ones the offset wraps around.
-/

set_option autoImplicit false

namespace ClusteredBigCache

/-- Number of bytes used for timestamp. -/
def timestampSizeInBytes : ℕ := 8

/-- Number of bytes used for hash. -/
def hashSizeInBytes : ℕ := 8

/-- Number of bytes used for size of entry key. -/
def keySizeInBytes : ℕ := 2

/-- Number of bytes used for all headers. -/
def headersSizeInBytes : ℕ := timestampSizeInBytes + hashSizeInBytes + keySizeInBytes

/-! ## The functions of the source -/

/-- `wrapEntry` returns the wrapped entry and what the shared buffer holds afterwards. -/
def wrapEntry (timestamp hash : UInt64) (key entry buffer : Bytes) : Bytes × Bytes :=
  let keyLength := key.length
  let blobLength := entry.length + headersSizeInBytes + keyLength
  let blob := if blobLength > buffer.length then List.replicate blobLength 0 else buffer
  let blob := Bytes.blit blob 0 (Bytes.toLE 8 timestamp.toNat)
  let blob := Bytes.blit blob timestampSizeInBytes (Bytes.toLE 8 hash.toNat)
  let blob := Bytes.blit blob (timestampSizeInBytes + hashSizeInBytes)
    (Bytes.toLE 2 (UInt16.ofNat keyLength).toNat)
  let blob := Bytes.blit blob headersSizeInBytes key
  let blob := Bytes.blit blob (headersSizeInBytes + keyLength) entry
  (blob.take blobLength, blob)

/-- The key length field of an entry. -/
def readKeyLength (data : GoSlice) : Go UInt16 := do
  (← data.sliceFrom (timestampSizeInBytes + hashSizeInBytes)).u16

/-- `readEntry` copies the value out of an entry. -/
def readEntry (data : GoSlice) : Go Bytes := do
  let length ← readKeyLength data
  let off := (UInt16.ofNat headersSizeInBytes + length).toNat
  if data.len < off then .error .panic
  else do
    let src ← data.sliceFrom off
    pure (Bytes.blit (List.replicate (data.len - off) 0) 0 src.bytes)

def readTimestampFromEntry (data : GoSlice) : Go UInt64 := data.u64

/-- `readKeyFromEntry` copies the key out of an entry. -/
def readKeyFromEntry (data : GoSlice) : Go Bytes := do
  let length ← readKeyLength data
  let src ← data.slice headersSizeInBytes (UInt16.ofNat headersSizeInBytes + length).toNat
  pure (Bytes.blit (List.replicate length.toNat 0) 0 src.bytes)

def readHashFromEntry (data : GoSlice) : Go UInt64 := do
  (← data.sliceFrom timestampSizeInBytes).u64

/-- `resetKeyFromEntry` overwrites the hash of an entry of the queue. -/
def resetKeyFromEntry {T : Type} (q : BytesQueue T) (data : Slice) : Go (BytesQueue T) :=
  if data.len < timestampSizeInBytes + hashSizeInBytes then .error .panic
  else .ok (q.store data timestampSizeInBytes (Bytes.toLE 8 0))

/-! ## A wrapped entry -/

/-- The bytes of an entry. -/
def wrapped (timestamp hash : UInt64) (key entry : Bytes) : Bytes :=
  Bytes.toLE 8 timestamp.toNat ++ (Bytes.toLE 8 hash.toNat ++
    (Bytes.toLE 2 (UInt16.ofNat key.length).toNat ++ (key ++ entry)))

/-- The length of the longest key that is read back. -/
def maxKeyLength : ℕ := 65517

variable {timestamp hash : UInt64} {key entry : Bytes}

@[simp] theorem length_wrapped :
    (wrapped timestamp hash key entry).length = 18 + key.length + entry.length := by
  simp only [wrapped, List.length_append, Bytes.length_toLE]
  omega

/-- **`wrapEntry` builds the wrapped entry**, whatever the buffer held. -/
theorem wrapEntry_fst (buffer : Bytes) :
    (wrapEntry timestamp hash key entry buffer).1 = wrapped timestamp hash key entry := by
  have hfill : ∀ blob : Bytes, Bytes.blit (Bytes.blit (Bytes.blit (Bytes.blit (Bytes.blit blob 0
      (Bytes.toLE 8 timestamp.toNat)) 8 (Bytes.toLE 8 hash.toNat)) 16
      (Bytes.toLE 2 (UInt16.ofNat key.length).toNat)) 18 key) (18 + key.length) entry =
      Bytes.blit blob 0 (wrapped timestamp hash key entry) := by
    intro blob
    rw [Bytes.blit_zero_append blob (by simp), Bytes.blit_zero_append blob (by simp),
      Bytes.blit_zero_append blob (by simp), Bytes.blit_zero_append blob (by simp; omega)]
    simp only [wrapped, List.append_assoc]
  have hlen : entry.length + headersSizeInBytes + key.length =
      (wrapped timestamp hash key entry).length := by
    rw [length_wrapped]
    simp only [headersSizeInBytes, timestampSizeInBytes, hashSizeInBytes, keySizeInBytes]
    omega
  simp only [wrapEntry, timestampSizeInBytes, hashSizeInBytes] at hlen ⊢
  rw [show headersSizeInBytes = 18 from rfl] at hlen ⊢
  rw [hfill, hlen]
  refine Bytes.take_blit_zero ?_
  split
  · simp
  · omega

/-! ## Reading a wrapped entry

The offset of the value is computed in sixteen bits.  What the readers make of an entry is said for
keys of every length, and the bound on the key comes in only with the round trips. -/

variable {data : GoSlice}

theorem readTimestampFromEntry_wrapped (h : data.bytes = wrapped timestamp hash key entry) :
    readTimestampFromEntry data = .ok timestamp :=
  GoSlice.u64_of_append h

theorem readHashFromEntry_wrapped (h : data.bytes = wrapped timestamp hash key entry) :
    readHashFromEntry data = .ok hash := by
  have hdrop : data.bytes.drop 8 = Bytes.toLE 8 hash.toNat ++
      (Bytes.toLE 2 (UInt16.ofNat key.length).toNat ++ (key ++ entry)) := by
    rw [h, wrapped, List.drop_left' (Bytes.length_toLE _ _)]
  rw [readHashFromEntry, timestampSizeInBytes,
    GoSlice.sliceFrom_eq (by rw [h, length_wrapped]; omega), Go.ok_bind]
  exact GoSlice.u64_of_append hdrop

theorem readKeyLength_wrapped (h : data.bytes = wrapped timestamp hash key entry) :
    readKeyLength data = .ok (UInt16.ofNat key.length) := by
  have h16 : timestampSizeInBytes + hashSizeInBytes = 16 := rfl
  have hdrop : data.bytes.drop 16 =
      Bytes.toLE 2 (UInt16.ofNat key.length).toNat ++ (key ++ entry) := by
    rw [h, wrapped, ← List.append_assoc, List.drop_left' (by simp)]
  rw [readKeyLength, h16, GoSlice.sliceFrom_eq (by rw [h, length_wrapped]; omega), Go.ok_bind]
  exact GoSlice.u16_of_append hdrop

theorem drop_wrapped : (wrapped timestamp hash key entry).drop 18 = key ++ entry := by
  rw [wrapped, ← List.append_assoc, ← List.append_assoc, List.drop_left' (by simp)]

/-- The offset of the value, as the source computes it, is within the entry. -/
theorem valueOffset_le :
    (18 + UInt16.ofNat key.length).toNat ≤ (wrapped timestamp hash key entry).length := by
  rw [length_wrapped, UInt16.toNat_add, UInt16.toNat_ofNat']
  have hmod := Nat.mod_le (UInt16.toNat 18 + key.length % 2 ^ 16) (2 ^ 16)
  have hlen := Nat.mod_le key.length (2 ^ 16)
  have h18 : UInt16.toNat 18 = 18 := rfl
  omega

/-- **What `readEntry` reads**, for keys of every length. -/
theorem readEntry_wrapped (h : data.bytes = wrapped timestamp hash key entry) :
    readEntry data =
      .ok ((wrapped timestamp hash key entry).drop (18 + UInt16.ofNat key.length).toNat) := by
  have h18 : UInt16.ofNat headersSizeInBytes = 18 := rfl
  have hle : (18 + UInt16.ofNat key.length).toNat ≤ data.bytes.length := h ▸ valueOffset_le
  rw [readEntry, readKeyLength_wrapped h, Go.ok_bind, h18, if_neg (by rw [GoSlice.len]; omega),
    GoSlice.sliceFrom_eq hle, Go.ok_bind, Go.pure_eq_ok,
    Bytes.blit_replicate (by rw [List.length_drop, GoSlice.len]), h]

/-- **What `readKeyFromEntry` reads**, for keys of every length. -/
theorem readKeyFromEntry_wrapped (h : data.bytes = wrapped timestamp hash key entry) :
    readKeyFromEntry data =
      if (UInt16.ofNat key.length).toNat ≤ maxKeyLength then
        .ok (key.take (UInt16.ofNat key.length).toNat)
      else .error .panic := by
  have h18 : UInt16.ofNat headersSizeInBytes = 18 := rfl
  have hkey : (UInt16.ofNat key.length).toNat ≤ key.length := by
    rw [UInt16.toNat_ofNat']
    exact Nat.mod_le _ _
  have hlt := (UInt16.ofNat key.length).toNat_lt
  have hlen : data.bytes.length = 18 + key.length + entry.length := by rw [h, length_wrapped]
  have hend : (18 + UInt16.ofNat key.length).toNat =
      (18 + (UInt16.ofNat key.length).toNat) % 2 ^ 16 := UInt16.toNat_add _ _
  rw [readKeyFromEntry, readKeyLength_wrapped h, Go.ok_bind, h18, hend,
    show headersSizeInBytes = 18 from rfl]
  generalize (UInt16.ofNat key.length).toNat = n at *
  by_cases hn : n ≤ maxKeyLength
  · have hn' : n ≤ 65517 := hn
    rw [if_pos hn, Nat.mod_eq_of_lt (by omega), GoSlice.slice_eq (by omega) (by omega), Go.ok_bind,
      Go.pure_eq_ok, Bytes.blit_replicate, h]
    · rw [Bytes.sub, drop_wrapped, Nat.add_sub_cancel_left, List.take_append_of_le_length hkey]
    · rw [Bytes.length_sub]
      omega
  · -- the end of the key wraps around and comes before its start
    have hn' : ¬ n ≤ 65517 := hn
    rw [if_neg hn, GoSlice.slice, if_neg (by omega)]
    rfl

theorem ofNat_length_toNat (h : key.length ≤ maxKeyLength) :
    (UInt16.ofNat key.length).toNat = key.length := by
  have h' : key.length ≤ 65517 := h
  rw [UInt16.toNat_ofNat']
  exact Nat.mod_eq_of_lt (by omega)

/-- The value is read back when its key is not too long. -/
theorem readEntry_of_le (hk : key.length ≤ maxKeyLength)
    (h : data.bytes = wrapped timestamp hash key entry) : readEntry data = .ok entry := by
  have hk' : key.length ≤ 65517 := hk
  have hoff : (18 + UInt16.ofNat key.length).toNat = 18 + key.length := by
    rw [UInt16.toNat_add, ofNat_length_toNat hk]
    exact Nat.mod_eq_of_lt (by simp; omega)
  rw [readEntry_wrapped h, hoff, ← List.drop_drop, drop_wrapped, List.drop_left]

/-- The key is read back when it is not too long. -/
theorem readKeyFromEntry_of_le (hk : key.length ≤ maxKeyLength)
    (h : data.bytes = wrapped timestamp hash key entry) : readKeyFromEntry data = .ok key := by
  rw [readKeyFromEntry_wrapped h, ofNat_length_toNat hk, if_pos hk, List.take_length]

/-! ## Round trips -/

/-- The readers find the parts of an entry in a slice. -/
structure Decodes (data : GoSlice) (timestamp hash : UInt64) (key entry : Bytes) : Prop where
  timestamp : readTimestampFromEntry data = .ok timestamp
  hash : readHashFromEntry data = .ok hash
  key : readKeyFromEntry data = .ok key
  entry : readEntry data = .ok entry

/-- **The parts of a wrapped entry are read back** if and only if its key is not too long. -/
theorem decodes_wrapped_iff (hk : key.length < 2 ^ 16)
    (h : data.bytes = wrapped timestamp hash key entry) :
    Decodes data timestamp hash key entry ↔ key.length ≤ maxKeyLength := by
  constructor
  · intro hd
    by_contra hlong
    have hread := hd.key
    rw [readKeyFromEntry_wrapped h, UInt16.toNat_ofNat', Nat.mod_eq_of_lt hk, if_neg hlong] at hread
    cases hread
  · intro hle
    exact ⟨readTimestampFromEntry_wrapped h, readHashFromEntry_wrapped h,
      readKeyFromEntry_of_le hle h, readEntry_of_le hle h⟩

/-- Writing a zero hash into a wrapped entry. -/
theorem blit_wrapped : Bytes.blit (wrapped timestamp hash key entry) timestampSizeInBytes
    (Bytes.toLE 8 0) = wrapped timestamp 0 key entry := by
  have hmid := Bytes.blit_middle (a := Bytes.toLE 8 timestamp.toNat) (b := Bytes.toLE 8 hash.toNat)
    (c := Bytes.toLE 2 (UInt16.ofNat key.length).toNat ++ (key ++ entry))
    (show (Bytes.toLE 8 0).length = (Bytes.toLE 8 hash.toNat).length by simp)
  rw [Bytes.length_toLE] at hmid
  exact hmid

/-- **`resetKeyFromEntry` erases the hash of a wrapped entry**, and nothing else of it. -/
theorem load_resetKeyFromEntry {T : Type} {q : BytesQueue T} {s : Slice} (hs : q.InBounds s)
    (h : (q.load s).bytes = wrapped timestamp hash key entry) :
    ∃ q', resetKeyFromEntry q s = .ok q' ∧
      (q'.load s).bytes = wrapped timestamp 0 key entry := by
  have hlen : s.len = 18 + key.length + entry.length := by
    rw [← BytesQueue.length_load hs, h, length_wrapped]
  have h16 : timestampSizeInBytes + hashSizeInBytes = 16 := rfl
  refine ⟨_, if_neg (by omega), ?_⟩
  rw [BytesQueue.load_store hs (by simp [timestampSizeInBytes]; omega), h, blit_wrapped]

/-- `resetKeyFromEntry` changes the hash that is read from a slice, and nothing else that is. -/
structure ErasesHash {T : Type} (q : BytesQueue T) (s : Slice) (q' : BytesQueue T) : Prop where
  reset : resetKeyFromEntry q s = .ok q'
  hash : readHashFromEntry (q'.load s) = .ok 0
  timestamp : readTimestampFromEntry (q'.load s) = readTimestampFromEntry (q.load s)
  key : readKeyFromEntry (q'.load s) = readKeyFromEntry (q.load s)
  entry : readEntry (q'.load s) = readEntry (q.load s)

/-- **The encoding of entries.**  What `wrapEntry` returns has the expected length, whatever the
shared buffer held.  The readers find the timestamp, the hash, the key and the value in every slice
that shows it, whatever else the array holds, and `resetKeyFromEntry` changes only the hash, if and
only if the key has at most `maxKeyLength` bytes. -/
theorem entry_roundTrip_iff (T : Type) (timestamp hash : UInt64) (key entry buffer : Bytes)
    (hkey : key.length ≤ 65535) :
    (wrapEntry timestamp hash key entry buffer).1.length = 18 + key.length + entry.length ∧
    (((∀ data : GoSlice, data.bytes = (wrapEntry timestamp hash key entry buffer).1 →
        Decodes data timestamp hash key entry) ∧
      ∀ (q : BytesQueue T) (s : Slice), q.InBounds s →
        (q.load s).bytes = (wrapEntry timestamp hash key entry buffer).1 →
        ∃ q', ErasesHash q s q') ↔ key.length ≤ maxKeyLength) := by
  rw [wrapEntry_fst]
  have hlt : key.length < 2 ^ 16 := by omega
  refine ⟨length_wrapped, ?_, ?_⟩
  · rintro ⟨h, -⟩
    exact (decodes_wrapped_iff hlt rfl).mp (h ⟨wrapped timestamp hash key entry, []⟩ rfl)
  · intro hle
    refine ⟨fun data h ↦ (decodes_wrapped_iff hlt h).mpr hle, fun q s hs h ↦ ?_⟩
    obtain ⟨q', hq', h'⟩ := load_resetKeyFromEntry hs h
    refine ⟨q', hq', readHashFromEntry_wrapped h', ?_, ?_, ?_⟩
    · rw [readTimestampFromEntry_wrapped h', readTimestampFromEntry_wrapped h]
    · rw [readKeyFromEntry_of_le hle h', readKeyFromEntry_of_le hle h]
    · rw [readEntry_of_le hle h', readEntry_of_le hle h]

/-- The longest key that is read back, from a buffer that held something else. -/
theorem entry_roundTrip_longest : ∃ key : Bytes, key.length = 65517 ∧
    Decodes ⟨(wrapEntry 5 7 key [2] [9, 9, 9]).1, [9]⟩ 5 7 key [2] := by
  obtain ⟨key, hkey⟩ : ∃ key : Bytes, key.length = 65517 :=
    ⟨List.replicate 65517 1, List.length_replicate⟩
  have h := entry_roundTrip_iff Unit 5 7 key [2] [9, 9, 9] (by omega)
  exact ⟨key, hkey, (h.2.mpr hkey.le).1 _ rfl⟩

/-- **A key of 65518 bytes is not read back**: the end of the key, in sixteen bits, is zero.
`readKeyFromEntry` panics, and `readEntry` returns the whole entry. -/
theorem entry_key_too_long : ∃ key : Bytes, key.length = 65518 ∧
    readKeyFromEntry ⟨(wrapEntry 5 7 key [2] []).1, []⟩ = .error .panic ∧
    readEntry ⟨(wrapEntry 5 7 key [2] []).1, []⟩ = .ok (wrapEntry 5 7 key [2] []).1 := by
  obtain ⟨key, hkey⟩ : ∃ key : Bytes, key.length = 65518 :=
    ⟨List.replicate 65518 1, List.length_replicate⟩
  refine ⟨key, hkey, ?_⟩
  rw [wrapEntry_fst, readKeyFromEntry_wrapped rfl, readEntry_wrapped rfl, hkey]
  exact ⟨rfl, rfl⟩

end ClusteredBigCache
