import ClusteredBigCache.Lib.Go
import ClusteredBigCache.Lib.Utf8

/-!
# The messages between nodes

A message goes over the wire as a `NodeWireMessage`, a code and some bytes.  `PUT` and `GETRsp`, the
ones that carry values, are written byte by byte: the length of the key in two bytes, the key, and
the value.  `readKeyed_eq` says what is read back for keys of every length, since the end of the key
is computed in sixteen-bit arithmetic.  `VERIFY`, `DEL`, `GETReq`, `SyncReq` and `SyncRsp` go
through `encoding/json`, and the others have no bytes at all.

`encoding/json` is a parameter, a `Json α` for each type `α` of structs.  It is not code of this
repository, and what is assumed of it is said where it is used: `Json.RoundTrips`, or
`Json.KeepsValid`, or `Json.Repairs`, which says what becomes of a string that is not UTF-8.
`EncodingJson.plain` are codecs for which this is so, to run the model with.

The `Version` of a `VERIFY` message, which is never set, is left out.
-/

set_option autoImplicit false

namespace ClusteredBigCache

/-! ## Codes -/

def msgVERIFY : UInt16 := 10

def msgVERIFYOK : UInt16 := 11

def msgPING : UInt16 := 12

def msgPONG : UInt16 := 13

def msgPUT : UInt16 := 14

def msgGETReq : UInt16 := 15

def msgGETRsp : UInt16 := 16

def msgDEL : UInt16 := 17

def msgSyncReq : UInt16 := 18

def msgSyncRsp : UInt16 := 19

/-- `NodeWireMessage` is a message on the wire. -/
structure NodeWireMessage where
  code : UInt16
  data : Bytes
  deriving DecidableEq, Repr

/-! ## The structs -/

/-- `VerifyMessage` is the message for node verification. -/
structure VerifyMessage where
  id : Bytes
  servicePort : Bytes
  mode : UInt8
  deriving DecidableEq, Repr, Inhabited

/-- `ProposedPeer` is a peer to connect to. -/
structure ProposedPeer where
  id : Bytes
  ipAddress : Bytes
  deriving DecidableEq, Repr

/-- `PutMessage` sends data across to a remote node. -/
structure PutMessage where
  code : UInt16
  key : Bytes
  expiry : UInt64
  data : Bytes
  deriving DecidableEq, Repr

/-- `DeleteMessage` says which data to delete. -/
structure DeleteMessage where
  code : UInt16
  key : Bytes
  deriving DecidableEq, Repr, Inhabited

/-- `GetReqMessage` is a request for data. -/
structure GetReqMessage where
  code : UInt16
  key : Bytes
  pendingKey : Bytes
  deriving DecidableEq, Repr, Inhabited

/-- `GetRspMessage` is the response to a request for data. -/
structure GetRspMessage where
  code : UInt16
  pendingKey : Bytes
  data : Bytes
  deriving DecidableEq, Repr

/-- `SyncReqMessage` requests synchronization from a remote node. -/
structure SyncReqMessage where
  code : UInt16
  mode : UInt8
  deriving DecidableEq, Repr, Inhabited

/-- `SyncRspMessage` is the response to a sync message. -/
structure SyncRspMessage where
  code : UInt64
  replicationFactor : Int64
  list : List ProposedPeer
  deriving DecidableEq, Repr, Inhabited

/-- `NodeMessage`: the messages that can be sent and received. -/
inductive NodeMessage
  | verify (msg : VerifyMessage)
  | verifyOK
  | ping
  | pong
  | put (msg : PutMessage)
  | getReq (msg : GetReqMessage)
  | getRsp (msg : GetRspMessage)
  | delete (msg : DeleteMessage)
  | syncReq (msg : SyncReqMessage)
  | syncRsp (msg : SyncRspMessage)
  deriving DecidableEq, Repr

/-! ## `encoding/json` -/

/-- A type of structs with strings in them. -/
class Strings (α : Type) where
  /-- Change every string. -/
  mapStrings : (Bytes → Bytes) → α → α
  mapStrings_id (a : α) : mapStrings id a = a

export Strings (mapStrings mapStrings_id)

instance : Strings VerifyMessage where
  mapStrings f msg := { msg with id := f msg.id, servicePort := f msg.servicePort }
  mapStrings_id _ := rfl

instance : Strings DeleteMessage where
  mapStrings f msg := { msg with key := f msg.key }
  mapStrings_id _ := rfl

instance : Strings GetReqMessage where
  mapStrings f msg := { msg with key := f msg.key, pendingKey := f msg.pendingKey }
  mapStrings_id _ := rfl

instance : Strings SyncReqMessage where
  mapStrings _ msg := msg
  mapStrings_id _ := rfl

instance : Strings SyncRspMessage where
  mapStrings f msg := { msg with
    list := msg.list.map fun peer ↦ ⟨f peer.id, f peer.ipAddress⟩ }
  mapStrings_id msg := by simp

/-- `json.Marshal` and `json.Unmarshal` for a type of structs.  The second one may return an error,
and then it leaves the struct as it was. -/
structure Json (α : Type) where
  marshal : α → Bytes
  unmarshal : Bytes → Option α

namespace Json

variable {α : Type}

/-- A struct is read back as it was. -/
def RoundTrips (json : Json α) (a : α) : Prop := json.unmarshal (json.marshal a) = some a

/-- A struct is read back with its strings changed. -/
def Maps [Strings α] (json : Json α) (f : Bytes → Bytes) : Prop :=
  ∀ a, json.unmarshal (json.marshal a) = some (mapStrings f a)

/-- A struct is read back with every invalid byte of a string replaced by `U+FFFD`. -/
def Repairs [Strings α] (json : Json α) : Prop := json.Maps Utf8.repair

/-- A struct of which all strings are valid is read back. -/
def KeepsValid [Strings α] (json : Json α) : Prop :=
  ∀ a, mapStrings Utf8.repair a = a → json.unmarshal (json.marshal a) = some a

theorem Maps.roundTrips [Strings α] {json : Json α} {f : Bytes → Bytes} {a : α} (h : json.Maps f)
    (ha : mapStrings f a = a) : json.RoundTrips a := by
  rw [RoundTrips, h a, ha]

theorem Repairs.keepsValid [Strings α] {json : Json α} (h : json.Repairs) : json.KeepsValid :=
  fun _ ha ↦ Maps.roundTrips h ha

end Json

/-- `encoding/json` for the messages that use it. -/
structure EncodingJson where
  verify : Json VerifyMessage
  delete : Json DeleteMessage
  getReq : Json GetReqMessage
  syncReq : Json SyncReqMessage
  syncRsp : Json SyncRspMessage

/-! ## `Serialize` and `DeSerialize`

`PUT` and `GETRsp` read their key with the same function, the former from offset 8 on, after the
expiry. -/

/-- A key with its length in two bytes before it, from an offset of a slice on, and what comes after
it.  Offsets are computed in sixteen-bit arithmetic. -/
def readKeyed (data : GoSlice) (off : UInt16) : Go (Bytes × Bytes) := do
  let keyLen ← (← data.sliceFrom off.toNat).u16
  let key ← data.slice (off + 2).toNat (off + 2 + keyLen).toNat
  let rest ← data.sliceFrom (off + 2 + keyLen).toNat
  pure (key.bytes, rest.bytes)

namespace PutMessage

def serialize (pm : PutMessage) : NodeWireMessage :=
  let keyLen := pm.key.length
  -- 2 is needed for the size of the key while 8 is for expiry
  let data := List.replicate (keyLen + pm.data.length + 2 + 8) 0
  let data := Bytes.blit data 0 (Bytes.toLE 8 pm.expiry.toNat)
  let data := Bytes.blit data 8 (Bytes.toLE 2 (UInt16.ofNat keyLen).toNat)
  let data := Bytes.blit data (8 + 2) pm.key
  let data := Bytes.blit data (8 + 2 + keyLen) pm.data
  ⟨msgPUT, data⟩

def deSerialize (msg : NodeWireMessage) : Go PutMessage := do
  let data : GoSlice := ⟨msg.data, []⟩
  let expiry ← data.u64
  let (key, rest) ← readKeyed data 8
  pure ⟨msgPUT, key, expiry, rest⟩

end PutMessage

namespace GetRspMessage

def serialize (gm : GetRspMessage) : NodeWireMessage :=
  let keyLen := gm.pendingKey.length
  -- 2 is needed for the size of the key
  let data := List.replicate (keyLen + gm.data.length + 2) 0
  let data := Bytes.blit data 0 (Bytes.toLE 2 (UInt16.ofNat keyLen).toNat)
  let data := Bytes.blit data 2 gm.pendingKey
  let data := Bytes.blit data (2 + keyLen) gm.data
  ⟨msgGETRsp, data⟩

def deSerialize (msg : NodeWireMessage) : Go GetRspMessage := do
  let (pendingKey, rest) ← readKeyed ⟨msg.data, []⟩ 0
  pure ⟨msgGETRsp, pendingKey, rest⟩

end GetRspMessage

namespace Json

variable {α : Type} [Inhabited α]

/-- `DeSerialize` of the messages that use `encoding/json`, into a new struct. -/
def deSerialize (json : Json α) (msg : NodeWireMessage) : α :=
  (json.unmarshal msg.data).getD default

theorem deSerialize_mk {json : Json α} {a b : α} {code : UInt16}
    (h : json.unmarshal (json.marshal a) = some b) :
    json.deSerialize ⟨code, json.marshal a⟩ = b := by
  rw [deSerialize, h, Option.getD_some]

end Json

namespace NodeMessage

/-- The code of a message. -/
def code : NodeMessage → UInt16
  | .verify _ => msgVERIFY
  | .verifyOK => msgVERIFYOK
  | .ping => msgPING
  | .pong => msgPONG
  | .put _ => msgPUT
  | .getReq _ => msgGETReq
  | .getRsp _ => msgGETRsp
  | .delete _ => msgDEL
  | .syncReq _ => msgSyncReq
  | .syncRsp _ => msgSyncRsp

/-- `Serialize`. -/
def serialize (json : EncodingJson) : NodeMessage → NodeWireMessage
  | .verify msg => ⟨msgVERIFY, json.verify.marshal msg⟩
  | .verifyOK => ⟨msgVERIFYOK, []⟩
  | .ping => ⟨msgPING, []⟩
  | .pong => ⟨msgPONG, []⟩
  | .put msg => msg.serialize
  | .getReq msg => ⟨msgGETReq, json.getReq.marshal { msg with code := msgGETReq }⟩
  | .getRsp msg => msg.serialize
  | .delete msg => ⟨msgDEL, json.delete.marshal { msg with code := msgDEL }⟩
  | .syncReq msg => ⟨msgSyncReq, json.syncReq.marshal msg⟩
  | .syncRsp msg => ⟨msgSyncRsp, json.syncRsp.marshal { msg with code := 19 }⟩

@[simp] theorem serialize_code (json : EncodingJson) (msg : NodeMessage) :
    (msg.serialize json).code = msg.code := by
  cases msg <;> rfl

end NodeMessage

/-! ## What is read back

The end of a key is computed in sixteen bits, and the slice expression panics when it comes before
its beginning.  `readKeyed_spec` covers all bytes there are, `readKeyed_eq` those that were written
by `Serialize`. -/

/-- The length of the key that begins at an offset. -/
def keyLength (data : Bytes) (off : ℕ) : ℕ := Bytes.ofLE (Bytes.sub data off 2)

/-- From an offset on there is a key with its length before it, and the end of the key fits sixteen
bits. -/
def Keyed (data : Bytes) (off : ℕ) : Prop :=
  off + 2 + keyLength data off ≤ data.length ∧ off + 2 + keyLength data off < 2 ^ 16

instance (data : Bytes) (off : ℕ) : Decidable (Keyed data off) :=
  inferInstanceAs (Decidable (_ ∧ _))

theorem keyLength_lt (data : Bytes) (off : ℕ) : keyLength data off < 2 ^ 16 := by
  have hlt := Bytes.ofLE_lt (Bytes.sub data off 2)
  have hlen : (Bytes.sub data off 2).length ≤ 2 := by
    rw [Bytes.length_sub]
    omega
  exact hlt.trans_le (Nat.pow_le_pow_right (by decide) hlen)

/-- **What is read as the key**, whatever the bytes are. -/
theorem readKeyed_spec (data : GoSlice) (off : UInt16) (hoff : off.toNat + 2 < 2 ^ 16) :
    readKeyed data off =
      if Keyed data.bytes off.toNat then
        .ok (Bytes.sub data.bytes (off.toNat + 2) (keyLength data.bytes off.toNat),
          data.bytes.drop (off.toNat + 2 + keyLength data.bytes off.toNat))
      else .error .panic := by
  have hlt := keyLength_lt data.bytes off.toNat
  have hstart : (off + 2).toNat = off.toNat + 2 := by
    rw [UInt16.toNat_add]
    exact Nat.mod_eq_of_lt hoff
  have hend : (off + 2 + UInt16.ofNat (keyLength data.bytes off.toNat)).toNat =
      (off.toNat + 2 + keyLength data.bytes off.toNat) % 2 ^ 16 := by
    rw [UInt16.toNat_add, hstart, UInt16.toNat_ofNat', Nat.mod_eq_of_lt hlt]
  rw [readKeyed]
  by_cases hshort : off.toNat + 2 ≤ data.bytes.length
  · have hread : GoSlice.u16 ⟨data.bytes.drop off.toNat, data.spare⟩ =
        .ok (UInt16.ofNat (keyLength data.bytes off.toNat)) := by
      rw [GoSlice.u16, GoSlice.readLE_eq (by simp; omega)]
      rfl
    rw [GoSlice.sliceFrom_eq (by omega), Go.ok_bind, hread, Go.ok_bind, hstart, hend]
    split_ifs with hkeyed
    · obtain ⟨hle, hfits⟩ := hkeyed
      rw [Nat.mod_eq_of_lt hfits, GoSlice.slice_eq (by omega) hle, Go.ok_bind,
        GoSlice.sliceFrom_eq hle, Go.ok_bind, Go.pure_eq_ok, Nat.add_sub_cancel_left]
    · rw [Keyed] at hkeyed
      generalize keyLength data.bytes off.toNat = n at hlt hkeyed ⊢
      rcases Nat.lt_or_ge (off.toNat + 2 + n) (2 ^ 16) with hfits | hwrap
      · -- the key ends behind the bytes, if not behind the array
        rw [Nat.mod_eq_of_lt hfits, GoSlice.slice]
        split_ifs
        · rw [Go.ok_bind, GoSlice.sliceFrom, GoSlice.slice, if_neg (by rw [GoSlice.len]; omega)]
          rfl
        · rfl
      · -- the end of the key wraps around and comes before its start
        rw [GoSlice.slice, if_neg (by omega)]
        rfl
  · rw [if_neg fun hkeyed ↦ hshort (by have := hkeyed.1; omega), GoSlice.sliceFrom, GoSlice.slice]
    split_ifs
    · rw [Go.ok_bind, GoSlice.u16, GoSlice.readLE, if_neg]
      · rfl
      · simp only [GoSlice.len, Bytes.length_sub, List.length_append]
        omega
    · rfl

section

variable {front key rest : Bytes} {off : UInt16} {data : GoSlice}

/-- What is read as the key of a message that was written, for keys of every length. -/
theorem readKeyed_eq (hoff : front.length = off.toNat) (hsmall : off.toNat + 2 < 2 ^ 16)
    (hdata : data.bytes = front ++
      (Bytes.toLE 2 (UInt16.ofNat key.length).toNat ++ (key ++ rest))) :
    readKeyed data off =
      if off.toNat + 2 + (UInt16.ofNat key.length).toNat < 2 ^ 16 then
        .ok ((key ++ rest).take (UInt16.ofNat key.length).toNat,
          (key ++ rest).drop (UInt16.ofNat key.length).toNat)
      else .error .panic := by
  have hkey : (UInt16.ofNat key.length).toNat ≤ key.length := by
    rw [UInt16.toNat_ofNat']
    exact Nat.mod_le _ _
  have hdrop : data.bytes.drop off.toNat =
      Bytes.toLE 2 (UInt16.ofNat key.length).toNat ++ (key ++ rest) := by
    rw [hdata, List.drop_left' hoff]
  have hdrop2 : data.bytes.drop (off.toNat + 2) = key ++ rest := by
    rw [← List.drop_drop, hdrop, List.drop_left' (Bytes.length_toLE _ _)]
  have hlength : keyLength data.bytes off.toNat = (UInt16.ofNat key.length).toNat := by
    rw [keyLength, Bytes.sub, hdrop, List.take_left' (Bytes.length_toLE _ _)]
    exact Bytes.ofLE_toLE_of_lt (UInt16.toNat_lt _)
  have hkeyed : Keyed data.bytes off.toNat ↔
      off.toNat + 2 + (UInt16.ofNat key.length).toNat < 2 ^ 16 := by
    rw [Keyed, hlength, and_iff_right]
    simp only [hdata, List.length_append, hoff, Bytes.length_toLE]
    omega
  have hrest : data.bytes.drop (off.toNat + 2 + (UInt16.ofNat key.length).toNat) =
      (key ++ rest).drop (UInt16.ofNat key.length).toNat := by
    rw [← hdrop2, List.drop_drop]
  rw [readKeyed_spec data off hsmall, hlength, Bytes.sub, hdrop2, hrest]
  simp only [hkeyed]

/-- A key that is not too long is read back, and so is what comes after it. -/
theorem readKeyed_of_lt (hoff : front.length = off.toNat)
    (hkey : off.toNat + 2 + key.length < 2 ^ 16)
    (hdata : data.bytes = front ++
      (Bytes.toLE 2 (UInt16.ofNat key.length).toNat ++ (key ++ rest))) :
    readKeyed data off = .ok (key, rest) := by
  have hlen : (UInt16.ofNat key.length).toNat = key.length := by
    rw [UInt16.toNat_ofNat']
    exact Nat.mod_eq_of_lt (by omega)
  rw [readKeyed_eq hoff (by omega) hdata, hlen, if_pos hkey, List.take_left,
    List.drop_left]

end

namespace PutMessage

/-- The bytes of the message. -/
theorem serialize_data (pm : PutMessage) :
    pm.serialize.data = Bytes.toLE 8 pm.expiry.toNat ++
      (Bytes.toLE 2 (UInt16.ofNat pm.key.length).toNat ++ (pm.key ++ pm.data)) := by
  simp only [serialize]
  rw [Bytes.blit_zero_append _ (by simp), Bytes.blit_zero_append _ (by simp),
    Bytes.blit_zero_append _ (by simp; omega), Bytes.blit_replicate (by simp; omega)]
  simp only [List.append_assoc]

/-- **Which bytes are read as a `PUT`.** -/
theorem deSerialize_cases (msg : NodeWireMessage) :
    (Keyed msg.data 8 ∧ ∃ pm, deSerialize msg = .ok pm) ∨
      (¬ Keyed msg.data 8 ∧ deSerialize msg = .error .panic) := by
  have hspec := readKeyed_spec ⟨msg.data, []⟩ 8 (by decide)
  have h8 : (8 : UInt16).toNat = 8 := rfl
  rw [h8] at hspec
  rw [deSerialize, GoSlice.u64]
  by_cases hkeyed : Keyed msg.data 8
  · refine .inl ⟨hkeyed, ?_⟩
    have hlen : 8 ≤ msg.data.length := by have := hkeyed.1; omega
    rw [GoSlice.readLE_eq hlen, hspec, if_pos hkeyed]
    exact ⟨_, rfl⟩
  · refine .inr ⟨hkeyed, ?_⟩
    rw [hspec, if_neg hkeyed, GoSlice.readLE]
    split_ifs <;> rfl

/-- **A `PUT` is read back** when its key has at most 65525 bytes. -/
theorem deSerialize_serialize (pm : PutMessage) (hkey : pm.key.length ≤ 65525) :
    deSerialize pm.serialize = .ok { pm with code := msgPUT } := by
  have hexpiry : GoSlice.u64 ⟨pm.serialize.data, []⟩ = .ok pm.expiry :=
    GoSlice.u64_of_append pm.serialize_data
  have hkeyed : readKeyed ⟨pm.serialize.data, []⟩ 8 = .ok (pm.key, pm.data) :=
    readKeyed_of_lt (Bytes.length_toLE _ _) (by simp; omega) pm.serialize_data
  rw [deSerialize, hexpiry, Go.ok_bind, hkeyed, Go.ok_bind]
  rfl

end PutMessage

namespace GetRspMessage

/-- The bytes of the message. -/
theorem serialize_data (gm : GetRspMessage) :
    gm.serialize.data = Bytes.toLE 2 (UInt16.ofNat gm.pendingKey.length).toNat ++
      (gm.pendingKey ++ gm.data) := by
  simp only [serialize]
  rw [Bytes.blit_zero_append _ (by simp), Bytes.blit_zero_append _ (by simp),
    Bytes.blit_replicate (by simp; omega)]
  simp only [List.append_assoc]

/-- **Which bytes are read as a `GETRsp`.** -/
theorem deSerialize_cases (msg : NodeWireMessage) :
    (Keyed msg.data 0 ∧ ∃ gm, deSerialize msg = .ok gm) ∨
      (¬ Keyed msg.data 0 ∧ deSerialize msg = .error .panic) := by
  have hspec := readKeyed_spec ⟨msg.data, []⟩ 0 (by decide)
  have h0 : (0 : UInt16).toNat = 0 := rfl
  rw [h0] at hspec
  rw [deSerialize, hspec]
  by_cases hkeyed : Keyed msg.data 0
  · rw [if_pos hkeyed]
    exact .inl ⟨hkeyed, _, rfl⟩
  · rw [if_neg hkeyed]
    exact .inr ⟨hkeyed, rfl⟩

/-- **A `GETRsp` is read back** when its pending key has at most 65533 bytes. -/
theorem deSerialize_serialize (gm : GetRspMessage) (hkey : gm.pendingKey.length ≤ 65533) :
    deSerialize gm.serialize = .ok { gm with code := msgGETRsp } := by
  have hkeyed : readKeyed ⟨gm.serialize.data, []⟩ 0 = .ok (gm.pendingKey, gm.data) :=
    readKeyed_of_lt (show ([] : Bytes).length = (0 : UInt16).toNat from rfl) (by simp; omega)
      gm.serialize_data
  rw [deSerialize, hkeyed, Go.ok_bind]
  rfl

end GetRspMessage

/-- A key that is too long, for which the end wraps around, is not read. -/
theorem readKeyed_of_ge {front key rest : Bytes} {off : UInt16} {data : GoSlice}
    (hoff : front.length = off.toNat) (hsmall : off.toNat + 2 < 2 ^ 16)
    (hkey : key.length < 2 ^ 16) (hge : 2 ^ 16 ≤ off.toNat + 2 + key.length)
    (hdata : data.bytes = front ++
      (Bytes.toLE 2 (UInt16.ofNat key.length).toNat ++ (key ++ rest))) :
    readKeyed data off = .error .panic := by
  rw [readKeyed_eq hoff hsmall hdata, UInt16.toNat_ofNat', Nat.mod_eq_of_lt hkey,
    if_neg (not_lt.mpr hge)]

/-- **The messages that carry values**, as far as the length of a key fits into two bytes: a `PUT`
is read back if and only if its key has at most 65525 bytes, and a `GETRsp` if and only if its
pending key has at most 65533. -/
theorem message_roundTrip_iff (pm : PutMessage) (gm : GetRspMessage)
    (hpm : pm.key.length ≤ 65535) (hgm : gm.pendingKey.length ≤ 65535) :
    ((∃ pm', PutMessage.deSerialize pm.serialize = .ok pm' ∧
        pm'.key = pm.key ∧ pm'.expiry = pm.expiry ∧ pm'.data = pm.data) ↔
      pm.key.length ≤ 65525) ∧
    ((∃ gm', GetRspMessage.deSerialize gm.serialize = .ok gm' ∧
        gm'.pendingKey = gm.pendingKey ∧ gm'.data = gm.data) ↔
      gm.pendingKey.length ≤ 65533) := by
  refine ⟨⟨?_, fun h ↦ ⟨_, pm.deSerialize_serialize h, rfl, rfl, rfl⟩⟩,
    ⟨?_, fun h ↦ ⟨_, gm.deSerialize_serialize h, rfl, rfl⟩⟩⟩
  · rintro ⟨pm', hok, -⟩
    by_contra hlong
    have hkeyed : readKeyed ⟨pm.serialize.data, []⟩ 8 = .error .panic :=
      readKeyed_of_ge (Bytes.length_toLE _ _) (by decide) (by omega) (by simp; omega)
        pm.serialize_data
    rw [PutMessage.deSerialize, GoSlice.u64_of_append pm.serialize_data, Go.ok_bind, hkeyed] at hok
    cases hok
  · rintro ⟨gm', hok, -⟩
    by_contra hlong
    have hkeyed : readKeyed ⟨gm.serialize.data, []⟩ 0 = .error .panic :=
      readKeyed_of_ge (show ([] : Bytes).length = (0 : UInt16).toNat from rfl) (by decide)
        (by omega) (by simp; omega) gm.serialize_data
    rw [GetRspMessage.deSerialize, hkeyed] at hok
    cases hok

/-- The longest keys that are read back. -/
theorem message_roundTrip_longest : ∃ (pm : PutMessage) (gm : GetRspMessage),
    (pm.key.length = 65525 ∧ ∃ pm', PutMessage.deSerialize pm.serialize = .ok pm' ∧
      pm'.key = pm.key ∧ pm'.expiry = pm.expiry ∧ pm'.data = pm.data) ∧
    gm.pendingKey.length = 65533 ∧ ∃ gm', GetRspMessage.deSerialize gm.serialize = .ok gm' ∧
      gm'.pendingKey = gm.pendingKey ∧ gm'.data = gm.data := by
  obtain ⟨key, hkey⟩ : ∃ key : Bytes, key.length = 65525 :=
    ⟨List.replicate 65525 1, List.length_replicate⟩
  obtain ⟨pending, hpending⟩ : ∃ pending : Bytes, pending.length = 65533 :=
    ⟨List.replicate 65533 1, List.length_replicate⟩
  have h := message_roundTrip_iff ⟨0, key, 5, [7]⟩ ⟨0, pending, [7]⟩ (by simp [hkey])
    (by simp [hpending])
  exact ⟨_, _, ⟨hkey, h.1.mpr hkey.le⟩, hpending, h.2.mpr hpending.le⟩

/-- **A `PUT` whose key has 65526 bytes makes the receiver panic**: the end of the key, in sixteen
bits, is zero. -/
theorem put_key_too_long : ∃ pm : PutMessage, pm.key.length = 65526 ∧
    PutMessage.deSerialize pm.serialize = .error .panic := by
  obtain ⟨key, hkey⟩ : ∃ key : Bytes, key.length = 65526 :=
    ⟨List.replicate 65526 1, List.length_replicate⟩
  have hdata := PutMessage.serialize_data ⟨0, key, 5, [7]⟩
  have hkeyed : readKeyed ⟨(PutMessage.serialize ⟨0, key, 5, [7]⟩).data, []⟩ 8 = .error .panic :=
    readKeyed_of_ge (Bytes.length_toLE _ _) (by decide) (by simp [hkey]) (by simp [hkey]) hdata
  refine ⟨⟨0, key, 5, [7]⟩, hkey, ?_⟩
  rw [PutMessage.deSerialize, GoSlice.u64_of_append hdata, Go.ok_bind, hkeyed]
  rfl

/-! ## A codec to run the model with -/

namespace Json

/-- A string, each byte of it after a `1`, and a `0` at the end. -/
def putString (s : Bytes) : Bytes := s.flatMap (fun b ↦ [1, b]) ++ [0]

/-- The strings of which the bytes are made up, the first of which has begun. -/
def takeStrings (s : Bytes) : Bytes → Option (List Bytes)
  | [] => if s = [] then some [] else none
  | 0 :: rest => (takeStrings [] rest).map fun ss ↦ s :: ss
  | 1 :: b :: rest => takeStrings (s ++ [b]) rest
  | _ => none

theorem takeStrings_putString (s t : Bytes) (rest : Bytes) :
    takeStrings s (putString t ++ rest) =
      (takeStrings [] rest).map fun ss ↦ (s ++ t) :: ss := by
  induction t generalizing s with
  | nil => simp [putString, takeStrings]
  | cons b t ih =>
    have hcons : putString (b :: t) = 1 :: b :: putString t := rfl
    rw [hcons, List.cons_append, List.cons_append, takeStrings, ih]
    simp

theorem takeStrings_flatMap (ss : List Bytes) :
    takeStrings [] (ss.flatMap putString) = some ss := by
  induction ss with
  | nil => rfl
  | cons s ss ih =>
    rw [List.flatMap_cons, takeStrings_putString, ih, Option.map_some, List.nil_append]

/-- The codec that writes the fields of a struct as strings, after changing the strings in it. -/
def ofFields {α : Type} [Strings α] (f : Bytes → Bytes) (fields : α → List Bytes)
    (read : List Bytes → Option α) : Json α where
  marshal a := (fields (mapStrings f a)).flatMap putString
  unmarshal b := (takeStrings [] b).bind read

theorem unmarshal_ofFields {α : Type} [Strings α] (f : Bytes → Bytes) (fields : α → List Bytes)
    (read : List Bytes → Option α) (a : α) :
    (ofFields f fields read).unmarshal ((ofFields f fields read).marshal a) =
      read (fields (mapStrings f a)) := by
  simp only [ofFields, takeStrings_flatMap, Option.bind_some]

/-- The peers of a list of strings. -/
def readPeers : List Bytes → Option (List ProposedPeer)
  | [] => some []
  | id :: ipAddress :: rest => (readPeers rest).map fun peers ↦ ⟨id, ipAddress⟩ :: peers
  | _ => none

theorem readPeers_flatMap (peers : List ProposedPeer) :
    readPeers (peers.flatMap fun peer ↦ [peer.id, peer.ipAddress]) = some peers := by
  induction peers with
  | nil => rfl
  | cons peer peers ih => simp [readPeers, ih]

end Json

/-- A codec that changes the strings it carries: with `Utf8.repair` it does what `encoding/json`
does to them, and with `id` it changes nothing. -/
def EncodingJson.plain (f : Bytes → Bytes) : EncodingJson where
  verify := .ofFields f (fun msg ↦ [msg.id, msg.servicePort, [msg.mode]]) fun
    | [id, servicePort, [mode]] => some ⟨id, servicePort, mode⟩
    | _ => none
  delete := .ofFields f (fun msg ↦ [Bytes.toLE 2 msg.code.toNat, msg.key]) fun
    | [code, key] => some ⟨UInt16.ofNat (Bytes.ofLE code), key⟩
    | _ => none
  getReq := .ofFields f (fun msg ↦ [Bytes.toLE 2 msg.code.toNat, msg.key, msg.pendingKey]) fun
    | [code, key, pendingKey] => some ⟨UInt16.ofNat (Bytes.ofLE code), key, pendingKey⟩
    | _ => none
  syncReq := .ofFields f (fun msg ↦ [Bytes.toLE 2 msg.code.toNat, [msg.mode]]) fun
    | [code, [mode]] => some ⟨UInt16.ofNat (Bytes.ofLE code), mode⟩
    | _ => none
  syncRsp := .ofFields f (fun msg ↦ Bytes.toLE 8 msg.code.toNat ::
      Bytes.toLE 8 msg.replicationFactor.toUInt64.toNat ::
      msg.list.flatMap fun peer ↦ [peer.id, peer.ipAddress]) fun
    | code :: factor :: rest => (Json.readPeers rest).map fun list ↦
        ⟨UInt64.ofNat (Bytes.ofLE code), (UInt64.ofNat (Bytes.ofLE factor)).toInt64, list⟩
    | _ => none

namespace EncodingJson

variable (f : Bytes → Bytes)

theorem plain_verify : (plain f).verify.Maps f := by
  intro msg
  simp only [plain, Json.unmarshal_ofFields]

theorem plain_delete : (plain f).delete.Maps f := by
  intro msg
  simp only [plain, Json.unmarshal_ofFields, Bytes.ofLE_toLE_of_lt
    (show (mapStrings f msg).code.toNat < 256 ^ 2 from UInt16.toNat_lt _),
    UInt16.ofNat_toNat]

theorem plain_getReq : (plain f).getReq.Maps f := by
  intro msg
  simp only [plain, Json.unmarshal_ofFields, Bytes.ofLE_toLE_of_lt
    (show (mapStrings f msg).code.toNat < 256 ^ 2 from UInt16.toNat_lt _),
    UInt16.ofNat_toNat]

theorem plain_syncReq : (plain f).syncReq.Maps f := by
  intro msg
  simp only [plain, Json.unmarshal_ofFields, Bytes.ofLE_toLE_of_lt
    (show (mapStrings f msg).code.toNat < 256 ^ 2 from UInt16.toNat_lt _),
    UInt16.ofNat_toNat]

theorem plain_syncRsp : (plain f).syncRsp.Maps f := by
  intro msg
  simp only [plain, Json.unmarshal_ofFields, Json.readPeers_flatMap, Option.map_some,
    Bytes.ofLE_toLE_of_lt
      (show (mapStrings f msg).code.toNat < 256 ^ 8 from UInt64.toNat_lt _),
    Bytes.ofLE_toLE_of_lt (show (mapStrings f msg).replicationFactor.toUInt64.toNat <
      256 ^ 8 from UInt64.toNat_lt _),
    UInt64.ofNat_toNat, Int64.toInt64_toUInt64]

end EncodingJson
end ClusteredBigCache
