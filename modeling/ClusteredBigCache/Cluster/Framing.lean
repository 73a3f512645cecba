import ClusteredBigCache.Cluster.Message

/-!
# Frames on a byte stream

`networkSender` writes each message as a frame: the length of its data plus two in four bytes, its
code in two, and the data.  `networkConsumer` reads such frames from the stream at the other end.
Both compute with the length in thirty-two bits, and both computations wrap around; for data of
fewer than 2³² bytes they cancel (`length_field`), so no frame is misread and the next one begins
where the last one ended (`framing_lossless`).

A connection may take the bytes of a frame in several pieces, and `SendData` continues until all are
written.  `ReadData` returns as many bytes as were asked for, or an error when the stream has ended.
The state of the remote node, which both loops look at, is not disconnected here.
-/

set_option autoImplicit false

namespace ClusteredBigCache

/-! ## The sender -/

/-- The bytes that `networkSender` makes of a message. -/
def frame (msg : NodeWireMessage) : Bytes :=
  -- 6 ==> 4bytes for length of message, 2bytes for message code
  let data := List.replicate (6 + msg.data.length) 0
  let data := Bytes.blit data 0 (Bytes.toLE 4 (UInt32.ofNat (msg.data.length + 2)).toNat)
  let data := Bytes.blit data 4 (Bytes.toLE 2 msg.code.toNat)
  Bytes.blit data 6 msg.data

/-- `SendData` writes until nothing is left of the data; `writes` are the numbers of bytes that
`Write` takes, one time after the other, until it returns an error.  The result is what was written,
unless there was an error. -/
def sendData (data : Bytes) : List ℕ → Option Bytes
  | [] => if data = [] then some [] else none
  | n :: writes =>
    if data = [] then some []
    else (sendData (data.drop n) writes).map fun out ↦ data.take n ++ out

/-- `networkSender` sends its messages one after another, until there is an error. -/
def networkSender : List (NodeWireMessage × List ℕ) → Option Bytes
  | [] => some []
  | (msg, writes) :: rest => do
    let out ← sendData (frame msg) writes
    let more ← networkSender rest
    pure (out ++ more)

/-! ## The reader -/

/-- `ReadData` reads `size` bytes of the stream, and leaves the rest of it. -/
def readData (stream : Bytes) (size : ℕ) : Option (Bytes × Bytes) :=
  if size ≤ stream.length then some (stream.take size, stream.drop size) else none

theorem readData_spec {stream data rest : Bytes} {size : ℕ}
    (h : readData stream size = some (data, rest)) : rest.length + size = stream.length := by
  rw [readData] at h
  split_ifs at h with hle
  obtain ⟨-, rfl⟩ := Prod.mk.inj (Option.some.inj h)
  rw [List.length_drop]
  omega

theorem readData_append {data rest : Bytes} {size : ℕ} (h : data.length = size) :
    readData (data ++ rest) size = some (data, rest) := by
  subst h
  simp [readData]

/-- The body of the loop of `networkConsumer`: read a header and the data, if there is any. -/
def readMessage (stream : Bytes) : Option (NodeWireMessage × Bytes) := do
  let (header, stream) ← readData stream 6
  -- subtracted 2 becos of message code
  let dataLength := UInt32.ofNat (Bytes.ofLE (Bytes.sub header 0 4)) - 2
  let msgCode := UInt16.ofNat (Bytes.ofLE (Bytes.sub header 4 2))
  if dataLength > 0 then
    let (data, stream) ← readData stream dataLength.toNat
    pure (⟨msgCode, data⟩, stream)
  else pure (⟨msgCode, []⟩, stream)

theorem readMessage_length {stream rest : Bytes} {msg : NodeWireMessage}
    (h : readMessage stream = some (msg, rest)) : rest.length < stream.length := by
  simp only [readMessage, Option.bind_eq_bind, Option.bind_eq_some_iff] at h
  obtain ⟨⟨header, body⟩, hheader, h⟩ := h
  have hbody := readData_spec hheader
  dsimp only at h
  split_ifs at h with hpos
  · obtain ⟨⟨data, rest'⟩, hdata, h⟩ := Option.bind_eq_some_iff.mp h
    obtain ⟨-, rfl⟩ := Prod.mk.inj (Option.some.inj h)
    have hrest := readData_spec hdata
    dsimp only at hrest ⊢
    omega
  · obtain ⟨-, rfl⟩ := Prod.mk.inj (Option.some.inj h)
    omega

/-- `networkConsumer` reads messages until the stream ends.  The result is what it queues, and the
bytes at the end that make no message. -/
def networkConsumer (stream : Bytes) : List NodeWireMessage × Bytes :=
  match h : readMessage stream with
  | none => ([], stream)
  | some (msg, rest) =>
    have : rest.length < stream.length := readMessage_length h
    let (msgs, left) := networkConsumer rest
    (msg :: msgs, left)
termination_by stream.length

theorem networkConsumer_of_none {stream : Bytes} (h : readMessage stream = none) :
    networkConsumer stream = ([], stream) := by
  rw [networkConsumer]
  split
  · rfl
  · simp_all

theorem networkConsumer_of_some {stream rest : Bytes} {msg : NodeWireMessage}
    (h : readMessage stream = some (msg, rest)) :
    networkConsumer stream = (msg :: (networkConsumer rest).1, (networkConsumer rest).2) := by
  rw [networkConsumer]
  split
  · simp_all
  · rename_i msg' rest' h'
    obtain ⟨rfl, rfl⟩ := Prod.mk.inj (Option.some.inj (h'.symm.trans h))
    rfl

/-! ## What is written is read

The sender adds two to the length and the reader takes it off again, both in thirty-two bits.  That
the two cancel also when the sum wraps around is what makes frames of every length below 2³² safe.
-/

/-- However the connection takes the bytes, all of them are written. -/
theorem sendData_eq {data out : Bytes} {writes : List ℕ} (h : sendData data writes = some out) :
    out = data := by
  induction writes generalizing data out with
  | nil =>
    rw [sendData] at h
    split_ifs at h with hnil
    rw [hnil, ← Option.some.inj h]
  | cons n writes ih =>
    rw [sendData] at h
    split_ifs at h with hnil
    · rw [hnil, ← Option.some.inj h]
    · obtain ⟨out', hout', rfl⟩ := Option.map_eq_some_iff.mp h
      rw [ih hout', List.take_append_drop]

theorem networkSender_eq {msgs : List (NodeWireMessage × List ℕ)} {stream : Bytes}
    (h : networkSender msgs = some stream) : stream = (msgs.map Prod.fst).flatMap frame := by
  induction msgs generalizing stream with
  | nil => exact (Option.some.inj h).symm
  | cons m msgs ih =>
    simp only [networkSender, Option.bind_eq_bind, Option.bind_eq_some_iff] at h
    obtain ⟨out, hout, more, hmore, h⟩ := h
    rw [← Option.some.inj h, sendData_eq hout, ih hmore, List.map_cons, List.flatMap_cons]

/-- A frame is a header of six bytes and the data. -/
theorem frame_eq (msg : NodeWireMessage) :
    frame msg = (Bytes.toLE 4 (UInt32.ofNat (msg.data.length + 2)).toNat ++
      Bytes.toLE 2 msg.code.toNat) ++ msg.data := by
  rw [frame, Bytes.blit_zero_append _ (by simp), Bytes.blit_zero_append _ (by simp),
    Bytes.blit_replicate (by simp; omega)]

/-- **The two computations with the length cancel**, when they wrap around too. -/
theorem length_field {n : ℕ} (h : n < 2 ^ 32) : (UInt32.ofNat (n + 2) - 2).toNat = n := by
  rw [UInt32.ofNat_add, show UInt32.ofNat 2 = 2 from rfl, UInt32.add_sub_cancel,
    UInt32.toNat_ofNat', Nat.mod_eq_of_lt h]

/-- Reading the two fields of a header. -/
theorem header_fields (length : UInt32) (code : UInt16) :
    UInt32.ofNat (Bytes.ofLE (Bytes.sub (Bytes.toLE 4 length.toNat ++ Bytes.toLE 2 code.toNat) 0 4))
        = length ∧
      UInt16.ofNat (Bytes.ofLE (Bytes.sub (Bytes.toLE 4 length.toNat ++ Bytes.toLE 2 code.toNat) 4
        2)) = code := by
  have hleft :=
    Bytes.sub_append_left (a := Bytes.toLE 4 length.toNat) (b := Bytes.toLE 2 code.toNat)
  have hright :=
    Bytes.sub_append_right (a := Bytes.toLE 4 length.toNat) (b := Bytes.toLE 2 code.toNat)
  simp only [Bytes.length_toLE] at hleft hright
  rw [hleft, hright, Bytes.ofLE_toLE_of_lt (UInt32.toNat_lt _),
    Bytes.ofLE_toLE_of_lt (UInt16.toNat_lt _)]
  exact ⟨UInt32.ofNat_toNat, UInt16.ofNat_toNat⟩

/-- **A frame is read as the message it was made of**, and what comes after it is left. -/
theorem readMessage_frame (msg : NodeWireMessage) (rest : Bytes) (h : msg.data.length < 2 ^ 32) :
    readMessage (frame msg ++ rest) = some (msg, rest) := by
  obtain ⟨hlength, hcode⟩ := header_fields (UInt32.ofNat (msg.data.length + 2)) msg.code
  have hdata := length_field h
  rw [readMessage, frame_eq, List.append_assoc, readData_append (by simp), Option.bind_eq_bind,
    Option.bind_some]
  simp only [hlength, hcode]
  split_ifs with hpos
  · rw [readData_append hdata.symm]
    rfl
  · -- no data is read when there is none
    have hzero : msg.data.length = 0 := by
      rw [← hdata]
      exact Nat.eq_zero_of_not_pos hpos
    rw [List.length_eq_zero_iff] at hzero
    obtain ⟨code, data⟩ := msg
    obtain rfl : data = [] := hzero
    rfl

theorem networkConsumer_frames (msgs : List NodeWireMessage)
    (h : ∀ msg ∈ msgs, msg.data.length < 2 ^ 32) :
    networkConsumer (msgs.flatMap frame) = (msgs, []) := by
  induction msgs with
  | nil => exact networkConsumer_of_none rfl
  | cons msg msgs ih =>
    rw [List.flatMap_cons, networkConsumer_of_some
      (readMessage_frame msg (msgs.flatMap frame) (h msg List.mem_cons_self)),
      ih fun m hm ↦ h m (List.mem_cons_of_mem _ hm)]

/-- **Wire framing is lossless**: what `networkSender` writes, `networkConsumer` reads as the same
messages, and no byte is left over. -/
theorem framing_lossless {msgs : List (NodeWireMessage × List ℕ)} {stream : Bytes}
    (hlen : ∀ m ∈ msgs, m.1.data.length < 2 ^ 32) (hsend : networkSender msgs = some stream) :
    networkConsumer stream = (msgs.map Prod.fst, []) := by
  rw [networkSender_eq hsend]
  refine networkConsumer_frames _ fun msg hmsg ↦ ?_
  obtain ⟨m, hm, rfl⟩ := List.mem_map.mp hmsg
  exact hlen m hm

/-- Two messages, the second of which is taken in three pieces. -/
theorem framing_lossless_pieces :
    networkConsumer [2, 0, 0, 0, 12, 0, 5, 0, 0, 0, 99, 0, 7, 8, 9] =
      ([⟨msgPING, []⟩, ⟨99, [7, 8, 9]⟩], []) := by
  have hsend : networkSender [(⟨msgPING, []⟩, [6]), (⟨99, [7, 8, 9]⟩, [1, 5, 3])] =
      some [2, 0, 0, 0, 12, 0, 5, 0, 0, 0, 99, 0, 7, 8, 9] := by decide
  exact framing_lossless (by decide) hsend

end ClusteredBigCache
