import ClusteredBigCache.Lib.StreamNetwork
import ClusteredBigCache.Cluster.Framing
import ClusteredBigCache.Cluster.Member

/-!
# Connections are streams

A cluster is modelled as a network whose connections carry messages.  What a `Connection` carries is
bytes: `SendData` writes a frame in as many pieces as the operating system takes it, `ReadData`
collects the bytes of a header or of the data as they come, through a buffer, and an error can end
either of them anywhere.

`FrameReader` is `networkConsumer` between two bytes, and `frames` the format that it reads.
`after_of_readMessage` says that it reads what `readMessage` does from a whole stream.
`Member.streams` is a cluster with such connections.

* `Member.streams_iff`: as long as no message has 2³² bytes or more, the nodes of such a cluster do
  exactly what they do when messages are carried.  Everything that is shown of the runs of
  `Member.network` holds over streams too.
* `Member.readAt_prefix_sentAt`: what is read at one end of a connection is at any time a first part
  of what was sent at the other one, it is all of it when nothing is left in between, and whatever
  pieces the streams were cut into so far, the next message can be read to its end.
-/

set_option autoImplicit false

namespace ClusteredBigCache

/-! ## The reader

`networkConsumer` as a machine that takes one byte after the other.  `ReadFull` of a header or of
the data is a place of the machine, with what has come of it so far. -/

/-- Where `networkConsumer` is in reading a message. -/
inductive FrameReader
  /-- In `ReadData` of the header, with the bytes it has got. -/
  | header (buf : Bytes)
  /-- In `ReadData` of the data. -/
  | body (msgCode : UInt16) (dataLength : UInt32) (buf : Bytes)
  /-- Before `queueInboundMessage`. -/
  | done (msg : NodeWireMessage)
  deriving DecidableEq, Repr

namespace FrameReader

/-- The header is complete. -/
def ofHeader (header : Bytes) : FrameReader :=
  -- subtracted 2 becos of message code
  let dataLength := UInt32.ofNat (Bytes.ofLE (Bytes.sub header 0 4)) - 2
  let msgCode := UInt16.ofNat (Bytes.ofLE (Bytes.sub header 4 2))
  if dataLength > 0 then .body msgCode dataLength [] else .done ⟨msgCode, []⟩

/-- One more byte arrives in `ReadData`, which goes on until it has `size` bytes. -/
def readFull (size : ℕ) (goOn finish : Bytes → FrameReader) (buf : Bytes) (b : UInt8) :
    FrameReader :=
  if (buf ++ [b]).length < size then goOn (buf ++ [b]) else finish (buf ++ [b])

/-- One more byte arrives. -/
def feed : FrameReader → UInt8 → Option FrameReader
  | .header buf, b => some (readFull 6 .header ofHeader buf b)
  | .body msgCode dataLength buf, b =>
    some (readFull dataLength.toNat (.body msgCode dataLength) (.done ⟨msgCode, ·⟩) buf b)
  | .done _, _ => none

def ready : FrameReader → Option NodeWireMessage
  | .done msg => some msg
  | _ => none

/-- `ReadData` finishes with all the bytes it was to read. -/
theorem foldlM_readFull {size : ℕ} (goOn : Bytes → FrameReader) {finish : Bytes → FrameReader}
    (hgoOn : ∀ buf b, feed (goOn buf) b = some (readFull size goOn finish buf b)) (buf : Bytes)
    {bs : Bytes} (hbs : bs ≠ []) (hsize : buf.length + bs.length = size) :
    bs.foldlM feed (goOn buf) = some (finish (buf ++ bs)) := by
  induction bs generalizing buf with
  | nil => exact absurd rfl hbs
  | cons b bs ih =>
    rw [List.foldlM_cons, hgoOn, Option.bind_eq_bind, Option.bind_some, readFull]
    rcases bs with _ | ⟨b', bs⟩
    · have hle : ¬ (buf ++ [b]).length < size := by simpa using hsize.ge
      rw [if_neg hle]
      rfl
    · have hlt : (buf ++ [b]).length < size := by
        simp only [List.length_cons, List.length_append, List.length_nil] at hsize ⊢
        omega
      rw [if_pos hlt, ih _ (by simp) (by simpa [Nat.add_assoc, Nat.add_comm] using hsize)]
      simp

end FrameReader

/-- Frames, and how `networkConsumer` reads them. -/
def frames : Format NodeWireMessage UInt8 FrameReader where
  encode := frame
  start := .header []
  feed := FrameReader.feed
  ready := FrameReader.ready
  ready_start := rfl
  feed_of_ready r b h := by
    match r with
    | .done msg => rfl
    | .header _ | .body _ _ _ => simp [FrameReader.ready] at h

theorem readData_eq_some {stream data rest : Bytes} {size : ℕ}
    (h : readData stream size = some (data, rest)) :
    stream = data ++ rest ∧ data.length = size := by
  rw [readData] at h
  split_ifs at h with hle
  obtain ⟨rfl, rfl⟩ := Prod.mk.inj (Option.some.inj h)
  exact ⟨(List.take_append_drop _ _).symm, by simpa using hle⟩

/-- **Reading byte by byte is reading a message**: where `readMessage` finds a message at the front
of a stream, the reader has it after the same bytes. -/
theorem after_of_readMessage {stream rest : Bytes} {msg : NodeWireMessage}
    (h : readMessage stream = some (msg, rest)) :
    ∃ p, stream = p ++ rest ∧ frames.after p = some (.done msg) := by
  simp only [readMessage, Option.bind_eq_bind, Option.bind_eq_some_iff] at h
  obtain ⟨⟨header, body⟩, hheader, h⟩ := h
  obtain ⟨hstream, hlength⟩ := readData_eq_some hheader
  have hafter : frames.after header = some (.ofHeader header) :=
    FrameReader.foldlM_readFull .header (fun _ _ ↦ rfl) [] (by rintro rfl; simp at hlength)
      (by simpa using hlength)
  dsimp only at h
  split_ifs at h with hpos
  · obtain ⟨⟨data, rest'⟩, hdata, h⟩ := Option.bind_eq_some_iff.mp h
    obtain ⟨rfl, rfl⟩ := Prod.mk.inj (Option.some.inj h)
    obtain ⟨hbody, hsize⟩ := readData_eq_some hdata
    have hne : data ≠ [] := by
      rintro rfl
      exact absurd hpos (by simp [UInt32.lt_iff_toNat_lt, ← hsize])
    refine ⟨header ++ data, by rw [hstream, hbody, List.append_assoc], ?_⟩
    rw [Format.after_append, hafter, Option.bind_some, FrameReader.ofHeader, if_pos hpos]
    exact FrameReader.foldlM_readFull (.body _ _) (fun _ _ ↦ rfl) [] hne
      (by simpa using hsize)
  · obtain ⟨rfl, rfl⟩ := Prod.mk.inj (Option.some.inj h)
    refine ⟨header, hstream, ?_⟩
    rw [hafter, FrameReader.ofHeader, if_neg hpos]

/-- A frame is read as the message it was made of. -/
theorem reads_frame {msg : NodeWireMessage} (h : msg.data.length < 2 ^ 32) : frames.Reads msg := by
  have hread := readMessage_frame msg [] h
  rw [List.append_nil] at hread
  obtain ⟨p, hp, hafter⟩ := after_of_readMessage hread
  rw [List.append_nil] at hp
  subst hp
  exact ⟨.done msg, hafter, rfl⟩

/-! ## A cluster over streams

Messages of 2³² bytes and more are excluded by `Short`: their length does not fit the header, and
the reader would take the rest of such a message for the next one. -/

namespace Member

variable {ν : Type} [DecidableEq ν] {json : EncodingJson} {peer : ν × ConnId → ν × ConnId}
  {config : ν → Config}

/-- No message has 2³² bytes of data or more. -/
def Short (x : ν × Step) : Prop := ∀ y ∈ ports.output x.2, y.2.data.length < 2 ^ 32

instance (x : ν × Step) : Decidable (Short x) :=
  inferInstanceAs (Decidable (∀ y ∈ ports.output x.2, _))

/-- A cluster whose connections carry bytes, and whose messages have less than 2³² bytes of data: a
longer one does not fit the length that is written before it. -/
def streams (json : EncodingJson) (peer : ν × ConnId → ν × ConnId) (config : ν → Config) :
    TransitionSystem (StreamNetwork ν ConnId Member UInt8 FrameReader)
      (StreamNetwork.Step ν ConnId Step) :=
  StreamNetwork.systemOf frames ports peer (fun _ ↦ step json) (fun n ↦ new (config n)) Short

omit [DecidableEq ν] in
theorem reads_of_short (x : ν × Step) (hx : Short x) (r : ConnId) (msg : NodeWireMessage)
    (hmsg : ports.output x.2 = some (r, msg)) : frames.Reads msg :=
  reads_frame (hx (r, msg) hmsg)

/-- **A cluster over streams is a cluster**: with messages of less than 2³² bytes, its nodes can
take some steps and come into some states if and only if they can when messages are carried. -/
theorem streams_iff (hpeer : ∀ e, peer (peer e) = e) (as : List (ν × Step)) (node : ν → Member) :
    (∃ ls s, (streams json peer config).Run ls s ∧ StreamNetwork.acts ls = as ∧ s.node = node) ↔
      ∃ t, ((network json peer config).restrict fun _ x ↦ Short x).Run as t ∧ t.node = node := by
  constructor
  · rintro ⟨ls, s, hr, rfl, rfl⟩
    obtain ⟨t, ht, hrep⟩ := StreamNetwork.run_represents hpeer reads_of_short hr
    exact ⟨t, ht, hrep.node⟩
  · rintro ⟨t, ht, rfl⟩
    exact StreamNetwork.exists_run_of_network hpeer reads_of_short ht

/-- Two nodes accept each other over streams. -/
theorem streams_iff_meet : ∃ ls s,
    (streams (.plain Utf8.repair) Links.pairPeer (pairConfig fun _ ↦ false)).Run ls s ∧
      StreamNetwork.acts ls = meet fun _ ↦ false := by
  obtain ⟨t, ht, -⟩ := TransitionSystem.exists_run_from
    (S := (network (.plain Utf8.repair) Links.pairPeer (pairConfig fun _ ↦ false)).restrict
      fun _ x ↦ Short x)
    (fun _ _ _ ↦ TransitionSystem.step_of_guarded _ _ _) (l := meet fun _ ↦ false)
    (p := fun _ ↦ true) rfl (by decide +kernel)
  obtain ⟨ls, s, hr, hls, -⟩ := (streams_iff Links.pairPeer_pairPeer _ _).mpr ⟨t, ht, rfl⟩
  exact ⟨ls, s, hr, hls⟩

/-- What the nodes of a cluster have read at an end of a connection. -/
def readAt (e : ν × ConnId) (ls : List (StreamNetwork.Step ν ConnId Step)) : List NodeWireMessage :=
  ports.received e.2 (Network.acts e.1 (StreamNetwork.acts ls))

/-- What they have sent there. -/
def sentAt (e : ν × ConnId) (ls : List (StreamNetwork.Step ν ConnId Step)) : List NodeWireMessage :=
  ports.sent e.2 (Network.acts e.1 (StreamNetwork.acts ls))

/-- **No message is torn, lost, doubled or overtaken on a stream**, when messages have less than 2³²
bytes: what was read at an end is a first part of what was sent at the other one, and all of it when
nothing is in between.  As long as it is not, the next message can be read, once the rest of what is
being written is written. -/
theorem readAt_prefix_sentAt {ls : List (StreamNetwork.Step ν ConnId Step)}
    {s : StreamNetwork ν ConnId Member UInt8 FrameReader} (hpeer : ∀ e, peer (peer e) = e)
    (hr : (streams json peer config).Run ls s) (e : ν × ConnId) :
    readAt e ls <+: sentAt (peer e) ls ∧
    (s.out (peer e) = [] → s.pipe e = [] → (s.reader e).ready = none →
      readAt e ls = sentAt (peer e) ls) ∧
    (readAt e ls ≠ sentAt (peer e) ls → ∃ msg k s',
      (streams json peer config).Run
        (ls ++ [.write (peer e) (s.out (peer e)).length] ++ [.read e k]) s' ∧
      (s'.reader e).ready = some msg ∧ readAt e ls ++ [msg] <+: sentAt (peer e) ls) := by
  obtain ⟨t, ht, hrep⟩ := StreamNetwork.run_represents hpeer reads_of_short hr
  have hwire : readAt e ls ++ t.wire e = sentAt (peer e) ls :=
    Network.received_append_wire hpeer ht.of_restrict e
  refine ⟨⟨_, hwire⟩, fun hout hpipe hready ↦ ?_, fun hne ↦ ?_⟩
  · have hcarries := hrep.wire e
    rw [hout, hpipe] at hcarries
    rw [← hwire, hcarries.eq_nil hready, List.append_nil]
  · match hmsgs : t.wire e with
    | [] => exact absurd (by rw [← hwire, hmsgs, List.append_nil]) hne
    | msg :: msgs =>
      obtain ⟨s₁, hr₁, hrep₁, hout⟩ := hrep.write_all hpeer hr (peer e)
      obtain ⟨k, s', hr', -, -, hready⟩ :=
        hrep₁.read_next hpeer hr₁ (e := e) (by simp [hout]) hmsgs
      exact ⟨msg, k, s', hr', hready, msgs, by rw [← hwire, hmsgs]; simp⟩

/-- A node sends its `VERIFY` message, of which seven bytes are written and three of those read. -/
def tornVerify : List (StreamNetwork.Step Bool ConnId Step) :=
  let hello := NodeMessage.verify (pairConfig (fun _ ↦ false) true).links.hello
  [.act true (.link (.sendVerify 0)),
    .act true (.link (.transmit 0 (hello.serialize (.plain Utf8.repair)))), .write (true, 0) 5,
    .read (false, 0) 3, .write (true, 0) 2]

/-- A message of which not all has arrived is not read, and can be read later. -/
theorem readAt_prefix_sentAt_torn : ∃ s,
    (streams (.plain Utf8.repair) Links.pairPeer (pairConfig fun _ ↦ false)).Run tornVerify s ∧
    s.reader (false, 0) = .header [11, 0, 0] ∧ s.pipe (false, 0) = [0, 10, 0, 1] ∧
    readAt (false, 0) tornVerify = [] ∧ ∃ msg k s',
      (streams (.plain Utf8.repair) Links.pairPeer (pairConfig fun _ ↦ false)).Run
        (tornVerify ++ [.write (true, 0) (s.out (true, 0)).length] ++ [.read (false, 0) k]) s' ∧
      (s'.reader (false, 0)).ready = some msg ∧ [msg] <+: sentAt (true, 0) tornVerify := by
  obtain ⟨s, hr, hs⟩ := TransitionSystem.exists_run_from
    (S := streams (.plain Utf8.repair) Links.pairPeer (pairConfig fun _ ↦ false))
    (fun _ _ _ ↦ TransitionSystem.step_of_guarded _ _ _) (l := tornVerify)
    (p := fun s ↦ s.reader (false, 0) = .header [11, 0, 0] ∧ s.pipe (false, 0) = [0, 10, 0, 1])
    rfl (by decide +kernel)
  obtain ⟨hreader, hpipe⟩ := of_decide_eq_true hs
  have hne : readAt (false, 0) tornVerify ≠ sentAt (Links.pairPeer (false, 0)) tornVerify := by
    decide +kernel
  exact ⟨s, hr, hreader, hpipe, rfl,
    (readAt_prefix_sentAt Links.pairPeer_pairPeer hr (false, 0)).2.2 hne⟩

end Member
end ClusteredBigCache
