import ClusteredBigCache.Queue.Ring

/-!
# Runs of the ring buffer

The queue under any sequence of `Push`, `Pop`, `Peek` and `Get`, each with what it returned.

* `ring_keeps_entries`: an entry that was pushed and not popped since reads back as it was pushed.
  A growth in the wrapped layout turns the gap between the tail and the head into an empty entry,
  and the result needs the length of that entry to fit the four bytes of its header;
  `long_blob_loses_entries` is what happens when it does not.
* `fifo`: entries are popped in the order in which they were pushed.  This needs that the array
  never grows in the wrapped layout, since that moves the head in front of the newer entries and
  leaves the empty entry to be popped; `rewind_breaks_order` is a short run in which it does.
-/

set_option autoImplicit false

namespace ClusteredBigCache
namespace BytesQueue

open TransitionSystem (Since)

variable {T : Type} [OrderedMap T ℤ Ptr]

/-- The calls of a client that removes entries by popping them, with what they returned. -/
inductive RingOp
  | push (data : Bytes) (result : Except QueueError ℕ)
  /-- A pop, with the index of the entry at the head. -/
  | pop (index : ℕ) (result : Except QueueError Bytes)
  | peek (result : Except QueueError Bytes)
  | get (index : ℤ)

/-- The bytes a returned slice shows. -/
def shown (q : BytesQueue T) (r : Except QueueError Slice) : Except QueueError Bytes :=
  r.map fun s ↦ (q.load s).bytes

/-- Make a call, provided the data is not empty and the call returns what the label says. -/
def ringStep (q : BytesQueue T) : RingOp → Option (BytesQueue T)
  | .push data r =>
    match q.Push data with
    | .ok (q', r') => if 1 ≤ data.length ∧ r' = r then some q' else none
    | .error _ => none
  | .pop i r =>
    match q.pop with
    | .ok (q', r') => if q.head = i ∧ q'.shown r' = r then some q' else none
    | .error _ => none
  | .peek r =>
    match q.Peek with
    | .ok r' => if q.shown r' = r then some q else none
    | .error _ => none
  | .get i =>
    match q.get i with
    | .ok _ => some q
    | .error _ => none

theorem ringStep_push {q q' : BytesQueue T} {data : Bytes} {r : Except QueueError ℕ}
    (h : q.Push data = .ok (q', r)) (hone : 1 ≤ data.length) :
    q.ringStep (.push data r) = some q' := by
  unfold ringStep
  simp only [h]
  exact if_pos ⟨hone, trivial⟩

theorem ringStep_pop {q q' : BytesQueue T} {s : Slice} (h : q.pop = .ok (q', .ok s)) :
    q.ringStep (.pop q.head (.ok (q'.load s).bytes)) = some q' := by
  unfold ringStep
  simp only [h]
  exact if_pos ⟨trivial, rfl⟩

/-- A queue of any initial and maximum capacity, under any sequence of such calls. -/
def ring (T : Type) [OrderedMap T ℤ Ptr] : TransitionSystem (BytesQueue T) RingOp :=
  .ofStep (fun q ↦ ∃ initialCapacity maxCapacity, q = new initialCapacity maxCapacity) ringStep

/-- **What one call does** to a queue in the ring invariant. -/
theorem Ring.step_cases {q q' : BytesQueue T} {line : List (ℕ × Bytes)} (h : q.Ring line)
    {op : RingOp} (hstep : q.ringStep op = some q') :
    (∃ data r, op = .push data r ∧ 1 ≤ data.length ∧ RingPush q data q' r) ∨
    (∃ b rest, line = b :: rest ∧ op = .pop b.1 (.ok b.2) ∧ q' = q.popped b) ∨
    (∃ i e, op = .pop i (.error e) ∧ q' = q) ∨
    (((∃ r, op = .peek r) ∨ ∃ i, op = .get i) ∧ q' = q) := by
  unfold ringStep at hstep
  cases op with
  | push data r =>
    obtain ⟨q₁, r₁, hpush, ho⟩ := h.Push_cases data
    simp only [hpush, Option.ite_none_right_eq_some, Option.some_inj] at hstep
    obtain ⟨⟨hone, rfl⟩, rfl⟩ := hstep
    exact .inl ⟨data, _, rfl, hone, ho⟩
  | pop i r =>
    cases line with
    | nil =>
      simp only [h.pop_nil, Option.ite_none_right_eq_some, Option.some_inj] at hstep
      obtain ⟨⟨rfl, rfl⟩, rfl⟩ := hstep
      exact .inr (.inr (.inl ⟨_, _, rfl, rfl⟩))
    | cons b rest =>
      obtain ⟨hpop, hload⟩ := h.pop_cons
      simp only [hpop, Option.ite_none_right_eq_some, Option.some_inj] at hstep
      obtain ⟨⟨rfl, rfl⟩, rfl⟩ := hstep
      refine .inr (.inl ⟨b, rest, rfl, ?_, rfl⟩)
      simp only [h.head_eq, shown, Except.map, load_popped, hload]
  | peek r =>
    simp only at hstep
    split at hstep
    · rw [Option.ite_none_right_eq_some] at hstep
      exact .inr (.inr (.inr ⟨.inl ⟨r, rfl⟩, (Option.some.inj hstep.2).symm⟩))
    · cases hstep
  | get i =>
    simp only at hstep
    split at hstep
    · exact .inr (.inr (.inr ⟨.inr ⟨i, rfl⟩, (Option.some.inj hstep).symm⟩))
    · cases hstep

/-! ## Entries stay in place -/

/-- The entry at an index is popped. -/
def PopsAt (i : ℕ) (op : RingOp) : Prop := ∃ data, op = .pop i (.ok data)

/-- What a push may be: its length fits the header, and so does that of the empty entry it inserts,
if it does. -/
def BlobFits (q : BytesQueue T) : RingOp → Prop
  | .push data _ => data.length < 2 ^ 32 ∧
      (q.Rewinds data → (q.head : ℤ) - q.tail - headerEntrySize < 2 ^ 32)
  | _ => True

instance (q : BytesQueue T) (op : RingOp) : Decidable (q.BlobFits op) := by
  cases op <;> unfold BlobFits <;> infer_instance

/-- The blocks of the ring and the live entries along a run. -/
theorem ring_inv {ls : List RingOp} {q : BytesQueue T}
    (hr : ((ring T).restrict BlobFits).Run ls q) :
    (∃ line, q.Ring line ∧ ∀ e ∈ q.live, e ∈ line) ∧
      ∀ i data, (i, data) ∈ q.live ↔ Since ls (.push data (.ok i)) (PopsAt i) := by
  refine hr.history_invariant ?_ ?_
  · rintro q ⟨ic, mc, rfl⟩
    exact ⟨⟨[], new_ring ic mc, fun e he ↦ he⟩, fun i data ↦ iff_of_false List.not_mem_nil
      TransitionSystem.not_since_nil⟩
  · rintro ls q op q' ⟨⟨line, h, hmem⟩, hlive⟩ ⟨hstep, hok⟩
    simp only [TransitionSystem.since_append_singleton, ← hlive]
    obtain ⟨data, r, rfl, hone, ho⟩ | ⟨b, rest, rfl, rfl, rfl⟩ | ⟨i, e, rfl, rfl⟩ | ⟨hop, rfl⟩ :=
      h.step_cases hstep
    · obtain ⟨hlt, hblob⟩ := hok
      cases r with
      | error e =>
        obtain rfl := ho.eq_of_error
        exact ⟨⟨line, h, hmem⟩, fun i d ↦ by simp [PopsAt]⟩
      | ok j =>
        have hblob' : q.Rewinds data → q.emptyBlob.length < 2 ^ 32 := by
          intro hre
          have := hblob hre
          rw [headerEntrySize] at this
          rw [emptyBlob, List.length_replicate]
          omega
        obtain ⟨line', h', hj, hsub⟩ := ho.ring_of_blob h hone hlt hblob'
        rw [ho.live_of_ok]
        refine ⟨⟨line', h', fun e he ↦ ?_⟩, fun i d ↦ by simp [PopsAt, eq_comm, and_comm]⟩
        rcases List.mem_cons.mp he with rfl | he
        · exact hj
        · exact hsub e (hmem e he)
    · have hpops : ∀ i, PopsAt i (.pop b.1 (.ok b.2)) ↔ i = b.1 := by simp [PopsAt, eq_comm]
      rw [popped_live, h.head_eq]
      refine ⟨⟨rest, h.popped, fun e he ↦ ?_⟩, fun i d ↦ by simp [hpops]⟩
      rw [List.mem_filter] at he
      rcases List.mem_cons.mp (hmem e he.1) with rfl | hrest
      · simp at he
      · exact hrest
    · exact ⟨⟨line, h, hmem⟩, fun i d ↦ by simp [PopsAt]⟩
    · refine ⟨⟨line, h, hmem⟩, fun i d ↦ ?_⟩
      rcases hop with ⟨r, rfl⟩ | ⟨j, rfl⟩ <;> simp [PopsAt]

omit [OrderedMap T ℤ Ptr] in
/-- In the wrapped layout the gap is at least the smallest empty entry. -/
theorem Layout.gap {q : BytesQueue T} {line : List (ℕ × Bytes)} (h : q.Layout line)
    (hwrapped : q.tail < q.head) : q.tail + minimumEmptyBlobSize ≤ q.head := by
  cases h with
  | flat hpos hmargin hle hempty hline => exact absurd hline.le (not_le.mpr hwrapped)
  | wrapped hne hne' hgap hle holder hnewer => exact hgap

/-- **The ring buffer keeps entries in place.**  Along every run in which every empty entry fits its
header, an entry that was pushed and not popped since reads back exactly as it was pushed, the
length computed for an empty entry is never negative, and `Push` and `Pop` return. -/
theorem ring_keeps_entries {ls : List RingOp} {q : BytesQueue T}
    (hr : ((ring T).restrict BlobFits).Run ls q) :
    (∀ i data, Since ls (.push data (.ok i)) (PopsAt i) →
      ∃ s, q.get i = .ok (.ok s) ∧ (q.load s).bytes = data) ∧
    (q.tail < q.head → 0 ≤ (q.head : ℤ) - q.tail - headerEntrySize) ∧
    (∀ data : Bytes, ∃ q' r, q.Push data = .ok (q', r)) ∧ ∃ q' r, q.pop = .ok (q', r) := by
  obtain ⟨⟨line, h, hmem⟩, hlive⟩ := ring_inv hr
  refine ⟨fun i data hsince ↦ ?_, fun hwrapped ↦ ?_, fun data ↦ ?_, h.pop_returns⟩
  · obtain ⟨hpeek, hload⟩ := h.peek (hmem _ ((hlive i data).mpr hsince))
    refine ⟨_, ?_, hload⟩
    rw [get, hpeek]
    rfl
  · have hgap := h.layout.gap hwrapped
    rw [minimumEmptyBlobSize] at hgap
    rw [headerEntrySize] at hgap ⊢
    omega
  · obtain ⟨q', r, hpush, -⟩ := h.Push_cases data
    exact ⟨q', r, hpush⟩

/-- A run in which the array grows while the tail is before the head, and the entry that was at the
head is still there. -/
theorem ring_keeps_entries_rewind :
    ∃ q, ((ring (SortedAssoc ℤ Ptr)).restrict BlobFits).Run
        [.push (List.replicate 50 1) (.ok 1), .push (List.replicate 50 2) (.ok 55),
          .pop 1 (.ok (List.replicate 50 1)), .push (List.replicate 10 3) (.ok 1),
          .push (List.replicate 30 4) (.ok 109)] q ∧
      ∃ s, q.get 55 = .ok (.ok s) ∧ (q.load s).bytes = List.replicate 50 2 := by
  refine Exists.imp (fun q hq ↦ ⟨hq.1, ?_⟩) (TransitionSystem.exists_run_from
    (S := (ring (SortedAssoc ℤ Ptr)).restrict BlobFits) TransitionSystem.step_of_guarded
    (p := fun _ ↦ true) ⟨120, 0, rfl⟩ (by decide +kernel))
  refine (ring_keeps_entries hq.1).1 55 _ ⟨[_], [_, _, _], rfl, ?_⟩
  simp [PopsAt]

/-! ### An empty entry that is too long for its header -/

/-- A queue without a limit, with the blocks of its line and its positions. -/
structure At (q : BytesQueue T) (line : List (ℕ × Bytes)) (head tail margin capacity : ℕ) :
    Prop where
  ring : q.Ring line
  head_eq : q.head = head
  tail_eq : q.tail = tail
  margin_eq : q.rightMargin = margin
  capacity_eq : q.capacity = capacity
  max_eq : q.maxCapacity = 0

section At

variable {q : BytesQueue T} {line : List (ℕ × Bytes)} {head tail margin capacity : ℕ}

/-- Without a limit the queue is never full. -/
theorem At.not_full (h : q.At line head tail margin capacity) (need : ℕ) : ¬ q.Full need := by
  intro hfull
  have := hfull.2
  rw [h.max_eq] at this
  omega

theorem At.push_behind (h : q.At line head tail margin capacity) {data : Bytes}
    (hone : 1 ≤ data.length) (hlt : data.length < 2 ^ 32) (hflat : head ≤ tail)
    (hfit : tail + (data.length + 4) ≤ capacity) :
    ∃ q', q.ringStep (.push data (.ok tail)) = some q' ∧
      q'.At (line ++ [(tail, data)]) head (tail + (data.length + 4)) (tail + (data.length + 4))
        capacity := by
  obtain ⟨hring, rfl, rfl, rfl, rfl, hmax⟩ := h
  obtain ⟨q', r, hpush, ho⟩ := hring.Push_cases data
  cases ho with
  | behind =>
    exact ⟨_, ringStep_push hpush hone, hring.pushed hflat hone hlt hfit, rfl, rfl, rfl, rfl, hmax⟩
  | wrap _ hend => omega
  | between hwrapped => omega
  | grow _ hend => omega
  | rewind hre => exact absurd hre.1 (not_lt.mpr hflat)
  | full hfull => exact absurd hfull.2 (by rw [hmax]; omega)

theorem At.push_wrap (h : q.At line head tail margin capacity) {data : Bytes}
    (hone : 1 ≤ data.length) (hlt : data.length < 2 ^ 32) (hflat : head ≤ tail)
    (hend : capacity < tail + (data.length + 4)) (hfit : 1 + (data.length + 4) + 36 ≤ head) :
    ∃ q', q.ringStep (.push data (.ok 1)) = some q' ∧
      q'.At (line ++ [(1, data)]) head (1 + (data.length + 4)) margin capacity := by
  obtain ⟨hring, rfl, rfl, rfl, rfl, hmax⟩ := h
  obtain ⟨q', r, hpush, ho⟩ := hring.Push_cases data
  cases ho with
  | behind => omega
  | wrap =>
    exact ⟨_, ringStep_push hpush hone, hring.wrap hflat hone hlt hfit, rfl, rfl, rfl, rfl, hmax⟩
  | between hwrapped => omega
  | grow _ _ hroom => omega
  | rewind hre => exact absurd hre.1 (not_lt.mpr hflat)
  | full hfull => exact absurd hfull.2 (by rw [hmax]; omega)

theorem At.pop {b : ℕ × Bytes} (h : q.At (b :: line) head tail margin capacity)
    (hne : head + (b.2.length + 4) ≠ margin) :
    ∃ q', q.ringStep (.pop b.1 (.ok b.2)) = some q' ∧
      q'.At line (head + (b.2.length + 4)) tail margin capacity := by
  obtain ⟨hring, rfl, rfl, rfl, rfl, hmax⟩ := h
  obtain ⟨hpop, hload⟩ := hring.pop_cons
  have hstep := ringStep_pop hpop
  rw [load_popped, hload, hring.head_eq] at hstep
  refine ⟨_, hstep, hring.popped, ?_, ?_, ?_, ?_, ?_⟩ <;> rw [popped_of_ne hne]
  exact hmax

/-- A growth in the wrapped layout, whatever the length of the empty entry. -/
theorem At.push_rewind (h : q.At line head tail margin capacity) {data : Bytes}
    (hone : 1 ≤ data.length) (hwrapped : tail < head)
    (hfit : head < tail + (data.length + 4) + 36) :
    q.ringStep (.push data (.ok margin)) =
      some ((q.rewound (data.length + 4)).pushed data) := by
  obtain ⟨hring, rfl, rfl, rfl, rfl, hmax⟩ := h
  obtain ⟨q', r, hpush, ho⟩ := hring.Push_cases data
  cases ho with
  | behind => omega
  | wrap => omega
  | between => omega
  | grow => omega
  | rewind hre => exact ringStep_push hpush hone
  | full hfull => exact absurd hfull.2 (by rw [hmax]; omega)

end At

/-- From the head up to `j` the array is zero. -/
structure Zeroed (q : BytesQueue T) (j : ℕ) : Prop where
  pos : 1 ≤ q.head
  zero : ∀ k, q.head ≤ k → k < j → q.array[k]? = some 0
  lt_margin : j < q.rightMargin

omit [OrderedMap T ℤ Ptr] in
/-- After a pop that ends before `j`. -/
theorem Zeroed.popped {q : BytesQueue T} {j : ℕ} {b : ℕ × Bytes} (hpos : 1 ≤ q.head)
    (hzero : ∀ k, q.head + (b.2.length + 4) ≤ k → k < j → q.array[k]? = some 0)
    (hlt : j < q.rightMargin) (hj : q.head + (b.2.length + 4) < j) :
    (q.popped b).Zeroed j ∧ (q.popped b).head = q.head + (b.2.length + 4) ∧
      (q.popped b).count = q.count - 1 := by
  rw [popped_of_ne (by omega)]
  exact ⟨⟨by simp only; omega, hzero, hlt⟩, rfl, rfl⟩

/-- Where the array is zero, `Pop` finds an entry of length zero. -/
theorem Zeroed.pop {q : BytesQueue T} {j : ℕ} (h : q.Zeroed j) (hj : q.head + 4 < j)
    (hcount : q.count ≠ 0) :
    ∃ q', q.ringStep (.pop q.head (.ok [])) = some q' ∧ q'.Zeroed j ∧ q'.head = q.head + 4 ∧
      q'.count = q.count - 1 := by
  have hpos := h.pos
  have hlt := h.lt_margin
  have hlen : j ≤ q.array.length := by
    by_contra hlen
    have := h.zero (max q.head q.array.length) (le_max_left _ _) (by omega)
    rw [List.getElem?_eq_none (le_max_right _ _)] at this
    cases this
  have hheader : Bytes.sub q.array q.head 4 = Bytes.toLE 4 0 := by
    refine List.ext_getElem? fun i ↦ ?_
    rw [Bytes.getElem?_sub]
    split_ifs with hi
    · rw [h.zero _ (by omega) (by omega)]
      interval_cases i <;> rfl
    · exact (List.getElem?_eq_none (by simpa using hi)).symm
  have hpop := pop_eq (b := (q.head, []))
    (peek_of_header hcount h.pos (by omega) (Nat.two_pow_pos 32) (by simp; omega) hheader)
  have hstep := ringStep_pop hpop
  rw [load_popped, load_view] at hstep
  exact ⟨_, hstep, Zeroed.popped hpos (fun k hk hk' ↦ h.zero k (by simp at hk; omega) hk') hlt hj⟩

/-- Two entries of together more than `2 ^ 32` bytes are pushed and popped again, and the tail wraps
around: between it and the head there are now exactly `2 ^ 32 + 4` bytes. -/
theorem exists_wide_gap {n : ℕ} (hn : n = 4294967311) {x : Bytes} (hx : x.length = 4294967295) :
    ∃ q : BytesQueue T, (ring T).Run [.push x (.ok 1), .push [1, 2] (.ok 4294967300),
        .push [3] (.ok 4294967306), .pop 1 (.ok x), .pop 4294967300 (.ok [1, 2]),
        .push [4] (.ok 1)] q ∧
      q.At [(4294967306, [3]), (1, [4])] 4294967306 6 4294967311 n := by
  have h0 : (new n 0 : BytesQueue T).At [] 1 1 1 n := ⟨new_ring n 0, rfl, rfl, rfl, rfl, rfl⟩
  obtain ⟨q₁, hs₁, h₁⟩ := h0.push_behind (show 1 ≤ x.length by omega) (by omega) le_rfl (by omega)
  simp only [hx, List.nil_append, Nat.reduceAdd] at h₁
  obtain ⟨q₂, hs₂, h₂⟩ := h₁.push_behind (show 1 ≤ [1, 2].length by simp) (by simp) (by omega)
    (by simp [hn])
  simp only [List.length_cons, List.length_nil, List.cons_append, List.nil_append,
    Nat.reduceAdd] at h₂
  obtain ⟨q₃, hs₃, h₃⟩ := h₂.push_behind (show 1 ≤ [3].length by simp) (by simp) (by omega)
    (by simp [hn])
  simp only [List.length_cons, List.length_nil, List.cons_append, List.nil_append,
    Nat.reduceAdd] at h₃
  obtain ⟨q₄, hs₄, h₄⟩ := h₃.pop (by simp [hx])
  simp only [hx, Nat.reduceAdd] at h₄
  obtain ⟨q₅, hs₅, h₅⟩ := h₄.pop (by simp)
  simp only [List.length_cons, List.length_nil, Nat.reduceAdd] at h₅
  obtain ⟨q₆, hs₆, h₆⟩ := h₅.push_wrap (show 1 ≤ [4].length by simp) (by simp) (by omega)
    (by simp [hn]) (by simp)
  have hstart : (ring T).Run [] (new n 0) := .start ⟨n, 0, rfl⟩
  exact ⟨q₆, .snoc (.snoc (.snoc (.snoc (.snoc (.snoc hstart hs₁) hs₂) hs₃) hs₄) hs₅) hs₆, h₆⟩

section Lost

variable {q : BytesQueue T} {n : ℕ} {z : Bytes}

theorem At.le_grownCapacity (h : q.At [(4294967306, [3]), (1, [4])] 4294967306 6 4294967311 n)
    (hn : n = 4294967311) : 4294967311 + (z.length + 4) ≤ q.grownCapacity (z.length + 4) :=
  BytesQueue.le_grownCapacity (by rw [h.capacity_eq]; omega) (by omega) (h.not_full _)

/-- The growth then writes an empty entry whose header says that it has no data, and zeros behind
it. -/
theorem At.zeroed (h : q.At [(4294967306, [3]), (1, [4])] 4294967306 6 4294967311 n)
    (hn : n = 4294967311) {k : ℕ} (hk : 6 ≤ k) (hk' : k < 100) :
    ((q.rewound (z.length + 4)).pushed z).array[k]? = some 0 := by
  have hcap := h.le_grownCapacity (z := z) hn
  have hblob : q.emptyBlob.length = 4294967296 := by
    rw [emptyBlob, List.length_replicate, h.head_eq, h.tail_eq]
  -- the header of the empty entry is the low four bytes of its length
  have hframe : frame q.emptyBlob = List.replicate 4 0 ++ q.emptyBlob := by
    rw [frame, hblob]
    rfl
  rw [pushed, written, rewound]
  simp only [h.margin_eq, h.tail_eq]
  rw [Bytes.getElem?_blit, if_neg (by omega), Bytes.getElem?_blit, if_pos, hframe, emptyBlob,
    List.getElem?_append, List.getElem?_replicate, List.getElem?_replicate, h.head_eq, h.tail_eq]
  · split_ifs <;> first | rfl | (simp only [List.length_replicate] at *; omega)
  · rw [length_frame, hblob, Bytes.length_blit, List.length_replicate]
    omega

/-- The entry at the left margin is where it was. -/
theorem At.holds_first (h : q.At [(4294967306, [3]), (1, [4])] 4294967306 6 4294967311 n)
    (hn : n = 4294967311) : Holds ((q.rewound (z.length + 4)).pushed z).array (1, [4]) := by
  have hcap := h.le_grownCapacity (z := z) hn
  have hlen : q.array.length = 4294967311 := by rw [h.ring.length_eq, h.capacity_eq, hn]
  refine (h.ring.mem (b := (1, [4])) (by simp)).1.congr fun k _ hk ↦ ?_
  have hk : k < 6 := hk
  have htail : (q.rewound (z.length + 4)).tail = 4294967311 := h.margin_eq
  rw [pushed, written, Bytes.getElem?_blit, if_neg (by omega)]
  refine getElem?_rewound ?_ ?_ ?_ ?_ (.inl ?_) <;> simp only [h.tail_eq, h.head_eq, h.margin_eq]
    <;> omega

/-- That entry is popped, and the head is at the empty entry. -/
theorem At.pop_first (h : q.At [(4294967306, [3]), (1, [4])] 4294967306 6 4294967311 n)
    (hn : n = 4294967311) :
    ∃ q', ((q.rewound (z.length + 4)).pushed z).ringStep (.pop 1 (.ok [4])) = some q' ∧
      q'.Zeroed 100 ∧ q'.head = 6 ∧ q'.count = 3 := by
  have hcap := h.le_grownCapacity (z := z) hn
  have hcount : ((q.rewound (z.length + 4)).pushed z).count = 4 := by
    simp [pushed, written, rewound, h.ring.count_eq]
  have hlen : ((q.rewound (z.length + 4)).pushed z).array.length =
      q.grownCapacity (z.length + 4) := by
    simp [pushed, written, rewound]
  have hmargin : ((q.rewound (z.length + 4)).pushed z).rightMargin =
      4294967311 + (z.length + 4) := congrArg (· + (z.length + 4)) h.margin_eq
  have hhead : ((q.rewound (z.length + 4)).pushed z).head = 1 := rfl
  obtain ⟨hpeek, hload⟩ := (h.holds_first (z := z) hn).peek (by omega) le_rfl
    (by simp only [List.length_cons, List.length_nil]; omega)
  have hstep := ringStep_pop (pop_eq hpeek)
  rw [load_popped, hload] at hstep
  obtain ⟨hzeroed, hhead', hcount'⟩ := Zeroed.popped (b := (1, [4])) (j := 100) hhead.ge
    (fun k hk ↦ h.zeroed hn hk) (by omega) (by rw [hhead]; simp)
  rw [hcount] at hcount'
  exact ⟨_, hstep, hzeroed, hhead', hcount'⟩

end Lost

/-- A run with two long pushes of `z`, in which the second one grows the array in the wrapped
layout. -/
def lossyRun (z : Bytes) : List RingOp :=
  [.push z (.ok 1), .push [1, 2] (.ok 4294967300), .push [3] (.ok 4294967306), .pop 1 (.ok z),
    .pop 4294967300 (.ok [1, 2]), .push [4] (.ok 1), .push z (.ok 4294967311), .pop 1 (.ok [4]),
    .pop 6 (.ok []), .pop 10 (.ok []), .pop 14 (.ok [])]

/-- **An empty entry that is too long for its header makes live entries unreadable.**  Its header
reads as an entry of length zero, and so does every four bytes behind it; a few pops later the count
is zero, while the entry `[3]` was never popped. -/
theorem long_blob_loses_entries :
    ∃ q, (ring (SortedAssoc ℤ Ptr)).Run (lossyRun (List.replicate (2 ^ 32 - 1) 0)) q ∧
      Since (lossyRun (List.replicate (2 ^ 32 - 1) 0)) (.push [3] (.ok 4294967306))
        (PopsAt 4294967306) ∧
      q.get 4294967306 = .ok (.error .empty) := by
  obtain ⟨z, hz⟩ : ∃ z : Bytes, z = List.replicate (2 ^ 32 - 1) 0 := ⟨_, rfl⟩
  have hlen : z.length = 4294967295 := by
    rw [hz, List.length_replicate]
    rfl
  rw [← hz]
  obtain ⟨q, hr, h⟩ := exists_wide_gap (T := SortedAssoc ℤ Ptr) rfl hlen
  have hs := h.push_rewind (show 1 ≤ z.length by omega) (by omega) (by omega)
  obtain ⟨q₁, hs₁, hz₁, hhead₁, hcount₁⟩ := h.pop_first (z := z) rfl
  obtain ⟨q₂, hs₂, hz₂, hhead₂, hcount₂⟩ := hz₁.pop (by omega) (by omega)
  obtain ⟨q₃, hs₃, hz₃, hhead₃, hcount₃⟩ := hz₂.pop (by omega) (by omega)
  obtain ⟨q₄, hs₄, hz₄, hhead₄, hcount₄⟩ := hz₃.pop (by omega) (by omega)
  rw [hhead₁] at hs₂ hhead₂
  rw [hhead₂] at hs₃ hhead₃
  rw [hhead₃] at hs₄
  refine ⟨q₄, .snoc (.snoc (.snoc (.snoc (.snoc hr hs) hs₁) hs₂) hs₃) hs₄,
    ⟨[_, _], _, rfl, by simp [PopsAt]⟩, ?_⟩
  rw [get, BytesQueue.peek, if_pos (by omega)]
  rfl

/-! ## First in, first out

The line of a `Ring` is the order in which the blocks are popped.  A growth in the wrapped layout
puts the newer blocks before the older ones; without such a growth it is the order of the pushes. -/

/-- The data of the successful pushes, in order. -/
def pushedData (ls : List RingOp) : List Bytes :=
  ls.filterMap fun
    | .push data (.ok _) => some data
    | _ => none

/-- The data of the successful pops, in order. -/
def poppedData (ls : List RingOp) : List Bytes :=
  ls.filterMap fun
    | .pop _ (.ok data) => some data
    | _ => none

/-- What a push may be: its length fits the header, and it does not grow the array while the tail is
before the head. -/
def Straight (q : BytesQueue T) : RingOp → Prop
  | .push data _ => data.length < 2 ^ 32 ∧ ¬ q.Rewinds data
  | _ => True

instance (q : BytesQueue T) (op : RingOp) : Decidable (q.Straight op) := by
  cases op <;> unfold Straight <;> infer_instance

/-- What is in the queue is what was pushed and not popped, in this order. -/
theorem fifo_inv {ls : List RingOp} {q : BytesQueue T}
    (hr : ((ring T).restrict Straight).Run ls q) :
    ∃ line, q.Ring line ∧ pushedData ls = poppedData ls ++ line.map Prod.snd := by
  refine hr.history_invariant ?_ ?_
  · rintro q ⟨ic, mc, rfl⟩
    exact ⟨[], new_ring ic mc, rfl⟩
  · rintro ls q op q' ⟨line, h, hdata⟩ ⟨hstep, hok⟩
    simp only [pushedData, poppedData, List.filterMap_append] at hdata ⊢
    rw [hdata]
    obtain ⟨data, r, rfl, hone, ho⟩ | ⟨b, rest, rfl, rfl, rfl⟩ | ⟨i, e, rfl, rfl⟩ | ⟨hop, rfl⟩ :=
      h.step_cases hstep
    · cases r with
      | error e =>
        obtain rfl := ho.eq_of_error
        exact ⟨line, h, by simp⟩
      | ok j => exact ⟨_, ho.ring h hone hok.1 hok.2, by simp⟩
    · exact ⟨rest, h.popped, by simp⟩
    · exact ⟨line, h, by simp⟩
    · refine ⟨line, h, ?_⟩
      rcases hop with ⟨r, rfl⟩ | ⟨j, rfl⟩ <;> simp

/-- **The queue is first in, first out.**  Along every run in which no push grows the array while
the tail is before the head, and in which the length of every push fits the header: what was popped
is what was pushed, in the order in which it was pushed; `Len` is the number of entries pushed and
not popped; and `Peek` and `Pop` return the oldest of them. -/
theorem fifo {ls : List RingOp} {q : BytesQueue T}
    (hr : ((ring T).restrict Straight).Run ls q) :
    ∃ rest, pushedData ls = poppedData ls ++ rest ∧ q.len = rest.length ∧
      (rest = [] → q.Peek = .ok (.error .empty) ∧ q.pop = .ok (q, .error .empty)) ∧
      ∀ data rest', rest = data :: rest' → ∃ s q', q.Peek = .ok (.ok s) ∧
        (q.load s).bytes = data ∧ q.pop = .ok (q', .ok s) ∧ (q'.load s).bytes = data := by
  obtain ⟨line, h, hdata⟩ := fifo_inv hr
  refine ⟨_, hdata, by simp [len, h.count_eq], fun hnil ↦ ?_, fun data rest' hcons ↦ ?_⟩
  · obtain rfl : line = [] := by simpa using hnil
    refine ⟨?_, h.pop_nil⟩
    rw [Peek, h.peek_nil]
    rfl
  · cases line with
    | nil => simp at hcons
    | cons b line =>
      obtain ⟨rfl, -⟩ := List.cons.inj hcons
      obtain ⟨hpop, hload⟩ := h.pop_cons
      refine ⟨q.view b, q.popped b, ?_, hload, hpop, by rwa [load_popped]⟩
      rw [Peek, h.head_eq, (h.peek List.mem_cons_self).1]
      rfl

/-- A run in which the tail wraps around to the left margin. -/
theorem fifo_wrap :
    ∃ q, ((ring (SortedAssoc ℤ Ptr)).restrict Straight).Run
        [.push (List.replicate 50 1) (.ok 1), .push (List.replicate 50 2) (.ok 55),
          .pop 1 (.ok (List.replicate 50 1)), .push (List.replicate 10 3) (.ok 1)] q ∧
      ∃ s, q.Peek = .ok (.ok s) ∧ (q.load s).bytes = List.replicate 50 2 := by
  obtain ⟨q, hq, -⟩ := TransitionSystem.exists_run_from
    (S := (ring (SortedAssoc ℤ Ptr)).restrict Straight) TransitionSystem.step_of_guarded
    (p := fun _ ↦ true) ⟨120, 0, rfl⟩
    (l := [.push (List.replicate 50 1) (.ok 1), .push (List.replicate 50 2) (.ok 55),
          .pop 1 (.ok (List.replicate 50 1)), .push (List.replicate 10 3) (.ok 1)])
    (by decide +kernel)
  obtain ⟨rest, hdata, -, -, hcons⟩ := fifo hq
  obtain rfl : rest = [List.replicate 50 2, List.replicate 10 3] :=
    (List.append_cancel_left (hdata.symm.trans rfl : [List.replicate 50 1] ++ rest = _))
  obtain ⟨s, q', hpeek, hload, -⟩ := hcons _ _ rfl
  exact ⟨q, hq, s, hpeek, hload⟩

/-- **A growth in the wrapped layout breaks the order**: the third entry is popped before the second
one. -/
theorem rewind_breaks_order :
    ∃ q ls, (ring (SortedAssoc ℤ Ptr)).Run ls q ∧
      pushedData ls = [List.replicate 50 1, List.replicate 50 2, List.replicate 10 3,
        List.replicate 30 4] ∧
      poppedData ls = [List.replicate 50 1, List.replicate 10 3, List.replicate 36 0] ∧
      q.len = 2 := by
  obtain ⟨q, hq, hlen⟩ := TransitionSystem.exists_run_from (S := ring (SortedAssoc ℤ Ptr))
    (f := ringStep) (fun _ _ _ ↦ id) (p := fun q ↦ q.len = 2) ⟨120, 0, rfl⟩
    (l := [.push (List.replicate 50 1) (.ok 1), .push (List.replicate 50 2) (.ok 55),
          .pop 1 (.ok (List.replicate 50 1)), .push (List.replicate 10 3) (.ok 1),
          .push (List.replicate 30 4) (.ok 109), .pop 1 (.ok (List.replicate 10 3)),
          .pop 15 (.ok (List.replicate 36 0))])
    (by decide +kernel)
  exact ⟨q, _, hq, rfl, rfl, by simpa using hlen⟩

end BytesQueue
end ClusteredBigCache
