import ClusteredBigCache.Lib.Network

/-!
# Networks over streams

A `Network` carries messages.  What a connection carries is a stream of bytes: a message is encoded
and written piece by piece, and at the other end a reader takes what has arrived, piece by piece,
until it has a message.  `StreamNetwork` is a network of the same programs with such connections,
for any `Format`.

* `Format.Carries` says what a stream of bytes is: the messages that are on the way, except for
  the bytes of the first one that the reader has taken already.
* `run_represents`: without the reads and the writes, a run of the stream network is a run of the
  network.  So what is true of every run of the network is true over streams, however they are cut
  into pieces, and also if they break off.
* `exists_run_of_network`: and every run of the network is one of the stream network.
-/

set_option autoImplicit false

/-! ## Formats

A format must be decodable byte by byte: at any point the bytes that were read since the last
message are the beginning of the next one, and the reader knows when it is complete. -/

/-- How messages are encoded, and what reads them. -/
structure Format (μ β ρ : Type) where
  encode : μ → List β
  /-- A reader between two messages. -/
  start : ρ
  /-- The reader takes one more byte. -/
  feed : ρ → β → Option ρ
  /-- The message that the reader has, at the end of it. -/
  ready : ρ → Option μ
  ready_start : ready start = none
  /-- A reader that has a message takes nothing more. -/
  feed_of_ready : ∀ r b, (ready r).isSome → feed r b = none

namespace Format

variable {μ β ρ : Type} (F : Format μ β ρ)

/-- The reader that has taken some bytes since the last message. -/
def after (bs : List β) : Option ρ := bs.foldlM F.feed F.start

/-- A message is read from its encoding. -/
def Reads (m : μ) : Prop := ∃ r, F.after (F.encode m) = some r ∧ F.ready r = some m

variable {F}

theorem after_append (p q : List β) : F.after (p ++ q) = (F.after p).bind (q.foldlM F.feed ·) := by
  rw [after, List.foldlM_append]
  rfl

theorem after_concat {p : List β} {r : ρ} (b : β) (hr : F.after p = some r) :
    F.after (p ++ [b]) = F.feed r b := by
  rw [after_append, hr, Option.bind_some, List.foldlM_cons]
  cases F.feed r b <;> rfl

/-- A message is not read before the end of its encoding. -/
theorem Reads.before {m : μ} (hm : F.Reads m) {p q : List β} {b : β} {r : ρ}
    (hsplit : F.encode m = p ++ b :: q) (hr : F.after p = some r) : F.ready r = none := by
  obtain ⟨r', hr', -⟩ := hm
  rw [hsplit, after_append, hr, Option.bind_some, List.foldlM_cons, Option.bind_eq_bind,
    Option.bind_eq_some_iff] at hr'
  obtain ⟨u, hu, -⟩ := hr'
  by_contra hready
  rw [F.feed_of_ready r b (Option.isSome_iff_ne_none.mpr hready)] at hu
  exact absurd hu (by simp)

/-- A reader that has read a part of an encoding has a message exactly at its end. -/
theorem Reads.ready_iff {m : μ} (hm : F.Reads m) {p : List β} {r : ρ} (hp : p <+: F.encode m)
    (hr : F.after p = some r) : (F.ready r = some m ∧ p = F.encode m) ∨
      (F.ready r = none ∧ ∃ b q, F.encode m = p ++ b :: q) := by
  obtain ⟨q, hq⟩ := hp
  rcases q with _ | ⟨b, q⟩
  · obtain ⟨r', hr', hready⟩ := hm
    rw [List.append_nil] at hq
    subst hq
    obtain rfl := Option.some.inj (hr.symm.trans hr')
    exact .inl ⟨hready, rfl⟩
  · exact .inr ⟨hm.before hq.symm hr, b, q, hq.symm⟩

/-- A reader and the bytes that are yet to come carry messages: the bytes that the reader has taken
since the last message are a part of the first of them. -/
structure Carries (F : Format μ β ρ) (r : ρ) (rest : List β) (msgs : List μ) : Prop where
  reads : ∀ m ∈ msgs, F.Reads m
  split : ∃ p, F.after p = some r ∧ msgs.flatMap F.encode = p ++ rest ∧
    ∀ m ∈ msgs.head?, p <+: F.encode m

variable {r r' : ρ} {rest : List β} {msgs : List μ} {m : μ}

theorem carries_nil : F.Carries F.start [] [] := ⟨by simp, [], rfl, rfl, by simp⟩

/-- A reader that has a message has the first one. -/
theorem Carries.of_ready (h : F.Carries r rest msgs) (hready : F.ready r = some m) :
    ∃ ms, msgs = m :: ms ∧ F.Carries F.start rest ms := by
  obtain ⟨hreads, p, hr, hsplit, hhead⟩ := h
  rcases msgs with _ | ⟨m', ms⟩
  · obtain ⟨rfl, -⟩ := List.nil_eq_append_iff.mp hsplit
    obtain rfl : F.start = r := Option.some.inj hr
    simp [F.ready_start] at hready
  · obtain ⟨hm', hms⟩ := List.forall_mem_cons.mp hreads
    rcases hm'.ready_iff (hhead m' rfl) hr with ⟨hready', rfl⟩ | ⟨hnone, -⟩
    · obtain rfl := Option.some.inj (hready.symm.trans hready')
      refine ⟨ms, rfl, hms, [], rfl, ?_, fun m _ ↦ List.nil_prefix⟩
      simpa using hsplit
    · simp [hready] at hnone

/-- One more message. -/
theorem Carries.append (h : F.Carries r rest msgs) (hm : F.Reads m) :
    F.Carries r (rest ++ F.encode m) (msgs ++ [m]) := by
  obtain ⟨hreads, p, hr, hsplit, hhead⟩ := h
  refine ⟨by simpa [or_imp, forall_and] using ⟨hreads, hm⟩, p, hr, by simp [hsplit], ?_⟩
  rcases msgs with _ | ⟨m', ms⟩
  · obtain ⟨rfl, -⟩ := List.nil_eq_append_iff.mp hsplit
    exact fun m _ ↦ List.nil_prefix
  · exact hhead

/-- One more byte. -/
theorem Carries.feed {b : β} (h : F.Carries r (b :: rest) msgs) (hfeed : F.feed r b = some r') :
    F.Carries r' rest msgs := by
  obtain ⟨hreads, p, hr, hsplit, hhead⟩ := h
  refine ⟨hreads, p ++ [b], by rw [after_concat b hr, hfeed], by simp [hsplit], ?_⟩
  rcases msgs with _ | ⟨m, ms⟩
  · simp
  · intro m' hm'
    obtain rfl : m = m' := Option.some.inj hm'
    -- the reader does not have the message yet, so the byte is one of its bytes
    rcases (hreads m List.mem_cons_self).ready_iff (hhead m rfl) hr with
      ⟨hready, -⟩ | ⟨-, b', q, hq⟩
    · rw [F.feed_of_ready r b (by simp [hready])] at hfeed
      exact absurd hfeed (by simp)
    · rw [List.flatMap_cons, hq, List.append_assoc, List.cons_append,
        List.append_cancel_left_eq] at hsplit
      obtain ⟨rfl, -⟩ := List.cons.inj hsplit
      exact ⟨q, by simp [hq]⟩

theorem Carries.foldlM_feed {bs : List β} (h : F.Carries r (bs ++ rest) msgs)
    (hfeed : bs.foldlM F.feed r = some r') : F.Carries r' rest msgs := by
  induction bs generalizing r with
  | nil =>
    obtain rfl : r = r' := Option.some.inj hfeed
    exact h
  | cons b bs ih =>
    rw [List.foldlM_cons, Option.bind_eq_bind, Option.bind_eq_some_iff] at hfeed
    obtain ⟨u, hu, hfeed⟩ := hfeed
    exact ih (h.feed hu) hfeed

/-- When nothing is to come and the reader has no message, there is none. -/
theorem Carries.eq_nil (h : F.Carries r [] msgs) (hready : F.ready r = none) : msgs = [] := by
  obtain ⟨hreads, p, hr, hsplit, hhead⟩ := h
  rcases msgs with _ | ⟨m, ms⟩
  · rfl
  · rcases (hreads m List.mem_cons_self).ready_iff (hhead m rfl) hr with
      ⟨hready', -⟩ | ⟨-, b, q, hq⟩
    · simp [hready] at hready'
    · rw [List.flatMap_cons, hq, List.append_nil, List.append_assoc] at hsplit
      simp at hsplit

/-- The rest of a message can be read. -/
theorem Carries.exists_ready (h : F.Carries r rest (m :: msgs)) :
    ∃ k r', (rest.take k).foldlM F.feed r = some r' ∧ F.ready r' = some m := by
  obtain ⟨hreads, p, hr, hsplit, hhead⟩ := h
  obtain ⟨q, hq⟩ := hhead m rfl
  obtain ⟨r', hr', hready⟩ := hreads m List.mem_cons_self
  rw [List.flatMap_cons, ← hq, List.append_assoc, List.append_cancel_left_eq] at hsplit
  refine ⟨q.length, r', ?_, hready⟩
  have htake : rest.take q.length = q := by
    rw [← hsplit]
    exact List.take_left ..
  rwa [← hq, after_append, hr, Option.bind_some, ← htake] at hr'

end Format

/-! ## The network -/

/-- The nodes, and the streams between them. -/
structure StreamNetwork (ν π σ β ρ : Type) where
  node : ν → σ
  /-- What is being written at an end, and has not been. -/
  out : ν × π → List β
  /-- What is on the way to an end. -/
  pipe : ν × π → List β
  reader : ν × π → ρ

namespace StreamNetwork

/-- What can happen. -/
inductive Step (ν π ι : Type)
  /-- A node takes a step. -/
  | act (n : ν) (a : ι)
  /-- The next bytes are written at an end. -/
  | write (e : ν × π) (k : ℕ)
  /-- The next bytes are read at an end. -/
  | read (e : ν × π) (k : ℕ)
  deriving DecidableEq, Repr

variable {ν π σ β ρ μ ι : Type}

/-- The steps of the nodes. -/
def acts (ls : List (Step ν π ι)) : List (ν × ι) :=
  ls.filterMap fun
    | .act n a => some (n, a)
    | _ => none

theorem acts_append (ls ms : List (Step ν π ι)) : acts (ls ++ ms) = acts ls ++ acts ms :=
  List.filterMap_append

variable [DecidableEq ν] [DecidableEq π] [DecidableEq μ]

/-- A node gets the message that the reader has. -/
def take (F : Format μ β ρ) (reader : ν × π → ρ) (n : ν) :
    Option (π × μ) → Option (ν × π → ρ)
  | none => some reader
  | some (p, m) =>
    if F.ready (reader (n, p)) = some m then some (Function.update reader (n, p) F.start) else none

omit [DecidableEq μ] in
/-- A message is written when nothing of the last one is left. -/
def give (F : Format μ β ρ) (out : ν × π → List β) (n : ν) :
    Option (π × μ) → Option (ν × π → List β)
  | none => some out
  | some (p, m) =>
    match out (n, p) with
    | [] => some (Function.update out (n, p) (F.encode m))
    | _ :: _ => none

def step (F : Format μ β ρ) (P : Ports ι π μ) (peer : ν × π → ν × π) (f : ν → σ → ι → Option σ)
    (s : StreamNetwork ν π σ β ρ) : Step ν π ι → Option (StreamNetwork ν π σ β ρ)
  | .act n a =>
    (f n (s.node n) a).bind fun t ↦ (take F s.reader n (P.input a)).bind fun reader ↦
      (give F s.out n (P.output a)).map fun out ↦
        { s with node := Function.update s.node n t, reader := reader, out := out }
  | .write e k => some { s with
      out := Function.update s.out e ((s.out e).drop k)
      pipe := Function.update s.pipe (peer e) (s.pipe (peer e) ++ (s.out e).take k) }
  | .read e k => (((s.pipe e).take k).foldlM F.feed (s.reader e)).map fun r ↦ { s with
      pipe := Function.update s.pipe e ((s.pipe e).drop k)
      reader := Function.update s.reader e r }

/-- Nothing has been written. -/
def new (F : Format μ β ρ) (init : ν → σ) : StreamNetwork ν π σ β ρ where
  node := init
  out _ := []
  pipe _ := []
  reader _ := F.start

def system (F : Format μ β ρ) (P : Ports ι π μ) (peer : ν × π → ν × π) (f : ν → σ → ι → Option σ)
    (init : ν → σ) : TransitionSystem (StreamNetwork ν π σ β ρ) (Step ν π ι) :=
  .ofStep (· = new F init) (step F P peer f)

omit [DecidableEq ν] [DecidableEq π] [DecidableEq μ] in
/-- A step of a node meets a condition. -/
def Meets (ok : ν × ι → Prop) : Step ν π ι → Prop
  | .act n a => ok (n, a)
  | _ => True

instance (ok : ν × ι → Prop) [DecidablePred ok] (a : Step ν π ι) : Decidable (Meets ok a) :=
  match a with
  | .act n a => inferInstanceAs (Decidable (ok (n, a)))
  | .write _ _ | .read _ _ => isTrue trivial

/-- The runs in which the steps of the nodes meet a condition. -/
def systemOf (F : Format μ β ρ) (P : Ports ι π μ) (peer : ν × π → ν × π) (f : ν → σ → ι → Option σ)
    (init : ν → σ) (ok : ν × ι → Prop) :
    TransitionSystem (StreamNetwork ν π σ β ρ) (Step ν π ι) :=
  (system F P peer f init).restrict fun _ a ↦ Meets ok a

/-! ## The streams carry the messages

The bytes on the way to an end, with those still to be written and those that its reader has taken,
are the encodings of the messages on the wire.  Writing and reading bytes does not change which
messages these are. -/

section

variable {F : Format μ β ρ} {P : Ports ι π μ} {peer : ν × π → ν × π} {f : ν → σ → ι → Option σ}
  {init : ν → σ} {ok : ν × ι → Prop} {s s' : StreamNetwork ν π σ β ρ} {t : Network ν π σ μ}
  {ls : List (Step ν π ι)}

/-- The streams to each end carry the messages on the wire to it. -/
structure Represents (F : Format μ β ρ) (peer : ν × π → ν × π) (s : StreamNetwork ν π σ β ρ)
    (t : Network ν π σ μ) : Prop where
  node : t.node = s.node
  wire : ∀ e, F.Carries (s.reader e) (s.pipe e ++ s.out (peer e)) (t.wire e)

/-- What a node gets is the first message on the wire. -/
theorem carries_take {reader reader' : ν × π → ρ} {rest : ν × π → List β} {wire : ν × π → List μ}
    {n : ν} {x : Option (π × μ)} (h : ∀ e, F.Carries (reader e) (rest e) (wire e))
    (htake : take F reader n x = some reader') :
    ∃ wire', Network.take wire n x = some wire' ∧
      ∀ e, F.Carries (reader' e) (rest e) (wire' e) := by
  match x with
  | none =>
    obtain rfl : reader = reader' := Option.some.inj htake
    exact ⟨wire, rfl, h⟩
  | some (p, m) =>
    rw [take] at htake
    split_ifs at htake with hready
    obtain rfl := Option.some.inj htake
    obtain ⟨ms, hwire, hms⟩ := (h (n, p)).of_ready hready
    refine ⟨Function.update wire (n, p) ms, by simp [Network.take, hwire], fun e ↦ ?_⟩
    by_cases he : e = (n, p)
    · subst he
      simpa using hms
    · simpa [he] using h e

omit [DecidableEq μ] in
/-- What a node sends comes to the end of the stream. -/
theorem carries_give {reader : ν × π → ρ} {pipe out out' : ν × π → List β} {wire : ν × π → List μ}
    {n : ν} {x : Option (π × μ)} (hpeer : ∀ e, peer (peer e) = e)
    (h : ∀ e, F.Carries (reader e) (pipe e ++ out (peer e)) (wire e))
    (hgive : give F out n x = some out') (hx : ∀ p m, x = some (p, m) → F.Reads m) (e : ν × π) :
    F.Carries (reader e) (pipe e ++ out' (peer e)) (Network.give peer wire n x e) := by
  match x with
  | none =>
    obtain rfl : out = out' := Option.some.inj hgive
    exact h e
  | some (p, m) =>
    simp only [give] at hgive
    split at hgive
    · next hout =>
      obtain rfl := Option.some.inj hgive
      by_cases he : e = peer (n, p)
      · subst he
        have := (h (peer (n, p))).append (hx p m rfl)
        simpa [Network.give, hpeer, hout] using this
      · have he' : peer e ≠ (n, p) := fun he' ↦ he (by rw [← he', hpeer])
        simpa [Network.give, he, he'] using h e
    · exact absurd hgive (by simp)

/-- A step of a node is one of the network. -/
theorem Represents.act (hpeer : ∀ e, peer (peer e) = e) {n : ν} {a : ι} (h : Represents F peer s t)
    (hstep : step F P peer f s (.act n a) = some s')
    (hsends : ∀ p m, P.output a = some (p, m) → F.Reads m) :
    ∃ t', Network.step P peer f t (n, a) = some t' ∧ Represents F peer s' t' := by
  simp only [step, Option.bind_eq_some_iff, Option.map_eq_some_iff] at hstep
  obtain ⟨u, hu, reader, hreader, out, hout, rfl⟩ := hstep
  obtain ⟨wire, hwire, hcarries⟩ := carries_take h.wire hreader
  refine ⟨⟨Function.update s.node n u, Network.give peer wire n (P.output a)⟩, ?_, rfl, ?_⟩
  · simp [Network.step, h.node, hu, hwire]
  · exact carries_give hpeer hcarries hout hsends

/-- Writing and reading change nothing about the messages. -/
theorem Represents.move (hpeer : ∀ e, peer (peer e) = e) {a : Step ν π ι}
    (h : Represents F peer s t) (hstep : step F P peer f s a = some s')
    (ha : ∀ n b, a ≠ .act n b) : Represents F peer s' t := by
  match a with
  | .act n b => exact absurd rfl (ha n b)
  | .write e k =>
    obtain rfl := Option.some.inj hstep
    refine ⟨h.node, fun e' ↦ ?_⟩
    by_cases he : e' = peer e
    · subst he
      simpa [hpeer, List.append_assoc] using h.wire (peer e)
    · have he' : peer e' ≠ e := fun he' ↦ he (by rw [← he', hpeer])
      simpa [he, he'] using h.wire e'
  | .read e k =>
    obtain ⟨r, hr, rfl⟩ := Option.map_eq_some_iff.mp hstep
    refine ⟨h.node, fun e' ↦ ?_⟩
    by_cases he : e' = e
    · subst he
      have hwire := h.wire e'
      rw [← List.take_append_drop k (s.pipe e'), List.append_assoc] at hwire
      simpa using hwire.foldlM_feed hr
    · simpa [he] using h.wire e'

/-- **A run over streams is a run over wires**: the nodes take the same steps and are in the same
states, however the streams are cut into pieces and wherever they break off. -/
theorem run_represents (hpeer : ∀ e, peer (peer e) = e)
    (hok : ∀ x, ok x → ∀ p m, P.output x.2 = some (p, m) → F.Reads m)
    (hr : (systemOf F P peer f init ok).Run ls s) :
    ∃ t, ((Network.system P peer f init).restrict fun _ x ↦ ok x).Run (acts ls) t ∧
      Represents F peer s t := by
  refine hr.simulate ?_ ?_ ?_
  · rintro _ rfl
    exact ⟨_, rfl, rfl, fun e ↦ Format.carries_nil⟩
  · rintro s a s' t ⟨n, b⟩ h ⟨hstep, hmeets⟩ ha
    match a with
    | .act n a =>
      obtain ⟨rfl, rfl⟩ := Prod.mk.inj (Option.some.inj ha)
      obtain ⟨t', ht', h'⟩ := h.act hpeer hstep (hok (n, a) hmeets)
      exact ⟨t', ⟨ht', hmeets⟩, h'⟩
    | .write _ _ | .read _ _ => exact absurd ha (by simp)
  · rintro s a s' t h ⟨hstep, -⟩ ha
    refine h.move hpeer hstep fun n b ↦ ?_
    rintro rfl
    exact absurd ha (by simp)

/-! ## Every run is possible

For the converse, the bytes are moved at once: before a node takes a message, the whole of it is
written and read. -/

/-- All that is left at an end can be written. -/
theorem Represents.write_all (hpeer : ∀ e, peer (peer e) = e) (h : Represents F peer s t)
    (hr : (systemOf F P peer f init ok).Run ls s) (e : ν × π) :
    ∃ s', (systemOf F P peer f init ok).Run (ls ++ [.write e (s.out e).length]) s' ∧
      Represents F peer s' t ∧ s'.out = Function.update s.out e [] := by
  have hstep : step F P peer f s (.write e (s.out e).length) = some { s with
      out := Function.update s.out e []
      pipe := Function.update s.pipe (peer e) (s.pipe (peer e) ++ s.out e) } := by simp [step]
  exact ⟨_, .snoc hr ⟨hstep, trivial⟩, h.move hpeer hstep (by simp), rfl⟩

/-- **A message that has been written can be read.** -/
theorem Represents.read_next (hpeer : ∀ e, peer (peer e) = e) (h : Represents F peer s t)
    (hr : (systemOf F P peer f init ok).Run ls s) {e : ν × π} (hout : s.out (peer e) = []) {m : μ}
    {ms : List μ} (hwire : t.wire e = m :: ms) :
    ∃ k s', (systemOf F P peer f init ok).Run (ls ++ [.read e k]) s' ∧ Represents F peer s' t ∧
      s'.out = s.out ∧ F.ready (s'.reader e) = some m := by
  have hcarries := h.wire e
  rw [hwire, hout, List.append_nil] at hcarries
  obtain ⟨k, r, hfeed, hready⟩ := hcarries.exists_ready
  have hstep : step F P peer f s (.read e k) = some { s with
      pipe := Function.update s.pipe e ((s.pipe e).drop k)
      reader := Function.update s.reader e r } := by simp [step, hfeed]
  exact ⟨k, _, .snoc hr ⟨hstep, trivial⟩, h.move hpeer hstep (by simp), rfl, by simpa using hready⟩

/-- Nothing is left to be written. -/
structure Settled (F : Format μ β ρ) (peer : ν × π → ν × π) (s : StreamNetwork ν π σ β ρ)
    (t : Network ν π σ μ) : Prop where
  represents : Represents F peer s t
  written : ∀ e, s.out e = []

/-- Read the message that a node is to get. -/
theorem Settled.receive (hpeer : ∀ e, peer (peer e) = e) (h : Settled F peer s t)
    (hr : (systemOf F P peer f init ok).Run ls s) {n : ν} {x : Option (π × μ)}
    {wire : ν × π → List μ} (hwire : Network.take t.wire n x = some wire) :
    ∃ ms s₁, (systemOf F P peer f init ok).Run (ls ++ ms) s₁ ∧
      acts ms = [] ∧ Settled F peer s₁ t ∧ (take F s₁.reader n x).isSome := by
  match x with
  | none => exact ⟨[], s, by simpa using hr, rfl, h, rfl⟩
  | some (p, m) =>
    obtain ⟨ms, hms⟩ : ∃ ms, t.wire (n, p) = m :: ms := by
      simp only [Network.take] at hwire
      split at hwire
      · exact absurd hwire (by simp)
      · next m' rest hrest =>
        split_ifs at hwire with hm
        exact ⟨rest, hm ▸ hrest⟩
    obtain ⟨k, s₁, hr₁, h₁, hout, hready⟩ := h.represents.read_next hpeer hr (h.written _) hms
    exact ⟨[.read (n, p) k], s₁, hr₁, rfl, ⟨h₁, fun e ↦ hout ▸ h.written e⟩, by simp [take, hready]⟩

/-- A step of the network can be taken over streams. -/
theorem Settled.act (hpeer : ∀ e, peer (peer e) = e)
    (hok : ∀ x, ok x → ∀ p m, P.output x.2 = some (p, m) → F.Reads m) (h : Settled F peer s t)
    (hr : (systemOf F P peer f init ok).Run ls s) {x : ν × ι} {t' : Network ν π σ μ}
    (hstep : Network.step P peer f t x = some t') (hx : ok x) :
    ∃ ms s', (systemOf F P peer f init ok).Run (ls ++ ms) s' ∧ acts ms = [x] ∧
      Settled F peer s' t' := by
  obtain ⟨n, a⟩ := x
  obtain ⟨hnode, -, wire, hwire, -⟩ := Network.step_eq_some hstep
  obtain ⟨ms, s₁, hr₁, hms, h₁, htake⟩ := h.receive hpeer hr hwire
  obtain ⟨reader, hreader⟩ := Option.isSome_iff_exists.mp htake
  -- nothing is left at any end, so the next message can be written
  obtain ⟨out, hout, hothers⟩ : ∃ out, give F s₁.out n (P.output a) = some out ∧
      ((∀ e, out e = []) ∨ ∃ e, ∀ e' ≠ e, out e' = []) := by
    match P.output a with
    | none => exact ⟨s₁.out, rfl, .inl h₁.written⟩
    | some (p, m) =>
      refine ⟨_, by rw [give, h₁.written], .inr ⟨(n, p), fun e' he ↦ ?_⟩⟩
      simpa [he] using h₁.written e'
  have hnode₁ : f n (s₁.node n) a = some (t'.node n) := h₁.represents.node ▸ hnode
  have hact : step F P peer f s₁ (.act n a) = some { s₁ with
      node := Function.update s₁.node n (t'.node n), reader := reader, out := out } := by
    simp [step, hnode₁, hreader, hout]
  obtain ⟨t'', ht'', h₂⟩ := h₁.represents.act hpeer hact (hok _ hx)
  obtain rfl := Option.some.inj (hstep.symm.trans ht'')
  have hr₂ := hr₁.snoc (t := _) ⟨hact, hx⟩
  rcases hothers with hwritten | ⟨e, hothers⟩
  · refine ⟨ms ++ [.act n a], _, by simpa using hr₂, by rw [acts_append, hms]; rfl, h₂,
      hwritten⟩
  · obtain ⟨s₃, hr₃, h₃, hout₃⟩ := h₂.write_all hpeer hr₂ e
    refine ⟨ms ++ [.act n a, .write e (out e).length], s₃, by simpa using hr₃, ?_, h₃, fun e' ↦ ?_⟩
    · rw [acts_append, hms]
      rfl
    · by_cases he : e' = e
      · simp [hout₃, he]
      · simpa [hout₃, he] using hothers e' he

/-- **A run over wires is a run over streams.** -/
theorem exists_run_of_network (hpeer : ∀ e, peer (peer e) = e)
    (hok : ∀ x, ok x → ∀ p m, P.output x.2 = some (p, m) → F.Reads m) {as : List (ν × ι)}
    (hr : ((Network.system P peer f init).restrict fun _ x ↦ ok x).Run as t) :
    ∃ ls s, (systemOf F P peer f init ok).Run ls s ∧ acts ls = as ∧ s.node = t.node := by
  suffices h : ∃ ls s, (systemOf F P peer f init ok).Run ls s ∧ acts ls = as ∧ Settled F peer s t by
    obtain ⟨ls, s, hr, hls, h⟩ := h
    exact ⟨ls, s, hr, hls, h.represents.node.symm⟩
  induction hr with
  | start h =>
    obtain rfl := h
    exact ⟨[], new F init, .start rfl, rfl, ⟨rfl, fun e ↦ Format.carries_nil⟩, fun e ↦ rfl⟩
  | snoc _ hstep ih =>
    obtain ⟨ls, s, hr, hls, h⟩ := ih
    obtain ⟨ms, s', hr', hms, h'⟩ := h.act hpeer hok hr hstep.1 hstep.2
    exact ⟨ls ++ ms, s', hr', by rw [acts_append, hls, hms], h'⟩

end

end StreamNetwork
