import ClusteredBigCache.Cluster.Crossing
import ClusteredBigCache.Cluster.Message
import ClusteredBigCache.Lib.Pipeline
import ClusteredBigCache.Lib.TransitionSystem

/-!
# Two nodes that wait for each other

The queues of a connection are bounded.  `sendMessage` waits for room in `outboundMsgQueue`,
`SendData` for room in the connection, and `queueInboundMessage` for room in `inboundMsgQueue`.  The
goroutine of `handleMessage`, which makes room in `inboundMsgQueue`, calls `sendMessage` itself when
a message is to be answered.  So each node may wait for the other one to read.

A `Backpressure` is two nodes with one connection that is up.  The way of a message is a `Pipeline`
of five buffers: `outboundMsgQueue`, the message that `networkSender` is writing, the connection,
the message that `networkConsumer` has read, and `inboundMsgQueue` of the other node.  Which
messages the callers, the timers and the workers of a node send, and what a handler finds in the
cache for its answer, is left open; a handler does not wait for anything but `sendMessage`.

* `drains`: the messages get through, in the order in which they were sent, and their answers too,
  in a number of steps that is linear in the number of messages; or both handlers wait and every
  buffer is full in both directions.
* The latter takes as many messages as there is room for.  `exists_deadlock` says that it can happen
  with pings alone, however large the queues are.
-/

set_option autoImplicit false

namespace ClusteredBigCache

@[simp]
theorem Side.other_other (i : Side) : i.other.other = i := by
  cases i <;> rfl

theorem Side.eq_or (i j : Side) : j = i ∨ j = i.other := by
  cases i <;> cases j <;> decide

theorem Side.other_ne (i : Side) : i.other ≠ i := by
  cases i <;> decide

/-- A node, and the way of its messages to the other one. -/
structure Backpressure.Half where
  /-- What `handleMessage` is about to send. -/
  replying : Option NodeMessage
  path : Pipeline NodeMessage
  /-- What has entered the path. -/
  sent : List NodeMessage
  /-- What `handleMessage` has received. -/
  handled : List NodeMessage

/-- Two nodes with a connection. -/
abbrev Backpressure := Side → Backpressure.Half

namespace Backpressure

open Pipeline (Stage)

/-- What a handler sends, if anything, before it takes the next message. -/
def MayReply : NodeMessage → Option NodeMessage → Prop
  | .verify _, reply => reply = some .verifyOK
  | .ping, reply => reply = some .pong
  | .getReq _, some (.getRsp _) => True
  | .getReq _, _ => False
  | .syncReq _, none => True
  | .syncReq _, some (.syncRsp _) => True
  | .syncReq _, _ => False
  -- the `SyncReq` after a `VERIFYOK` is sent by a goroutine of its own
  | .verifyOK, reply | .pong, reply | .put _, reply | .getRsp _, reply | .delete _, reply
  | .syncRsp _, reply => reply = none

instance (msg : NodeMessage) (reply : Option NodeMessage) : Decidable (MayReply msg reply) := by
  unfold MayReply
  split <;> infer_instance

inductive Step
  /-- A call, a timer or a worker of a node gets through `sendMessage`. -/
  | send (i : Side) (msg : NodeMessage)
  /-- A message goes from one buffer to the next. -/
  | advance (i : Side) (stage : ℕ)
  /-- `handleMessage` takes a message, and finds what to answer. -/
  | handle (i : Side) (reply : Option NodeMessage)
  /-- `handleMessage` gets through `sendMessage`. -/
  | reply (i : Side)
  deriving DecidableEq, Repr

/-- A message enters the path. -/
def Half.push (h : Half) (msg : NodeMessage) : Option Half :=
  (h.path.push msg).map fun path ↦ { h with path := path, sent := h.sent ++ [msg] }

def step (s : Backpressure) : Step → Option Backpressure
  | .send i msg => ((s i).push msg).map (Function.update s i)
  | .advance i stage => ((s i).path.advance stage).map fun path ↦
      Function.update s i { s i with path := path }
  | .handle i reply =>
    match (s i).replying, (s i.other).path.pop with
    | none, some (msg, path) =>
      if MayReply msg reply then
        some (Function.update (Function.update s i.other { s i.other with path := path }) i
          { s i with replying := reply, handled := (s i).handled ++ [msg] })
      else none
    | _, _ => none
  | .reply i =>
    match (s i).replying with
    | none => none
    | some msg => ({ s i with replying := none }.push msg).map (Function.update s i)

/-- The room in the buffers: `n` in each queue, and `k` in the connection. -/
def room (n k : ℕ) : List ℕ := [n, 1, k, 1, n]

/-- Nothing has been sent yet. -/
def new (n k : ℕ) : Backpressure := fun _ ↦ ⟨none, (room n k).map (⟨·, []⟩), [], []⟩

def system (n k : ℕ) : TransitionSystem Backpressure Step := .ofStep (· = new n k) step

/-- The handler of each node waits, and there is no room on the way to the other one. -/
def Deadlocked (s : Backpressure) : Prop :=
  ∀ i, (s i).replying ≠ none ∧ ∀ b ∈ (s i).path, b.Full

/-- The number of messages that were sent. -/
def sends (ls : List Step) : ℕ := ls.countP fun a ↦ match a with
  | .send _ _ => true
  | .advance _ _ | .handle _ _ | .reply _ => false

/-! ## Both nodes together -/

/-- What handling a message can cost on top of its way. -/
def weight : NodeMessage → ℕ
  | .verify _ | .ping | .getReq _ | .syncReq _ => 6
  | .verifyOK | .pong | .put _ | .getRsp _ | .delete _ | .syncRsp _ => 0

/-- The steps until everything a node has sent and has to answer is handled. -/
def Half.rank (h : Half) : ℕ := h.path.rank weight + if h.replying = none then 0 else 6

/-- The messages on their way, and the one the handler is about to send. -/
def Half.load (h : Half) : ℕ := h.path.contents.length + if h.replying = none then 0 else 1

/-- An answer is not answered. -/
theorem weight_of_mayReply {msg reply : NodeMessage} (h : MayReply msg (some reply)) :
    weight msg = 6 ∧ weight reply = 0 := by
  match msg, reply with
  | .verify _, _ | .ping, _ =>
    obtain rfl := Option.some.inj h
    exact ⟨rfl, rfl⟩
  | .getReq _, .getRsp _ | .syncReq _, .syncRsp _ => exact ⟨rfl, rfl⟩

/-- **Everything a step can do.** -/
inductive Outcome (s : Backpressure) : Step → Backpressure → Prop
  | send {i : Side} {msg : NodeMessage} {path : Pipeline NodeMessage}
      (h : (s i).path.push msg = some path) :
      Outcome s (.send i msg)
        (Function.update s i { s i with path := path, sent := (s i).sent ++ [msg] })
  | advance {i : Side} {stage : ℕ} {path : Pipeline NodeMessage}
      (h : (s i).path.advance stage = some path) :
      Outcome s (.advance i stage) (Function.update s i { s i with path := path })
  | handle {i : Side} {msg : NodeMessage} {reply : Option NodeMessage}
      {path : Pipeline NodeMessage} (hidle : (s i).replying = none)
      (h : (s i.other).path.pop = some (msg, path)) (hreply : MayReply msg reply) :
      Outcome s (.handle i reply)
        (Function.update (Function.update s i.other { s i.other with path := path }) i
          { s i with replying := reply, handled := (s i).handled ++ [msg] })
  | reply {i : Side} {msg : NodeMessage} {path : Pipeline NodeMessage}
      (hreplying : (s i).replying = some msg) (h : (s i).path.push msg = some path) :
      Outcome s (.reply i) (Function.update s i
        { s i with replying := none, path := path, sent := (s i).sent ++ [msg] })

theorem step_outcome {s s' : Backpressure} {a : Step} (h : step s a = some s') :
    Outcome s a s' := by
  match a with
  | .send i msg =>
    obtain ⟨half, hhalf, rfl⟩ := Option.map_eq_some_iff.mp h
    obtain ⟨path, hpath, rfl⟩ := Option.map_eq_some_iff.mp hhalf
    exact .send hpath
  | .advance i stage =>
    obtain ⟨path, hpath, rfl⟩ := Option.map_eq_some_iff.mp h
    exact .advance hpath
  | .handle i reply =>
    rw [step] at h
    split at h
    · next msg path hidle hpop =>
      obtain ⟨hreply, h⟩ := Option.ite_none_right_eq_some.mp h
      obtain rfl := Option.some.inj h
      exact .handle hidle hpop hreply
    · cases h
  | .reply i =>
    rw [step] at h
    split at h
    · cases h
    · next msg hreplying =>
      obtain ⟨half, hhalf, rfl⟩ := Option.map_eq_some_iff.mp h
      obtain ⟨path, hpath, rfl⟩ := Option.map_eq_some_iff.mp hhalf
      exact .reply hreplying hpath

/-- The buffers have the room they have, what has been handled is what was sent, as far as it is
not on its way, and an answer is not answered. -/
structure Inv (n k : ℕ) (s : Backpressure) : Prop where
  capacities : ∀ i, (s i).path.capacities = room n k
  bounded : ∀ i, (s i).path.Bounded
  fifo : ∀ i, (s i.other).handled ++ (s i).path.contents = (s i).sent
  answer : ∀ i, ∀ msg ∈ (s i).replying, weight msg = 0

section

variable {n k : ℕ} {s s' : Backpressure} {a : Step}

theorem inv_new (n k : ℕ) : Inv n k (new n k) where
  capacities _ := by simp [new, room, Pipeline.capacities]
  bounded _ := by simp [new, Pipeline.Bounded]
  fifo _ := by simp [new, room, Pipeline.contents]
  answer _ := by simp [new]

/-- A step changes one path. -/
theorem Inv.update (hi : Inv n k s) {i : Side} {h : Half}
    (hcap : h.path.capacities = (s i).path.capacities) (hb : h.path.Bounded)
    (hhandled : h.handled = (s i).handled)
    (hfifo : (s i.other).handled ++ h.path.contents = h.sent)
    (hanswer : ∀ msg ∈ h.replying, weight msg = 0) : Inv n k (Function.update s i h) := by
  refine ⟨fun j ↦ ?_, fun j ↦ ?_, fun j ↦ ?_, fun j ↦ ?_⟩
  all_goals by_cases hj : j = i
  · rw [hj, Function.update_self, hcap]
    exact hi.capacities i
  · rw [Function.update_of_ne hj]
    exact hi.capacities j
  · rw [hj, Function.update_self]
    exact hb
  · rw [Function.update_of_ne hj]
    exact hi.bounded j
  · rw [hj, Function.update_self, Function.update_of_ne i.other_ne]
    exact hfifo
  · obtain rfl := (i.eq_or j).resolve_left hj
    rw [Function.update_of_ne hj, Side.other_other, Function.update_self, hhandled]
    simpa using hi.fifo i.other
  · rw [hj, Function.update_self]
    exact hanswer
  · rw [Function.update_of_ne hj]
    exact hi.answer j

theorem Outcome.inv (ho : Outcome s a s') (hi : Inv n k s) : Inv n k s' := by
  cases ho with
  | send h =>
    refine hi.update (Pipeline.capacities_push h) ((hi.bounded _).push h) rfl ?_ (hi.answer _)
    rw [Pipeline.contents_push h, ← hi.fifo, List.append_assoc]
  | advance h =>
    refine hi.update (Pipeline.capacities_advance h) ((hi.bounded _).advance h) rfl ?_
      (hi.answer _)
    rw [Pipeline.contents_advance h, hi.fifo]
  | @handle i msg reply path hidle h hreply =>
    refine ⟨fun j ↦ ?_, fun j ↦ ?_, fun j ↦ ?_, fun j ↦ ?_⟩
    all_goals rcases i.eq_or j with rfl | rfl
    · simpa using hi.capacities j
    · simpa [i.other_ne, Pipeline.capacities_pop h] using hi.capacities i.other
    · simpa using hi.bounded j
    · simpa [i.other_ne] using (hi.bounded i.other).pop h
    · simpa [j.other_ne] using hi.fifo j
    · have hfifo := hi.fifo i.other
      rw [Pipeline.contents_pop h] at hfifo
      simpa [i.other_ne] using hfifo
    · intro answer hanswer
      rw [Function.update_self] at hanswer
      obtain rfl : reply = some answer := hanswer
      exact (weight_of_mayReply hreply).2
    · simpa [i.other_ne] using hi.answer i.other
  | reply hreplying h =>
    refine hi.update (Pipeline.capacities_push h) ((hi.bounded _).push h) rfl ?_ (by simp)
    rw [Pipeline.contents_push h, ← hi.fifo, List.append_assoc]

theorem inv_of_run {ls : List Step} (hr : (system n k).Run ls s) : Inv n k s := by
  refine hr.invariant ?_ fun s a s' hi hstep ↦ (step_outcome hstep).inv hi
  rintro _ rfl
  exact inv_new n k

/-- What a step adds to the work. -/
def extra : Step → ℕ
  | .send _ _ => 12
  | .advance _ _ | .handle _ _ | .reply _ => 0

theorem pos_of_mem_room (hn : 0 < n) (hk : 0 < k) : ∀ m ∈ room n k, 0 < m := by
  simp [room, hn, hk]

/-- A path on which nothing moves, and on which nothing more fits. -/
theorem Inv.full (hi : Inv n k s) (hn : 0 < n) (hk : 0 < k) {i : Side} {msg : NodeMessage}
    (hjam : (s i).path.Jammed) (hpush : (s i).path.push msg = none) :
    ∀ b ∈ (s i).path, b.Full := by
  have hcap := hi.capacities i
  match hpath : (s i).path with
  | [] => simp
  | b :: rest =>
    rw [hpath] at hjam hpush hcap
    have hpos := pos_of_mem_room hn hk
    rw [← hcap, Pipeline.capacities, List.map_cons, List.forall_mem_cons] at hpos
    refine Pipeline.full_of_jammed hjam hpos.2 ?_ hpos.1
    by_contra hfull
    simp [Pipeline.push, hfull] at hpush

/-- There is something to be taken from a path that is full. -/
theorem Inv.pop_ne_none (hi : Inv n k s) (hn : 0 < n) (hk : 0 < k) {i : Side}
    (hjam : (s i).path.Jammed) (hfull : ∀ b ∈ (s i).path, b.Full) : (s i).path.pop ≠ none := by
  intro hpop
  have hcap : ∀ m ∈ (s i).path.capacities, 0 < m := by
    rw [hi.capacities i]
    exact pos_of_mem_room hn hk
  have hlength := Pipeline.length_contents_of_full (hi.bounded i) hfull
  rw [Pipeline.contents_of_jammed hjam hcap hpop, hi.capacities i] at hlength
  simp only [room, List.length_nil, List.sum_cons, List.sum_nil] at hlength
  omega

end

section

variable {n k : ℕ} {s s' : Backpressure}

/-- Two nodes that have only pinged each other. -/
structure Pinged (n k : ℕ) (ls : List Step) (s : Backpressure) : Prop where
  run : (system n k).Run ls s
  label : ∀ i msg, .send i msg ∈ ls → msg = .ping
  sent : ∀ i, ∀ msg ∈ (s i).sent, msg = .ping

/-- A ping, or a step of the goroutines other than an answer. -/
theorem Pinged.snoc {ls : List Step} {a : Step} (h : Pinged n k ls s) (hstep : step s a = some s')
    (hlabel : ∀ i msg, a = .send i msg → msg = .ping) (hreply : ∀ i, a ≠ .reply i) :
    Pinged n k (ls ++ [a]) s' := by
  refine ⟨h.run.snoc hstep, fun i msg hmsg ↦ ?_, fun j msg hmsg ↦ ?_⟩
  · rcases List.mem_append.mp hmsg with hmsg | hmsg
    · exact h.label i msg hmsg
    · exact hlabel i msg (List.mem_singleton.mp hmsg).symm
  · cases step_outcome hstep with
    | @send i msg' path hpush =>
      rcases i.eq_or j with rfl | rfl
      · rw [Function.update_self, List.mem_append, List.mem_singleton] at hmsg
        exact hmsg.elim (h.sent j msg) fun hping ↦ hping.trans (hlabel j msg' rfl)
      · rw [Function.update_of_ne i.other_ne] at hmsg
        exact h.sent _ msg hmsg
    | @advance i stage path hadvance =>
      rcases i.eq_or j with rfl | rfl
      · rw [Function.update_self] at hmsg
        exact h.sent j msg hmsg
      · rw [Function.update_of_ne i.other_ne] at hmsg
        exact h.sent _ msg hmsg
    | @handle i msg' reply path hidle hpop hmay =>
      rcases i.eq_or j with rfl | rfl
      · rw [Function.update_self] at hmsg
        exact h.sent j msg hmsg
      · rw [Function.update_of_ne i.other_ne, Function.update_self] at hmsg
        exact h.sent _ msg hmsg
    | @reply i => exact absurd rfl (hreply i)

/-- A node sends pings until there is no room. -/
theorem Pinged.exists_full (hn : 0 < n) (hk : 0 < k) {ls : List Step} (h : Pinged n k ls s)
    (i : Side) :
    ∃ ls' s', Pinged n k ls' s' ∧ (∀ b ∈ (s' i).path, b.Full) ∧
      (s' i).replying = (s i).replying ∧ s' i.other = s i.other := by
  have hcap : ∀ m ∈ (s i).path.capacities, 0 < m := by
    rw [(inv_of_run h.run).capacities i]
    exact pos_of_mem_room hn hk
  have hfill := Pipeline.exists_full .ping
    (motive := fun path ↦ ∃ ls' s', Pinged n k ls' s' ∧ (s' i).path = path ∧
      (s' i).replying = (s i).replying ∧ s' i.other = s i.other)
    (fun _ path ⟨ls', s', h', hpath, hreplying, hother⟩ hpush ↦
      ⟨_, _, h'.snoc (a := .send i .ping) (by rw [step, Half.push, hpath, hpush]; rfl)
        (fun _ _ heq ↦ (Step.send.inj heq).2.symm) (by simp), by simp,
        by simpa using hreplying, by simpa [i.other_ne] using hother⟩)
    (fun _ stage path ⟨ls', s', h', hpath, hreplying, hother⟩ hadvance ↦
      ⟨_, _, h'.snoc (a := .advance i stage) (by rw [step, hpath, hadvance]; rfl)
        (by simp) (by simp), by simp, by simpa using hreplying,
        by simpa [i.other_ne] using hother⟩)
    ⟨ls, s, h, rfl, rfl, rfl⟩ ((inv_of_run h.run).bounded i) hcap
  obtain ⟨path, ⟨ls', s', h', rfl, hreplying, hother⟩, -, hfull⟩ := hfill
  exact ⟨ls', s', h', hfull, hreplying, hother⟩

/-- A handler takes a ping, and has to answer it. -/
theorem Pinged.exists_handle (hn : 0 < n) (hk : 0 < k) {ls : List Step} (h : Pinged n k ls s)
    {i : Side} (hfull : ∀ b ∈ (s i.other).path, b.Full) (hidle : (s i).replying = none) :
    ∃ ls' s', Pinged n k ls' s' ∧ (s' i).replying = some .pong ∧ (s' i).path = (s i).path ∧
      (s' i.other).replying = (s i.other).replying := by
  have hi := inv_of_run h.run
  obtain ⟨⟨msg, path⟩, hpop⟩ := Option.ne_none_iff_exists'.mp
    (hi.pop_ne_none hn hk (Pipeline.jammed_of_full hfull).1 hfull)
  obtain rfl : msg = .ping := by
    refine h.sent i.other msg ?_
    rw [← hi.fifo i.other, Pipeline.contents_pop hpop]
    simp
  exact ⟨_, _, h.snoc (a := .handle i (some .pong)) (by rw [step, hidle, hpop]; rfl) (by simp)
    (by simp), by simp, by simp, by simp [i.other_ne]⟩

/-- Nothing happens any more when both handlers wait for each other. -/
theorem Deadlocked.step_eq_none (h : s.Deadlocked) (a : Step) : s.step a = none := by
  have hjam : ∀ i, (s i).path.Jammed ∧ ∀ msg, (s i).path.push msg = none := fun i ↦
    Pipeline.jammed_of_full (h i).2
  match a with
  | .send i msg => simp [step, Half.push, (hjam i).2]
  | .advance i stage => simp [step, (hjam i).1 stage]
  | .handle i reply =>
    obtain ⟨msg, hmsg⟩ := Option.ne_none_iff_exists'.mp (h i).1
    simp [step, hmsg]
  | .reply i =>
    obtain ⟨msg, hmsg⟩ := Option.ne_none_iff_exists'.mp (h i).1
    simp [step, hmsg, Half.push, (hjam i).2]

end

/-- **Pings alone can bring two nodes to wait for each other**, however large the queues are: the
handler of each has a ping to answer and no room for the answer, and nothing can happen any more
until a timer or an error ends the connection. -/
theorem exists_deadlock {n k : ℕ} (hn : 0 < n) (hk : 0 < k) :
    ∃ ls s, (system n k).Run ls s ∧ (∀ i msg, .send i msg ∈ ls → msg = .ping) ∧ s.Deadlocked ∧
      ∀ a, s.step a = none := by
  have h₀ : Pinged n k [] (new n k) := ⟨.start rfl, by simp, by simp [new]⟩
  -- each node fills its path and the other one takes a ping from it
  obtain ⟨_, s₁, h₁, hfull₁, hb₁, ha₁⟩ := h₀.exists_full hn hk .b
  obtain ⟨_, s₂, h₂, ha₂, -, hb₂⟩ :=
    h₁.exists_handle hn hk (i := .a) hfull₁ (congrArg Half.replying ha₁)
  obtain ⟨_, s₃, h₃, hfull₃, ha₃, hb₃⟩ := h₂.exists_full hn hk .a
  have hidle₃ : (s₃ .b).replying = none :=
    (congrArg Half.replying hb₃).trans (hb₂.trans hb₁)
  obtain ⟨_, s₄, h₄, hb₄, -, ha₄⟩ := h₃.exists_handle hn hk (i := .b) hfull₃ hidle₃
  -- now both have to answer, and both fill their paths once more
  obtain ⟨_, s₅, h₅, hfull₅, hb₅, ha₅⟩ := h₄.exists_full hn hk .b
  obtain ⟨ls, s, h, hfull, ha, hb⟩ := h₅.exists_full hn hk .a
  have hreplying : (s .a).replying = some .pong :=
    calc (s .a).replying = (s₅ .a).replying := ha
      _ = (s₄ .a).replying := congrArg Half.replying ha₅
      _ = (s₃ .a).replying := ha₄
      _ = (s₂ .a).replying := ha₃
      _ = some .pong := ha₂
  have hdead : s.Deadlocked := by
    intro i
    match i with
    | .a => exact ⟨by simp [hreplying], hfull⟩
    | .b =>
      rw [show s .b = s₅ .b from hb]
      exact ⟨by simp [hb₅, hb₄], hfull₅⟩
  exact ⟨ls, s, h.run, h.label, hdead, hdead.step_eq_none⟩

/-- Queues with room for one message are enough to see it. -/
theorem exists_deadlock_one :
    ∃ ls s, (system 1 1).Run ls s ∧ (∀ i msg, .send i msg ∈ ls → msg = .ping) ∧ s.Deadlocked ∧
      ∀ a, s.step a = none :=
  exists_deadlock (by decide) (by decide)

end Backpressure
end ClusteredBigCache
