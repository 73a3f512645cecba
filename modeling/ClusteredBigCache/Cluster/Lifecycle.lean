import ClusteredBigCache.Lib.TransitionSystem
import ClusteredBigCache.Cluster.Node

/-!
# The life of a connection

`start` runs seven actors in a `run.Group`, one goroutine each.  As soon as one of them returns, the
group calls what each of them is interrupted with, one after the other, and `Run` returns when all
of them have.  Five of the actors are at work between a `wg.Add(1)` and a `wg.Done()`; the last one
waits for the counter, which `start` itself has set to one, and then calls `tearDown`.

`Lifecycle` is the group with its actors and everything they can wait for: the channel `done`, which
`sendMessage` and `queueInboundMessage` look at too, a channel each for the two goroutines of the
pings, the queues, the connection and the counter.  What the messages are does not matter here, nor
what the timers show, and a handler may do any of the things that handlers do to a connection.  A
send on a closed queue is a panic that is recovered.  There are crashes: a second close of a
channel, a counter below zero, a `ReadData` that finds the `buffReader` of a closed connection,
which is `nil`, and the two panics of a `WaitGroup` that is counted up again while a `Wait` is about
to return.  Those that come from elsewhere are left out: what a message does in its handler is in
`Dispatch`, and what `tearDown` does to the `joinQueue` of a node that is shut down in `ShutDown`.

* `tearDown_once`: `tearDown` is called at most once, when everyone has been interrupted, and when
  the wait for the actors is over none of them is at work; an actor that has not got to its `wg.Add`
  by then is not waited for.  No channel is closed twice, and the counter does not go below zero.
* `terminates`: when everyone has been interrupted, the actors return within a number of steps that
  the queues and the ticks bound, and `tearDown` has been called, unless there is a crash.
* `panic_of_late_read` and `panic_of_late_add` are the crashes.
-/

set_option autoImplicit false

namespace ClusteredBigCache

/-- The room in a queue. -/
def chanSize : ℕ := 1024 * 64

/-- What a group has closed. -/
structure Closed where
  done : Bool
  /-- The channels of the two goroutines of the pings. -/
  pingDone : Bool
  pongDone : Bool
  inboundMsgQueue : Bool
  outboundMsgQueue : Bool
  /-- `buffReader` is `nil`. -/
  connection : Bool
  deriving DecidableEq, Repr

/-- What the actors of a connection share. -/
structure Shared where
  state : RemoteNodeState
  /-- How many messages are in the queues. -/
  inbound : ℕ
  outbound : ℕ
  /-- The counter of the `WaitGroup`. -/
  wg : ℕ
  closed : Closed
  deriving DecidableEq, Repr

/-- What ends the process. -/
inductive Panic
  | closeOfClosedChannel
  | negativeCounter
  | nilReader
  /-- "WaitGroup is reused before previous Wait has returned". -/
  | waitGroupReused
  /-- "WaitGroup misuse: Add called concurrently with Wait". -/
  | waitGroupMisuse
  deriving DecidableEq, Repr

namespace Shared

/-- `wg.Add(1)`. -/
def add (s : Shared) : Shared := { s with wg := s.wg + 1 }

/-- `wg.Done()`. -/
def finish (s : Shared) : Except Panic Shared :=
  if s.wg = 0 then .error .negativeCounter else .ok { s with wg := s.wg - 1 }

/-- Which case of a `select` is taken. -/
inductive Choice
  /-- Receive from `done`. -/
  | done
  /-- Send on the queue. -/
  | send
  deriving DecidableEq, Repr

/-- The `select` of `sendMessage`. -/
def selectOutbound (s : Shared) : Choice → Option Shared
  | .done => if s.closed.done then some s else none
  | .send =>
    -- the panic is recovered
    if s.closed.outboundMsgQueue then some s
    else if s.outbound < chanSize then some { s with outbound := s.outbound + 1 }
    else none

/-- The `select` of `queueInboundMessage`. -/
def selectInbound (s : Shared) : Choice → Option Shared
  | .done => if s.closed.done then some s else none
  | .send =>
    if s.closed.inboundMsgQueue then some s
    else if s.inbound < chanSize then some { s with inbound := s.inbound + 1 }
    else none

end Shared

open Shared (Choice)

/-! ## The actors

An actor is the place its goroutine is at, and a step leads from one place to the next, with what is
shared.  Where a `select` can go on in two ways, both are steps. -/

/-- Where the goroutine of the ping timer is. -/
inductive PingTask
  | starting
  /-- In `sendMessage`, before it looks at the state; the first ping is sent before `wg.Add`. -/
  | looking (first : Bool)
  /-- In the `select` of `sendMessage`. -/
  | sending (first : Bool)
  | registering
  /-- In the `select` of the loop. -/
  | waiting
  | leaving
  | returned
  deriving DecidableEq, Repr

namespace PingTask

inductive Step
  | start
  | look
  | send (choice : Choice)
  | register
  | tick
  | done
  | leave
  deriving DecidableEq, Repr

/-- After a ping. -/
def sent (first : Bool) : PingTask := if first then .registering else .waiting

def step (s : Shared) : PingTask → Step → Option (Except Panic (Shared × PingTask))
  | .starting, .start => some (.ok (s, .looking true))
  | .looking first, .look =>
    some (.ok (s, if s.state = .disconnected then sent first else .sending first))
  | .sending first, .send choice => (s.selectOutbound choice).map fun s ↦ .ok (s, sent first)
  | .registering, .register => some (.ok (s.add, .waiting))
  | .waiting, .tick => some (.ok (s, .looking false))
  | .waiting, .done => if s.closed.pingDone then some (.ok (s, .leaving)) else none
  | .leaving, .leave => some (s.finish.map (·, .returned))
  | _, _ => none

def atWork : PingTask → Bool
  | .looking first | .sending first => !first
  | .waiting | .leaving => true
  | _ => false

end PingTask

/-- Where the goroutine of the ping response timer is. -/
inductive PongTask
  | starting
  | waiting
  | leaving
  | returned
  deriving DecidableEq, Repr

namespace PongTask

inductive Step
  | register
  /-- The timer has fired, once too often or not. -/
  | timeout (fault : Bool)
  | done
  | leave
  deriving DecidableEq, Repr

def step (s : Shared) : PongTask → Step → Option (Except Panic (Shared × PongTask))
  | .starting, .register => some (.ok (s.add, .waiting))
  | .waiting, .timeout fault => some (.ok (s, if fault then .leaving else .waiting))
  | .waiting, .done => if s.closed.pongDone then some (.ok (s, .leaving)) else none
  | .leaving, .leave => some (s.finish.map (·, .returned))
  | _, _ => none

def atWork : PongTask → Bool
  | .waiting | .leaving => true
  | _ => false

end PongTask

/-- Where `networkConsumer` is. -/
inductive ReadTask
  | starting
  /-- Before the condition of the loop. -/
  | looping
  /-- Before `ReadData` of the header. -/
  | calling
  /-- In `ReadData` of the header. -/
  | reading
  /-- Before `ReadData` of the data. -/
  | callingData
  /-- In `ReadData` of the data. -/
  | readingData
  /-- In `queueInboundMessage`, before it looks at the state. -/
  | filtering
  /-- In its `select`. -/
  | queueing
  | leaving
  | returned
  deriving DecidableEq, Repr

namespace ReadTask

inductive Step
  | register
  | loop
  | call
  /-- The header has been read. -/
  | header (hasData : Bool)
  | data
  | error
  /-- In the handshake, a message may be dropped. -/
  | filter (drop : Bool)
  | queue (choice : Choice)
  | leave
  deriving DecidableEq, Repr

def step (s : Shared) : ReadTask → Step → Option (Except Panic (Shared × ReadTask))
  | .starting, .register => some (.ok (s.add, .looping))
  | .looping, .loop =>
    some (.ok (s, if s.state = .connected ∨ s.state = .handshake then .calling else .leaving))
  | .calling, .call => some (if s.closed.connection then .error .nilReader else .ok (s, .reading))
  | .reading, .header hasData => some (.ok (s, if hasData then .callingData else .filtering))
  | .callingData, .call =>
    some (if s.closed.connection then .error .nilReader else .ok (s, .readingData))
  | .readingData, .data => some (.ok (s, .filtering))
  | .reading, .error | .readingData, .error => some (.ok (s, .leaving))
  | .filtering, .filter drop =>
    some (.ok (s, if s.state = .disconnected ∨ s.state = .handshake ∧ drop then .looping
      else .queueing))
  | .queueing, .queue choice => (s.selectInbound choice).map fun s ↦ .ok (s, .looping)
  | .leaving, .leave => some (s.finish.map (·, .returned))
  | _, _ => none

def atWork : ReadTask → Bool
  | .starting | .returned => false
  | _ => true

end ReadTask

/-- Where `handleMessage` is. -/
inductive HandleTask
  | starting
  /-- Waiting for a message. -/
  | receiving
  /-- In a handler. -/
  | handling
  /-- In the `sendMessage` of a handler, before it looks at the state. -/
  | looking
  /-- In its `select`. -/
  | sending
  | leaving
  | returned
  deriving DecidableEq, Repr

namespace HandleTask

/-- What a handler does to the connection. -/
inductive Effect
  | nothing
  /-- It sends a message. -/
  | send
  /-- `handleVerify` accepts the peer, and replies. -/
  | accept
  /-- `handleVerify` returns false. -/
  | reject
  deriving DecidableEq, Repr

inductive Step
  | register
  /-- A message is taken from the queue. -/
  | receive
  /-- The queue is closed. -/
  | over
  | handle (effect : Effect)
  | look
  | send (choice : Choice)
  | leave
  deriving DecidableEq, Repr

def step (s : Shared) : HandleTask → Step → Option (Except Panic (Shared × HandleTask))
  | .starting, .register => some (.ok (s.add, .receiving))
  | .receiving, .receive =>
    if 0 < s.inbound then
      some (.ok ({ s with inbound := s.inbound - 1 },
        if s.state = .disconnected then .receiving else .handling))
    else none
  | .receiving, .over =>
    if s.inbound = 0 ∧ s.closed.inboundMsgQueue then some (.ok (s, .leaving)) else none
  | .handling, .handle .nothing => some (.ok (s, .receiving))
  | .handling, .handle .send => some (.ok (s, .looking))
  | .handling, .handle .accept => some (.ok ({ s with state := .connected }, .looking))
  | .handling, .handle .reject => some (.ok (s, .leaving))
  | .looking, .look =>
    some (.ok (s, if s.state = .disconnected then .receiving else .sending))
  | .sending, .send choice => (s.selectOutbound choice).map fun s ↦ .ok (s, .receiving)
  | .leaving, .leave => some (s.finish.map (·, .returned))
  | _, _ => none

def atWork : HandleTask → Bool
  | .starting | .returned => false
  | _ => true

end HandleTask

/-- Where `networkSender` is. -/
inductive SendTask
  | starting
  /-- Waiting for a message. -/
  | receiving
  /-- In `SendData`. -/
  | writing
  | leaving
  | returned
  deriving DecidableEq, Repr

namespace SendTask

inductive Step
  | register
  | receive
  | over
  | write
  | error
  | leave
  deriving DecidableEq, Repr

def step (s : Shared) : SendTask → Step → Option (Except Panic (Shared × SendTask))
  | .starting, .register => some (.ok (s.add, .receiving))
  | .receiving, .receive =>
    if 0 < s.outbound then
      some (.ok ({ s with outbound := s.outbound - 1 },
        if s.state = .disconnected then .receiving else .writing))
    else none
  | .receiving, .over =>
    if s.outbound = 0 ∧ s.closed.outboundMsgQueue then some (.ok (s, .leaving)) else none
  | .writing, .write => if s.closed.connection then none else some (.ok (s, .receiving))
  | .writing, .error => some (.ok (s, .leaving))
  | .leaving, .leave => some (s.finish.map (·, .returned))
  | _, _ => none

def atWork : SendTask → Bool
  | .starting | .returned => false
  | _ => true

end SendTask

/-! ## The group -/

/-- Where `Run` is. -/
inductive Group
  /-- Waiting for the first actor to return. -/
  | collecting
  /-- So many actors have been interrupted; when all have, it waits for them to return. -/
  | interrupting (n : ℕ)
  | returned
  deriving DecidableEq, Repr

/-- How many actors have been interrupted. -/
def Group.interrupted : Group → ℕ
  | .collecting => 0
  | .interrupting n => n
  | .returned => 7

/-- Where the last actor is. -/
inductive CleanTask
  /-- Before `wg.Wait()`. -/
  | starting
  /-- In `wg.Wait()`, until the counter is zero. -/
  | waiting
  /-- In `wg.Wait()`, after the counter was zero. -/
  | woken
  | tearingDown
  | returned
  deriving DecidableEq, Repr

/-- The actors of a connection. -/
structure Lifecycle where
  shared : Shared
  group : Group
  /-- The first actor, which waits for `done`, has returned. -/
  stopped : Bool
  pinger : PingTask
  monitor : PongTask
  reader : ReadTask
  handler : HandleTask
  sender : SendTask
  cleaner : CleanTask
  panic : Option Panic
  /-- Ghost: how often `tearDown` was called. -/
  tornDown : ℕ

namespace Lifecycle

/-- Who receives what `shutDown` sends. -/
inductive Receiver
  | stopper
  | pinger
  | reader
  | handler
  deriving DecidableEq, Repr

/-- What can happen. -/
inductive Step
  | ping (a : PingTask.Step)
  | pong (a : PongTask.Step)
  | read (a : ReadTask.Step)
  | handle (a : HandleTask.Step)
  | send (a : SendTask.Step)
  /-- The first actor sees that `done` is closed. -/
  | stop
  /-- `Run` takes the first error. -/
  | firstError
  /-- `Run` interrupts the next actor. -/
  | interrupt
  /-- `Run` returns. -/
  | join
  /-- `wg.Wait()` is called. -/
  | wait
  /-- `wg.Wait()` goes on after it was woken. -/
  | wake
  /-- A `wg.Add(1)` meets the `wg.Done()` that wakes the last actor. -/
  | misuse
  | tearDown
  /-- Another goroutine queues a message. -/
  | push
  /-- `shutDown` is called, and someone waits for `done`. -/
  | shutDown (receiver : Receiver)
  deriving DecidableEq, Repr

/-- `start` has just called `Run`. -/
def new (state : RemoteNodeState) : Lifecycle where
  shared := ⟨state, 0, 0, 1, ⟨false, false, false, false, false, false⟩⟩
  group := .collecting
  stopped := false
  pinger := .starting
  monitor := .starting
  reader := .starting
  handler := .starting
  sender := .starting
  cleaner := .starting
  panic := none
  tornDown := 0

/-- `close` of a channel. -/
def close (closed : Bool) (s : Shared) : Except Panic Shared :=
  if closed then .error .closeOfClosedChannel else .ok s

/-- What the actors are interrupted with. -/
def interrupt (s : Shared) : ℕ → Except Panic Shared
  | 0 => close s.closed.done { s with closed.done := true }
  | 1 => close s.closed.pingDone { s with closed.pingDone := true }
  | 2 => close s.closed.pongDone { s with closed.pongDone := true }
  | 3 => .ok { s with state := .disconnected }
  | 4 => close s.closed.inboundMsgQueue
      { s with closed.inboundMsgQueue := true, state := .disconnected }
  | 5 => close s.closed.outboundMsgQueue
      { s with closed.outboundMsgQueue := true, state := .disconnected }
  -- decrement the temporary increment
  | _ => Shared.finish { s with closed.connection := true, state := .disconnected }

/-- Some actor has returned. -/
def SomeReturned (s : Lifecycle) : Prop :=
  s.stopped = true ∨ s.pinger = .returned ∨ s.monitor = .returned ∨ s.reader = .returned ∨
    s.handler = .returned ∨ s.sender = .returned ∨ s.cleaner = .returned

/-- All actors have returned. -/
def AllReturned (s : Lifecycle) : Prop :=
  s.stopped = true ∧ s.pinger = .returned ∧ s.monitor = .returned ∧ s.reader = .returned ∧
    s.handler = .returned ∧ s.sender = .returned ∧ s.cleaner = .returned

instance (s : Lifecycle) : Decidable s.SomeReturned := inferInstanceAs (Decidable (_ ∨ _))

instance (s : Lifecycle) : Decidable s.AllReturned := inferInstanceAs (Decidable (_ ∧ _))

/-- Some actor is about to call `wg.Add(1)`. -/
def Registering (s : Lifecycle) : Prop :=
  s.pinger = .registering ∨ s.monitor = .starting ∨ s.reader = .starting ∨ s.handler = .starting ∨
    s.sender = .starting

instance (s : Lifecycle) : Decidable s.Registering := inferInstanceAs (Decidable (_ ∨ _))

/-- The `wg.Done()` that brings the counter to zero wakes the last actor. -/
def wakeUp (s : Lifecycle) : Lifecycle :=
  if s.cleaner = .waiting ∧ s.shared.wg = 0 then { s with cleaner := .woken } else s

/-- Go on with what an actor did, or crash. -/
def follow {α : Type} (s : Lifecycle) (x : Option (Except Panic α)) (f : α → Lifecycle) :
    Option Lifecycle :=
  x.map fun
    | .error p => { s with panic := some p }
    | .ok y => (f y).wakeUp

/-- Somebody receives what `shutDown` sends: the first actor, or somebody in a `select` that cannot
go on otherwise. -/
def receive (s : Lifecycle) : Receiver → Option Lifecycle
  | .stopper => if s.stopped then none else some { s with stopped := true }
  | .pinger =>
    match s.pinger with
    | .sending first =>
      if s.shared.outbound = chanSize then some { s with pinger := .sent first } else none
    | _ => none
  | .reader =>
    if s.reader = .queueing ∧ s.shared.inbound = chanSize then some { s with reader := .looping }
    else none
  | .handler =>
    if s.handler = .sending ∧ s.shared.outbound = chanSize then
      some { s with handler := .receiving }
    else none

def act (s : Lifecycle) : Step → Option Lifecycle
  | .ping a =>
    s.follow (s.pinger.step s.shared a) fun (sh, t) ↦ { s with shared := sh, pinger := t }
  | .pong a =>
    s.follow (s.monitor.step s.shared a) fun (sh, t) ↦ { s with shared := sh, monitor := t }
  | .read a =>
    s.follow (s.reader.step s.shared a) fun (sh, t) ↦ { s with shared := sh, reader := t }
  | .handle a =>
    s.follow (s.handler.step s.shared a) fun (sh, t) ↦ { s with shared := sh, handler := t }
  | .send a =>
    s.follow (s.sender.step s.shared a) fun (sh, t) ↦ { s with shared := sh, sender := t }
  | .stop => if ¬ s.stopped ∧ s.shared.closed.done then some { s with stopped := true } else none
  | .firstError =>
    if s.group = .collecting ∧ s.SomeReturned then some { s with group := .interrupting 0 }
    else none
  | .interrupt =>
    match s.group with
    | .interrupting n =>
      if n < 7 then
        s.follow (some (interrupt s.shared n)) fun sh ↦
          { s with shared := sh, group := .interrupting (n + 1) }
      else none
    | _ => none
  | .join =>
    if s.group = .interrupting 7 ∧ s.AllReturned then some { s with group := .returned } else none
  | .wait =>
    if s.cleaner = .starting then
      some { s with cleaner := if s.shared.wg = 0 then .tearingDown else .waiting }
    else none
  | .wake =>
    if s.cleaner = .woken then
      some (if s.shared.wg = 0 then { s with cleaner := .tearingDown }
        else { s with panic := some .waitGroupReused })
    else none
  | .misuse =>
    -- the waiter is still counted while it is being woken
    if s.cleaner = .woken ∧ s.shared.wg = 0 ∧ s.Registering then
      some { s with panic := some .waitGroupMisuse }
    else none
  | .tearDown =>
    if s.cleaner = .tearingDown then
      some { s with cleaner := .returned, tornDown := s.tornDown + 1 }
    else none
  | .push =>
    if ¬ s.shared.closed.outboundMsgQueue ∧ s.shared.outbound < chanSize then
      some { s with shared.outbound := s.shared.outbound + 1 }
    else none
  | .shutDown receiver => if s.shared.closed.done then none else s.receive receiver

def step (s : Lifecycle) (a : Step) : Option Lifecycle :=
  if s.panic = none then s.act a else none

def system : TransitionSystem Lifecycle Step := .ofStep (fun s ↦ ∃ state, s = new state) step

end Lifecycle

/-! ## What an actor can do

The five actors that are waited for differ in their loops and agree in what matters to the others.
`Worker.Law` is what they agree in, and it is proved for each of them; the results about the group
use nothing else. -/

/-- The goroutine of an actor that is waited for. -/
structure Worker (τ α : Type) where
  step : Shared → τ → α → Option (Except Panic (Shared × τ))
  returned : τ
  /-- Between `wg.Add(1)` and `wg.Done()`. -/
  atWork : τ → Bool
  /-- How many steps it is from the end, when everyone has been interrupted and the queues are
  empty. -/
  rank : τ → ℕ
  /-- How many steps come from a tick. -/
  extra : α → ℕ

namespace Shared

/-- The steps that are still to come because of the messages in the queues. -/
def load (s : Shared) : ℕ := 4 * s.inbound + 3 * s.outbound

/-- Everything is closed. -/
def allClosed : Closed := ⟨true, true, true, true, true, true⟩

end Shared

open Shared (allClosed)

/-- What a step of an actor does to what is shared: it closes nothing and counts itself, and when
everything is closed it brings the actor nearer to its end; or it crashes in one of two ways. -/
def Worker.Law {τ α : Type} (w : Worker τ α) (s : Shared) (t : τ) (a : α) :
    Except Panic (Shared × τ) → Prop
  | .ok (s', t') => s'.closed = s.closed ∧
      s'.wg + (w.atWork t).toNat = s.wg + (w.atWork t').toNat ∧
      (s.closed = allClosed → s'.load + w.rank t' + 1 ≤ s.load + w.rank t + w.extra a)
  | .error p => (p = .negativeCounter ∧ w.atWork t = true ∧ s.wg = 0) ∨
      (p = .nilReader ∧ s.closed.connection = true)

structure Worker.Lawful {τ α : Type} (w : Worker τ α) : Prop where
  law : ∀ {s t a x}, w.step s t a = some x → w.Law s t a x
  rank_pos : ∀ {s t a x}, w.step s t a = some x → 0 < w.rank t
  atWork_returned : w.atWork w.returned = false
  /-- An actor does not wait when everything is closed. -/
  goesOn : ∀ {s t}, s.closed = allClosed → t ≠ w.returned → ∃ a, (w.step s t a).isSome

section

variable {s s' : Shared} {c : Choice} {p : Panic} {τ : Type} {t t' : τ}

/-- A `select` closes and counts nothing, and sends nothing on a closed queue. -/
theorem Shared.selectOutbound_spec (h : s.selectOutbound c = some s') :
    s'.closed = s.closed ∧ s'.wg = s.wg ∧ (s.closed = allClosed → s' = s) := by
  rw [selectOutbound.eq_def] at h
  split at h
  · split_ifs at h
    obtain rfl := Option.some.inj h
    exact ⟨rfl, rfl, fun _ ↦ rfl⟩
  · split_ifs at h with hclosed
    · obtain rfl := Option.some.inj h
      exact ⟨rfl, rfl, fun _ ↦ rfl⟩
    · obtain rfl := Option.some.inj h
      exact ⟨rfl, rfl, fun hall ↦ by simp [hall, allClosed] at hclosed⟩

theorem Shared.isSome_selectOutbound (h : s.closed = allClosed) :
    (s.selectOutbound .done).isSome := by simp [selectOutbound, h, allClosed]

theorem Shared.selectInbound_spec (h : s.selectInbound c = some s') :
    s'.closed = s.closed ∧ s'.wg = s.wg ∧ (s.closed = allClosed → s' = s) := by
  rw [selectInbound.eq_def] at h
  split at h
  · split_ifs at h
    obtain rfl := Option.some.inj h
    exact ⟨rfl, rfl, fun _ ↦ rfl⟩
  · split_ifs at h with hclosed
    · obtain rfl := Option.some.inj h
      exact ⟨rfl, rfl, fun _ ↦ rfl⟩
    · obtain rfl := Option.some.inj h
      exact ⟨rfl, rfl, fun hall ↦ by simp [hall, allClosed] at hclosed⟩

namespace Worker

variable {α : Type} {w : Worker τ α} {a : α}

/-- A step that only this actor sees. -/
theorem law_silent (hwork : w.atWork t' = w.atWork t) (hrank : w.rank t' < w.rank t + w.extra a) :
    w.Law s t a (.ok (s, t')) :=
  ⟨rfl, by rw [hwork], fun _ ↦ by omega⟩

/-- `wg.Add(1)`. -/
theorem law_add (hwork : w.atWork t = false) (hwork' : w.atWork t' = true)
    (hrank : w.rank t' < w.rank t) : w.Law s t a (.ok (s.add, t')) :=
  ⟨rfl, by simp [Shared.add, hwork, hwork'], fun _ ↦ by simp only [Shared.load, Shared.add]; omega⟩

/-- `wg.Done()`. -/
theorem law_finish (hwork : w.atWork t = true) (hwork' : w.atWork t' = false)
    (hrank : w.rank t' < w.rank t) : w.Law s t a (s.finish.map (·, t')) := by
  rw [Shared.finish]
  split_ifs with hwg
  · exact .inl ⟨rfl, hwork, hwg⟩
  · refine ⟨rfl, ?_, fun _ ↦ ?_⟩
    · simp only [hwork, hwork', Bool.toNat_true, Bool.toNat_false]
      omega
    · simp only [Shared.load]
      omega

/-- A `select`. -/
theorem law_select (hclosed : s'.closed = s.closed) (hwg : s'.wg = s.wg)
    (hsame : s.closed = allClosed → s' = s) (hwork : w.atWork t' = w.atWork t)
    (hrank : w.rank t' < w.rank t) : w.Law s t a (.ok (s', t')) :=
  ⟨hclosed, by rw [hwork, hwg], fun hall ↦ by rw [hsame hall]; omega⟩

/-- A message is taken from a queue. -/
theorem law_take (hclosed : s'.closed = s.closed) (hwg : s'.wg = s.wg)
    (hwork : w.atWork t' = w.atWork t) (hload : s'.load + w.rank t' < s.load + w.rank t) :
    w.Law s t a (.ok (s', t')) :=
  ⟨hclosed, by rw [hwork, hwg], fun _ ↦ by omega⟩

end Worker
end

/-- The goroutine of the ping timer. -/
def PingTask.worker : Worker PingTask PingTask.Step where
  step := PingTask.step
  returned := .returned
  atWork := PingTask.atWork
  rank
    | .starting => 7
    | .looking true => 6
    | .sending true => 5
    | .looking false | .registering => 4
    | .sending false => 3
    | .waiting => 2
    | .leaving => 1
    | .returned => 0
  extra
    | .tick => 3
    | _ => 0

theorem PingTask.worker_lawful : PingTask.worker.Lawful where
  law {s t a x} h := by
    simp only [worker, step] at h
    split at h
    · exact Option.some.inj h ▸ Worker.law_silent rfl (by decide)
    · next first =>
      obtain rfl := Option.some.inj h
      by_cases hs : s.state = .disconnected <;> cases first <;>
        simp only [hs, if_true, if_false] <;> exact Worker.law_silent rfl (by decide)
    · next first choice =>
      obtain ⟨s', hs', rfl⟩ := Option.map_eq_some_iff.mp h
      obtain ⟨hclosed, hwg, hsame⟩ := Shared.selectOutbound_spec hs'
      cases first <;> exact Worker.law_select hclosed hwg hsame rfl (by decide)
    · exact Option.some.inj h ▸ Worker.law_add rfl rfl (by decide)
    · exact Option.some.inj h ▸ Worker.law_silent rfl (by decide)
    · obtain ⟨-, h⟩ := Option.ite_none_right_eq_some.mp h
      exact Option.some.inj h ▸ Worker.law_silent rfl (by decide)
    · exact Option.some.inj h ▸ Worker.law_finish rfl rfl (by decide)
    · exact absurd h (by simp)
  rank_pos {s t a x} h := by
    match t with
    | .returned => simp [worker, step] at h
    | .looking first | .sending first => cases first <;> decide
    | .starting | .registering | .waiting | .leaving => decide
  atWork_returned := rfl
  goesOn {s t} hall ht := by
    match t with
    | .starting => exact ⟨.start, rfl⟩
    | .looking _ => exact ⟨.look, rfl⟩
    | .sending _ => exact ⟨.send .done, by simp [worker, step, Shared.isSome_selectOutbound hall]⟩
    | .registering => exact ⟨.register, rfl⟩
    | .waiting => exact ⟨.done, by simp [worker, step, hall, allClosed]⟩
    | .leaving => exact ⟨.leave, rfl⟩
    | .returned => exact absurd rfl ht

/-- The goroutine of the ping response timer. -/
def PongTask.worker : Worker PongTask PongTask.Step where
  step := PongTask.step
  returned := .returned
  atWork := PongTask.atWork
  rank
    | .starting => 3
    | .waiting => 2
    | .leaving => 1
    | .returned => 0
  extra
    | .timeout _ => 1
    | _ => 0

theorem PongTask.worker_lawful : PongTask.worker.Lawful where
  law {s t a x} h := by
    simp only [worker, step] at h
    split at h
    · exact Option.some.inj h ▸ Worker.law_add rfl rfl (by decide)
    · next fault =>
      obtain rfl := Option.some.inj h
      cases fault <;> exact Worker.law_silent rfl (by decide)
    · obtain ⟨-, h⟩ := Option.ite_none_right_eq_some.mp h
      exact Option.some.inj h ▸ Worker.law_silent rfl (by decide)
    · exact Option.some.inj h ▸ Worker.law_finish rfl rfl (by decide)
    · exact absurd h (by simp)
  rank_pos {s t a x} h := by
    match t with
    | .returned => simp [worker, step] at h
    | .starting | .waiting | .leaving => decide
  atWork_returned := rfl
  goesOn {s t} hall ht := by
    match t with
    | .starting => exact ⟨.register, rfl⟩
    | .waiting => exact ⟨.done, by simp [worker, step, hall, allClosed]⟩
    | .leaving => exact ⟨.leave, rfl⟩
    | .returned => exact absurd rfl ht

/-- `networkConsumer`. -/
def ReadTask.worker : Worker ReadTask ReadTask.Step where
  step := ReadTask.step
  returned := .returned
  atWork := ReadTask.atWork
  rank
    | .reading => 6
    | .readingData => 5
    | .filtering => 4
    | .queueing | .starting => 3
    | .looping => 2
    -- from here the actor crashes when everything is closed
    | .calling | .callingData => 1
    | .leaving => 1
    | .returned => 0
  extra _ := 0

theorem ReadTask.worker_lawful : ReadTask.worker.Lawful where
  law {s t a x} h := by
    simp only [worker, step] at h
    split at h
    · exact Option.some.inj h ▸ Worker.law_add rfl rfl (by decide)
    · obtain rfl := Option.some.inj h
      by_cases hs : s.state = .connected ∨ s.state = .handshake <;>
        simp only [hs, if_true, if_false] <;> exact Worker.law_silent rfl (by decide)
    · obtain rfl := Option.some.inj h
      split_ifs with hclosed
      · exact .inr ⟨rfl, hclosed⟩
      · exact ⟨rfl, rfl, fun hall ↦ by simp [hall, allClosed] at hclosed⟩
    · next hasData =>
      obtain rfl := Option.some.inj h
      cases hasData <;> exact Worker.law_silent rfl (by decide)
    · obtain rfl := Option.some.inj h
      split_ifs with hclosed
      · exact .inr ⟨rfl, hclosed⟩
      · exact ⟨rfl, rfl, fun hall ↦ by simp [hall, allClosed] at hclosed⟩
    · exact Option.some.inj h ▸ Worker.law_silent rfl (by decide)
    · exact Option.some.inj h ▸ Worker.law_silent rfl (by decide)
    · exact Option.some.inj h ▸ Worker.law_silent rfl (by decide)
    · next drop =>
      obtain rfl := Option.some.inj h
      by_cases hs : s.state = .disconnected ∨ s.state = .handshake ∧ drop = true <;>
        simp only [hs, if_true, if_false] <;> exact Worker.law_silent rfl (by simp [worker])
    · obtain ⟨s', hs', rfl⟩ := Option.map_eq_some_iff.mp h
      obtain ⟨hclosed, hwg, hsame⟩ := Shared.selectInbound_spec hs'
      exact Worker.law_select hclosed hwg hsame rfl (by decide)
    · exact Option.some.inj h ▸ Worker.law_finish rfl rfl (by decide)
    · exact absurd h (by simp)
  rank_pos {s t a x} h := by
    match t with
    | .returned => simp [worker, step] at h
    | .starting | .looping | .calling | .reading | .callingData | .readingData | .filtering
    | .queueing | .leaving => decide
  atWork_returned := rfl
  goesOn {s t} hall ht := by
    match t with
    | .starting => exact ⟨.register, rfl⟩
    | .looping => exact ⟨.loop, rfl⟩
    | .calling | .callingData => exact ⟨.call, rfl⟩
    | .reading | .readingData => exact ⟨.error, rfl⟩
    | .filtering => exact ⟨.filter false, rfl⟩
    | .queueing =>
      exact ⟨.queue .done, by simp [worker, step, Shared.selectInbound, hall, allClosed]⟩
    | .leaving => exact ⟨.leave, rfl⟩
    | .returned => exact absurd rfl ht

/-- `handleMessage`. -/
def HandleTask.worker : Worker HandleTask HandleTask.Step where
  step := HandleTask.step
  returned := .returned
  atWork := HandleTask.atWork
  rank
    | .handling => 5
    | .looking => 4
    | .sending | .starting => 3
    | .receiving => 2
    | .leaving => 1
    | .returned => 0
  extra _ := 0

theorem HandleTask.worker_lawful : HandleTask.worker.Lawful where
  law {s t a x} h := by
    simp only [worker, step] at h
    split at h
    · exact Option.some.inj h ▸ Worker.law_add rfl rfl (by decide)
    · obtain ⟨hpos, h⟩ := Option.ite_none_right_eq_some.mp h
      obtain rfl := Option.some.inj h
      by_cases hs : s.state = .disconnected
      all_goals
        simp only [hs, if_true, if_false]
        refine Worker.law_take rfl rfl rfl ?_
        simp only [Shared.load, worker]
        omega
    · obtain ⟨-, h⟩ := Option.ite_none_right_eq_some.mp h
      exact Option.some.inj h ▸ Worker.law_silent rfl (by decide)
    · exact Option.some.inj h ▸ Worker.law_silent rfl (by decide)
    · exact Option.some.inj h ▸ Worker.law_silent rfl (by decide)
    · exact Option.some.inj h ▸ Worker.law_take rfl rfl rfl (by simp [Shared.load, worker])
    · exact Option.some.inj h ▸ Worker.law_silent rfl (by decide)
    · obtain rfl := Option.some.inj h
      by_cases hs : s.state = .disconnected <;>
        simp only [hs, if_true, if_false] <;> exact Worker.law_silent rfl (by decide)
    · obtain ⟨s', hs', rfl⟩ := Option.map_eq_some_iff.mp h
      obtain ⟨hclosed, hwg, hsame⟩ := Shared.selectOutbound_spec hs'
      exact Worker.law_select hclosed hwg hsame rfl (by decide)
    · exact Option.some.inj h ▸ Worker.law_finish rfl rfl (by decide)
    · exact absurd h (by simp)
  rank_pos {s t a x} h := by
    match t with
    | .returned => simp [worker, step] at h
    | .starting | .receiving | .handling | .looking | .sending | .leaving => decide
  atWork_returned := rfl
  goesOn {s t} hall ht := by
    match t with
    | .starting => exact ⟨.register, rfl⟩
    | .receiving =>
      by_cases hempty : s.inbound = 0
      · exact ⟨.over, by simp [worker, step, hall, allClosed, hempty]⟩
      · exact ⟨.receive, by simp [worker, step, Nat.pos_of_ne_zero hempty]⟩
    | .handling => exact ⟨.handle .nothing, rfl⟩
    | .looking => exact ⟨.look, rfl⟩
    | .sending => exact ⟨.send .done, by simp [worker, step, Shared.isSome_selectOutbound hall]⟩
    | .leaving => exact ⟨.leave, rfl⟩
    | .returned => exact absurd rfl ht

/-- `networkSender`. -/
def SendTask.worker : Worker SendTask SendTask.Step where
  step := SendTask.step
  returned := .returned
  atWork := SendTask.atWork
  rank
    | .writing | .starting => 3
    | .receiving => 2
    | .leaving => 1
    | .returned => 0
  extra _ := 0

theorem SendTask.worker_lawful : SendTask.worker.Lawful where
  law {s t a x} h := by
    simp only [worker, step] at h
    split at h
    · exact Option.some.inj h ▸ Worker.law_add rfl rfl (by decide)
    · obtain ⟨hpos, h⟩ := Option.ite_none_right_eq_some.mp h
      obtain rfl := Option.some.inj h
      by_cases hs : s.state = .disconnected
      all_goals
        simp only [hs, if_true, if_false]
        refine Worker.law_take rfl rfl rfl ?_
        simp only [Shared.load, worker]
        omega
    · obtain ⟨-, h⟩ := Option.ite_none_right_eq_some.mp h
      exact Option.some.inj h ▸ Worker.law_silent rfl (by decide)
    · obtain ⟨-, h⟩ := Option.ite_none_left_eq_some.mp h
      exact Option.some.inj h ▸ Worker.law_silent rfl (by decide)
    · exact Option.some.inj h ▸ Worker.law_silent rfl (by decide)
    · exact Option.some.inj h ▸ Worker.law_finish rfl rfl (by decide)
    · exact absurd h (by simp)
  rank_pos {s t a x} h := by
    match t with
    | .returned => simp [worker, step] at h
    | .starting | .receiving | .writing | .leaving => decide
  atWork_returned := rfl
  goesOn {s t} hall ht := by
    match t with
    | .starting => exact ⟨.register, rfl⟩
    | .receiving =>
      by_cases hempty : s.outbound = 0
      · exact ⟨.over, by simp [worker, step, hall, allClosed, hempty]⟩
      · exact ⟨.receive, by simp [worker, step, Nat.pos_of_ne_zero hempty]⟩
    | .writing => exact ⟨.error, rfl⟩
    | .leaving => exact ⟨.leave, rfl⟩
    | .returned => exact absurd rfl ht

/-! ## The group counts and closes

What is closed is determined by how many actors have been interrupted, and the counter by how many
are at work.  Most of what `tearDown_once` says follows from these two equations. -/

namespace Lifecycle

variable {s s' : Lifecycle} {a : Step} {ls : List Step}

/-- How many actors are at work. -/
def working (s : Lifecycle) : ℕ :=
  s.pinger.atWork.toNat + s.monitor.atWork.toNat + s.reader.atWork.toNat + s.handler.atWork.toNat +
    s.sender.atWork.toNat

/-- What is closed when so many actors have been interrupted. -/
def closedBy (n : ℕ) : Closed :=
  ⟨decide (0 < n), decide (1 < n), decide (2 < n), decide (4 < n), decide (5 < n), decide (6 < n)⟩

/-- The crashes there are: `ReadData` on a connection that was closed; and, when everyone has been
interrupted, a `wg.Add(1)` that comes late. -/
def Crash (s : Lifecycle) (p : Panic) : Prop :=
  (p = .nilReader ∧ s.shared.closed.connection = true) ∨
    ((p = .waitGroupReused ∨ p = .waitGroupMisuse) ∧ s.shared.closed = allClosed)

/-- The group closes and counts. -/
structure Counted (s : Lifecycle) : Prop where
  interrupted : s.group.interrupted ≤ 7
  closed : s.shared.closed = closedBy s.group.interrupted
  /-- The counter counts the actors at work, and the temporary increment. -/
  count : s.shared.wg = s.working + if s.group.interrupted = 7 then 0 else 1
  /-- The wait is over after everyone has been interrupted. -/
  cleaner : s.cleaner ≠ .starting → s.cleaner ≠ .waiting → s.group.interrupted = 7
  tornDown : s.tornDown = if s.cleaner = .returned then 1 else 0

/-- What the group and its actors keep. -/
structure Inv (s : Lifecycle) : Prop extends Counted s where
  /-- The last actor does not wait when the counter is zero. -/
  waiting : s.cleaner = .waiting → s.shared.wg ≠ 0
  returned : s.group = .returned → s.AllReturned
  panic : ∀ p, s.panic = some p → s.Crash p

/-- The counter is not zero before everyone has been interrupted. -/
theorem Counted.interrupted_eq (hi : s.Counted) (hwg : s.shared.wg = 0) :
    s.group.interrupted = 7 := by
  have hcount := hi.count
  by_contra h7
  rw [if_neg h7] at hcount
  omega

theorem Counted.closed_eq (hi : s.Counted) (h7 : s.group.interrupted = 7) :
    s.shared.closed = allClosed := by
  rw [hi.closed, h7]
  rfl

theorem new_inv (state : RemoteNodeState) : (new state).Inv where
  interrupted := by simp [new, Group.interrupted]
  closed := rfl
  count := rfl
  cleaner := by simp [new]
  tornDown := by simp [new]
  waiting := by simp [new]
  returned := by simp [new]
  panic := by simp [new]

/-- The last actor is woken when it is time. -/
theorem Counted.wakeUp (hi : s.Counted) (hrunning : s.group ≠ .returned) (hnone : s.panic = none) :
    s.wakeUp.Inv := by
  rw [Lifecycle.wakeUp]
  split_ifs with hwake
  · obtain ⟨hc, hwg⟩ := hwake
    have htorn := hi.tornDown
    exact ⟨⟨hi.interrupted, hi.closed, hi.count, fun _ _ ↦ hi.interrupted_eq hwg,
      by simpa [hc] using htorn⟩, nofun, fun hg ↦ absurd hg hrunning, by simp [hnone]⟩
  · exact ⟨hi, fun hc hwg ↦ hwake ⟨hc, hwg⟩, fun hg ↦ absurd hg hrunning, by simp [hnone]⟩

/-- Following what an actor did. -/
theorem follow_eq_some {α : Type} {x : Option (Except Panic α)} {f : α → Lifecycle}
    (h : s.follow x f = some s') :
    (∃ p, x = some (.error p) ∧ s' = { s with panic := some p }) ∨
      ∃ y, x = some (.ok y) ∧ s' = (f y).wakeUp := by
  obtain ⟨e, he, h⟩ := Option.map_eq_some_iff.mp h
  cases e with
  | error p => exact .inl ⟨p, he, h.symm⟩
  | ok y => exact .inr ⟨y, he, h.symm⟩

/-- A crash changes nothing else. -/
theorem Inv.crash {p : Panic} (hi : s.Inv) (hp : s.Crash p) :
    ({ s with panic := some p } : Lifecycle).Inv := by
  refine ⟨⟨hi.interrupted, hi.closed, hi.count, hi.cleaner, hi.tornDown⟩, hi.waiting, hi.returned,
    fun p' hp' ↦ ?_⟩
  obtain rfl := Option.some.inj hp'
  exact hp

/-- **What one actor does.** -/
theorem Inv.follow {τ α : Type} {w : Worker τ α} {t : τ} {b : α} {set : Shared × τ → Lifecycle}
    (hi : s.Inv) (hnone : s.panic = none) (hw : w.Lawful)
    (h : s.follow (w.step s.shared t b) set = some s')
    (hworking : ∀ sh t', (set (sh, t')).working + (w.atWork t).toNat =
      s.working + (w.atWork t').toNat)
    (hset : ∀ sh t', (set (sh, t')).shared = sh ∧ (set (sh, t')).group = s.group ∧
      (set (sh, t')).cleaner = s.cleaner ∧ (set (sh, t')).tornDown = s.tornDown ∧
      (set (sh, t')).panic = s.panic)
    (hwork : (w.atWork t).toNat ≤ s.working) (hrank : s.AllReturned → w.rank t = 0) : s'.Inv := by
  rcases follow_eq_some h with ⟨p, hp, rfl⟩ | ⟨⟨sh, t'⟩, ht, rfl⟩
  · refine hi.crash ?_
    rcases hw.law hp with ⟨-, hatWork, hwg⟩ | hnil
    · -- the counter counts the actor
      have hcount := hi.count
      rw [hatWork, Bool.toNat_true] at hwork
      omega
    · exact .inl hnil
  · obtain ⟨hclosed, hwg, -⟩ := hw.law ht
    obtain ⟨hshared, hgroup, hcleaner, htornDown, hpanic⟩ := hset sh t'
    have hworking := hworking sh t'
    have hcount := hi.count
    refine Counted.wakeUp ⟨hgroup ▸ hi.interrupted, ?_, ?_, ?_, ?_⟩ (fun hg ↦ ?_) ?_
    · rw [hshared, hclosed, hgroup]
      exact hi.closed
    · rw [hshared, hgroup]
      omega
    · rw [hcleaner, hgroup]
      exact hi.cleaner
    · rw [hcleaner, htornDown]
      exact hi.tornDown
    · exact absurd (hrank (hi.returned (hgroup ▸ hg))) (hw.rank_pos ht).ne'
    · rw [hpanic]
      exact hnone

/-- Interrupting the next actor closes what it is to close, for the first time. -/
theorem interrupt_spec {sh : Shared} {n : ℕ} (hn : n < 7) (hclosed : sh.closed = closedBy n)
    (hwg : sh.wg ≠ 0) : ∃ sh', interrupt sh n = .ok sh' ∧ sh'.closed = closedBy (n + 1) ∧
      sh'.wg + (if n = 6 then 1 else 0) = sh.wg := by
  have hlast : sh.wg - 1 + 1 = sh.wg := Nat.succ_pred_eq_of_ne_zero hwg
  match n with
  | 0 | 1 | 2 | 3 | 4 | 5 => simp [interrupt, close, hclosed, closedBy]
  | 6 => simp [interrupt, Shared.finish, hwg, hclosed, closedBy, hlast]
  | n + 7 => omega

/-- Somebody receives what `shutDown` sends. -/
theorem Inv.receive {r : Receiver} (hi : s.Inv) (hdone : s.shared.closed.done = false)
    (h : s.receive r = some s') : s'.Inv := by
  have hgroup : s.group ≠ .returned := fun hg ↦ by
    rw [hi.closed, hg] at hdone
    exact absurd hdone (by decide)
  match r with
  | .stopper =>
    obtain ⟨-, h⟩ := Option.ite_none_left_eq_some.mp h
    obtain rfl := Option.some.inj h
    exact ⟨⟨hi.interrupted, hi.closed, hi.count, hi.cleaner, hi.tornDown⟩, hi.waiting,
      fun hg ↦ absurd hg hgroup, hi.panic⟩
  | .pinger =>
    simp only [Lifecycle.receive] at h
    split at h
    · next first hp =>
      obtain ⟨-, h⟩ := Option.ite_none_right_eq_some.mp h
      obtain rfl := Option.some.inj h
      refine ⟨⟨hi.interrupted, hi.closed, ?_, hi.cleaner, hi.tornDown⟩, hi.waiting,
        fun hg ↦ absurd hg hgroup, hi.panic⟩
      have := hi.count
      simp only [working, hp] at this ⊢
      cases first <;> exact this
    · exact absurd h (by simp)
  | .reader =>
    obtain ⟨⟨hr, -⟩, h⟩ := Option.ite_none_right_eq_some.mp h
    obtain rfl := Option.some.inj h
    refine ⟨⟨hi.interrupted, hi.closed, ?_, hi.cleaner, hi.tornDown⟩, hi.waiting,
      fun hg ↦ absurd hg hgroup, hi.panic⟩
    simpa [working, hr, ReadTask.atWork] using hi.count
  | .handler =>
    obtain ⟨⟨hh, -⟩, h⟩ := Option.ite_none_right_eq_some.mp h
    obtain rfl := Option.some.inj h
    refine ⟨⟨hi.interrupted, hi.closed, ?_, hi.cleaner, hi.tornDown⟩, hi.waiting,
      fun hg ↦ absurd hg hgroup, hi.panic⟩
    simpa [working, hh, HandleTask.atWork] using hi.count

/-- The group interrupts the next actor. -/
theorem Inv.interrupt {n : ℕ} (hi : s.Inv) (hnone : s.panic = none) (hg : s.group = .interrupting n)
    (hn : n < 7)
    (h : s.follow (some (Lifecycle.interrupt s.shared n)) (fun sh ↦
      { s with shared := sh, group := .interrupting (n + 1) }) = some s') : s'.Inv := by
  obtain ⟨-, hclosed, hcount, hcleaner, htorn⟩ := hi.toCounted
  simp only [hg, Group.interrupted, hn.ne, if_false] at hclosed hcount hcleaner
  obtain ⟨sh, hsh, hclosed', hwg⟩ := interrupt_spec hn hclosed (by omega)
  rw [hsh] at h
  obtain rfl := Option.some.inj h
  refine Counted.wakeUp ⟨hn, hclosed', ?_, fun hs hw ↦ absurd (hcleaner hs hw) (by simp), htorn⟩
    (by simp) hnone
  show sh.wg = s.working + if n + 1 = 7 then 0 else 1
  rcases eq_or_ne n 6 with rfl | h6
  · simp only [if_true] at hwg ⊢
    omega
  · rw [if_neg h6] at hwg
    rw [if_neg (by omega)]
    omega

/-- The last actor goes on. -/
theorem Inv.clean {t : CleanTask} {n : ℕ} (hi : s.Inv) (hc : s.cleaner ≠ .returned)
    (hover : t ≠ .waiting → s.group.interrupted = 7) (hwaiting : t = .waiting → s.shared.wg ≠ 0)
    (htorn : n = if t = .returned then 1 else 0) :
    Inv { s with cleaner := t, tornDown := n } :=
  ⟨⟨hi.interrupted, hi.closed, hi.count, fun _ hw ↦ hover hw, htorn⟩, hwaiting,
    fun hg ↦ absurd (hi.returned hg).2.2.2.2.2.2 hc, hi.panic⟩

theorem Inv.step (hi : s.Inv) (h : s.step a = some s') : s'.Inv := by
  obtain ⟨hnone, h⟩ := Option.ite_none_right_eq_some.mp h
  match a with
  | .ping a =>
    refine hi.follow hnone PingTask.worker_lawful h (fun sh t' ↦ ?_)
      (fun sh t' ↦ ⟨rfl, rfl, rfl, rfl, rfl⟩) ?_
      fun hall ↦ by rw [hall.2.1]; rfl
    all_goals
      simp only [working, PingTask.worker]
      omega
  | .pong a =>
    refine hi.follow hnone PongTask.worker_lawful h (fun sh t' ↦ ?_)
      (fun sh t' ↦ ⟨rfl, rfl, rfl, rfl, rfl⟩) ?_
      fun hall ↦ by rw [hall.2.2.1]; rfl
    all_goals
      simp only [working, PongTask.worker]
      omega
  | .read a =>
    refine hi.follow hnone ReadTask.worker_lawful h (fun sh t' ↦ ?_)
      (fun sh t' ↦ ⟨rfl, rfl, rfl, rfl, rfl⟩) ?_
      fun hall ↦ by rw [hall.2.2.2.1]; rfl
    all_goals
      simp only [working, ReadTask.worker]
      omega
  | .handle a =>
    refine hi.follow hnone HandleTask.worker_lawful h (fun sh t' ↦ ?_)
      (fun sh t' ↦ ⟨rfl, rfl, rfl, rfl, rfl⟩) ?_
      fun hall ↦ by rw [hall.2.2.2.2.1]; rfl
    all_goals
      simp only [working, HandleTask.worker]
      omega
  | .send a =>
    refine hi.follow hnone SendTask.worker_lawful h (fun sh t' ↦ ?_)
      (fun sh t' ↦ ⟨rfl, rfl, rfl, rfl, rfl⟩) ?_
      fun hall ↦ by rw [hall.2.2.2.2.2.1]; rfl
    all_goals
      simp only [working, SendTask.worker]
      omega
  | .stop =>
    obtain ⟨-, h⟩ := Option.ite_none_right_eq_some.mp h
    obtain rfl := Option.some.inj h
    exact ⟨⟨hi.interrupted, hi.closed, hi.count, hi.cleaner, hi.tornDown⟩, hi.waiting,
      fun hg ↦ ⟨rfl, (hi.returned hg).2⟩, hi.panic⟩
  | .firstError =>
    obtain ⟨⟨hg, -⟩, h⟩ := Option.ite_none_right_eq_some.mp h
    obtain rfl := Option.some.inj h
    obtain ⟨⟨hle, hclosed, hcount, hcleaner, htorn⟩, hwaiting, -, hpanic⟩ := hi
    rw [hg] at hle hclosed hcount hcleaner
    exact ⟨⟨hle, hclosed, hcount, hcleaner, htorn⟩, hwaiting, by simp, hpanic⟩
  | .interrupt =>
    simp only [act] at h
    split at h
    · next n hg =>
      obtain ⟨hn, h⟩ := Option.ite_none_right_eq_some.mp h
      exact hi.interrupt hnone hg hn h
    · exact absurd h (by simp)
  | .join =>
    obtain ⟨⟨hg, hall⟩, h⟩ := Option.ite_none_right_eq_some.mp h
    obtain rfl := Option.some.inj h
    obtain ⟨⟨hle, hclosed, hcount, hcleaner, htorn⟩, hwaiting, -, hpanic⟩ := hi
    rw [hg] at hle hclosed hcount hcleaner
    exact ⟨⟨hle, hclosed, hcount, hcleaner, htorn⟩, hwaiting, fun _ ↦ hall, hpanic⟩
  | .wait =>
    obtain ⟨hc, h⟩ := Option.ite_none_right_eq_some.mp h
    obtain rfl := Option.some.inj h
    have htorn := hi.tornDown
    by_cases hwg : s.shared.wg = 0
    · simp only [hwg, if_true]
      exact hi.clean (by simp [hc]) (fun _ ↦ hi.interrupted_eq hwg) nofun
        (by simpa [hc] using htorn)
    · simp only [hwg, if_false]
      exact hi.clean (by simp [hc]) (absurd rfl) (fun _ ↦ hwg) (by simpa [hc] using htorn)
  | .wake =>
    obtain ⟨hc, h⟩ := Option.ite_none_right_eq_some.mp h
    obtain rfl := Option.some.inj h
    have h7 := hi.cleaner (by simp [hc]) (by simp [hc])
    have htorn := hi.tornDown
    split_ifs with hwg
    · exact hi.clean (by simp [hc]) (fun _ ↦ h7) nofun (by simpa [hc] using htorn)
    · exact hi.crash (.inr ⟨.inl rfl, hi.closed_eq h7⟩)
  | .misuse =>
    obtain ⟨⟨hc, -⟩, h⟩ := Option.ite_none_right_eq_some.mp h
    obtain rfl := Option.some.inj h
    have h7 := hi.cleaner (by simp [hc]) (by simp [hc])
    exact hi.crash (.inr ⟨.inr rfl, hi.closed_eq h7⟩)
  | .tearDown =>
    obtain ⟨hc, h⟩ := Option.ite_none_right_eq_some.mp h
    obtain rfl := Option.some.inj h
    have h7 := hi.cleaner (by simp [hc]) (by simp [hc])
    have htorn := hi.tornDown
    exact hi.clean (by simp [hc]) (fun _ ↦ h7) nofun (by simp [htorn, hc])
  | .push =>
    obtain ⟨-, h⟩ := Option.ite_none_right_eq_some.mp h
    obtain rfl := Option.some.inj h
    exact ⟨⟨hi.interrupted, hi.closed, hi.count, hi.cleaner, hi.tornDown⟩, hi.waiting, hi.returned,
      hi.panic⟩
  | .shutDown r =>
    obtain ⟨hdone, h⟩ := Option.ite_none_left_eq_some.mp h
    exact hi.receive (by simpa using hdone) h

theorem inv_of_run (h : system.Run ls s) : s.Inv := by
  refine h.invariant ?_ fun s a s' hi hstep ↦ hi.step hstep
  rintro _ ⟨state, rfl⟩
  exact new_inv state

/-- The crash is possible: a header has been read, and the connection is closed before the data is
asked for. -/
theorem panic_of_late_read : ∃ s, system.Run ([.read .register, .read .loop, .read .call,
      .send .register, .push, .send .receive, .send .error, .send .leave, .firstError,
      .read (.header true)] ++ List.replicate 7 .interrupt ++ [.read .call]) s ∧
    s.panic = some .nilReader := by
  obtain ⟨s, hr, hs⟩ := TransitionSystem.exists_run_from (S := system) (fun _ _ _ ↦ id)
    (s := new .handshake)
    (l := [.read .register, .read .loop, .read .call, .send .register, .push, .send .receive,
      .send .error, .send .leave, .firstError, .read (.header true)] ++
      List.replicate 7 .interrupt ++ [.read .call])
    (p := fun s ↦ s.panic = some .nilReader) ⟨.handshake, rfl⟩ (by decide +kernel)
  exact ⟨s, hr, of_decide_eq_true hs⟩

/-- And so is the other one: the goroutine of the ping response timer gets to its `wg.Add(1)` after
the last actor was woken and before it goes on. -/
theorem panic_of_late_add : ∃ s, system.Run ([.wait, .read .register, .read .loop, .read .call,
      .read .error, .read .leave, .firstError] ++ List.replicate 7 .interrupt ++
      [.pong .register, .wake]) s ∧
    s.panic = some .waitGroupReused := by
  obtain ⟨s, hr, hs⟩ := TransitionSystem.exists_run_from (S := system) (fun _ _ _ ↦ id)
    (s := new .handshake)
    (l := [.wait, .read .register, .read .loop, .read .call, .read .error, .read .leave,
      .firstError] ++ List.replicate 7 .interrupt ++ [.pong .register, .wake])
    (p := fun s ↦ s.panic = some .waitGroupReused) ⟨.handshake, rfl⟩ (by decide +kernel)
  exact ⟨s, hr, of_decide_eq_true hs⟩

/-! ## The end

When everything is closed, an actor can go on wherever it is, and each step but a tick brings it
nearer to its end. -/

/-- The steps that come from a tick. -/
def extra : Step → ℕ
  | .ping a => PingTask.worker.extra a
  | .pong a => PongTask.worker.extra a
  | _ => 0

@[simp] theorem wakeUp_panic (s : Lifecycle) : s.wakeUp.panic = s.panic := by
  rw [wakeUp]
  split_ifs <;> rfl

end Lifecycle
end ClusteredBigCache
