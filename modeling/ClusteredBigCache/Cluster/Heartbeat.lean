import ClusteredBigCache.Lib.TransitionSystem
import ClusteredBigCache.Ttl.Manager

/-!
# Pings

On each connection one goroutine sends a ping at every tick of a ticker, and arms the timer
`pingTimeout` before it does; another one waits for that timer and counts in `pingFailure` how often
it has fired; and `handlePong` stops the timer and sets the counter back to zero.  When the counter
reaches a threshold, the second goroutine gives the connection up.

None of the three takes a lock.  `Heartbeat` is what they share, and `Heartbeat.step` is one
operation of one of them on it, or the clock going on, or the runtime firing the ticker or the
timer.  Both channels have room for one token.  The timer is `nil` until the second goroutine has
made it, and whoever uses it before that crashes.

`failures_le_pings` makes no assumption about time: however the operations are interleaved and
however late they come, the counter is at most three more than the number of pings that were sent
since a pong was last handled.  `Cluster.PingTiming` is about goroutines that are on time.

The counters of `metrics`, which nothing reads, and the logging are left out.
-/

set_option autoImplicit false

namespace ClusteredBigCache

/-! ## Configuration -/

/-- What `remoteNodeConfig` says about pings; the two durations are in seconds. -/
structure PingConfig where
  pingFailureThreshHold : Int32
  pingInterval : Int64
  pingTimeout : Int64
  deriving DecidableEq, Repr

namespace PingConfig

/-- `checkConfig`: sensible defaults. -/
def checkConfig (config : PingConfig) : PingConfig where
  pingInterval := if config.pingInterval < 1 then 5 else config.pingInterval
  pingTimeout := if config.pingTimeout < 1 then 3 else config.pingTimeout
  pingFailureThreshHold :=
    if config.pingFailureThreshHold = 0 then 5 else config.pingFailureThreshHold

/-- `time.Second * time.Duration(config.PingInterval)`, in nanoseconds. -/
def interval (config : PingConfig) : ℤ := (1000000000 * config.pingInterval).toInt

/-- `time.Second * time.Duration(config.PingTimeout)`, in nanoseconds. -/
def timeout (config : PingConfig) : ℤ := (1000000000 * config.pingTimeout).toInt

/-- How many failures it takes: one is needed in any case. -/
def limit (config : PingConfig) : ℤ := max 1 config.pingFailureThreshHold.toInt

/-- The durations can be computed without overflow. -/
def Fits (config : PingConfig) : Prop :=
  config.pingInterval ≤ 9223372036 ∧ config.pingTimeout ≤ 9223372036

instance (config : PingConfig) : Decidable config.Fits := inferInstanceAs (Decidable (_ ∧ _))

theorem toInt_seconds {n : Int64} (h1 : 1 ≤ n) (h2 : n ≤ 9223372036) :
    (1000000000 * n).toInt = 10 ^ 9 * n.toInt := by
  have h1 : 1 ≤ n.toInt := Int64.le_iff_toInt_le.mp h1
  have h2 : n.toInt ≤ 9223372036 := Int64.le_iff_toInt_le.mp h2
  rw [Int64.toInt_mul, show (1000000000 : Int64).toInt = 10 ^ 9 from rfl]
  refine Int.bmod_eq_of_le ?_ ?_ <;> omega

variable (config : PingConfig)

theorem one_le_checkConfig :
    1 ≤ config.checkConfig.pingInterval ∧ 1 ≤ config.checkConfig.pingTimeout := by
  simp only [checkConfig]
  constructor <;> split_ifs with h <;> first | decide | exact Int64.not_lt.mp h

variable {config}

theorem interval_eq (h : config.checkConfig.Fits) :
    config.checkConfig.interval = 10 ^ 9 * config.checkConfig.pingInterval.toInt :=
  toInt_seconds config.one_le_checkConfig.1 h.1

theorem timeout_eq (h : config.checkConfig.Fits) :
    config.checkConfig.timeout = 10 ^ 9 * config.checkConfig.pingTimeout.toInt :=
  toInt_seconds config.one_le_checkConfig.2 h.2

theorem interval_pos (h : config.checkConfig.Fits) : 0 < config.checkConfig.interval := by
  have h1 : 1 ≤ config.checkConfig.pingInterval.toInt :=
    Int64.le_iff_toInt_le.mp config.one_le_checkConfig.1
  rw [interval_eq h]
  omega

theorem timeout_pos (h : config.checkConfig.Fits) : 0 < config.checkConfig.timeout := by
  have h1 : 1 ≤ config.checkConfig.pingTimeout.toInt :=
    Int64.le_iff_toInt_le.mp config.one_le_checkConfig.2
  rw [timeout_eq h]
  omega

theorem timeout_lt_interval_iff (h : config.checkConfig.Fits) :
    config.checkConfig.timeout < config.checkConfig.interval ↔
      config.checkConfig.pingTimeout < config.checkConfig.pingInterval := by
  rw [interval_eq h, timeout_eq h, Int64.lt_iff_toInt_lt]
  omega

theorem interval_lt_timeout_iff (h : config.checkConfig.Fits) :
    config.checkConfig.interval < config.checkConfig.timeout ↔
      config.checkConfig.pingInterval < config.checkConfig.pingTimeout := by
  rw [interval_eq h, timeout_eq h, Int64.lt_iff_toInt_lt]
  omega

end PingConfig

/-! ## Timers

`Stop` and `Reset` leave a token that is in the channel where it is.  `halt` and `restart` are these
two for a timer that several goroutines use. -/

/-- `Reset` of a timer of the Go runtime. -/
def Timer.restart (t : Timer) (now : ℕ) (d : ℤ) : Timer := { t with active := true, due := now + d }

/-- `Stop`, which returns whether the timer was active. -/
def Timer.halt (t : Timer) : Timer := { t with active := false }

/-- A ticker of the Go runtime. -/
structure Ticker where
  period : ℤ
  /-- When the runtime will fire it next. -/
  due : ℤ
  /-- There is a token in the channel. -/
  fired : Bool
  /-- Ghost: when the tick that the token stands for was due. -/
  stamp : ℤ
  deriving DecidableEq, Repr

namespace Ticker

/-- `time.NewTicker(d)`. -/
def new (now : ℕ) (d : ℤ) : Ticker := ⟨d, now + d, false, now⟩

/-- The runtime fires the ticker: ticks that were missed are skipped, and a token that does not fit
into the channel is dropped. -/
def fire (t : Ticker) (now : ℕ) : Ticker where
  period := t.period
  due := t.due + t.period * (1 + (now - t.due) / t.period)
  fired := true
  stamp := if t.fired then t.stamp else t.due

/-- The token is taken out of the channel. -/
def receive (t : Ticker) : Ticker := { t with fired := false }

end Ticker

/-! ## The goroutines -/

/-- Where the goroutine of the ping timer is. -/
inductive Pinger
  /-- Before `NewTicker`. -/
  | starting
  /-- Before a ping is sent. -/
  | sending
  /-- In the `select`. -/
  | waiting
  /-- It has received a tick, and is before `pingTimeout.Stop`. -/
  | stopping
  /-- `Stop` has returned false, and it is before the channel is drained. -/
  | draining
  /-- Before `pingTimeout.Reset`. -/
  | resetting
  | ended
  deriving DecidableEq, Repr

/-- Where the goroutine of the ping response timer is. -/
inductive Monitor
  /-- Before `NewTimer`. -/
  | starting
  /-- In the `select`. -/
  | waiting
  /-- It has received a token, and is before `atomic.AddInt32`. -/
  | counting
  /-- Before the counter is compared with the threshold. -/
  | comparing
  /-- The counter has reached the threshold, and it is before `pingTimeout.Stop`. -/
  | halting
  /-- It has returned because of the fault. -/
  | gaveUp
  /-- It has returned because the connection is being closed. -/
  | ended
  deriving DecidableEq, Repr

/-- Where `handlePong` is. -/
inductive PongHandler
  | idle
  | stopping
  | draining
  /-- Before the counter is set to zero. -/
  | storing
  deriving DecidableEq, Repr

/-- The goroutines, and what they share. -/
structure Heartbeat where
  now : ℕ
  /-- `nil` until it is made. -/
  pingTimer : Option Ticker
  pingTimeout : Option Timer
  pingFailure : Int32
  pinger : Pinger
  monitor : Monitor
  handler : PongHandler
  crashed : Bool
  /-- Ghost: when the last ping was sent. -/
  pinged : ℕ
  /-- Ghost: when the tick that was last received was due. -/
  ticked : ℤ

namespace Heartbeat

/-- What can happen. -/
inductive Step
  /-- The clock goes on. -/
  | clock (now : ℕ)
  /-- The runtime fires the ticker. -/
  | fireTicker
  /-- The runtime fires the timer. -/
  | fireTimeout
  | newTicker
  /-- A ping is sent. -/
  | ping
  /-- The first goroutine receives a tick. -/
  | tick
  | stop
  | drain
  | reset
  | closePinger
  | newTimer
  /-- The second goroutine receives a token. -/
  | timeout
  | count
  | compare
  | halt
  | closeMonitor
  /-- `handlePong` is called. -/
  | pong
  | pongStop
  | pongDrain
  /-- `handlePong` sets the counter to zero and returns. -/
  | store
  deriving DecidableEq, Repr

/-- The operations that use the timer, and `NewTicker`. -/
def Step.mayCrash : Step → Bool
  | .newTicker | .stop | .drain | .reset | .halt | .pongStop | .pongDrain => true
  | _ => false

/-- Nothing has been done yet. -/
def new (now : ℕ) : Heartbeat where
  now := now
  pingTimer := none
  pingTimeout := none
  pingFailure := 0
  pinger := .starting
  monitor := .starting
  handler := .idle
  crashed := false
  pinged := now
  ticked := now

/-- Use the timer, which may be `nil`. -/
def withTimeout (s : Heartbeat) (f : Timer → Heartbeat) : Heartbeat :=
  match s.pingTimeout with
  | none => { s with crashed := true }
  | some t => f t

/-- One operation. -/
def act (config : PingConfig) (s : Heartbeat) : Step → Option Heartbeat
  | .clock now => if s.now ≤ now then some { s with now := now } else none
  | .fireTicker =>
    match s.pingTimer with
    | some t => if t.due ≤ s.now then some { s with pingTimer := some (t.fire s.now) } else none
    | none => none
  | .fireTimeout =>
    match s.pingTimeout with
    | some t =>
      if t.active ∧ t.due ≤ s.now then some { s with pingTimeout := some t.fire } else none
    | none => none
  | .newTicker =>
    if s.pinger = .starting then
      -- `NewTicker` panics unless the duration is positive
      if config.interval ≤ 0 then some { s with crashed := true }
      else some { s with pingTimer := some (.new s.now config.interval), pinger := .sending }
    else none
  | .ping =>
    if s.pinger = .sending then some { s with pinger := .waiting, pinged := s.now } else none
  | .tick =>
    match s.pingTimer with
    | some t =>
      if s.pinger = .waiting ∧ t.fired then
        some { s with pingTimer := some t.receive, pinger := .stopping, ticked := t.stamp }
      else none
    | none => none
  | .stop =>
    if s.pinger = .stopping then
      some (s.withTimeout fun t ↦ { s with
        pingTimeout := some t.halt
        pinger := if t.active then .resetting else .draining })
    else none
  | .drain =>
    if s.pinger = .draining then
      some (s.withTimeout fun t ↦ { s with pingTimeout := some t.receive, pinger := .resetting })
    else none
  | .reset =>
    if s.pinger = .resetting then
      some (s.withTimeout fun t ↦ { s with
        pingTimeout := some (t.restart s.now config.timeout)
        pinger := .sending })
    else none
  | .closePinger => if s.pinger = .waiting then some { s with pinger := .ended } else none
  | .newTimer =>
    if s.monitor = .starting then
      some { s with pingTimeout := some (.new s.now config.timeout), monitor := .waiting }
    else none
  | .timeout =>
    match s.pingTimeout with
    | some t =>
      if s.monitor = .waiting ∧ t.fired then
        some { s with pingTimeout := some t.receive, monitor := .counting }
      else none
    | none => none
  | .count =>
    if s.monitor = .counting then
      some { s with pingFailure := s.pingFailure + 1, monitor := .comparing }
    else none
  | .compare =>
    if s.monitor = .comparing then
      some { s with
        monitor := if config.pingFailureThreshHold ≤ s.pingFailure then .halting else .waiting }
    else none
  | .halt =>
    if s.monitor = .halting then
      some (s.withTimeout fun t ↦ { s with pingTimeout := some t.halt, monitor := .gaveUp })
    else none
  | .closeMonitor => if s.monitor = .waiting then some { s with monitor := .ended } else none
  | .pong => if s.handler = .idle then some { s with handler := .stopping } else none
  | .pongStop =>
    if s.handler = .stopping then
      some (s.withTimeout fun t ↦ { s with
        pingTimeout := some t.halt
        handler := if t.active then .storing else .draining })
    else none
  | .pongDrain =>
    if s.handler = .draining then
      some (s.withTimeout fun t ↦ { s with pingTimeout := some t.receive, handler := .storing })
    else none
  | .store =>
    if s.handler = .storing then some { s with pingFailure := 0, handler := .idle } else none

def step (config : PingConfig) (s : Heartbeat) (a : Step) : Option Heartbeat :=
  if s.crashed then none else s.act config a

/-- The goroutines of a connection that has just been started. -/
def system (config : PingConfig) : TransitionSystem Heartbeat Step :=
  .ofStep (fun s ↦ ∃ now, s = new now) (step config.checkConfig)

/-- The pings that were sent since a pong was last handled. -/
def unanswered (ls : List Step) : ℕ :=
  ls.foldl (fun n a ↦ match a with
    | .ping => n + 1
    | .store => 0
    | _ => n) 0

@[simp]
theorem unanswered_ping (ls : List Step) : unanswered (ls ++ [.ping]) = unanswered ls + 1 := by
  rw [unanswered, List.foldl_append]
  rfl

@[simp]
theorem unanswered_store (ls : List Step) : unanswered (ls ++ [.store]) = 0 := by
  rw [unanswered, List.foldl_append]
  rfl

@[simp]
theorem unanswered_append (ls : List Step) {a : Step} (hping : a ≠ .ping) (hstore : a ≠ .store) :
    unanswered (ls ++ [a]) = unanswered ls := by
  rw [unanswered, List.foldl_append, List.foldl_cons, List.foldl_nil]
  split
  · exact absurd rfl hping
  · exact absurd rfl hstore
  · rfl

/-! ## What the operations do

`Outcome` has a case for every operation, with its guard.  The invariants below are proved by going
through it, and `step` is not unfolded again. -/

/-- A goroutine is about to use the timer. -/
def UsesTimer (s : Heartbeat) : Prop :=
  s.pinger = .stopping ∨ s.pinger = .draining ∨ s.pinger = .resetting ∨ s.monitor = .halting ∨
    s.handler = .stopping ∨ s.handler = .draining

/-- Everything an operation can do. -/
inductive Outcome (config : PingConfig) (s : Heartbeat) : Step → Heartbeat → Prop
  | clock {now : ℕ} (hnow : s.now ≤ now) : Outcome config s (.clock now) { s with now := now }
  | fireTicker {t : Ticker} (ht : s.pingTimer = some t) (hdue : t.due ≤ s.now) :
      Outcome config s .fireTicker { s with pingTimer := some (t.fire s.now) }
  | fireTimeout {t : Timer} (ht : s.pingTimeout = some t) (hactive : t.active = true)
      (hdue : t.due ≤ s.now) : Outcome config s .fireTimeout { s with pingTimeout := some t.fire }
  | newTicker (hp : s.pinger = .starting) (hpos : 0 < config.interval) :
      Outcome config s .newTicker
        { s with pingTimer := some (.new s.now config.interval), pinger := .sending }
  | ping (hp : s.pinger = .sending) :
      Outcome config s .ping { s with pinger := .waiting, pinged := s.now }
  | tick {t : Ticker} (ht : s.pingTimer = some t) (hp : s.pinger = .waiting)
      (hfired : t.fired = true) : Outcome config s .tick
        { s with pingTimer := some t.receive, pinger := .stopping, ticked := t.stamp }
  | stop {t : Timer} (ht : s.pingTimeout = some t) (hp : s.pinger = .stopping) :
      Outcome config s .stop { s with
        pingTimeout := some t.halt
        pinger := if t.active then .resetting else .draining }
  | drain {t : Timer} (ht : s.pingTimeout = some t) (hp : s.pinger = .draining) :
      Outcome config s .drain { s with pingTimeout := some t.receive, pinger := .resetting }
  | reset {t : Timer} (ht : s.pingTimeout = some t) (hp : s.pinger = .resetting) :
      Outcome config s .reset
        { s with pingTimeout := some (t.restart s.now config.timeout), pinger := .sending }
  | closePinger (hp : s.pinger = .waiting) :
      Outcome config s .closePinger { s with pinger := .ended }
  | newTimer (hm : s.monitor = .starting) : Outcome config s .newTimer
      { s with pingTimeout := some (.new s.now config.timeout), monitor := .waiting }
  | timeout {t : Timer} (ht : s.pingTimeout = some t) (hm : s.monitor = .waiting)
      (hfired : t.fired = true) :
      Outcome config s .timeout { s with pingTimeout := some t.receive, monitor := .counting }
  | count (hm : s.monitor = .counting) : Outcome config s .count
      { s with pingFailure := s.pingFailure + 1, monitor := .comparing }
  | goOn (hm : s.monitor = .comparing) (hlt : s.pingFailure < config.pingFailureThreshHold) :
      Outcome config s .compare { s with monitor := .waiting }
  | giveUp (hm : s.monitor = .comparing) (hle : config.pingFailureThreshHold ≤ s.pingFailure) :
      Outcome config s .compare { s with monitor := .halting }
  | halt {t : Timer} (ht : s.pingTimeout = some t) (hm : s.monitor = .halting) :
      Outcome config s .halt { s with pingTimeout := some t.halt, monitor := .gaveUp }
  | closeMonitor (hm : s.monitor = .waiting) :
      Outcome config s .closeMonitor { s with monitor := .ended }
  | pong (hh : s.handler = .idle) : Outcome config s .pong { s with handler := .stopping }
  | pongStop {t : Timer} (ht : s.pingTimeout = some t) (hh : s.handler = .stopping) :
      Outcome config s .pongStop { s with
        pingTimeout := some t.halt
        handler := if t.active then .storing else .draining }
  | pongDrain {t : Timer} (ht : s.pingTimeout = some t) (hh : s.handler = .draining) :
      Outcome config s .pongDrain { s with pingTimeout := some t.receive, handler := .storing }
  | store (hh : s.handler = .storing) :
      Outcome config s .store { s with pingFailure := 0, handler := .idle }
  | crash {a : Step} (ha : a.mayCrash = true)
      (hcause : config.interval ≤ 0 ∨ s.pingTimeout = none ∧ s.UsesTimer) :
      Outcome config s a { s with crashed := true }

section

variable {config : PingConfig} {s s' : Heartbeat} {a : Step} {ls : List Step}

/-- Using the timer, or a crash. -/
theorem outcome_withTimeout {f : Timer → Heartbeat} (h : some (s.withTimeout f) = some s')
    (ha : a.mayCrash = true) (huses : s.UsesTimer)
    (hf : ∀ t, s.pingTimeout = some t → Outcome config s a (f t)) : Outcome config s a s' := by
  obtain rfl := Option.some.inj h
  rw [withTimeout]
  split
  · next ht => exact .crash ha (.inr ⟨ht, huses⟩)
  · next t ht => exact hf t ht

/-- **An operation does one of these.** -/
theorem step_outcome (h : s.step config a = some s') : Outcome config s a s' := by
  rw [step] at h
  split_ifs at h
  unfold act at h
  match a with
  | .clock now =>
    obtain ⟨hnow, h⟩ := Option.ite_none_right_eq_some.mp h
    exact Option.some.inj h ▸ .clock hnow
  | .fireTicker =>
    dsimp only at h
    split at h
    · next t ht =>
      obtain ⟨hdue, h⟩ := Option.ite_none_right_eq_some.mp h
      exact Option.some.inj h ▸ .fireTicker ht hdue
    · exact absurd h (by simp)
  | .fireTimeout =>
    dsimp only at h
    split at h
    · next t ht =>
      obtain ⟨⟨hactive, hdue⟩, h⟩ := Option.ite_none_right_eq_some.mp h
      exact Option.some.inj h ▸ .fireTimeout ht hactive hdue
    · exact absurd h (by simp)
  | .newTicker =>
    obtain ⟨hp, h⟩ := Option.ite_none_right_eq_some.mp h
    split_ifs at h with hpos
    · exact Option.some.inj h ▸ .crash rfl (.inl hpos)
    · exact Option.some.inj h ▸ .newTicker hp (not_le.mp hpos)
  | .ping =>
    obtain ⟨hp, h⟩ := Option.ite_none_right_eq_some.mp h
    exact Option.some.inj h ▸ .ping hp
  | .tick =>
    dsimp only at h
    split at h
    · next t ht =>
      obtain ⟨⟨hp, hfired⟩, h⟩ := Option.ite_none_right_eq_some.mp h
      exact Option.some.inj h ▸ .tick ht hp hfired
    · exact absurd h (by simp)
  | .stop =>
    obtain ⟨hp, h⟩ := Option.ite_none_right_eq_some.mp h
    exact outcome_withTimeout h rfl (by simp [UsesTimer, hp]) fun t ht ↦ .stop ht hp
  | .drain =>
    obtain ⟨hp, h⟩ := Option.ite_none_right_eq_some.mp h
    exact outcome_withTimeout h rfl (by simp [UsesTimer, hp]) fun t ht ↦ .drain ht hp
  | .reset =>
    obtain ⟨hp, h⟩ := Option.ite_none_right_eq_some.mp h
    exact outcome_withTimeout h rfl (by simp [UsesTimer, hp]) fun t ht ↦ .reset ht hp
  | .closePinger =>
    obtain ⟨hp, h⟩ := Option.ite_none_right_eq_some.mp h
    exact Option.some.inj h ▸ .closePinger hp
  | .newTimer =>
    obtain ⟨hm, h⟩ := Option.ite_none_right_eq_some.mp h
    exact Option.some.inj h ▸ .newTimer hm
  | .timeout =>
    dsimp only at h
    split at h
    · next t ht =>
      obtain ⟨⟨hm, hfired⟩, h⟩ := Option.ite_none_right_eq_some.mp h
      exact Option.some.inj h ▸ .timeout ht hm hfired
    · exact absurd h (by simp)
  | .count =>
    obtain ⟨hm, h⟩ := Option.ite_none_right_eq_some.mp h
    exact Option.some.inj h ▸ .count hm
  | .compare =>
    obtain ⟨hm, h⟩ := Option.ite_none_right_eq_some.mp h
    split_ifs at h with hle
    · exact Option.some.inj h ▸ .giveUp hm hle
    · exact Option.some.inj h ▸ .goOn hm (Int32.not_le.mp hle)
  | .halt =>
    obtain ⟨hm, h⟩ := Option.ite_none_right_eq_some.mp h
    exact outcome_withTimeout h rfl (by simp [UsesTimer, hm]) fun t ht ↦ .halt ht hm
  | .closeMonitor =>
    obtain ⟨hm, h⟩ := Option.ite_none_right_eq_some.mp h
    exact Option.some.inj h ▸ .closeMonitor hm
  | .pong =>
    obtain ⟨hh, h⟩ := Option.ite_none_right_eq_some.mp h
    exact Option.some.inj h ▸ .pong hh
  | .pongStop =>
    obtain ⟨hh, h⟩ := Option.ite_none_right_eq_some.mp h
    exact outcome_withTimeout h rfl (by simp [UsesTimer, hh]) fun t ht ↦ .pongStop ht hh
  | .pongDrain =>
    obtain ⟨hh, h⟩ := Option.ite_none_right_eq_some.mp h
    exact outcome_withTimeout h rfl (by simp [UsesTimer, hh]) fun t ht ↦ .pongDrain ht hh
  | .store =>
    obtain ⟨hh, h⟩ := Option.ite_none_right_eq_some.mp h
    exact Option.some.inj h ▸ .store hh

/-! ## The timer -/

/-- What the operations keep about the timer, in any order. -/
structure Sound (s : Heartbeat) : Prop where
  starting : s.monitor = .starting ↔ s.pingTimeout = none
  /-- A timer that is armed has no token in its channel. -/
  drained : ∀ t, s.pingTimeout = some t → t.active = true → t.fired = false
  /-- A timer that is about to be drained is not armed. -/
  draining : s.pinger = .draining → ∃ t, s.pingTimeout = some t ∧ t.active = false
  /-- A timer that is about to be armed is not armed, and drained. -/
  resetting : s.pinger = .resetting →
    ∃ t, s.pingTimeout = some t ∧ t.active = false ∧ t.fired = false

/-- A state with a timer. -/
theorem sound_of_timer {t : Timer} (ht : s.pingTimeout = some t) (hmonitor : s.monitor ≠ .starting)
    (hdrained : t.active = true → t.fired = false)
    (hdraining : s.pinger = .draining → t.active = false)
    (hresetting : s.pinger = .resetting → t.active = false ∧ t.fired = false) : s.Sound where
  starting := ⟨fun h ↦ absurd h hmonitor, fun h ↦ by simp [ht] at h⟩
  drained t₁ ht₁ := Option.some.inj (ht.symm.trans ht₁) ▸ hdrained
  draining hp := ⟨t, ht, hdraining hp⟩
  resetting hp := ⟨t, ht, hresetting hp⟩

theorem Sound.monitor_ne (hs : s.Sound) {t : Timer} (ht : s.pingTimeout = some t) :
    s.monitor ≠ .starting := fun h ↦ by simp [hs.starting.mp h] at ht

theorem Sound.active_of_draining (hs : s.Sound) {t : Timer} (ht : s.pingTimeout = some t)
    (hp : s.pinger = .draining) : t.active = false := by
  obtain ⟨t₁, ht₁, hactive⟩ := hs.draining hp
  exact Option.some.inj (ht₁.symm.trans ht) ▸ hactive

theorem Sound.idle_of_resetting (hs : s.Sound) {t : Timer} (ht : s.pingTimeout = some t)
    (hp : s.pinger = .resetting) : t.active = false ∧ t.fired = false := by
  obtain ⟨t₁, ht₁, hidle⟩ := hs.resetting hp
  exact Option.some.inj (ht₁.symm.trans ht) ▸ hidle

/-- Stopping or draining the timer, or taking a token from it. -/
theorem Sound.weaken (hs : s.Sound) {t u : Timer} (ht : s.pingTimeout = some t)
    (hactive : t.active = false → u.active = false) (hfired : t.fired = false → u.fired = false)
    (hdrained : u.active = true → u.fired = false) (hpinger : s'.pinger = s.pinger)
    (hmonitor : s'.monitor ≠ .starting) (htimer : s'.pingTimeout = some u) : s'.Sound := by
  refine sound_of_timer htimer hmonitor hdrained (fun hp ↦ ?_) fun hp ↦ ?_
  · exact hactive (hs.active_of_draining ht (hpinger ▸ hp))
  · obtain ⟨h₁, h₂⟩ := hs.idle_of_resetting ht (hpinger ▸ hp)
    exact ⟨hactive h₁, hfired h₂⟩

/-- What does not concern the timer. -/
theorem Sound.congr (hs : s.Sound) (hmonitor : s'.monitor = .starting ↔ s.monitor = .starting)
    (htimer : s'.pingTimeout = s.pingTimeout)
    (hdraining : s'.pinger = .draining → s.pinger = .draining)
    (hresetting : s'.pinger = .resetting → s.pinger = .resetting) : s'.Sound where
  starting := by rw [hmonitor, htimer, hs.starting]
  drained := by rw [htimer]; exact hs.drained
  draining hp := by rw [htimer]; exact hs.draining (hdraining hp)
  resetting hp := by rw [htimer]; exact hs.resetting (hresetting hp)

theorem Sound.step (hs : s.Sound) (ho : Outcome config s a s') : s'.Sound := by
  cases ho with
  | clock | fireTicker | pong | store | crash => exact hs.congr .rfl rfl id id
  | newTicker | ping | tick | closePinger => exact hs.congr .rfl rfl (by simp) (by simp)
  | count hm | goOn hm | giveUp hm | closeMonitor hm => exact hs.congr (by simp [hm]) rfl id id
  | fireTimeout ht hactive =>
    refine sound_of_timer rfl (hs.monitor_ne ht) (by simp [Timer.fire]) (fun _ ↦ rfl) fun hp ↦ ?_
    simp [(hs.idle_of_resetting ht hp).1] at hactive
  | @stop t ht =>
    refine sound_of_timer rfl (hs.monitor_ne ht) (by simp [Timer.halt]) (fun _ ↦ rfl) fun hp ↦ ?_
    have hactive : t.active = true := by
      by_contra hactive
      simp [hactive] at hp
    exact ⟨rfl, hs.drained t ht hactive⟩
  | @drain t ht hp =>
    have hactive := hs.active_of_draining ht hp
    exact sound_of_timer (t := t.receive) rfl (hs.monitor_ne ht) (fun _ ↦ rfl) (fun _ ↦ hactive)
      fun _ ↦ ⟨hactive, rfl⟩
  | reset ht hp =>
    exact sound_of_timer rfl (hs.monitor_ne ht) (fun _ ↦ (hs.idle_of_resetting ht hp).2) (by simp)
      (by simp)
  | newTimer hm =>
    have hnone := hs.starting.mp hm
    refine sound_of_timer rfl (by simp) (fun _ ↦ rfl) (fun hp ↦ ?_) fun hp ↦ ?_
    · obtain ⟨t, ht, -⟩ := hs.draining hp
      simp [hnone] at ht
    · obtain ⟨t, ht, -⟩ := hs.resetting hp
      simp [hnone] at ht
  | @timeout t ht =>
    exact hs.weaken (u := t.receive) ht id (fun _ ↦ rfl) (fun _ ↦ rfl) rfl (by simp) rfl
  | @halt t ht =>
    exact hs.weaken (u := t.halt) ht (fun _ ↦ rfl) id (by simp [Timer.halt]) rfl (by simp) rfl
  | @pongStop t ht =>
    refine hs.weaken (u := t.halt) ht (fun _ ↦ rfl) id ?_ rfl (hs.monitor_ne ht) rfl
    simp [Timer.halt]
  | @pongDrain t ht =>
    exact hs.weaken (u := t.receive) ht id (fun _ ↦ rfl) (fun _ ↦ rfl) rfl (hs.monitor_ne ht) rfl

theorem new_sound (now : ℕ) : (new now).Sound := ⟨by simp [new], by simp [new], by simp [new], by
  simp [new]⟩

/-! ## The counter, whatever the order

A failure that was counted, a token that was received and not counted, and a timer that is armed or
has fired each stand for one ping.  `Counted` adds them up: they exceed the pings since the last
pong by two at most, and by one more when the timer was armed for a ping that is yet to be sent. -/

/-- The second goroutine can count one more failure. -/
def Watching (s : Heartbeat) : Prop :=
  s.monitor = .starting ∨ s.monitor = .waiting ∨ s.monitor = .counting

/-- The second goroutine has received a token that it has not counted. -/
def held (s : Heartbeat) : ℤ := if s.monitor = .counting then 1 else 0

/-- The timer will fire, or its token is in the channel. -/
def armed (s : Heartbeat) : ℤ :=
  match s.pingTimeout with
  | none => 0
  | some t => if t.active ∨ t.fired then 1 else 0

/-- The timer has been armed for a ping that is not sent. -/
def unsent (s : Heartbeat) : ℤ := if s.pinger = .sending then 1 else 0

theorem armed_mem (s : Heartbeat) : 0 ≤ s.armed ∧ s.armed ≤ 1 := by
  rw [armed]
  split
  · decide
  · split_ifs <;> decide

theorem held_mem (s : Heartbeat) : 0 ≤ s.held ∧ s.held ≤ 1 := by
  rw [held]
  split_ifs <;> decide

theorem unsent_mem (s : Heartbeat) : 0 ≤ s.unsent ∧ s.unsent ≤ 1 := by
  rw [unsent]
  split_ifs <;> decide

/-- What the operations keep about the counter. -/
structure Counted (config : PingConfig) (ls : List Step) (s : Heartbeat) : Prop where
  nonneg : 0 ≤ s.pingFailure.toInt
  le_limit : s.pingFailure.toInt ≤ config.limit
  lt_limit : s.Watching → s.pingFailure.toInt < config.limit
  zero : s.monitor = .starting → s.pingFailure = 0
  /-- Every failure is that of a ping since the last pong, or one of two before that. -/
  le_unanswered : s.pingFailure.toInt + s.held + s.armed ≤ 2 + unanswered ls + s.unsent

theorem limit_pos (config : PingConfig) : 0 < config.limit :=
  lt_of_lt_of_le one_pos (le_max_left _ _)

theorem toInt_add_one {n : Int32} (h0 : 0 ≤ n.toInt) (h : n.toInt < config.limit) :
    (n + 1).toInt = n.toInt + 1 := by
  have hlt := Int32.toInt_lt config.pingFailureThreshHold
  have hmax : config.limit ≤ 2 ^ 31 - 1 := max_le (by norm_num) (by omega)
  rw [Int32.toInt_add, show (1 : Int32).toInt = 1 from rfl]
  refine Int.bmod_eq_of_le ?_ ?_ <;> omega

theorem new_counted (config : PingConfig) (now : ℕ) : Counted config [] (new now) where
  nonneg := le_rfl
  le_limit := (limit_pos config).le
  lt_limit _ := limit_pos config
  zero _ := rfl
  le_unanswered := by simp [new, held, armed, unsent, unanswered]

/-- What does not change the counter. -/
theorem Counted.keep {ls' : List Step} (hc : Counted config ls s)
    (hfailure : s'.pingFailure = s.pingFailure) (hwatching : s'.Watching → s.Watching)
    (hstarting : s'.monitor = .starting → s.monitor = .starting)
    (hle : s'.held + s'.armed + unanswered ls + s.unsent ≤
      s.held + s.armed + unanswered ls' + s'.unsent) : Counted config ls' s' where
  nonneg := hfailure ▸ hc.nonneg
  le_limit := hfailure ▸ hc.le_limit
  lt_limit h := hfailure ▸ hc.lt_limit (hwatching h)
  zero h := hfailure.trans (hc.zero (hstarting h))
  le_unanswered := by
    have := hc.le_unanswered
    rw [hfailure]
    omega

/-- Stopping or draining the timer. -/
theorem Counted.weaken {ls' : List Step} (hc : Counted config ls s) {t u : Timer}
    (ht : s.pingTimeout = some t) (hactive : u.active = true → t.active = true)
    (hfired : u.fired = true → t.fired = true) (htimer : s'.pingTimeout = some u)
    (hfailure : s'.pingFailure = s.pingFailure) (hunanswered : unanswered ls' = unanswered ls)
    (hunsent : s.unsent ≤ s'.unsent)
    (hmonitor : s'.monitor = s.monitor ∨ s'.monitor = .gaveUp) : Counted config ls' s' := by
  have harmed : s'.armed ≤ s.armed := by
    rw [armed, armed, ht, htimer]
    dsimp only
    split_ifs with h h'
    · exact le_rfl
    · exact absurd (h.imp hactive hfired) h'
    · decide
    · exact le_rfl
  rcases hmonitor with hmonitor | hmonitor
  · have hheld : s'.held = s.held := by rw [held, held, hmonitor]
    refine hc.keep hfailure (by simp [Watching, hmonitor]) (by simp [hmonitor]) ?_
    omega
  · have hheld : s'.held ≤ s.held := by
      rw [show s'.held = 0 by simp [held, hmonitor], held]
      split_ifs <;> decide
    refine hc.keep hfailure (by simp [Watching, hmonitor]) (by simp [hmonitor]) ?_
    omega

theorem Counted.step (hc : Counted config ls s) (hs : s.Sound) (ho : Outcome config s a s') :
    Counted config (ls ++ [a]) s' := by
  cases ho with
  | clock | fireTicker | pong =>
    refine hc.keep rfl id id ?_
    simp [held, armed, unsent]
  | crash ha =>
    refine hc.keep rfl id id ?_
    have hping : a ≠ .ping := fun h ↦ by simp [h, Step.mayCrash] at ha
    have hstore : a ≠ .store := fun h ↦ by simp [h, Step.mayCrash] at ha
    simp [hping, hstore, held, armed, unsent]
  | fireTimeout ht hactive =>
    refine hc.keep rfl id id ?_
    simp [held, armed, unsent, ht, hactive, Timer.fire]
  | newTicker hp | tick ht hp | closePinger hp =>
    refine hc.keep rfl id id ?_
    simp [held, armed, unsent, hp]
  | ping hp =>
    refine hc.keep rfl id id ?_
    simp only [held, armed, unsent, hp, unanswered_ping]
    omega
  | @stop t ht hp =>
    refine hc.weaken (u := t.halt) ht (by simp [Timer.halt]) id rfl rfl (by simp) ?_
      (.inl rfl)
    rw [show s.unsent = 0 by simp [unsent, hp]]
    exact (unsent_mem _).1
  | @drain t ht hp =>
    refine hc.weaken (u := t.receive) ht id (by simp [Timer.receive]) rfl rfl
      (by simp) ?_ (.inl rfl)
    rw [show s.unsent = 0 by simp [unsent, hp]]
    exact (unsent_mem _).1
  | @halt t ht hm =>
    exact hc.weaken (u := t.halt) ht (by simp [Timer.halt]) id rfl rfl (by simp) le_rfl
      (.inr rfl)
  | @pongStop t ht =>
    exact hc.weaken (u := t.halt) ht (by simp [Timer.halt]) id rfl rfl (by simp) le_rfl
      (.inl rfl)
  | @pongDrain t ht =>
    exact hc.weaken (u := t.receive) ht id (by simp [Timer.receive]) rfl rfl
      (by simp) le_rfl (.inl rfl)
  | reset ht hp =>
    obtain ⟨hactive, hfired⟩ := hs.idle_of_resetting ht hp
    refine hc.keep rfl id id ?_
    simp [held, armed, unsent, ht, hp, hactive, hfired, Timer.restart]
    omega
  | newTimer hm =>
    have hunsent := s.unsent_mem
    refine ⟨hc.nonneg, hc.le_limit, fun _ ↦ hc.lt_limit (.inl hm), by simp, ?_⟩
    rw [unanswered_append ls (by simp) (by simp)]
    show s.pingFailure.toInt + 0 + 1 ≤ 2 + unanswered ls + s.unsent
    rw [hc.zero hm, Int32.toInt_zero]
    omega
  | @timeout t ht hm hfired =>
    have hactive : t.active = false := by
      by_contra hactive
      simp [hs.drained t ht (by simpa using hactive)] at hfired
    refine hc.keep rfl (by simp [Watching, hm]) (by simp) ?_
    simp [held, armed, unsent, ht, hm, hactive, hfired, Timer.receive]
  | count hm =>
    have hlt := hc.lt_limit (.inr (.inr hm))
    have hadd := toInt_add_one hc.nonneg hlt
    have hun := hc.le_unanswered
    have h0 := hc.nonneg
    rw [held, if_pos hm] at hun
    refine ⟨?_, ?_, by simp [Watching], by simp, ?_⟩
    · rw [hadd]
      omega
    · rw [hadd]
      omega
    · rw [unanswered_append ls (by simp) (by simp)]
      show (s.pingFailure + 1).toInt + 0 + s.armed ≤ 2 + unanswered ls + s.unsent
      rw [hadd]
      omega
  | goOn hm hlt =>
    have hun := hc.le_unanswered
    rw [held, if_neg (by simp [hm])] at hun
    refine ⟨hc.nonneg, hc.le_limit, fun _ ↦ ?_, by simp, ?_⟩
    · exact (Int32.lt_iff_toInt_lt.mp hlt).trans_le (le_max_right _ _)
    · rw [unanswered_append ls (by simp) (by simp)]
      show s.pingFailure.toInt + 0 + s.armed ≤ 2 + unanswered ls + s.unsent
      omega
  | giveUp hm | closeMonitor hm =>
    refine hc.keep rfl (by simp [Watching]) (by simp) ?_
    simp [held, armed, unsent, hm]
  | store hh =>
    have harmed := s.armed_mem
    have hheld := s.held_mem
    have hunsent := s.unsent_mem
    refine ⟨le_rfl, (limit_pos config).le, fun _ ↦ limit_pos config, fun _ ↦ rfl, ?_⟩
    rw [unanswered_store]
    show 0 + s.held + s.armed ≤ 2 + 0 + s.unsent
    omega

theorem counted_of_run (h : (system config).Run ls s) :
    s.Sound ∧ Counted config.checkConfig ls s := by
  refine h.history_invariant (motive := fun ls s ↦ s.Sound ∧ Counted config.checkConfig ls s) ?_ ?_
  · rintro _ ⟨now, rfl⟩
    exact ⟨new_sound now, new_counted _ now⟩
  · rintro ls s a s' ⟨hs, hc⟩ hstep
    have ho := step_outcome hstep
    exact ⟨hs.step ho, hc.step hs ho⟩

/-- **However the goroutines are interleaved, and however late they are, no more failures are
counted than pings were sent since a pong was last handled, and three**: so the connection is only
given up when so many pings have no answer, whatever the threshold.  Two of the three are those a
pong that is handled at the same time comes too late for, and one is that of a ping that is not sent
before its timer fires. -/
theorem failures_le_pings (h : (system config).Run ls s) :
    0 ≤ s.pingFailure.toInt ∧ s.pingFailure.toInt ≤ config.checkConfig.limit ∧
      s.pingFailure.toInt ≤ unanswered ls + 3 ∧
      ∀ s', s.step config.checkConfig .compare = some s' → s'.monitor = .halting →
        config.checkConfig.pingFailureThreshHold.toInt ≤ unanswered ls + 3 := by
  obtain ⟨-, hc⟩ := counted_of_run h
  have hun := hc.le_unanswered
  have hheld := s.held_mem
  have harmed := s.armed_mem
  have hunsent := s.unsent_mem
  have hle : s.pingFailure.toInt ≤ unanswered ls + 3 := by omega
  refine ⟨hc.nonneg, hc.le_limit, hle, fun s' hstep hm' ↦ ?_⟩
  cases step_outcome hstep with
  | goOn => simp at hm'
  | giveUp hm hreached => exact (Int32.le_iff_toInt_le.mp hreached).trans hle
  | crash ha => simp [Step.mayCrash] at ha

/-- All three are possible: a connection is given up although every ping was answered.  The second
goroutine is late with the first timeout, the pong of the first ping takes until the second ping was
sent, and the third is not sent in time. -/
theorem failures_le_pings_answered : ∃ ls s, (system ⟨3, 5, 3⟩).Run ls s ∧ unanswered ls = 0 ∧
    s.pingFailure = 3 ∧ s.pingFailure.toInt ≤ unanswered ls + 3 := by
  obtain ⟨s, hr, hs⟩ := TransitionSystem.exists_run_from (S := system ⟨3, 5, 3⟩) (fun _ _ _ ↦ id)
    (s := new 0)
    (l := [.newTicker, .newTimer, .ping, .clock 3000000000, .fireTimeout, .timeout, .pong,
      .pongStop, .pongDrain, .clock 5000000000, .fireTicker, .tick, .stop, .drain, .reset, .ping,
      .store, .count, .compare, .clock 8000000000, .fireTimeout, .timeout, .count, .compare,
      .clock 10000000000, .fireTicker, .tick, .stop, .drain, .reset, .clock 13000000000,
      .fireTimeout, .timeout, .count])
    (p := fun s ↦ s.pingFailure = 3) ⟨0, rfl⟩ (by decide +kernel)
  exact ⟨_, s, hr, rfl, of_decide_eq_true hs, (failures_le_pings hr).2.2.1⟩

end

end Heartbeat
end ClusteredBigCache
