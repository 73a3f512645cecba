import ClusteredBigCache.Cluster.Heartbeat

/-!
# Pings on time

What the goroutines of `Cluster.Heartbeat` are for, when they are on time.

* `gives_up_iff`: when the timeout is shorter than the interval, and the runtime and the goroutines
  are `Prompt` — the clock stands still while there is something to do, and a pong is handled when
  nothing else happens —, the second goroutine gives the connection up exactly when as many pings in
  a row as the threshold says had no answer, no later than the timeout after the last of them, and
  nothing crashes.
* `never_times_out`: when the timeout is longer than the interval, every tick arms the timer again
  before it fires, as the warning of `checkConfig` says; for this the first goroutine need only be
  `InTime`, with a ticker as old as the timer and less late than the timeout is longer.

In a prompt run the first goroutine goes round a cycle that the ticker drives.  `Cycle` says which
phase of it a state is in and what the ticker then shows, `Timing` the same for the timer, the
second goroutine and the counter.
-/

set_option autoImplicit false

namespace ClusteredBigCache
namespace Heartbeat

/-! ## Prompt goroutines

The goroutines take no time here: whatever they can do, they do before the clock goes on.  The order
in which they do it is left open. -/

/-- Both goroutines wait or have returned, and there is nothing for them to receive. -/
def Resting (s : Heartbeat) : Prop :=
  (s.pinger = .waiting ∨ s.pinger = .ended) ∧
  (s.monitor = .waiting ∨ s.monitor = .gaveUp ∨ s.monitor = .ended) ∧
  (s.pinger = .waiting → ∀ k ∈ s.pingTimer, k.fired = false) ∧
  (s.monitor = .waiting → ∀ t ∈ s.pingTimeout, t.fired = false)

/-- Nothing that a goroutine waits for is due before `time`. -/
def Until (s : Heartbeat) (time : ℤ) : Prop :=
  (s.pinger = .waiting → ∀ k ∈ s.pingTimer, time ≤ k.due) ∧
  (s.monitor = .waiting → ∀ t ∈ s.pingTimeout, t.active = true → time ≤ t.due)

/-- The clock does not go on while there is something to do, and a pong is handled when there is
nothing else to do. -/
def Prompt (s : Heartbeat) : Step → Prop
  | .clock now => s.handler = .idle ∧ s.Resting ∧ s.Until now
  | .pong => s.Resting ∧ s.Until (s.now + 1)
  | _ => True

instance (s : Heartbeat) : Decidable s.Resting := inferInstanceAs (Decidable (_ ∧ _))

instance (s : Heartbeat) (time : ℤ) : Decidable (s.Until time) :=
  inferInstanceAs (Decidable (_ ∧ _))

instance (s : Heartbeat) (a : Step) : Decidable (s.Prompt a) := by
  unfold Prompt
  split <;> infer_instance

/-! ## The first goroutine -/

/-- Where the first goroutine is in its cycle, and what the ticker shows. -/
inductive Cycle (config : PingConfig) (s : Heartbeat) : Prop
  | starting (hp : s.pinger = .starting) (hnow : s.now = s.pinged)
  /-- The first ping is sent at once, and each later one at a tick. -/
  | sending {k : Ticker} (hp : s.pinger = .sending) (hk : s.pingTimer = some k)
      (hperiod : k.period = config.interval) (hfired : k.fired = false)
      (hdue : k.due = s.now + config.interval)
      (hnow : s.now = s.pinged ∨ s.now = s.pinged + config.interval)
  | waiting {k : Ticker} (hp : s.pinger = .waiting) (hk : s.pingTimer = some k)
      (hperiod : k.period = config.interval) (hfired : k.fired = false)
      (hdue : k.due = s.pinged + config.interval) (hnow : s.now ≤ k.due)
  /-- There is a tick. -/
  | due {k : Ticker} (hp : s.pinger = .waiting) (hk : s.pingTimer = some k)
      (hperiod : k.period = config.interval) (hfired : k.fired = true)
      (hdue : k.due = s.now + config.interval) (hnow : s.now = s.pinged + config.interval)
  | handling {k : Ticker}
      (hp : s.pinger = .stopping ∨ s.pinger = .draining ∨ s.pinger = .resetting)
      (hk : s.pingTimer = some k) (hperiod : k.period = config.interval) (hfired : k.fired = false)
      (hdue : k.due = s.now + config.interval) (hnow : s.now = s.pinged + config.interval)
  | ended (hp : s.pinger = .ended)

section

variable {config : PingConfig} {s s' : Heartbeat} {a : Step} {ls : List Step}

/-- A ticker that fires on time is due again an interval later. -/
theorem due_fire {k : Ticker} {now : ℕ} (hdue : k.due = now) :
    (k.fire now).due = now + k.period := by
  simp [Ticker.fire, hdue]

/-- However late it fires, it is due again no later than an interval from then. -/
theorem due_fire_le {k : Ticker} (now : ℕ) (hperiod : 0 < k.period) :
    (k.fire now).due ≤ now + k.period := by
  have hle : k.period * ((now - k.due) / k.period) ≤ now - k.due := Int.mul_ediv_self_le hperiod.ne'
  simp only [Ticker.fire, mul_add, mul_one]
  omega

theorem Cycle.congr (hc : Cycle config s) (hnow : s'.now = s.now) (hpinged : s'.pinged = s.pinged)
    (hpinger : s'.pinger = s.pinger) (hticker : s'.pingTimer = s.pingTimer) : Cycle config s' := by
  rcases hc with ⟨hp, hat⟩ | ⟨hp, hk, hperiod, hfired, hdue, hat⟩ |
    ⟨hp, hk, hperiod, hfired, hdue, hat⟩ | ⟨hp, hk, hperiod, hfired, hdue, hat⟩ |
    ⟨hp, hk, hperiod, hfired, hdue, hat⟩ | hp
  · exact .starting (hpinger ▸ hp) (by rw [hnow, hpinged, hat])
  · exact .sending (hpinger ▸ hp) (hticker ▸ hk) hperiod hfired (hnow ▸ hdue)
      (by rw [hnow, hpinged]; exact hat)
  · exact .waiting (hpinger ▸ hp) (hticker ▸ hk) hperiod hfired (hpinged ▸ hdue) (hnow ▸ hat)
  · exact .due (hpinger ▸ hp) (hticker ▸ hk) hperiod hfired (hnow ▸ hdue)
      (by rw [hnow, hpinged]; exact hat)
  · exact .handling (hpinger ▸ hp) (hticker ▸ hk) hperiod hfired (hnow ▸ hdue)
      (by rw [hnow, hpinged]; exact hat)
  · exact .ended (hpinger ▸ hp)

/-- While a tick is handled, the clock shows when it was due. -/
theorem Cycle.now_of_handling (hc : Cycle config s)
    (hp : s.pinger = .stopping ∨ s.pinger = .draining ∨ s.pinger = .resetting) :
    ∃ k, s.pingTimer = some k ∧ k.period = config.interval ∧ k.fired = false ∧
      k.due = s.now + config.interval ∧ (s.now : ℤ) = s.pinged + config.interval := by
  rcases hc with ⟨hp', -⟩ | ⟨hp', -⟩ | ⟨hp', -⟩ | ⟨hp', -⟩ |
    ⟨-, hk, hperiod, hfired, hdue, hat⟩ | hp'
  case handling => exact ⟨_, hk, hperiod, hfired, hdue, hat⟩
  all_goals simp [hp'] at hp

theorem Cycle.step (hc : Cycle config s) (hpos : 0 < config.interval) (ho : Outcome config s a s')
    (hprompt : s.Prompt a) : Cycle config s' := by
  cases ho with
  | fireTimeout | newTimer | timeout | count | goOn | giveUp | halt | closeMonitor | pong | pongStop
  | pongDrain | store | crash => exact hc.congr rfl rfl rfl rfl
  | @clock now hnow =>
    obtain ⟨-, ⟨hrest, -, hidle, -⟩, hdue', -⟩ := hprompt
    rcases hrest with hp | hp
    · rcases hc with ⟨hp', -⟩ | ⟨hp', -⟩ | ⟨-, hk, hperiod, hfired, hdue, -⟩ |
        ⟨-, hk, -, hfired, -⟩ | ⟨hp', -⟩ | hp'
      case waiting => exact .waiting hp hk hperiod hfired hdue (hdue' hp _ hk)
      case due => simp [hidle hp _ hk] at hfired
      all_goals simp [hp] at hp'
    · exact .ended hp
  | @fireTicker k hk hdue =>
    -- only a ticker that is waited for can be due
    rcases hc with ⟨hp, hat⟩ | ⟨hp, hk', hperiod, hfired, hdue', hat⟩ |
      ⟨hp, hk', hperiod, hfired, hdue', hat⟩ | ⟨hp, hk', hperiod, hfired, hdue', hat⟩ |
      ⟨hp, hk', hperiod, hfired, hdue', hat⟩ | hp
    case starting => exact .starting hp hat
    case waiting =>
      obtain rfl := Option.some.inj (hk.symm.trans hk')
      have hnow : k.due = s.now := le_antisymm hdue hat
      exact .due hp rfl hperiod rfl (by rw [due_fire hnow, hperiod]) (by rw [← hnow, hdue'])
    case ended => exact .ended hp
    all_goals
      obtain rfl := Option.some.inj (hk.symm.trans hk')
      omega
  | newTicker hp =>
    rcases hc with ⟨-, hat⟩ | ⟨hp', -⟩ | ⟨hp', -⟩ | ⟨hp', -⟩ | ⟨hp', -⟩ | hp'
    case starting => exact .sending rfl rfl rfl rfl rfl (.inl hat)
    all_goals simp [hp] at hp'
  | ping hp =>
    rcases hc with ⟨hp', -⟩ | ⟨-, hk, hperiod, hfired, hdue, -⟩ | ⟨hp', -⟩ | ⟨hp', -⟩ | ⟨hp', -⟩ |
      hp'
    case sending => exact .waiting rfl hk hperiod hfired hdue (by simp [hdue, hpos.le])
    all_goals simp [hp] at hp'
  | @tick k hk hp hfired =>
    rcases hc with ⟨hp', -⟩ | ⟨hp', -⟩ | ⟨-, hk', -, hfired', -⟩ | ⟨-, hk', hperiod, -, hdue, hat⟩ |
      ⟨hp', -⟩ | hp'
    case waiting =>
      obtain rfl := Option.some.inj (hk.symm.trans hk')
      simp [hfired'] at hfired
    case due =>
      obtain rfl := Option.some.inj (hk.symm.trans hk')
      exact .handling (.inl rfl) rfl hperiod rfl hdue hat
    all_goals simp [hp] at hp'
  | @stop t _ hp =>
    obtain ⟨k, hk, hperiod, hfired, hdue, hat⟩ := hc.now_of_handling (.inl hp)
    refine .handling ?_ hk hperiod hfired hdue hat
    by_cases hactive : t.active = true <;> simp [hactive]
  | drain _ hp =>
    obtain ⟨k, hk, hperiod, hfired, hdue, hat⟩ := hc.now_of_handling (.inr (.inl hp))
    exact .handling (.inr (.inr rfl)) hk hperiod hfired hdue hat
  | reset _ hp =>
    obtain ⟨k, hk, hperiod, hfired, hdue, hat⟩ := hc.now_of_handling (.inr (.inr hp))
    exact .sending rfl hk hperiod hfired hdue (.inr hat)
  | closePinger => exact .ended rfl

/-! ## The pong handler -/

/-- While a pong is handled, nothing else happens. -/
structure Quiet (s : Heartbeat) : Prop where
  resting : s.handler ≠ .idle → s.Resting ∧ s.Until (s.now + 1)
  /-- The handler has stopped the timer. -/
  stopped : s.handler = .draining ∨ s.handler = .storing → ∀ t ∈ s.pingTimeout, t.active = false

theorem quiet_of_idle (hh : s.handler = .idle) : s.Quiet :=
  ⟨fun h ↦ absurd hh h, fun h ↦ by simp [hh] at h⟩

/-- What a goroutine does that does not rest is done while no pong is handled. -/
theorem Quiet.of_not_resting (hq : s.Quiet) (hn : ¬ s.Resting) (hhandler : s'.handler = s.handler) :
    s'.Quiet := by
  refine quiet_of_idle ?_
  by_contra hh
  exact hn (hq.resting (hhandler ▸ hh)).1

theorem Quiet.step (hq : s.Quiet) (ho : Outcome config s a s') (hprompt : s.Prompt a) :
    s'.Quiet := by
  cases ho with
  | clock => exact quiet_of_idle hprompt.1
  | store => exact quiet_of_idle rfl
  | crash => exact ⟨hq.resting, hq.stopped⟩
  | newTicker hp | ping hp | stop _ hp | drain _ hp | reset _ hp =>
    exact hq.of_not_resting (fun h ↦ by simpa [hp] using h.1) rfl
  | newTimer hm | count hm | goOn hm | giveUp hm | halt _ hm =>
    exact hq.of_not_resting (fun h ↦ by simpa [hm] using h.2.1) rfl
  | tick hk hp hfired =>
    exact hq.of_not_resting (fun h ↦ by simp [h.2.2.1 hp _ hk] at hfired) rfl
  | timeout ht hm hfired =>
    exact hq.of_not_resting (fun h ↦ by simp [h.2.2.2 hm _ ht] at hfired) rfl
  | fireTicker hk hdue =>
    refine ⟨fun hh ↦ ?_, hq.stopped⟩
    obtain ⟨⟨hp, hm, -, htimer⟩, hticks, htimes⟩ := hq.resting hh
    have hp' : s.pinger ≠ .waiting := fun hp' ↦ by
      have := hticks hp' _ hk
      omega
    exact ⟨⟨hp, hm, fun h ↦ absurd h hp', htimer⟩, fun h ↦ absurd h hp', htimes⟩
  | fireTimeout ht hactive hdue =>
    refine ⟨fun hh ↦ ?_, fun _ t ht' ↦ Option.some.inj ht' ▸ rfl⟩
    obtain ⟨⟨hp, hm, hticker, -⟩, hticks, htimes⟩ := hq.resting hh
    have hm' : s.monitor ≠ .waiting := fun hm' ↦ by
      have := htimes hm' _ ht hactive
      omega
    exact ⟨⟨hp, hm, hticker, fun h ↦ absurd h hm'⟩, hticks, fun h ↦ absurd h hm'⟩
  | closePinger =>
    refine ⟨fun hh ↦ ?_, hq.stopped⟩
    obtain ⟨⟨-, hm, -, htimer⟩, -, htimes⟩ := hq.resting hh
    exact ⟨⟨.inr rfl, hm, by simp, htimer⟩, by simp, htimes⟩
  | closeMonitor =>
    refine ⟨fun hh ↦ ?_, hq.stopped⟩
    obtain ⟨⟨hp, -, hticker, -⟩, hticks, -⟩ := hq.resting hh
    exact ⟨⟨hp, .inr (.inr rfl), hticker, by simp⟩, hticks, by simp⟩
  | pong => exact ⟨fun _ ↦ hprompt, by simp⟩
  | @pongStop t₀ ht hh =>
    obtain ⟨⟨hp, hm, hticker, htimer⟩, hticks, -⟩ := hq.resting (by simp [hh])
    refine ⟨fun _ ↦ ⟨⟨hp, hm, hticker, fun h t ht' ↦ ?_⟩, hticks, fun _ t ht' hactive ↦ ?_⟩, ?_⟩
    · exact Option.some.inj ht' ▸ htimer h t₀ ht
    · simp [← Option.some.inj ht', Timer.halt] at hactive
    · exact fun _ t ht' ↦ Option.some.inj ht' ▸ rfl
  | @pongDrain t ht hh =>
    have hactive : t.active = false := hq.stopped (.inl hh) t ht
    obtain ⟨⟨hp, hm, hticker, -⟩, hticks, -⟩ := hq.resting (by simp [hh])
    refine ⟨fun _ ↦ ⟨⟨hp, hm, hticker, fun _ t' ht' ↦ ?_⟩, hticks, fun _ t' ht' hactive' ↦ ?_⟩, ?_⟩
    · exact Option.some.inj ht' ▸ rfl
    · simp [← Option.some.inj ht', Timer.receive, hactive] at hactive'
    · exact fun _ t' ht' ↦ Option.some.inj ht' ▸ hactive

/-! ## The second goroutine

Between two ticks the timer is armed once, and it fires before the next tick unless a pong stops it.
`Timing` follows it through the second goroutine: every ping without an answer is counted, except
the last one while its timer runs. -/

/-- The pings without an answer, with the one that is about to be sent. -/
def pings (ls : List Step) (s : Heartbeat) : ℤ :=
  unanswered ls + if s.pinger = .starting ∨ s.pinger = .sending then 1 else 0

theorem unanswered_le_pings (ls : List Step) (s : Heartbeat) : unanswered ls ≤ pings ls s := by
  rw [pings]
  split_ifs <;> omega

theorem pings_of_waits (ls : List Step) {s : Heartbeat}
    (hp : s.pinger = .waiting ∨ s.pinger = .ended) : pings ls s = unanswered ls := by
  rcases hp with hp | hp <;> simp [pings, hp]

/-- When the ping was sent that the timer is armed for, or when it will be. -/
def armedAt (s : Heartbeat) : ℕ := if s.pinger = .sending then s.now else s.pinged

/-- The timer is not armed, and drained. -/
def Off (s : Heartbeat) : Prop :=
  ∃ t, s.pingTimeout = some t ∧ t.active = false ∧ t.fired = false

/-- Where the second goroutine is, what the timer shows, and what has been counted: every ping
without an answer is a failure, except the last one while its timer runs. -/
inductive Timing (config : PingConfig) (ls : List Step) (s : Heartbeat) : Prop
  | starting (hm : s.monitor = .starting) (hnow : s.now = s.pinged)
      (hcount : s.pingFailure.toInt + 1 = pings ls s)
  | running {t : Timer} (hm : s.monitor = .waiting) (ht : s.pingTimeout = some t)
      (hactive : t.active = true) (hdue : t.due = s.armedAt + config.timeout) (hnow : s.now ≤ t.due)
      (hcount : s.pingFailure.toInt + 1 = pings ls s)
  /-- There is a token. -/
  | fired {t : Timer} (hm : s.monitor = .waiting) (ht : s.pingTimeout = some t)
      (hactive : t.active = false) (hfired : t.fired = true)
      (hnow : s.now = s.pinged + config.timeout) (hcount : s.pingFailure.toInt + 1 = pings ls s)
  | off (hm : s.monitor = .waiting) (hoff : s.Off) (hcount : s.pingFailure.toInt = pings ls s)
  /-- A pong has stopped the timer. -/
  | answered (hm : s.monitor = .waiting) (hoff : s.Off) (hh : s.handler = .storing)
      (hnow : s.now ≤ s.pinged + config.timeout) (hcount : s.pingFailure.toInt + 1 = pings ls s)
  | counting (hm : s.monitor = .counting) (hoff : s.Off) (hnow : s.now = s.pinged + config.timeout)
      (hcount : s.pingFailure.toInt + 1 = pings ls s)
  | comparing (hm : s.monitor = .comparing) (hoff : s.Off)
      (hnow : s.now = s.pinged + config.timeout) (hpos : 0 < s.pingFailure.toInt)
      (hcount : s.pingFailure.toInt = pings ls s)
  | gone (hm : s.monitor = .halting ∨ s.monitor = .gaveUp ∨ s.monitor = .ended)

/-- What concerns neither the timer nor the second goroutine. -/
theorem Timing.congr {ls' : List Step} (h : Timing config ls s) (hnow : s'.now = s.now)
    (hpinged : s'.pinged = s.pinged) (hmonitor : s'.monitor = s.monitor)
    (htimer : s'.pingTimeout = s.pingTimeout) (hfailure : s'.pingFailure = s.pingFailure)
    (hhandler : s.handler = .storing → s'.handler = .storing) (harmed : s'.armedAt = s.armedAt)
    (hpings : pings ls' s' = pings ls s) : Timing config ls' s' := by
  have hoff' : s.Off → s'.Off := by
    rw [Off, Off, htimer]
    exact id
  rcases h with ⟨hm, hat, hcount⟩ | ⟨hm, ht, hactive, hdue, hat, hcount⟩ |
    ⟨hm, ht, hactive, hfired, hat, hcount⟩ | ⟨hm, hoff, hcount⟩ | ⟨hm, hoff, hh, hat, hcount⟩ |
    ⟨hm, hoff, hat, hcount⟩ | ⟨hm, hoff, hat, hpos, hcount⟩ | hm
  all_goals rw [← hmonitor] at hm
  case gone => exact .gone hm
  all_goals rw [← hfailure, ← hpings] at hcount
  case off => exact .off hm (hoff' hoff) hcount
  all_goals rw [← hnow] at hat
  case running => exact .running hm (htimer ▸ ht) hactive (harmed ▸ hdue) hat hcount
  all_goals rw [← hpinged] at hat
  case starting => exact .starting hm hat hcount
  case fired => exact .fired hm (htimer ▸ ht) hactive hfired hat hcount
  case answered => exact .answered hm (hoff' hoff) (hhandler hh) hat hcount
  case counting => exact .counting hm (hoff' hoff) hat hcount
  case comparing => exact .comparing hm (hoff' hoff) hat (hfailure ▸ hpos) hcount

/-- Between two ticks the first goroutine waits. -/
theorem Cycle.waits (hc : Cycle config s) (hafter : s.pinged < s.now)
    (hbefore : s.now < s.pinged + config.interval) : s.pinger = .waiting ∨ s.pinger = .ended := by
  rcases hc with ⟨-, hat⟩ | ⟨-, -, -, -, -, hat⟩ | ⟨hp, -⟩ | ⟨hp, -⟩ | ⟨-, -, -, -, -, hat⟩ | hp
  case waiting | due => exact .inl hp
  case ended => exact .inr hp
  all_goals omega

/-- When both goroutines rest, the timer runs or is off. -/
theorem Timing.of_resting (h : Timing config ls s) (hrest : s.Resting) :
    (s.monitor = .waiting ∧ s.pingFailure.toInt + 1 = pings ls s ∧ ∃ t, s.pingTimeout = some t ∧
      t.active = true ∧ t.fired = false ∧ (s.now : ℤ) ≤ s.pinged + config.timeout) ∨
    (s.monitor = .waiting ∧ s.Off ∧
      (s.pingFailure.toInt = pings ls s ∨ s.handler = .storing)) ∨
    s.monitor = .halting ∨ s.monitor = .gaveUp ∨ s.monitor = .ended := by
  obtain ⟨hp, hm, -, hfired'⟩ := hrest
  rcases h with ⟨hm', -⟩ | ⟨hm', ht, hactive, hdue, hat, hcount⟩ | ⟨hm', ht, -, hfired, -⟩ |
    ⟨hm', hoff, hcount⟩ | ⟨hm', hoff, hh, -⟩ | ⟨hm', -⟩ | ⟨hm', -⟩ | hm'
  case running =>
    rw [armedAt, if_neg (fun hp' ↦ by simp [hp'] at hp)] at hdue
    exact .inl ⟨hm', hcount, _, ht, hactive, hfired' hm' _ ht, hdue ▸ hat⟩
  case fired => simp [hfired' hm' _ ht] at hfired
  case off => exact .inr (.inl ⟨hm', hoff, .inl hcount⟩)
  case answered => exact .inr (.inl ⟨hm', hoff, .inr hh⟩)
  case gone => exact .inr (.inr hm')
  all_goals simp [hm'] at hm

/-- When a tick is handled, the timer of the last ping is long off. -/
theorem Timing.of_handling (h : Timing config ls s) (hc : Cycle config s) (hT : 0 < config.timeout)
    (hlt : config.timeout < config.interval)
    (hp : s.pinger = .stopping ∨ s.pinger = .draining ∨ s.pinger = .resetting) :
    (s.monitor = .waiting ∧ s.Off ∧ s.pingFailure.toInt = pings ls s) ∨
      s.monitor = .halting ∨ s.monitor = .gaveUp ∨ s.monitor = .ended := by
  obtain ⟨-, -, -, -, -, hnow⟩ := hc.now_of_handling hp
  have harmed : s.armedAt = s.pinged := by
    rw [armedAt, if_neg]
    rintro hp'
    simp [hp'] at hp
  rcases h with ⟨-, hat, -⟩ | ⟨-, -, -, hdue, hat, -⟩ | ⟨-, -, -, -, hat, -⟩ | ⟨hm, hoff, hcount⟩ |
    ⟨-, -, -, hat, -⟩ | ⟨-, -, hat, -⟩ | ⟨-, -, hat, -⟩ | hm
  case off => exact .inl ⟨hm, hoff, hcount⟩
  case gone => exact .inr hm
  all_goals omega

theorem Off.halt {t : Timer} (hoff : s.Off) (ht : s.pingTimeout = some t)
    (htimer : s'.pingTimeout = some t.halt) : s'.Off := by
  obtain ⟨t₁, ht₁, hactive, hfired⟩ := hoff
  obtain rfl := Option.some.inj (ht.symm.trans ht₁)
  exact ⟨_, htimer, rfl, hfired⟩

theorem Off.receive {t : Timer} (hoff : s.Off) (ht : s.pingTimeout = some t)
    (htimer : s'.pingTimeout = some t.receive) : s'.Off := by
  obtain ⟨t₁, ht₁, hactive, hfired⟩ := hoff
  obtain rfl := Option.some.inj (ht.symm.trans ht₁)
  exact ⟨_, htimer, hactive, rfl⟩

theorem Timing.step (h : Timing config ls s) (hs : s.Sound) (hcounted : Counted config ls s)
    (hc : Cycle config s) (hq : s.Quiet) (hT : 0 < config.timeout)
    (hlt : config.timeout < config.interval) (ho : Outcome config s a s') (hprompt : s.Prompt a) :
    Timing config (ls ++ [a]) s' := by
  cases ho with
  | fireTicker => exact h.congr rfl rfl rfl rfl rfl id rfl (by simp [pings])
  | pong hh => exact h.congr rfl rfl rfl rfl rfl (by simp [hh]) rfl (by simp [pings])
  | crash ha =>
    have hping : a ≠ .ping := fun h ↦ by simp [h, Step.mayCrash] at ha
    have hstore : a ≠ .store := fun h ↦ by simp [h, Step.mayCrash] at ha
    exact h.congr rfl rfl rfl rfl rfl id rfl (by simp [pings, hping, hstore])
  | tick _ hp => exact h.congr rfl rfl rfl rfl rfl id (by simp [armedAt, hp]) (by simp [pings, hp])
  | closePinger hp =>
    exact h.congr rfl rfl rfl rfl rfl id (by simp [armedAt, hp]) (by simp [pings, hp])
  | newTicker hp =>
    have hnow : s.now = s.pinged := by
      rcases hc with ⟨-, hat⟩ | ⟨hp', -⟩ | ⟨hp', -⟩ | ⟨hp', -⟩ | ⟨hp', -⟩ | hp'
      case starting => exact hat
      all_goals simp [hp] at hp'
    exact h.congr rfl rfl rfl rfl rfl id (by simp [armedAt, hp, hnow]) (by simp [pings, hp])
  | giveUp | halt | closeMonitor => exact .gone (by simp)
  | clock hnow =>
    obtain ⟨hh, ⟨hp, hm, -, hfired'⟩, -, htimes⟩ := hprompt
    rcases h with ⟨hm', -⟩ | ⟨hm', ht, hactive, hdue, -, hcount⟩ | ⟨hm', ht, -, hfired, -⟩ |
      ⟨hm', hoff, hcount⟩ | ⟨-, -, hh', -⟩ | ⟨hm', -⟩ | ⟨hm', -⟩ | hm'
    case running =>
      have harmed : s.pinger ≠ .sending := fun hp' ↦ by simp [hp'] at hp
      refine .running hm' ht hactive ?_ (htimes hm' _ ht hactive) (by simpa [pings] using hcount)
      simpa [armedAt, harmed] using hdue
    case fired => simp [hfired' hm' _ ht] at hfired
    case off => exact .off hm' hoff (by simpa [pings] using hcount)
    case answered => simp [hh] at hh'
    case gone => exact .gone hm'
    all_goals simp [hm'] at hm
  | @fireTimeout t ht hactive hdue =>
    rcases h with ⟨hm, -⟩ | ⟨hm, ht', -, hdue', hat, hcount⟩ | ⟨-, ht', hactive', -⟩ |
      ⟨-, ⟨t', ht', hactive', -⟩, -⟩ | ⟨-, ⟨t', ht', hactive', -⟩, -⟩ |
      ⟨-, ⟨t', ht', hactive', -⟩, -⟩ | ⟨-, ⟨t', ht', hactive', -⟩, -⟩ | hm
    case starting => simp [hs.starting.mp hm] at ht
    case gone => exact .gone hm
    all_goals obtain rfl := Option.some.inj (ht.symm.trans ht')
    case running =>
      rw [armedAt] at hdue'
      split_ifs at hdue'
      · omega
      · exact .fired hm rfl rfl rfl (by simp only; omega) (by simpa [pings] using hcount)
    all_goals simp [hactive] at hactive'
  | ping hp =>
    have hpings : pings (ls ++ [.ping]) { s with pinger := .waiting, pinged := s.now } =
        pings ls s := by simp [pings, hp]
    have hnot : ¬ (s.pinged < s.now ∧ s.now < s.pinged + config.interval) := by
      rintro ⟨h₁, h₂⟩
      simpa [hp] using hc.waits h₁ h₂
    rcases h with ⟨hm, hat, hcount⟩ | ⟨hm, ht, hactive, hdue, hat, hcount⟩ |
      ⟨-, -, -, -, hat, -⟩ | ⟨hm, hoff, hcount⟩ | ⟨-, -, hh, -⟩ | ⟨-, -, hat, -⟩ |
      ⟨-, -, hat, -⟩ | hm
    case starting => exact .starting hm rfl (hcount.trans hpings.symm)
    case running =>
      exact .running hm ht hactive (by simpa [armedAt, hp] using hdue) hat
        (hcount.trans hpings.symm)
    case off => exact .off hm hoff (hcount.trans hpings.symm)
    case answered => simpa [hp] using (hq.resting (by simp [hh])).1.1
    case gone => exact .gone hm
    all_goals omega
  | stop ht hp =>
    rcases h.of_handling hc hT hlt (.inl hp) with ⟨hm, hoff, hcount⟩ | hm
    · refine .off hm (hoff.halt ht rfl) ?_
      obtain ⟨t', ht', hactive, -⟩ := hoff
      obtain rfl := Option.some.inj (ht.symm.trans ht')
      simpa [pings, hp, hactive] using hcount
    · exact .gone hm
  | drain ht hp =>
    rcases h.of_handling hc hT hlt (.inr (.inl hp)) with ⟨hm, hoff, hcount⟩ | hm
    · exact .off hm (hoff.receive ht rfl) (by simpa [pings, hp] using hcount)
    · exact .gone hm
  | reset ht hp =>
    rcases h.of_handling hc hT hlt (.inr (.inr hp)) with ⟨hm, hoff, hcount⟩ | hm
    · refine .running hm rfl rfl rfl (by simp [Timer.restart, hT.le]) ?_
      · simp [pings, hp] at hcount ⊢
        omega
    · exact .gone hm
  | newTimer hm =>
    rcases h with ⟨-, hat, hcount⟩ | ⟨hm', -⟩ | ⟨hm', -⟩ | ⟨hm', -⟩ | ⟨hm', -⟩ | ⟨hm', -⟩ |
      ⟨hm', -⟩ | hm'
    case starting =>
      refine .running rfl rfl rfl ?_ ?_ (by simpa [pings] using hcount)
      · simp only [Timer.new, armedAt]
        split_ifs
        · rfl
        · rw [hat]
      · simp only [Timer.new]
        omega
    all_goals simp [hm] at hm'
  | @timeout t ht hm hfired =>
    rcases h with ⟨hm', -⟩ | ⟨-, ht', hactive, -⟩ | ⟨-, ht', hactive, -, hat, hcount⟩ |
      ⟨-, ⟨t', ht', -, hfired'⟩, -⟩ | ⟨-, ⟨t', ht', -, hfired'⟩, -⟩ | ⟨hm', -⟩ | ⟨hm', -⟩ | hm'
    case running => simp [hs.drained t ht (Option.some.inj (ht.symm.trans ht') ▸ hactive)] at hfired
    case fired =>
      obtain rfl := Option.some.inj (ht.symm.trans ht')
      exact .counting rfl ⟨_, rfl, hactive, rfl⟩ hat (by simpa [pings] using hcount)
    case off | answered =>
      obtain rfl := Option.some.inj (ht.symm.trans ht')
      simp [hfired] at hfired'
    all_goals simp [hm] at hm'
  | count hm =>
    rcases h with ⟨hm', -⟩ | ⟨hm', -⟩ | ⟨hm', -⟩ | ⟨hm', -⟩ | ⟨hm', -⟩ | ⟨-, hoff, hat, hcount⟩ |
      ⟨hm', -⟩ | hm'
    case counting =>
      have h0 := hcounted.nonneg
      have hadd := toInt_add_one h0 (hcounted.lt_limit (.inr (.inr hm)))
      refine .comparing rfl hoff hat ?_ ?_
      · simp only [hadd]
        omega
      · simpa [pings, hadd] using hcount
    all_goals simp [hm] at hm'
  | goOn hm =>
    rcases h with ⟨hm', -⟩ | ⟨hm', -⟩ | ⟨hm', -⟩ | ⟨hm', -⟩ | ⟨hm', -⟩ | ⟨hm', -⟩ |
      ⟨-, hoff, hat, -, hcount⟩ | hm'
    case comparing => exact .off rfl hoff (by simpa [pings] using hcount)
    all_goals simp [hm] at hm'
  | @pongStop t ht hh =>
    rcases h.of_resting (hq.resting (by simp [hh])).1 with
      ⟨hm, hcount, t', ht', hactive, hfired, hat⟩ | ⟨hm, hoff, hcount | hh'⟩ | hm
    · obtain rfl := Option.some.inj (ht.symm.trans ht')
      exact .answered hm ⟨_, rfl, rfl, hfired⟩ (if_pos hactive) hat (by simpa [pings] using hcount)
    · exact .off hm (hoff.halt ht rfl) (by simpa [pings] using hcount)
    · simp [hh] at hh'
    · exact .gone hm
  | @pongDrain t ht hh =>
    rcases h.of_resting (hq.resting (by simp [hh])).1 with ⟨-, -, t', ht', hactive, -⟩ |
      ⟨hm, hoff, hcount | hh'⟩ | hm
    · simp [hq.stopped (.inl hh) t' ht'] at hactive
    · exact .off hm (hoff.receive ht rfl) (by simpa [pings] using hcount)
    · simp [hh] at hh'
    · exact .gone hm
  | store hh =>
    obtain ⟨hrest, -⟩ := hq.resting (by simp [hh])
    rcases h.of_resting hrest with ⟨-, -, t', ht', hactive, -⟩ | ⟨hm, hoff, -⟩ | hm
    · simp [hq.stopped (.inr hh) t' ht'] at hactive
    · refine .off hm hoff ?_
      rcases hrest.1 with hp | hp <;> simp [pings, hp]
    · exact .gone hm

/-! ## Giving up -/

/-- What prompt goroutines keep. -/
structure OnTime (config : PingConfig) (ls : List Step) (s : Heartbeat) : Prop where
  sound : s.Sound
  counted : Counted config ls s
  cycle : Cycle config s
  quiet : s.Quiet
  timing : Timing config ls s
  crashed : s.crashed = false

/-- The timer is not used before it was made. -/
theorem OnTime.exists_timer (h : OnTime config ls s) (hpos : 0 < config.interval)
    (huses : s.UsesTimer) : s.pingTimeout ≠ none := by
  intro hnone
  have hm := h.sound.starting.mpr hnone
  have hnow : s.now = s.pinged := by
    rcases h.timing with ⟨-, hat, -⟩ | ⟨hm', -⟩ | ⟨hm', -⟩ | ⟨hm', -⟩ | ⟨hm', -⟩ | ⟨hm', -⟩ |
      ⟨hm', -⟩ | hm'
    case starting => exact hat
    all_goals simp [hm] at hm'
  have hhandler : s.handler = .idle := by
    by_contra hh
    simpa [hm] using (h.quiet.resting hh).1.2.1
  have hp : s.pinger = .stopping ∨ s.pinger = .draining ∨ s.pinger = .resetting := by
    simpa [UsesTimer, hm, hhandler] using huses
  obtain ⟨-, -, -, -, -, hat⟩ := h.cycle.now_of_handling hp
  omega

theorem onTime_of_run (hfits : config.checkConfig.Fits)
    (hlt : config.checkConfig.timeout < config.checkConfig.interval)
    (h : ((system config).restrict Prompt).Run ls s) : OnTime config.checkConfig ls s := by
  have hT := PingConfig.timeout_pos hfits
  have hI := PingConfig.interval_pos hfits
  refine h.history_invariant (motive := fun ls s ↦ OnTime config.checkConfig ls s) ?_ ?_
  · rintro _ ⟨now, rfl⟩
    exact ⟨new_sound now, new_counted _ now, .starting rfl rfl, quiet_of_idle rfl,
      .starting rfl rfl rfl, rfl⟩
  · rintro ls s a s' h ⟨hstep, hprompt⟩
    have ho := step_outcome hstep
    refine ⟨h.sound.step ho, h.counted.step h.sound ho, h.cycle.step hI ho hprompt,
      h.quiet.step ho hprompt,
      h.timing.step h.sound h.counted h.cycle h.quiet hT hlt ho hprompt, ?_⟩
    have hc := h.crashed
    cases ho with
    | crash _ hcause =>
      rcases hcause with hneg | ⟨hnone, huses⟩
      · omega
      · exact absurd hnone (h.exists_timer hI huses)
    | _ => exact hc

/-- When the second goroutine compares, it has counted the pings without an answer. -/
theorem OnTime.of_comparing (h : OnTime config ls s) (hT : 0 < config.timeout)
    (hlt : config.timeout < config.interval) (hm : s.monitor = .comparing) :
    0 < s.pingFailure.toInt ∧ s.pingFailure.toInt = unanswered ls := by
  rcases h.timing with ⟨hm', -⟩ | ⟨hm', -⟩ | ⟨hm', -⟩ | ⟨hm', -⟩ | ⟨hm', -⟩ | ⟨hm', -⟩ |
    ⟨-, -, hat, hpos, hcount⟩ | hm'
  case comparing =>
    rw [pings_of_waits ls (h.cycle.waits (by omega) (by omega))] at hcount
    exact ⟨hpos, hcount⟩
  all_goals simp [hm] at hm'

/-- As long as it goes on, there are no more than the limit, and at the limit not for longer than
the timeout. -/
theorem OnTime.le_limit (h : OnTime config ls s) (hT : 0 < config.timeout)
    (hm : s.Watching ∨ s.monitor = .comparing) :
    unanswered ls ≤ config.limit ∧
      (unanswered ls = config.limit → s.now ≤ s.pinged + config.timeout) := by
  have hle := unanswered_le_pings ls s
  have hlimit := h.counted.le_limit
  have hwatching := h.counted.lt_limit
  rcases h.timing with ⟨hm', hat, hcount⟩ | ⟨hm', -, -, hdue, hat, hcount⟩ |
    ⟨hm', -, -, -, hat, hcount⟩ | ⟨hm', -, hcount⟩ | ⟨hm', -, -, hat, hcount⟩ |
    ⟨hm', -, hat, hcount⟩ | ⟨-, -, hat, -, hcount⟩ | hm'
  case gone => rcases hm' with hm' | hm' | hm' <;> simp [Watching, hm'] at hm
  case comparing => exact ⟨by omega, fun _ ↦ hat.le⟩
  all_goals have hlt := hwatching (by simp [Watching, hm'])
  case running =>
    refine ⟨by omega, fun heq ↦ ?_⟩
    rw [armedAt] at hdue
    split_ifs at hdue with hp
    · simp only [pings, hp] at hcount
      simp at hcount
      omega
    · omega
  all_goals exact ⟨by omega, fun _ ↦ by omega⟩

/-- **What the pings are for**: when the timeout is shorter than the interval, prompt goroutines do
not crash, a connection is given up exactly when as many pings as the limit says had no answer, and
it is given up no later than the timeout after the last of them was sent. -/
theorem gives_up_iff (hfits : config.checkConfig.Fits)
    (hlt : config.checkConfig.pingTimeout < config.checkConfig.pingInterval)
    (h : ((system config).restrict Prompt).Run ls s) :
    s.crashed = false ∧
    (∀ s', s.step config.checkConfig .compare = some s' →
      (s'.monitor = .halting ↔ config.checkConfig.limit ≤ unanswered ls)) ∧
    (s.Watching ∨ s.monitor = .comparing → unanswered ls ≤ config.checkConfig.limit ∧
      (unanswered ls = config.checkConfig.limit →
        s.now ≤ s.pinged + config.checkConfig.timeout)) := by
  have hlt := (PingConfig.timeout_lt_interval_iff hfits).mpr hlt
  have hT := PingConfig.timeout_pos hfits
  have hon := onTime_of_run hfits hlt h
  refine ⟨hon.crashed, fun s' hstep ↦ ?_, hon.le_limit hT⟩
  have hlimit : ∀ n : ℤ, 0 < n → (config.checkConfig.limit ≤ n ↔
      config.checkConfig.pingFailureThreshHold.toInt ≤ n) := fun n hn ↦ by
    rw [PingConfig.limit, max_le_iff]
    exact and_iff_right hn
  cases step_outcome hstep with
  | goOn hm hlow =>
    obtain ⟨hpos, hcount⟩ := hon.of_comparing hT hlt hm
    rw [← hcount, hlimit _ hpos]
    simpa using Int32.lt_iff_toInt_lt.mp hlow
  | giveUp hm hreached =>
    obtain ⟨hpos, hcount⟩ := hon.of_comparing hT hlt hm
    rw [← hcount, hlimit _ hpos]
    simpa using Int32.le_iff_toInt_le.mp hreached
  | crash ha => simp [Step.mayCrash] at ha

/-- Two pings without an answer. -/
theorem gives_up_iff_two : ∃ ls s s', ((system ⟨2, 5, 3⟩).restrict Prompt).Run ls s ∧
    s.step (PingConfig.checkConfig ⟨2, 5, 3⟩) .compare = some s' ∧ s'.monitor = .halting ∧
    (PingConfig.checkConfig ⟨2, 5, 3⟩).limit ≤ unanswered ls := by
  obtain ⟨s, hr, hs⟩ := TransitionSystem.exists_run_from
    (S := (system ⟨2, 5, 3⟩).restrict Prompt) (fun _ _ _ ↦ TransitionSystem.step_of_guarded _ _ _)
    (s := new 0)
    (l := [.newTicker, .newTimer, .ping, .clock 3000000000, .fireTimeout, .timeout, .count,
      .compare, .clock 5000000000, .fireTicker, .tick, .stop, .drain, .reset, .ping,
      .clock 8000000000, .fireTimeout, .timeout, .count])
    (p := fun s ↦ (s.step (PingConfig.checkConfig ⟨2, 5, 3⟩) .compare).any (·.monitor = .halting))
    ⟨0, rfl⟩ (by decide +kernel)
  simp only [Option.any_eq_true, decide_eq_true_eq] at hs
  obtain ⟨s', hstep, hm⟩ := hs
  have hiff := (gives_up_iff (by decide) (by decide) hr).2.1 s' hstep
  exact ⟨_, s, s', hr, hstep, hm, hiff.mp hm⟩

/-! ## A timeout that is too long

The goroutines need not be prompt here.  It is enough that every tick finds the timer before it is
due, and `pendingTick` is the tick that has to. -/

/-- When the oldest tick was due, or will be, that the timer has not been stopped for. -/
def pendingTick (s : Heartbeat) : Option ℤ :=
  match s.pinger with
  | .stopping => some s.ticked
  | .ended => none
  | _ => s.pingTimer.map fun k ↦ if k.fired then k.stamp else k.due

/-- The first goroutine makes its ticker before the clock goes on from the time when the timer was
made, and the clock does not go on until the goroutine is late by as much as the timeout is longer
than the interval.  A ticker made later would leave less time than that for the first tick. -/
def InTime (config : PingConfig) (s : Heartbeat) : Step → Prop
  | .clock now => (s.pinger = .starting → s.pingTimeout = none) ∧
      ∀ due ∈ s.pendingTick, now + config.interval < due + config.timeout
  | _ => True

instance (config : PingConfig) (s : Heartbeat) (a : Step) : Decidable (s.InTime config a) := by
  unfold InTime
  split <;> infer_instance

/-- What a first goroutine that is in time keeps: the timer will be stopped before it is due. -/
structure Ahead (config : PingConfig) (ls : List Step) (s : Heartbeat) : Prop where
  made : s.pinger ≠ .starting → s.pingTimer ≠ none
  ticker : ∀ k ∈ s.pingTimer, k.period = config.interval ∧ k.due ≤ s.now + config.interval ∧
    (k.fired = true → k.stamp ≤ s.now)
  ticked : s.ticked ≤ s.now
  starting : s.pinger = .starting → ∀ t ∈ s.pingTimeout, t.active = true →
    s.now + config.timeout ≤ t.due
  timer : s.pinger ≠ .ended → ∀ t ∈ s.pingTimeout, t.active = true → s.now < t.due ∧
    ∀ due ∈ s.pendingTick, due + config.timeout ≤ t.due + config.interval
  silent : s.pinger ≠ .ended → (∀ t ∈ s.pingTimeout, t.fired = false) ∧ s.pingFailure = 0 ∧
    (s.monitor = .starting ∨ s.monitor = .waiting ∨ s.monitor = .ended) ∧ Step.fireTimeout ∉ ls

/-- A tick is due no later than an interval from now. -/
theorem Ahead.pendingTick_le (h : Ahead config ls s) (hI : 0 < config.interval) (due : ℤ)
    (hdue : due ∈ s.pendingTick) : due ≤ s.now + config.interval := by
  have hticked := h.ticked
  rw [pendingTick] at hdue
  split at hdue
  · obtain rfl := Option.some.inj hdue
    omega
  · simp at hdue
  · obtain ⟨k, hk, rfl⟩ := Option.map_eq_some_iff.mp hdue
    obtain ⟨-, hle, hstamp⟩ := h.ticker k hk
    split_ifs with hfired
    · have := hstamp hfired
      omega
    · exact hle

theorem Ahead.exists_pendingTick (h : Ahead config ls s) (hp : s.pinger ≠ .starting)
    (hp' : s.pinger ≠ .ended) : ∃ due, due ∈ s.pendingTick := by
  obtain ⟨k, hk⟩ := Option.ne_none_iff_exists'.mp (h.made hp)
  rw [pendingTick]
  split
  · exact ⟨_, rfl⟩
  · next hended => exact absurd hended hp'
  · exact ⟨_, by rw [hk]; rfl⟩

/-- What the second goroutine and the pong handler do. -/
theorem Ahead.congr (h : Ahead config ls s) (hnow : s'.now = s.now)
    (hticker : s'.pingTimer = s.pingTimer) (hpinger : s'.pinger = s.pinger)
    (hticked : s'.ticked = s.ticked)
    (htimer : ∀ t' ∈ s'.pingTimeout, ∃ t ∈ s.pingTimeout, t'.due = t.due ∧
      (t'.active = true → t.active = true) ∧ (t.fired = false → t'.fired = false))
    (hsilent : s.pingFailure = 0 →
      s.monitor = .starting ∨ s.monitor = .waiting ∨ s.monitor = .ended →
      (∀ t ∈ s.pingTimeout, t.fired = false) → s'.pingFailure = 0 ∧
      (s'.monitor = .starting ∨ s'.monitor = .waiting ∨ s'.monitor = .ended))
    (ha : a ≠ .fireTimeout) : Ahead config (ls ++ [a]) s' := by
  have hpending : s'.pendingTick = s.pendingTick := by
    rw [pendingTick, pendingTick, hpinger, hticked, hticker]
  refine ⟨?_, ?_, ?_, fun hp t' ht' hactive ↦ ?_, fun hp t' ht' hactive ↦ ?_, fun hp ↦ ?_⟩
  · rw [hpinger, hticker]
    exact h.made
  · rw [hticker, hnow]
    exact h.ticker
  · rw [hticked, hnow]
    exact h.ticked
  · obtain ⟨t, ht, hdue, hactive', -⟩ := htimer t' ht'
    rw [hnow, hdue]
    exact h.starting (hpinger ▸ hp) t ht (hactive' hactive)
  · obtain ⟨t, ht, hdue, hactive', -⟩ := htimer t' ht'
    rw [hnow, hdue, hpending]
    exact h.timer (hpinger ▸ hp) t ht (hactive' hactive)
  · obtain ⟨hfired, hfailure, hmonitor, hls⟩ := h.silent (hpinger ▸ hp)
    obtain ⟨hfailure', hmonitor'⟩ := hsilent hfailure hmonitor hfired
    refine ⟨fun t' ht' ↦ ?_, hfailure', hmonitor', by simpa [hls] using ha.symm⟩
    obtain ⟨t, ht, -, -, hfired'⟩ := htimer t' ht'
    exact hfired' (hfired t ht)

theorem Ahead.step (h : Ahead config ls s) (hs : s.Sound) (hI : 0 < config.interval)
    (hlt : config.interval < config.timeout) (ho : Outcome config s a s')
    (htime : s.InTime config a) : Ahead config (ls ++ [a]) s' := by
  have hsame : ∀ t ∈ s.pingTimeout, ∃ t' ∈ s.pingTimeout, t.due = t'.due ∧
      (t.active = true → t'.active = true) ∧ (t'.fired = false → t.fired = false) :=
    fun t ht ↦ ⟨t, ht, rfl, id, id⟩
  cases ho with
  | pong => exact h.congr rfl rfl rfl rfl hsame (fun h₁ h₂ _ ↦ ⟨h₁, h₂⟩) (by simp)
  | crash ha =>
    refine h.congr rfl rfl rfl rfl hsame (fun h₁ h₂ _ ↦ ⟨h₁, h₂⟩) ?_
    rintro rfl
    simp [Step.mayCrash] at ha
  | closeMonitor => exact h.congr rfl rfl rfl rfl hsame (fun h₁ _ _ ↦ ⟨h₁, by simp⟩) (by simp)
  | store => exact h.congr rfl rfl rfl rfl hsame (fun _ h₂ _ ↦ ⟨rfl, h₂⟩) (by simp)
  | count hm | goOn hm | giveUp hm =>
    exact h.congr rfl rfl rfl rfl hsame (fun _ h₂ _ ↦ by simp [hm] at h₂) (by simp)
  | @halt t ht hm =>
    refine h.congr rfl rfl rfl rfl (fun t' ht' ↦ ⟨t, ht, ?_⟩) (fun _ h₂ _ ↦ by simp [hm] at h₂)
      (by simp)
    obtain rfl := Option.some.inj ht'
    exact ⟨rfl, by simp [Timer.halt], id⟩
  | @timeout t ht hm hfired =>
    refine h.congr rfl rfl rfl rfl (fun t' ht' ↦ ⟨t, ht, ?_⟩)
      (fun _ _ h₃ ↦ by simp [h₃ t ht] at hfired) (by simp)
    obtain rfl := Option.some.inj ht'
    exact ⟨rfl, id, fun _ ↦ rfl⟩
  | @pongStop t ht =>
    refine h.congr rfl rfl rfl rfl (fun t' ht' ↦ ⟨t, ht, ?_⟩) (fun h₁ h₂ _ ↦ ⟨h₁, h₂⟩) (by simp)
    obtain rfl := Option.some.inj ht'
    exact ⟨rfl, by simp [Timer.halt], id⟩
  | @pongDrain t ht =>
    refine h.congr rfl rfl rfl rfl (fun t' ht' ↦ ⟨t, ht, ?_⟩) (fun h₁ h₂ _ ↦ ⟨h₁, h₂⟩) (by simp)
    obtain rfl := Option.some.inj ht'
    exact ⟨rfl, id, fun _ ↦ rfl⟩
  | @clock now hnow =>
    obtain ⟨hnone, hin⟩ := htime
    have hp : ∀ t ∈ s.pingTimeout, s.pinger ≠ .starting := by
      intro t ht hp
      rw [hnone hp] at ht
      cases ht
    refine ⟨h.made, fun k hk ↦ ?_, ?_, fun hp' t ht ↦ absurd hp' (hp t ht),
      fun hp' t ht hactive ↦ ?_, fun hp' ↦ ?_⟩
    · obtain ⟨hperiod, hdue, hstamp⟩ := h.ticker k hk
      refine ⟨hperiod, ?_, fun hf ↦ ?_⟩
      · simp only
        omega
      · have := hstamp hf
        simp only
        omega
    · have := h.ticked
      simp only
      omega
    · obtain ⟨-, hpending⟩ := h.timer hp' t ht hactive
      obtain ⟨due, hdue⟩ := h.exists_pendingTick (hp t ht) hp'
      have hlate := hin due hdue
      have hbound := hpending due hdue
      refine ⟨?_, hpending⟩
      simp only
      omega
    · simpa using h.silent hp'
  | @fireTimeout t ht hactive hdue =>
    -- the timer cannot be due as long as the first goroutine goes on
    have hp : s.pinger = .ended := by
      by_contra hp
      have := (h.timer hp t ht hactive).1
      omega
    exact ⟨h.made, h.ticker, h.ticked, by simp [hp], fun hp' ↦ absurd hp hp',
      fun hp' ↦ absurd hp hp'⟩
  | @fireTicker k hk hdue =>
    obtain ⟨hperiod, hle, hstamp⟩ := h.ticker k hk
    have hpending : pendingTick { s with pingTimer := some (k.fire s.now) } = s.pendingTick := by
      simp only [pendingTick, hk]
      split
      · rfl
      · rfl
      · cases hf : k.fired <;> simp [Ticker.fire, hf]
    refine ⟨by simp, fun k' hk' ↦ ?_, h.ticked, h.starting, fun hp t ht hactive ↦ ?_, fun hp ↦ ?_⟩
    · obtain rfl := Option.some.inj hk'
      refine ⟨hperiod, hperiod ▸ due_fire_le s.now (hperiod ▸ hI), fun _ ↦ ?_⟩
      cases hf : k.fired
      · simpa [Ticker.fire, hf] using hdue
      · simpa [Ticker.fire, hf] using hstamp hf
    · rw [hpending]
      exact h.timer hp t ht hactive
    · simpa using h.silent hp
  | newTicker hp =>
    refine ⟨by simp, fun k hk ↦ ?_, h.ticked, by simp, fun _ t ht hactive ↦ ?_, fun _ ↦ ?_⟩
    · obtain rfl := Option.some.inj hk
      simp [Ticker.new]
    · have hdue := h.starting hp t ht hactive
      refine ⟨(h.timer (by simp [hp]) t ht hactive).1, fun due hpending ↦ ?_⟩
      obtain rfl := Option.some.inj hpending
      simp only [Ticker.new]
      simp
      omega
    · simpa using h.silent (by simp [hp])
  | ping hp =>
    refine ⟨fun _ ↦ h.made (by simp [hp]), h.ticker, h.ticked, by simp, fun _ ↦ ?_, fun _ ↦ ?_⟩
    · simpa [pendingTick, hp] using h.timer (by simp [hp])
    · simpa using h.silent (by simp [hp])
  | @tick k hk hp hfired =>
    obtain ⟨hperiod, hle, hstamp⟩ := h.ticker k hk
    refine ⟨by simp, fun k' hk' ↦ ?_, hstamp hfired, by simp, fun _ ↦ ?_, fun _ ↦ ?_⟩
    · obtain rfl := Option.some.inj hk'
      exact ⟨hperiod, hle, by simp [Ticker.receive]⟩
    · simpa [pendingTick, hp, hk, hfired] using h.timer (by simp [hp])
    · simpa using h.silent (by simp [hp])
  | @stop t ht hp =>
    have hmade := h.made (by simp [hp])
    obtain ⟨hfired, hrest⟩ := h.silent (by simp [hp])
    refine ⟨fun _ ↦ hmade, h.ticker, h.ticked, fun hp' ↦ ?_, fun _ t' ht' hactive ↦ ?_,
      fun _ ↦ ⟨?_, ?_⟩⟩
    · simp only at hp'
      split_ifs at hp'
    · simp [← Option.some.inj ht', Timer.halt] at hactive
    · exact fun t' ht' ↦ Option.some.inj ht' ▸ hfired t ht
    · simpa using hrest
  | @drain t ht hp =>
    have hmade := h.made (by simp [hp])
    obtain ⟨-, hrest⟩ := h.silent (by simp [hp])
    refine ⟨fun _ ↦ hmade, h.ticker, h.ticked, by simp, fun _ t' ht' hactive ↦ ?_, fun _ ↦ ⟨?_, ?_⟩⟩
    · simp [← Option.some.inj ht', Timer.receive, hs.active_of_draining ht hp] at hactive
    · exact fun t' ht' ↦ Option.some.inj ht' ▸ rfl
    · simpa using hrest
  | @reset t ht hp =>
    have hmade := h.made (by simp [hp])
    obtain ⟨hfired, hrest⟩ := h.silent (by simp [hp])
    refine ⟨fun _ ↦ hmade, h.ticker, h.ticked, by simp, fun _ t' ht' _ ↦ ?_, fun _ ↦ ⟨?_, ?_⟩⟩
    · obtain rfl := Option.some.inj ht'
      refine ⟨by simp only [Timer.restart]; omega, fun due hdue ↦ ?_⟩
      have := h.pendingTick_le hI due (by simpa [pendingTick, hp] using hdue)
      simp only [Timer.restart]
      omega
    · exact fun t' ht' ↦ Option.some.inj ht' ▸ hfired t ht
    · simpa using hrest
  | closePinger hp =>
    exact ⟨fun _ ↦ h.made (by simp [hp]), h.ticker, h.ticked, by simp, by simp, by simp⟩
  | newTimer hm =>
    refine ⟨h.made, h.ticker, h.ticked, fun _ t ht _ ↦ ?_, fun _ t ht _ ↦ ?_, fun hp ↦ ?_⟩
    · obtain rfl := Option.some.inj ht
      exact le_rfl
    · obtain rfl := Option.some.inj ht
      refine ⟨by simp only [Timer.new]; omega, fun due hdue ↦ ?_⟩
      have := h.pendingTick_le hI due hdue
      simp only [Timer.new]
      omega
    · obtain ⟨-, hfailure, -, hls⟩ := h.silent hp
      exact ⟨fun t ht ↦ Option.some.inj ht ▸ rfl, hfailure, by simp, by simpa using hls⟩

/-- **Pings never time out when the timeout is longer than the interval**, whether they are answered
or not: as long as the first goroutine has not returned and is in time, the timer does not fire, and
nothing is counted. -/
theorem never_times_out (hfits : config.checkConfig.Fits)
    (hlt : config.checkConfig.pingInterval < config.checkConfig.pingTimeout)
    (h : ((system config).restrict (InTime config.checkConfig)).Run ls s) (hp : s.pinger ≠ .ended) :
    .fireTimeout ∉ ls ∧ s.pingFailure = 0 ∧
      (s.monitor = .starting ∨ s.monitor = .waiting ∨ s.monitor = .ended) := by
  have hI := PingConfig.interval_pos hfits
  have hlt := (PingConfig.interval_lt_timeout_iff hfits).mpr hlt
  have hinv : s.Sound ∧ Ahead config.checkConfig ls s := by
    refine h.history_invariant (motive := fun ls s ↦ s.Sound ∧ Ahead config.checkConfig ls s) ?_ ?_
    · rintro _ ⟨now, rfl⟩
      exact ⟨new_sound now, by simp [new], by simp [new], le_rfl, by simp [new], by simp [new],
        by simp [new]⟩
    · rintro ls s a s' ⟨hs, hahead⟩ ⟨hstep, htime⟩
      have ho := step_outcome hstep
      exact ⟨hs.step ho, hahead.step hs hI hlt ho htime⟩
  obtain ⟨-, hfailure, hmonitor, hls⟩ := hinv.2.silent hp
  exact ⟨hls, hfailure, hmonitor⟩

/-- Three pings without an answer, at a threshold of one. -/
theorem never_times_out_three : ∃ ls s,
    ((system ⟨1, 1, 2⟩).restrict (InTime (PingConfig.checkConfig ⟨1, 1, 2⟩))).Run ls s ∧
      unanswered ls = 3 ∧ s.pinger = .waiting ∧ s.pingFailure = 0 := by
  obtain ⟨s, hr, hs⟩ := TransitionSystem.exists_run_from
    (S := (system ⟨1, 1, 2⟩).restrict (InTime (PingConfig.checkConfig ⟨1, 1, 2⟩)))
    (fun _ _ _ ↦ TransitionSystem.step_of_guarded _ _ _) (s := new 0)
    (l := [.newTicker, .newTimer, .ping, .clock 1900000000, .fireTicker, .tick, .stop, .reset,
      .ping, .clock 2500000000, .fireTicker, .tick, .stop, .reset, .ping])
    (p := fun s ↦ s.pinger = .waiting) ⟨0, rfl⟩ (by decide +kernel)
  have hp : s.pinger = .waiting := of_decide_eq_true hs
  exact ⟨_, s, hr, rfl, hp, (never_times_out (by decide) (by decide) hr (by simp [hp])).2.1⟩

end

end Heartbeat
end ClusteredBigCache
