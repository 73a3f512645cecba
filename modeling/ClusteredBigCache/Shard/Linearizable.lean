import ClusteredBigCache.Lib.Linearizable
import ClusteredBigCache.Shard.View

/-!
# A shard under concurrent calls

`set`, `get` and `del` release the lock of the shard before they are done: `set` has yet to put the
timestamp of its entry into the expiry index, `del` has yet to remove it from there, and `get` has
yet to copy the value.  The goroutine of the index takes timestamps out of it and then evicts their
entries.  `ShardCalls` is a shard with any number of such calls half-way, in any order.

`linearizable` says that the shard is linearizable all the same: whatever the calls return, they
could have returned it one after the other, each at once, on a table of entries, in the order in
which they held the lock, where an eviction counts as a call too.  What the index contains when a
call gets to it does not matter for this; but what a `get` is about to copy does, so a `set` must
not be given a block that overlaps the slice of a `get` that is under way (`Careful`).  That the
code does not see to this is `torn_get`.
-/

set_option autoImplicit false

namespace ClusteredBigCache

/-! ## The parts under the lock -/

namespace CacheShard

variable {T M : Type} [OrderedMap T ℤ Ptr] {s s' : CacheShard T M} {m : Table} {h : UInt64}
  {key : Key}

/-- **What `get` has found under the lock** is what it returns, if the slice still shows it. -/
theorem Rep.getView_cases {r : Except CacheError Slice} (hr : s.Rep m)
    (hok : s.getView key h = .ok (s', r)) :
    s'.Rep m ∧ s'.entries = s.entries ∧
      ((∃ err, r = .error err ∧ m.get key h = .ok (.error err)) ∨
        ∃ v e, r = .ok v ∧ s.entries.Seen v e ∧ e.key.length ≤ maxKeyLength ∧
          m.get key h = .ok (.ok e.value)) := by
  rcases r with err | v
  · have hget : s.get key h = .ok (s', .error err) := by
      rw [CacheShard.get, hok]
      rfl
    obtain ⟨hres, stats, rfl⟩ := hr.eq_of_get hget
    exact ⟨hr.congr rfl rfl rfl, rfl, .inl ⟨err, rfl, hres⟩⟩
  · obtain ⟨value, timestamp, i, hb, hkey, rfl, rfl⟩ := hr.of_getView hok
    have hseen := hr.stores.inv.seen hb.live
    obtain ⟨h', hshown⟩ := hseen.shown
    have hread : readEntry _ = .ok value := readEntry_of_le hkey hshown
    have hget : s.get key h = .ok (s.hit, .ok value) := by
      rw [CacheShard.get, hok, Go.ok_bind]
      simp only
      rw [show s.hit.entries = s.entries from rfl, hread]
      rfl
    obtain ⟨hres, -⟩ := hr.eq_of_get hget
    exact ⟨hr.congr rfl rfl rfl, rfl, .inr ⟨_, _, rfl, hseen, hkey, hres⟩⟩

/-- What `del` does under the lock. -/
theorem Rep.delLocked_cases {r : Except CacheError Slice} (hr : s.Rep m)
    (hok : s.delLocked key h = .ok (s', r)) :
    s'.Rep (Function.update m h none) ∧ (∀ v f, s.entries.Seen v f → s'.entries.Seen v f) ∧
      (m h = none ∧ r = .error (.notFound key) ∨ m h ≠ none ∧ ∃ v, r = .ok v) := by
  rcases hm : m h with _ | e
  · rw [hr.delLocked_of_none hm] at hok
    obtain ⟨rfl, rfl⟩ := Prod.mk.inj (Except.ok.inj hok)
    rw [Function.update_eq_self_iff.mpr hm.symm]
    exact ⟨hr.congr rfl rfl rfl, fun _ _ ↦ id, .inl ⟨rfl, rfl⟩⟩
  · obtain ⟨i, hb⟩ := hr.block hm
    rw [(hb.readable hr).delLocked] at hok
    rcases hcb : e.callback s.onRemove h with err | cb
    · rw [hcb] at hok
      cases hok
    · rw [hcb] at hok
      obtain ⟨rfl, rfl⟩ := Prod.mk.inj (Except.ok.inj hok)
      exact ⟨hb.rep_freed hr rfl rfl rfl, fun _ _ ↦ hb.seen_freed hr, .inr ⟨by simp, _, rfl⟩⟩

variable [OrderedMap M UInt64 (Finset Key)]

/-- A `set` that stored its entry has put it into a block that does not overlap the slice, unless it
is a block of another array. -/
def Avoids (s' : CacheShard T M) (h : UInt64) (length : ℕ) (v : Slice) : Prop :=
  v.base = s'.entries.retired.length →
    (s'.index h).toNat + length ≤ v.off ∨ v.off + v.len ≤ (s'.index h).toNat

instance (s' : CacheShard T M) (h : UInt64) (length : ℕ) (v : Slice) :
    Decidable (s'.Avoids h length v) := inferInstanceAs (Decidable (_ → _))

/-- What `set` does under the lock when it stores its entry. -/
theorem Rep.setLocked_cases {entry : Bytes} {t : UInt64} {now : ℕ} (hr : s.Rep m)
    (hfit : s.entries.tail + (22 + key.length + entry.length) ≤ 2 ^ 32)
    (hok : s.setLocked key h entry t now = .ok (s', true)) :
    s'.Rep (Function.update m h (some ⟨key, entry, t⟩)) ∧
      ∀ v f, s.entries.Seen v f → s'.Avoids h (22 + key.length + entry.length) v →
        s'.entries.Seen v f := by
  obtain ⟨q₁, q₂, r, hv, ho, heq⟩ := hr.setLocked key entry t now (h := h)
  rw [heq] at hok
  rcases r with err | i
  · cases (Prod.mk.inj (Except.ok.inj hok)).2
  · obtain ⟨rfl, -⟩ := Prod.mk.inj (Except.ok.inj hok)
    obtain ⟨-, hle⟩ := ho.end_le (hv.stores hr).inv
    rw [hv.tail_eq] at hle
    have hi : (UInt32.ofNat i).toNat = i := UInt32.toNat_ofNat_of_lt' (by
      have hsize : UInt32.size = 2 ^ 32 := rfl
      omega)
    refine ⟨hv.rep_afterPush hr ho (by rw [Entry.length_data]; simp only; omega) rfl rfl rfl,
      fun v f hseen havoids ↦ (hv.seen hr hseen).pushed ho fun j hj hbase ↦ ?_⟩
    obtain rfl : i = j := Except.ok.inj hj
    have havoids := havoids hbase
    have hindex : ((s.hashmap.insert h (UInt32.ofNat i)).lookup h).getD 0 = UInt32.ofNat i := by
      rw [Finmap.lookup_insert]
      rfl
    simp only [index, hindex, hi] at havoids
    simp only [Entry.length_data]
    omega

end CacheShard

/-! ## The table as an object -/

/-- The calls, with the instant at which `set` looked at the clock. -/
inductive ShardCall
  | set (key : Key) (entry : Bytes) (duration : Int64) (issued : ℕ)
  | get (key : Key)
  | del (key : Key)
  /-- `evictDel`, which only the goroutine calls. -/
  | evict (timeStamp : UInt64) (set : Finset Key)
  deriving DecidableEq

/-- What the calls return. -/
inductive Reply
  | set (timestamp : UInt64)
  | get (r : Except CacheError Bytes)
  | del (r : Except CacheError Unit)
  | evict
  deriving DecidableEq

/-- What a call does to a table, and what it returns. -/
inductive Table.Does (hasher : Hasher) (m : Table) : ShardCall × Reply → Table → Prop
  | set {key : Key} {entry : Bytes} {duration : Int64} {issued : ℕ} :
      Does hasher m (.set key entry duration issued,
        .set (CacheShard.expiryTimestamp issued duration))
        (Function.update m (hasher key)
          (some ⟨key, entry, CacheShard.expiryTimestamp issued duration⟩))
  | get {key : Key} {r : Except CacheError Bytes} (h : m.get key (hasher key) = .ok r) :
      Does hasher m (.get key, .get r) m
  | del {key : Key} (h : m (hasher key) ≠ none) :
      Does hasher m (.del key, .del (.ok ())) (Function.update m (hasher key) none)
  | delMiss {key : Key} (h : m (hasher key) = none) :
      Does hasher m (.del key, .del (.error (.notFound key))) m
  | evict {timeStamp : UInt64} {set : Finset Key} {m' : Table}
      (h : ∀ h, m' h = if (∃ v ∈ set, hasher v = h) ∧
        (m h).map Entry.timestamp = some timeStamp then none else m h) :
      Does hasher m (.evict timeStamp set, .evict) m'

/-- A table of entries that is called sequentially. -/
def Table.object (hasher : Hasher) : TransitionSystem Table (ShardCall × Reply) where
  init m := m = fun _ ↦ none
  step := Table.Does hasher

/-! ## Calls half-way

A call takes the lock once, except that `get` copies the value from the array after it has released
it, and that `set` and `del` go on to the index, which has a lock of its own. -/

/-- Where a call is. -/
inductive ShardCalls.Task
  | idle
  /-- Before it has the lock. -/
  | called (op : ShardCall)
  /-- `get`, before it copies the value from the slice. -/
  | reading (wrappedEntry : Slice)
  /-- `set`, before it puts the timestamp into the index. -/
  | registering (timestamp : UInt64) (key : Key)
  /-- `del`, before it reads the timestamp from the slice and removes it from the index. -/
  | unregistering (key : Key) (wrappedEntry : Slice)
  | returning (r : Reply)
  deriving DecidableEq

/-- What a call has yet to do under the lock. -/
def ShardCalls.Task.call : ShardCalls.Task → Option ShardCall
  | .called op => some op
  | _ => none

/-- What a `get` is about to copy. -/
def ShardCalls.Task.view : ShardCalls.Task → Option Slice
  | .reading wrappedEntry => some wrappedEntry
  | _ => none

/-- What a call that has released the lock is going to return, unless it has yet to copy it. -/
def ShardCalls.Task.reply : ShardCalls.Task → Option Reply
  | .registering timestamp _ => some (.set timestamp)
  | .unregistering _ _ => some (.del (.ok ()))
  | .returning r => some r
  | .idle | .called _ | .reading _ => none

/-- A shard and the calls on it, which are numbered. -/
structure ShardCalls (T M : Type) where
  shard : CacheShard T M
  /-- How many calls were made. -/
  next : ℕ
  task : ℕ → ShardCalls.Task
  /-- The goroutine of the index is evicting. -/
  evicting : Bool

namespace ShardCalls

variable {T M : Type} [OrderedMap T ℤ Ptr] [OrderedMap M UInt64 (Finset Key)]

inductive Step
  | call (c : ℕ) (op : ShardCall)
  /-- The goroutine takes what there is to evict, after a fire or at the head of its loop. -/
  | evictionTake (c : ℕ) (taken : Option (UInt64 × Finset Key))
  | evictionNext (c : ℕ) (now : ℕ) (taken : Option (UInt64 × Finset Key))
  /-- The part of a call under the lock; an eviction is given the order of its keys. -/
  | locked (c : ℕ) (now : ℕ) (keys : List Key)
  /-- The rest of `get`, of `set` and of `del`. -/
  | read (c : ℕ)
  | put (c : ℕ) (now : ℕ)
  | remove (c : ℕ) (now : ℕ)
  | ret (c : ℕ) (r : Reply)

def setTask (s : ShardCalls T M) (c : ℕ) (task : Task) : ShardCalls T M :=
  { s with task := Function.update s.task c task }

/-- A new call. -/
def begin (s : ShardCalls T M) (op : ShardCall) : ShardCalls T M :=
  { s with next := s.next + 1, task := Function.update s.task s.next (.called op) }

/-- What the goroutine does next. -/
def evict (s : ShardCalls T M) (ttl : TtlManager M) : Option (UInt64 × Finset Key) → ShardCalls T M
  | none => { s with shard.ttlTable := ttl }
  | some (timeStamp, set) =>
    { s with shard.ttlTable := ttl, evicting := true }.begin (.evict timeStamp set)

/-- The part of a call under the lock, where it returns. -/
def locked (hasher : Hasher) (s : ShardCalls T M) (c : ℕ) (now : ℕ) (keys : List Key) :
    ShardCall → Option (ShardCalls T M)
  | .set key entry duration issued =>
    let expiryTimestamp := CacheShard.expiryTimestamp issued duration
    match s.shard.setLocked key (hasher key) entry expiryTimestamp now with
    | .ok (shard, true) => some ({ s with shard := shard }.setTask c
        (if duration ≠ 0 then .registering expiryTimestamp key
          else .returning (.set expiryTimestamp)))
    | .ok (shard, false) => some ({ s with shard := shard }.setTask c (.returning (.set 0)))
    | .error _ => none
  | .get key =>
    match s.shard.getView key (hasher key) with
    | .ok (shard, .ok wrappedEntry) =>
      some ({ s with shard := shard }.setTask c (.reading wrappedEntry))
    | .ok (shard, .error err) =>
      some ({ s with shard := shard }.setTask c (.returning (.get (.error err))))
    | .error _ => none
  | .del key =>
    match s.shard.delLocked key (hasher key) with
    | .ok (shard, .ok wrappedEntry) =>
      some ({ s with shard := shard }.setTask c (.unregistering key wrappedEntry))
    | .ok (shard, .error err) =>
      some ({ s with shard := shard }.setTask c (.returning (.del (.error err))))
    | .error _ => none
  | .evict timeStamp set =>
    if keys.toFinset = set then
      (s.shard.evictDel hasher timeStamp keys).toOption.map fun shard ↦
        { s with shard := shard, evicting := false }.setTask c (.returning .evict)
    else none

/-- One step of one of the calls, where it can be taken. -/
def step (hasher : Hasher) (s : ShardCalls T M) : Step → Option (ShardCalls T M)
  | .call c op =>
    match op with
    | .evict _ _ => none
    | .set .. | .get _ | .del _ => if c = s.next then some (s.begin op) else none
  | .evictionTake c taken =>
    let (ttl, taken') := s.shard.ttlTable.evictionTake
    if s.evicting = false ∧ c = s.next ∧ taken' = taken then some (s.evict ttl taken) else none
  | .evictionNext c now taken =>
    let (ttl, taken') := s.shard.ttlTable.evictionNext now
    if s.evicting = false ∧ c = s.next ∧ taken' = taken then some (s.evict ttl taken) else none
  | .locked c now keys =>
    match s.task c with
    | .called op => s.locked hasher c now keys op
    | _ => none
  | .read c =>
    match s.task c with
    | .reading wrappedEntry =>
      (readEntry (s.shard.entries.load wrappedEntry)).toOption.map fun value ↦
        s.setTask c (.returning (.get (.ok value)))
    | _ => none
  | .put c now =>
    match s.task c with
    | .registering timestamp key => some ({ s with
        shard.ttlTable := s.shard.ttlTable.put now timestamp key }.setTask c
          (.returning (.set timestamp)))
    | _ => none
  | .remove c now =>
    match s.task c with
    | .unregistering key wrappedEntry =>
      (s.shard.delFinish key wrappedEntry now).toOption.map fun shard ↦
        { s with shard := shard }.setTask c (.returning (.del (.ok ())))
    | _ => none
  | .ret c r => if s.task c = .returning r then some (s.setTask c .idle) else none

/-- A new shard, and any number of calls on it at the same time. -/
def system (T M : Type) [OrderedMap T ℤ Ptr] [OrderedMap M UInt64 (Finset Key)] (hasher : Hasher) :
    TransitionSystem (ShardCalls T M) Step :=
  .ofStep (fun s ↦ (∃ config now, CacheShard.initNewShard config now = .ok s.shard) ∧
    s.next = 0 ∧ (∀ c, s.task c = .idle) ∧ s.evicting = false) (step hasher)

/-- A `set` is given a position that fits thirty-two bits, it stores its entry, and the block it is
given does not overlap what a `get` is about to copy. -/
def Spares (hasher : Hasher) (s : ShardCalls T M) (now : ℕ) : ShardCall → Prop
  | .set key entry duration issued =>
    s.shard.entries.tail + (22 + key.length + entry.length) ≤ 2 ^ 32 ∧
    ∀ p ∈ (s.shard.setLocked key (hasher key) entry
        (CacheShard.expiryTimestamp issued duration) now).toOption,
      p.2 = true ∧ ∀ c < s.next, ∀ v ∈ (s.task c).view,
        p.1.Avoids (hasher key) (22 + key.length + entry.length) v
  | .get _ | .del _ | .evict _ _ => True

instance (hasher : Hasher) (s : ShardCalls T M) (now : ℕ) (op : ShardCall) :
    Decidable (s.Spares hasher now op) :=
  match op with
  | .set .. => inferInstanceAs (Decidable (_ ∧ ∀ _ ∈ _, _))
  | .get _ | .del _ | .evict _ _ => instDecidableTrue

/-- Every `set` spares what is about to be copied. -/
def Careful (hasher : Hasher) (s : ShardCalls T M) : Step → Prop
  | .locked c now _ => ∀ op ∈ (s.task c).call, s.Spares hasher now op
  | .call _ _ | .evictionTake _ _ | .evictionNext _ _ _ | .read _ | .put _ _ | .remove _ _
  | .ret _ _ => True

instance (hasher : Hasher) (s : ShardCalls T M) (a : Step) : Decidable (s.Careful hasher a) :=
  match a with
  | .locked .. => inferInstanceAs (Decidable (∀ _ ∈ _, _))
  | .call _ _ | .evictionTake _ _ | .evictionNext _ _ _ | .read _ | .put _ _ | .remove _ _
  | .ret _ _ => instDecidableTrue

/-! ## The simulation

The shard is related to `AtomicCalls` on the table.  The point of a call is where it has the lock,
and what a `get` will copy later is decided there, as long as nobody writes over it. -/

/-- A step as a step of an atomic object: calls take effect under the lock. -/
def proj : Step → Option (AtomicCalls.Act ℕ ShardCall Reply)
  | .call c op => some (.call c op)
  | .evictionTake c (some (t, set)) => some (.call c (.evict t set))
  | .evictionNext c _ (some (t, set)) => some (.call c (.evict t set))
  | .locked c _ _ => some (.point c)
  | .ret c r => some (.ret c r)
  | .evictionTake _ none | .evictionNext _ _ none | .read _ | .put _ _ | .remove _ _ => none

/-- The calls and what they returned. -/
def history (ls : List Step) : List (Event ℕ ShardCall Reply) :=
  (ls.filterMap proj).filterMap AtomicCalls.Act.event

/-- What a call is about to do, and what it is going to return. -/
inductive Agrees (q : BytesQueue T) : Task → AtomicCalls.Status ShardCall Reply → Prop
  | unused : Agrees q .idle .unused
  | called {op : ShardCall} : Agrees q (.called op) (.invoked op)
  /-- The slice still shows the entry. -/
  | reading {v : Slice} {e : Entry} (hseen : q.Seen v e) (hkey : e.key.length ≤ maxKeyLength) :
      Agrees q (.reading v) (.effective (.get (.ok e.value)))
  | registering {t : UInt64} {key : Key} : Agrees q (.registering t key) (.effective (.set t))
  | unregistering {key : Key} {v : Slice} :
      Agrees q (.unregistering key v) (.effective (.del (.ok ())))
  | returning {r : Reply} : Agrees q (.returning r) (.effective r)
  | returned : Agrees q .idle .returned

section

variable {hasher : Hasher} {s s' : ShardCalls T M} {t : AtomicCalls ℕ Table ShardCall Reply}
  {c : ℕ} {m : Table} {a : Step}

omit [OrderedMap T ℤ Ptr] [OrderedMap M UInt64 (Finset Key)] in
theorem Agrees.mono {q q' : BytesQueue T} {task : Task} {st : AtomicCalls.Status ShardCall Reply}
    (h : Agrees q task st) (hq : ∀ v e, task = .reading v → q.Seen v e → q'.Seen v e) :
    Agrees q' task st := by
  cases h with
  | reading hseen hkey => exact .reading (hq _ _ rfl hseen) hkey
  | unused => exact .unused
  | called => exact .called
  | registering => exact .registering
  | unregistering => exact .unregistering
  | returning => exact .returning
  | returned => exact .returned

/-- The shard represents the table, and every call is as far as it is there. -/
structure Sim (s : ShardCalls T M) (t : AtomicCalls ℕ Table ShardCall Reply) : Prop where
  rep : s.shard.Rep t.state
  fresh : ∀ c, s.next ≤ c → t.status c = .unused
  agrees : ∀ c, Agrees s.shard.entries (s.task c) (t.status c)

omit [OrderedMap M UInt64 (Finset Key)] in
/-- A slice that is about to be copied is that of a call. -/
theorem Sim.lt_next (hs : Sim s t) {v : Slice} (hc : s.task c = .reading v) : c < s.next := by
  by_contra hle
  have hagrees := hs.agrees c
  rw [hs.fresh c (not_lt.mp hle), hc] at hagrees
  cases hagrees

omit [OrderedMap M UInt64 (Finset Key)] in
/-- **One call goes on**, and leaves what the others are about to copy. -/
theorem Sim.setTask (hs : Sim s t) {shard : CacheShard T M} {task : Task} {b : Bool}
    {st : AtomicCalls.Status ShardCall Reply} (hc : t.status c ≠ .unused) (hrep : shard.Rep m)
    (hseen : ∀ c' v e, s.task c' = .reading v → s.shard.entries.Seen v e → shard.entries.Seen v e)
    (ha : Agrees shard.entries task st) :
    Sim ⟨shard, s.next, Function.update s.task c task, b⟩
      ⟨m, Function.update t.status c st⟩ where
  rep := hrep
  fresh c' hc' := by
    rcases eq_or_ne c' c with rfl | hne
    · exact absurd (hs.fresh c' hc') hc
    · exact (Function.update_of_ne hne ..).trans (hs.fresh c' hc')
  agrees c' := by
    rcases eq_or_ne c' c with rfl | hne
    · simpa using ha
    · simp only [Function.update_of_ne hne]
      exact (hs.agrees c').mono fun v e ↦ hseen c' v e

omit [OrderedMap M UInt64 (Finset Key)] in
/-- A call goes on outside of the lock. -/
theorem Sim.goOn (hs : Sim s t) {shard : CacheShard T M} {task : Task} {b : Bool}
    (hc : t.status c ≠ .unused) (hrep : shard.Rep t.state)
    (hentries : shard.entries = s.shard.entries)
    (ha : Agrees shard.entries task (t.status c)) :
    Sim ⟨shard, s.next, Function.update s.task c task, b⟩ t := by
  have hsim := hs.setTask (b := b) hc hrep (fun _ _ _ _ h ↦ hentries ▸ h) ha
  rwa [Function.update_eq_self] at hsim

omit [OrderedMap M UInt64 (Finset Key)] in
/-- A call is made. -/
theorem Sim.begin (hs : Sim s t) (op : ShardCall) :
    ∃ t', AtomicCalls.Step (Table.object hasher) t (.call s.next op) t' ∧ Sim (s.begin op) t' := by
  have hunused := hs.fresh s.next le_rfl
  refine ⟨_, .call hunused, hs.rep, fun c' hc' ↦ ?_, fun c' ↦ ?_⟩
  · have hlt : s.next < c' := hc'
    exact (Function.update_of_ne hlt.ne' ..).trans (hs.fresh c' hlt.le)
  · rcases eq_or_ne c' s.next with rfl | hne
    · simpa [ShardCalls.begin] using Agrees.called
    · simpa [ShardCalls.begin, Function.update_of_ne hne] using hs.agrees c'

omit [OrderedMap M UInt64 (Finset Key)] in
theorem Sim.status_of_called (hs : Sim s t) {op : ShardCall} (hcalled : s.task c = .called op) :
    t.status c = .invoked op := by
  have hagrees := hs.agrees c
  rw [hcalled] at hagrees
  generalize t.status c = st at hagrees
  cases hagrees
  rfl

omit [OrderedMap M UInt64 (Finset Key)] in
theorem Sim.status_of_reading (hs : Sim s t) {v : Slice} (htask : s.task c = .reading v) :
    ∃ e : Entry, t.status c = .effective (.get (.ok e.value)) ∧ s.shard.entries.Seen v e ∧
      e.key.length ≤ maxKeyLength := by
  have hagrees := hs.agrees c
  rw [htask] at hagrees
  generalize t.status c = st at hagrees
  cases hagrees with
  | reading hseen hkey => exact ⟨_, rfl, hseen, hkey⟩

omit [OrderedMap M UInt64 (Finset Key)] in
theorem Sim.status_of_reply (hs : Sim s t) {r : Reply} (htask : (s.task c).reply = some r) :
    t.status c = .effective r := by
  have hagrees := hs.agrees c
  generalize s.task c = task at hagrees htask
  generalize t.status c = st at hagrees
  cases hagrees
  all_goals
    cases htask
  all_goals rfl

/-- `set` under the lock. -/
theorem Sim.lockedSet (hs : Sim s t) {key : Key} {entry : Bytes} {duration : Int64}
    {issued now : ℕ} {keys : List Key}
    (hcalled : s.task c = .called (.set key entry duration issued))
    (hspares : s.Spares hasher now (.set key entry duration issued))
    (h : s.locked hasher c now keys (.set key entry duration issued) = some s') :
    ∃ t', AtomicCalls.Step (Table.object hasher) t (.point c) t' ∧ Sim s' t' := by
  have hstatus := hs.status_of_called hcalled
  obtain ⟨hfit, hstored⟩ := hspares
  rw [ShardCalls.locked] at h
  split at h
  · next shard hset =>
    obtain rfl := Option.some.inj h
    obtain ⟨-, havoids⟩ := hstored _ (Go.toOption_eq_some.mpr hset)
    obtain ⟨hrep, hseen⟩ := hs.rep.setLocked_cases hfit hset
    refine ⟨_, .point hstatus .set, hs.setTask (by simp [hstatus]) hrep ?_ ?_⟩
    · intro c' v e hv hsee
      exact hseen v e hsee (havoids c' (hs.lt_next hv) v (by simp [Task.view, hv]))
    · split_ifs
      · exact .registering
      · exact .returning
  · next shard hset =>
    cases (hstored _ (Go.toOption_eq_some.mpr hset)).1
  · cases h

/-- `get` under the lock. -/
theorem Sim.lockedGet (hs : Sim s t) {key : Key} {now : ℕ} {keys : List Key}
    (hcalled : s.task c = .called (.get key))
    (h : s.locked hasher c now keys (.get key) = some s') :
    ∃ t', AtomicCalls.Step (Table.object hasher) t (.point c) t' ∧ Sim s' t' := by
  have hstatus := hs.status_of_called hcalled
  rw [ShardCalls.locked] at h
  split at h
  · next shard v hget =>
    obtain rfl := Option.some.inj h
    obtain ⟨hrep, hentries, ⟨err, herr, -⟩ | ⟨v', e, hv, hseen, hkey, hres⟩⟩ :=
      hs.rep.getView_cases hget
    · cases herr
    · cases hv
      exact ⟨_, .point hstatus (.get hres), hs.setTask (by simp [hstatus]) hrep
        (fun _ _ _ _ h ↦ hentries.symm ▸ h) (.reading (hentries.symm ▸ hseen) hkey)⟩
  · next shard err hget =>
    obtain rfl := Option.some.inj h
    obtain ⟨hrep, hentries, ⟨err', herr, hres⟩ | ⟨v', e, hv, -⟩⟩ := hs.rep.getView_cases hget
    · cases herr
      exact ⟨_, .point hstatus (.get hres), hs.setTask (by simp [hstatus]) hrep
        (fun _ _ _ _ h ↦ hentries.symm ▸ h) .returning⟩
    · cases hv
  · cases h

/-- `del` under the lock. -/
theorem Sim.lockedDel (hs : Sim s t) {key : Key} {now : ℕ} {keys : List Key}
    (hcalled : s.task c = .called (.del key))
    (h : s.locked hasher c now keys (.del key) = some s') :
    ∃ t', AtomicCalls.Step (Table.object hasher) t (.point c) t' ∧ Sim s' t' := by
  have hstatus := hs.status_of_called hcalled
  rw [ShardCalls.locked] at h
  split at h
  · next shard v hdel =>
    obtain rfl := Option.some.inj h
    obtain ⟨hrep, hseen, ⟨-, herr⟩ | ⟨hm, -⟩⟩ := hs.rep.delLocked_cases hdel
    · cases herr
    · exact ⟨_, .point hstatus (.del hm), hs.setTask (by simp [hstatus]) hrep
        (fun _ v e _ ↦ hseen v e) .unregistering⟩
  · next shard err hdel =>
    obtain rfl := Option.some.inj h
    obtain ⟨hrep, hseen, ⟨hm, herr⟩ | ⟨-, v, hv⟩⟩ := hs.rep.delLocked_cases hdel
    · cases herr
      rw [Function.update_eq_self_iff.mpr hm.symm] at hrep
      exact ⟨_, .point hstatus (.delMiss hm), hs.setTask (by simp [hstatus]) hrep
        (fun _ v e _ ↦ hseen v e) .returning⟩
    · cases hv
  · cases h

/-- An eviction. -/
theorem Sim.lockedEvict (hs : Sim s t) {timeStamp : UInt64} {set : Finset Key} {now : ℕ}
    {keys : List Key} (hcalled : s.task c = .called (.evict timeStamp set))
    (h : s.locked hasher c now keys (.evict timeStamp set) = some s') :
    ∃ t', AtomicCalls.Step (Table.object hasher) t (.point c) t' ∧ Sim s' t' := by
  have hstatus := hs.status_of_called hcalled
  obtain ⟨hset, hmap⟩ := Option.ite_none_right_eq_some.mp h
  obtain ⟨shard, hok, rfl⟩ := Option.map_eq_some_iff.mp hmap
  subst hset
  have hevict := Go.toOption_eq_some.mp hok
  refine ⟨_, .point hstatus (.evict fun h ↦ ?_), hs.setTask (by simp [hstatus])
    (hs.rep.evictDel hevict).1 (fun _ v e _ hseen ↦ ?_) .returning⟩
  · rw [Table.foldl_evictKey]
    simp
  · have hwatched : s.shard.Watched v e := ⟨hseen, fun _ ↦ ⟨_, hs.rep⟩⟩
    exact (hwatched.evictDel hs.rep hevict).seen

omit [OrderedMap M UInt64 (Finset Key)] in
/-- The goroutine takes what there is to evict, and begins to evict it. -/
theorem Sim.evict (hs : Sim s t) (ttl : TtlManager M) (timeStamp : UInt64) (set : Finset Key) :
    ∃ t', AtomicCalls.Step (Table.object hasher) t (.call s.next (.evict timeStamp set)) t' ∧
      Sim (s.evict ttl (some (timeStamp, set))) t' := by
  have hs' : Sim { s with shard.ttlTable := ttl, evicting := true } t :=
    ⟨hs.rep.congr rfl rfl rfl, hs.fresh, hs.agrees⟩
  exact hs'.begin (.evict timeStamp set)

/-- **A step that is seen** is that step of the object. -/
theorem Sim.seen (hs : Sim s t) {b : AtomicCalls.Act ℕ ShardCall Reply}
    (h : s.step hasher a = some s') (hcareful : Careful hasher s a) (ha : proj a = some b) :
    ∃ t', AtomicCalls.Step (Table.object hasher) t b t' ∧ Sim s' t' := by
  match a with
  | .call c op =>
    cases ha
    obtain ⟨rfl, rfl⟩ : c = s.next ∧ s.begin op = s' := by
      rcases op with _ | _ | _ | _
      all_goals simp_all [ShardCalls.step]
    exact hs.begin op
  | .evictionTake c (some (timeStamp, set)) =>
    cases ha
    obtain ⟨⟨-, rfl, -⟩, hs'⟩ := Option.ite_none_right_eq_some.mp h
    exact Option.some.inj hs' ▸ hs.evict _ timeStamp set
  | .evictionNext c now (some (timeStamp, set)) =>
    cases ha
    obtain ⟨⟨-, rfl, -⟩, hs'⟩ := Option.ite_none_right_eq_some.mp h
    exact Option.some.inj hs' ▸ hs.evict _ timeStamp set
  | .locked c now keys =>
    cases ha
    rw [ShardCalls.step] at h
    split at h
    · next op hcalled =>
      match op with
      | .set _ _ _ _ => exact hs.lockedSet hcalled (hcareful _ (by rw [hcalled]; rfl)) h
      | .get _ => exact hs.lockedGet hcalled h
      | .del _ => exact hs.lockedDel hcalled h
      | .evict _ _ => exact hs.lockedEvict hcalled h
    · cases h
  | .ret c r =>
    cases ha
    obtain ⟨htask, h⟩ := Option.ite_none_right_eq_some.mp h
    obtain rfl := Option.some.inj h
    have hstatus := hs.status_of_reply (c := c) (r := r) (by rw [htask]; rfl)
    exact ⟨_, .ret hstatus, hs.setTask (by simp [hstatus]) hs.rep (fun _ _ _ _ ↦ id) .returned⟩

/-- **A step that is not seen** does not change what a call is going to return. -/
theorem Sim.hidden (hs : Sim s t) (h : s.step hasher a = some s') (ha : proj a = none) :
    Sim s' t := by
  match a with
  | .evictionTake c none =>
    obtain ⟨-, h⟩ := Option.ite_none_right_eq_some.mp h
    exact Option.some.inj h ▸ ⟨hs.rep.congr rfl rfl rfl, hs.fresh, hs.agrees⟩
  | .evictionNext c now none =>
    obtain ⟨-, h⟩ := Option.ite_none_right_eq_some.mp h
    exact Option.some.inj h ▸ ⟨hs.rep.congr rfl rfl rfl, hs.fresh, hs.agrees⟩
  | .read c =>
    rw [ShardCalls.step] at h
    split at h
    · next v htask =>
      obtain ⟨value, hread, rfl⟩ := Option.map_eq_some_iff.mp h
      obtain ⟨e, hst, hseen, hkey⟩ := hs.status_of_reading htask
      -- the value is copied as it was when the lock was held
      obtain ⟨h', hshown⟩ := hseen.shown
      have hvalue : readEntry _ = .ok e.value := readEntry_of_le hkey hshown
      obtain rfl := Except.ok.inj (hvalue.symm.trans (Go.toOption_eq_some.mp hread))
      exact hs.goOn (by simp [hst]) hs.rep rfl (hst ▸ .returning)
    · cases h
  | .put c now =>
    rw [ShardCalls.step] at h
    split at h
    · next timestamp key htask =>
      obtain rfl := Option.some.inj h
      have hst := hs.status_of_reply (c := c) (by rw [htask]; rfl)
      exact hs.goOn (by simp [hst]) (hs.rep.congr rfl rfl rfl) rfl (hst ▸ .returning)
    · cases h
  | .remove c now =>
    rw [ShardCalls.step] at h
    split at h
    · next key v htask =>
      obtain ⟨shard, hfinish, rfl⟩ := Option.map_eq_some_iff.mp h
      have hst := hs.status_of_reply (c := c) (by rw [htask]; rfl)
      obtain ⟨timestamp, -, hshard⟩ := Go.bind_eq_ok.mp (Go.toOption_eq_some.mp hfinish)
      obtain rfl := Except.ok.inj hshard
      exact hs.goOn (by simp [hst]) (hs.rep.congr rfl rfl rfl) rfl (hst ▸ .returning)
    · cases h

/-- **A shard is linearizable**, as long as no `set` is given a block that a `get` is about to copy:
whatever the calls return, they could have returned one after the other on a table of entries. -/
theorem linearizable {ls : List Step}
    (hr : ((system T M hasher).restrict (Careful hasher)).Run ls s) :
    Linearizable (Table.object hasher) (history ls) := by
  obtain ⟨t, ht, -⟩ : ∃ t, (AtomicCalls.atomic ℕ (Table.object hasher)).Run (ls.filterMap proj) t ∧
      Sim s t := by
    refine TransitionSystem.Run.simulate ?_ ?_ ?_ hr
    · rintro s ⟨⟨config, now, hnew⟩, -, hidle, -⟩
      refine ⟨⟨fun _ ↦ none, fun _ ↦ .unused⟩, ⟨rfl, fun _ ↦ rfl⟩,
        (CacheShard.initNewShard_spec hnew).1, fun _ _ ↦ rfl, fun c ↦ ?_⟩
      rw [hidle c]
      exact .unused
    · exact fun s a s' t b hs hstep ha ↦ hs.seen hstep.1 hstep.2 ha
    · exact fun s a s' t hs hstep ha ↦ hs.hidden hstep.1 ha
  exact AtomicCalls.linearizable_of_atomic ht

/-- A `get` has found its entry when the key is deleted, and returns it after the `del` has
returned; another key is set and expires in the meantime. -/
theorem linearizable_overlapping :
    ∃ (ls : List Step) (s : ShardCalls (SortedAssoc ℤ Ptr) (SortedAssoc UInt64 (Finset Key))),
      ((system _ _ lengthHasher).restrict (Careful lengthHasher)).Run ls s ∧
      history ls = [.call 0 (.set [1] [7, 7] 0 0), .ret 0 (.set 0), .call 1 (.get [1]),
        .call 2 (.del [1]), .call 3 (.set [2, 2] [8, 8, 8] 1000000000 0), .ret 3 (.set 1),
        .ret 2 (.del (.ok ())), .call 4 (.evict 1 {[2, 2]}), .ret 1 (.get (.ok [7, 7])),
        .ret 4 .evict, .call 5 (.get [2, 2]), .ret 5 (.get (.error (.notFound [2, 2])))] ∧
      Linearizable (Table.object lengthHasher) (history ls) := by
  obtain ⟨s, hr, -⟩ := TransitionSystem.exists_run
    (S := (system (SortedAssoc ℤ Ptr) (SortedAssoc UInt64 (Finset Key)) lengthHasher).restrict
      (Careful lengthHasher))
    TransitionSystem.step_of_guarded
    (x := (CacheShard.initNewShard smallConfig 0).toOption.map fun shard ↦
      ⟨shard, 0, fun _ ↦ .idle, false⟩)
    (l := [.call 0 (.set [1] [7, 7] 0 0), .locked 0 0 [], .ret 0 (.set 0), .call 1 (.get [1]),
      .locked 1 0 [], .call 2 (.del [1]), .locked 2 0 [],
      .call 3 (.set [2, 2] [8, 8, 8] 1000000000 0), .locked 3 0 [], .put 3 0, .ret 3 (.set 1),
      .remove 2 0, .ret 2 (.del (.ok ())), .evictionTake 4 (some (1, {[2, 2]})),
      .locked 4 0 [[2, 2]], .read 1, .ret 1 (.get (.ok [7, 7])), .ret 4 .evict,
      .call 5 (.get [2, 2]), .locked 5 0 [], .ret 5 (.get (.error (.notFound [2, 2])))])
    (p := fun _ ↦ true)
    (fun s hs ↦ by
      obtain ⟨shard, hshard, rfl⟩ := Option.map_eq_some_iff.mp hs
      exact ⟨⟨_, _, Go.toOption_eq_some.mp hshard⟩, rfl, fun _ ↦ rfl, rfl⟩) (by decide +kernel)
  exact ⟨_, s, hr, rfl, linearizable hr⟩

end

end ShardCalls
end ClusteredBigCache
