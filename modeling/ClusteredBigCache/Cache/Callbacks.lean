import ClusteredBigCache.Cache.Frame

/-!
# What is reported to the callback

A cache with a callback reports each entry that a `Delete` or an eviction takes out.  The bytes it
reports are read from the array just before they are freed.

`Trace` says what the calls of one shard should be, from the calls on the cache alone: an operation
adds one call for each entry that it takes out, with the key and the value the entry was set with,
and nothing else adds any.  `callbacks_exact` says that this is what happens, in every run in which
each `Set` stores its entry at a position and with a length that fit thirty-two bits.  In
`callback_wraps` the length does not fit, and an empty value is reported in place of one of
`2 ^ 32` bytes.
-/

set_option autoImplicit false

namespace ClusteredBigCache

/-- The call takes out entries, and reports them. -/
def BigCache.Op.Removes : BigCache.Op → Prop
  | .delete .. | .evict .. => True
  | .set .. | .get .. => False

/-- The key of a `Set` is not too long. -/
def BigCache.Op.ShortKey : BigCache.Op → Prop
  | .set key _ _ _ => key.length ≤ maxKeyLength
  | _ => True

instance (op : BigCache.Op) : Decidable op.ShortKey :=
  match op with
  | .set .. => inferInstanceAs (Decidable (_ ≤ _))
  | .get _ | .delete .. | .evict .. => instDecidableTrue

/-! ## What one call on a shard reports

`Reports` compares two tables, so it can be put together: when the calls of one round of `evictDel`
report what has gone from a table, those of all rounds do. -/

namespace Table

variable {m m₁ : Table} {hasher : Hasher} {new : List (Key × Bytes)} {h : UInt64} {e : Entry}

/-- Each entry is stored under the hash of its key, and the key is not too long. -/
def Keyed (m : Table) (hasher : Hasher) : Prop :=
  ∀ h e, m h = some e → hasher e.key = h ∧ e.key.length ≤ maxKeyLength

/-- The calls report exactly what has gone from a table, one call for a key. -/
structure Reports (m m' : Table) (new : List (Key × Bytes)) : Prop where
  le : ∀ h, m' h = m h ∨ m' h = none
  nodup : (new.map Prod.fst).Nodup
  mem : ∀ k v, (k, v) ∈ new ↔ ∃ h e, m h = some e ∧ m' h = none ∧ e.key = k ∧ e.value = v

theorem Reports.refl (m : Table) : m.Reports m [] where
  le _ := .inl rfl
  nodup := List.nodup_nil
  mem k v := by
    refine iff_of_false List.not_mem_nil ?_
    rintro ⟨h, e, hm, hm', -⟩
    rw [hm] at hm'
    cases hm'

/-- One more entry is taken out and reported. -/
theorem Reports.erase (hr : m.Reports m₁ new) (hkeyed : m.Keyed hasher) (hm₁ : m₁ h = some e) :
    m.Reports (Function.update m₁ h none) ((e.key, e.value) :: new) := by
  have hm : m h = some e := by
    rcases hr.le h with heq | heq
    · exact heq ▸ hm₁
    · rw [heq] at hm₁
      cases hm₁
  refine ⟨fun h' ↦ ?_, ?_, fun k v ↦ ?_⟩
  · by_cases hh : h' = h
    · exact .inr (hh ▸ Function.update_self _ _ _)
    · rw [Function.update_of_ne hh]
      exact hr.le h'
  · rw [List.map_cons, List.nodup_cons]
    refine ⟨fun hmem ↦ ?_, hr.nodup⟩
    -- an entry with the same key would have the same hash, and that entry is still there
    obtain ⟨⟨k, v⟩, hkv, hk⟩ := List.mem_map.mp hmem
    obtain rfl : k = e.key := hk
    obtain ⟨h', e', hm', hgone, hk, -⟩ := (hr.mem e.key v).mp hkv
    obtain rfl : h' = h := by rw [← (hkeyed h' e' hm').1, ← (hkeyed h e hm).1, hk]
    rw [hm₁] at hgone
    cases hgone
  · rw [List.mem_cons, hr.mem]
    constructor
    · rintro (heq | ⟨h', e', hm', hgone, hkv⟩)
      · obtain ⟨rfl, rfl⟩ := Prod.mk.inj heq
        exact ⟨h, e, hm, Function.update_self _ _ _, rfl, rfl⟩
      · refine ⟨h', e', hm', ?_, hkv⟩
        rw [Function.update_apply, hgone, ite_self]
    · rintro ⟨h', e', hm', hgone, rfl, rfl⟩
      by_cases hh : h' = h
      · subst hh
        obtain rfl := Option.some.inj (hm'.symm.trans hm)
        exact .inl rfl
      · rw [Function.update_of_ne hh] at hgone
        exact .inr ⟨h', e', hm', hgone, rfl, rfl⟩

theorem Keyed.of_reports (hkeyed : m.Keyed hasher) (hr : m.Reports m₁ new) :
    m₁.Keyed hasher := by
  intro h e hm₁
  rcases hr.le h with heq | heq
  · exact hkeyed h e (heq ▸ hm₁)
  · rw [heq] at hm₁
    cases hm₁

theorem Keyed.part (hkeyed : m.Keyed hasher) (mask : UInt64) (i : ℕ) :
    (m.part mask i).Keyed hasher := fun h e he ↦ hkeyed h e (part_eq_some.mp he).2

/-- A call that takes out entries puts none in. -/
theorem run_of_removes (m : Table) (hasher : Hasher) (mask : UInt64) {op : BigCache.Op}
    (hop : op.Removes) (h : UInt64) :
    m.run hasher mask op h = m h ∨ m.run hasher mask op h = none := by
  cases op with
  | set | get => cases hop
  | delete key now =>
    rw [run, Function.update_apply]
    split_ifs
    · exact .inr rfl
    · exact .inl rfl
  | evict i t keys =>
    simp only [run]
    split_ifs
    · exact .inr rfl
    · exact .inl rfl

/-- A call keeps the table keyed, when a `Set` has a key that is not too long. -/
theorem Keyed.run (hkeyed : m.Keyed hasher) (mask : UInt64) {op : BigCache.Op}
    (hop : op.ShortKey) : (m.run hasher mask op).Keyed hasher := by
  intro h e hm
  have hremoves : op.Removes → hasher e.key = h ∧ e.key.length ≤ maxKeyLength := by
    intro hremoves
    rcases run_of_removes m hasher mask hremoves h with heq | heq
    · exact hkeyed h e (heq ▸ hm)
    · rw [heq] at hm
      cases hm
  cases op with
  | set key entry duration now =>
    rw [Table.run, Function.update_apply] at hm
    split_ifs at hm with hh
    · obtain rfl := Option.some.inj hm
      exact ⟨hh.symm, hop⟩
    · exact hkeyed h e hm
  | get key => exact hkeyed h e hm
  | delete key now => exact hremoves trivial
  | evict i t keys => exact hremoves trivial

end Table

namespace CacheShard

variable {T M : Type} [OrderedMap T ℤ Ptr] {s s' : CacheShard T M} {m : Table} {hasher : Hasher}

/-- **What `evictDel` reports.** -/
theorem Rep.reports_evictDel {t : UInt64} {keys : List Key} (hr : s.Rep m)
    (hkeyed : m.Keyed hasher) (hon : s.onRemove = true)
    (hok : s.evictDel hasher t keys = .ok s') :
    ∃ new, s'.callbacks = new ++ s.callbacks ∧
      m.Reports (keys.foldl (Table.evictKey hasher t) m) new := by
  refine (hr.evictDel_induction (P := fun s₁ m₁ ↦ s₁.onRemove = true ∧
    ∃ new, s₁.callbacks = new ++ s.callbacks ∧ m.Reports m₁ new) ?_
    ⟨hon, [], rfl, .refl m⟩ hok).2.2
  rintro s₁ m₁ v s₂ hr₁ ⟨hon₁, new, hcalls, hreports⟩ ho
  cases ho with
  | kept hm =>
    rw [Table.evictKey_of_ne hm]
    exact ⟨hon₁, new, hcalls, hreports⟩
  | @removed stats e i cb hm ht hb hcb =>
    have hkey := (hkeyed.of_reports hreports _ e hm).2
    rw [Entry.callback_of_le hkey, hon₁, if_pos rfl] at hcb
    obtain rfl := Except.ok.inj hcb
    rw [Table.evictKey_of_eq hm ht]
    refine ⟨hon₁, (e.key, e.value) :: new, ?_, hreports.erase hkeyed hm⟩
    exact congrArg ((e.key, e.value) :: ·) hcalls

variable [OrderedMap M UInt64 (Finset Key)]

/-- **What `del` reports.** -/
theorem Rep.reports_del {key : Key} {now : ℕ} {r : Except CacheError Unit} (hr : s.Rep m)
    (hkeyed : m.Keyed hasher) (hon : s.onRemove = true)
    (hok : s.del key (hasher key) now = .ok (s', r)) :
    ∃ new, s'.callbacks = new ++ s.callbacks ∧
      m.Reports (Function.update m (hasher key) none) new := by
  cases hm : m (hasher key) with
  | none =>
    rw [hr.del_of_none hm] at hok
    obtain ⟨rfl, -⟩ := Prod.mk.inj (Except.ok.inj hok)
    rw [Function.update_eq_self_iff.mpr hm.symm]
    exact ⟨[], rfl, .refl m⟩
  | some e =>
    obtain ⟨i, hb⟩ := hr.block hm
    rw [(hb.readable hr).del, Entry.callback_of_le (hkeyed _ e hm).2, hon, if_pos rfl] at hok
    obtain ⟨rfl, -⟩ := Prod.mk.inj (Except.ok.inj hok)
    exact ⟨[(e.key, e.value)], rfl, (Table.Reports.refl m).erase hkeyed hm⟩

/-- **A value of `2 ^ 32` bytes is read as an empty one**, as its header has no bit for it. -/
theorem Rep.set_wraps {s : CacheShard T M} {m : Table} (hr : s.Rep m)
    (hmax : s.entries.maxCapacity = 0) (htail : s.entries.tail < 2 ^ 32) (key : Key)
    (hkey : key.length ≤ maxKeyLength) (h : UInt64) {entry : Bytes}
    (hentry : entry.length = 2 ^ 32) (duration : Int64) (now : ℕ) :
    ∃ s' i, s.set key h entry duration now = .ok (s', .ok (expiryTimestamp now duration)) ∧
      s'.Readable h ⟨key, [], expiryTimestamp now duration⟩ i ∧ s'.onRemove = s.onRemove ∧
      s'.callbacks = s.callbacks := by
  obtain ⟨s', r, hset, ho⟩ := hr.set_cases key entry duration now (h := h)
  obtain ⟨hunlocked, -⟩ := ho.unlocked hr hmax.le
  cases ho with
  | full => cases hunlocked
  | @stored q₁ q₂ i buffer hv ho =>
    have hinv := (hv.stores hr).inv
    have hi := (ho.end_le hinv).2
    rw [hv.tail_eq] at hi
    have hdata : Entry.data h ⟨key, entry, expiryTimestamp now duration⟩ =
        Entry.data h ⟨key, [], expiryTimestamp now duration⟩ ++ entry := by
      simp [Entry.data, wrapped]
    have hkey' : key.length ≤ 65517 := hkey
    have hlen : (Entry.data h ⟨key, [], expiryTimestamp now duration⟩).length =
        18 + key.length := by rw [Entry.length_data]; rfl
    rw [hdata] at ho
    refine ⟨_, UInt32.ofNat i, hset, ⟨Finmap.lookup_insert _, hunlocked, ?_⟩, rfl, rfl⟩
    have htoNat : (UInt32.ofNat i).toNat = i := UInt32.toNat_ofNat_of_lt' (hi.trans_lt htail)
    rw [htoNat]
    exact ho.framed_of_wrap hinv (by omega) (by omega) hentry

end CacheShard

namespace BigCache

variable {T M : Type} [OrderedMap T ℤ Ptr] [OrderedMap M UInt64 (Finset Key)]

/-- **What a call on a shard reports**: nothing, unless it takes out entries. -/
theorem Passed.reports {hash : Hasher} {s s' : CacheShard T M} {op : Op} {m : Table}
    {mask : UInt64} (hp : Passed hash s s' op) (hr : s.Rep (m.part mask (op.target hash mask)))
    (hkeyed : m.Keyed hash) (hon : s.onRemove = true) :
    ∃ new, s'.callbacks = new ++ s.callbacks ∧ (¬ op.Removes → new = []) ∧
      (op.Removes → (m.part mask (op.target hash mask)).Reports
        ((m.run hash mask op).part mask (op.target hash mask)) new) := by
  have hpart := hkeyed.part mask (op.target hash mask)
  cases hp with
  | @set key entry duration now r h =>
    obtain ⟨s₁, r₁, hset, ho⟩ := hr.set_cases key entry duration now (h := hash key)
    obtain ⟨rfl, rfl⟩ := Prod.mk.inj (Except.ok.inj (hset.symm.trans h))
    refine ⟨[], ?_, fun _ ↦ rfl, False.elim⟩
    cases ho <;> rfl
  | get h =>
    obtain ⟨-, stats, rfl⟩ := hr.eq_of_get h
    exact ⟨[], rfl, fun _ ↦ rfl, False.elim⟩
  | delete h =>
    obtain ⟨new, hcalls, hreports⟩ := hr.reports_del hpart hon h
    refine ⟨new, hcalls, fun hno ↦ absurd trivial hno, fun _ ↦ ?_⟩
    rw [Table.run, Op.target, Table.part_update_self]
    exact hreports
  | @evict i t keys ttl _ _ h =>
    obtain ⟨new, hcalls, hreports⟩ := (hr.withTtl ttl).reports_evictDel hpart hon h
    refine ⟨new, hcalls, fun hno ↦ absurd trivial hno, fun _ ↦ ?_⟩
    rw [Op.target, Table.part_run_evict_self]
    exact hreports

/-! ## Whole runs

`Trace` is the specification: it is computed from the calls alone and knows nothing of arrays,
slices or headers. -/

/-- The call takes out the entry with this key and value: it is there after the calls `ls`, and it
is not after this one. -/
def TakenOut (hasher : Hasher) (mask : UInt64) (ls : List Op) (op : Op) (key : Key)
    (value : Bytes) : Prop :=
  op.Removes ∧ ∃ t, Current hasher mask ls ⟨key, value, t⟩ ∧
    ¬ Current hasher mask (ls ++ [op]) ⟨key, value, t⟩

/-- **What the callback should be called with**, by the shard at a position, the last call first:
each operation adds one call for each entry it takes out of the shard, and no other call. -/
inductive Trace (hasher : Hasher) (mask : UInt64) (i : ℕ) : List Op → List (Key × Bytes) → Prop
  | start : Trace hasher mask i [] []
  | step {ls : List Op} {op : Op} {calls new : List (Key × Bytes)}
      (hcalls : Trace hasher mask i ls calls) (hnodup : (new.map Prod.fst).Nodup)
      (hnew : ∀ k v, (k, v) ∈ new ↔ op.target hasher mask = i ∧ TakenOut hasher mask ls op k v) :
      Trace hasher mask i (ls ++ [op]) (new ++ calls)

/-- A call on another shard, or one that takes nothing out, adds nothing. -/
theorem Trace.quiet {hasher : Hasher} {mask : UInt64} {i : ℕ} {ls : List Op} {op : Op}
    {calls : List (Key × Bytes)} (h : Trace hasher mask i ls calls)
    (hop : op.target hasher mask = i → ¬ op.Removes) : Trace hasher mask i (ls ++ [op]) calls :=
  @Trace.step _ _ _ _ _ _ [] h List.nodup_nil fun _ _ ↦
    iff_of_false List.not_mem_nil fun ⟨heq, hremoves, _⟩ ↦ hop heq hremoves

/-- A `Set` is sound, and its key is not too long. -/
def Exact (c : BigCache T M) (op : Op) : Prop := c.Sound op ∧ op.ShortKey

instance (c : BigCache T M) (op : Op) : Decidable (c.Exact op) :=
  inferInstanceAs (Decidable (_ ∧ _))

section

variable {hasher : Hasher} {mask : UInt64} {ls : List Op} {op : Op} {m : Table}
  {c : BigCache T M}

/-- The entries a call takes out, by the table of the cache. -/
theorem takenOut_iff (ht : Tracks hasher mask ls m) (hop : op.Removes) {k : Key} {v : Bytes} :
    TakenOut hasher mask ls op k v ↔ ∃ h e, m.part mask (op.target hasher mask) h = some e ∧
      (m.run hasher mask op).part mask (op.target hasher mask) h = none ∧ e.key = k ∧
      e.value = v := by
  have ht' := ht.run op
  constructor
  · rintro ⟨-, t, hcur, hgone⟩
    have hm := (ht _ ⟨k, v, t⟩).mpr ⟨rfl, hcur⟩
    have hm' : m.run hasher mask op (hasher k) = none := by
      rcases m.run_of_removes hasher mask hop (hasher k) with heq | heq
      · exact absurd ((ht' _ _).mp (heq.trans hm)).2 hgone
      · exact heq
    -- the shard is the one the call is passed on to, as the others are left alone
    have htarget : (hasher k &&& mask).toNat = op.target hasher mask := by
      by_contra hne
      have hsame := congrFun (Table.part_run_of_ne (m := m) hne) (hasher k)
      rw [Table.part_of_eq rfl, Table.part_of_eq rfl, hm, hm'] at hsame
      cases hsame
    refine ⟨hasher k, ⟨k, v, t⟩, ?_, ?_, rfl, rfl⟩
    · rwa [Table.part_of_eq htarget]
    · rwa [Table.part_of_eq htarget]
  · rintro ⟨h, e, hm, hm', rfl, rfl⟩
    obtain ⟨htarget, hm⟩ := Table.part_eq_some.mp hm
    rw [Table.part_of_eq htarget] at hm'
    obtain ⟨rfl, hcur⟩ := (ht h e).mp hm
    refine ⟨hop, e.timestamp, hcur, fun hcur' ↦ ?_⟩
    rw [(ht' _ e).mpr ⟨rfl, hcur'⟩] at hm'
    cases hm'

/-- In a cache with a callback each shard calls it, and no entry has a key that is too long. -/
theorem exact_inv (hr : ((reachable T M hasher).restrict Exact).Run ls c) :
    (c.contents ls).Keyed hasher ∧ ∀ s ∈ c.shards, s.onRemove = c.config.onRemove := by
  induction hr with
  | start hinit =>
    obtain ⟨config, now, hnew⟩ := hinit
    obtain ⟨-, -, rfl, -, -, -, hall⟩ := newBigCache_spec hnew
    exact ⟨by simp [Table.Keyed, contents], fun s hs ↦
      (CacheShard.initNewShard_fields (hall s hs)).2.1⟩
  | @snoc ls c c' op hr hstep ih =>
    obtain ⟨hstep, hsound, hshort⟩ := hstep
    obtain ⟨hhash, hrep⟩ := reachable_represents (hr.restrict_mono fun _ _ h ↦ h.1)
    obtain ⟨hkeyed, hon⟩ := ih
    obtain ⟨s, s', hs, hpassed, rfl⟩ := call_cases hstep
    have hmem := List.mem_of_getElem? hs
    refine ⟨?_, fun s₁ hs₁ ↦ ?_⟩
    · rw [contents, List.foldl_append]
      subst hhash
      exact hkeyed.run c.shardMask hshort
    · rcases List.mem_or_eq_of_mem_set hs₁ with hs₁ | rfl
      · exact hon s₁ hs₁
      · have hshard := (hrep (List.ne_nil_of_mem hmem)).shard _ s hs
        exact (hpassed.onRemove_eq hshard).trans (hon s hmem)

/-- **What is reported to the callback** is exact, in every run in which each `Set` stores its entry
at a position and with a length that fit thirty-two bits. -/
theorem callbacks_exact (hr : ((reachable T M hasher).restrict Exact).Run ls c)
    (hon : c.config.onRemove = true) {i : ℕ} {s : CacheShard T M} (hs : c.shards[i]? = some s) :
    Trace hasher c.shardMask i ls s.callbacks := by
  induction hr generalizing s with
  | start hinit =>
    obtain ⟨config, now, hnew⟩ := hinit
    have hinit := (newBigCache_spec hnew).2.2.2.2.2.2 s (List.mem_of_getElem? hs)
    rw [(CacheShard.initNewShard_fields hinit).2.2]
    exact .start
  | @snoc ls c c' op hr hstep ih =>
    obtain ⟨hkeyed, hremove⟩ := exact_inv hr
    obtain ⟨rfl, hrep⟩ := reachable_represents (hr.restrict_mono fun _ _ h ↦ h.1)
    obtain ⟨s₁, s₁', hs₁, hpassed, rfl⟩ := call_cases hstep.1
    have hmem := List.mem_of_getElem? hs₁
    simp only [List.getElem?_set] at hs
    split_ifs at hs with htarget hlt
    · obtain rfl := Option.some.inj hs
      subst htarget
      have hshard := (hrep (List.ne_nil_of_mem hmem)).shard _ s₁ hs₁
      obtain ⟨new, hcalls, hnone, hreports⟩ :=
        hpassed.reports hshard hkeyed ((hremove s₁ hmem).trans hon)
      rw [hcalls]
      by_cases hop : op.Removes
      · refine .step (ih hon hs₁) (hreports hop).nodup fun k v ↦ ?_
        rw [(hreports hop).mem, takenOut_iff (tracks_contents c ls) hop, and_iff_right rfl]
      · obtain rfl := hnone hop
        exact (ih hon hs₁).quiet fun _ ↦ hop
    · exact (ih hon hs).quiet fun heq ↦ absurd heq htarget

/-- Only what was set is ever reported. -/
theorem Trace.exists_set {i : ℕ} {calls : List (Key × Bytes)} (h : Trace hasher mask i ls calls)
    {k : Key} {v : Bytes} (hmem : (k, v) ∈ calls) : ∃ duration now, .set k v duration now ∈ ls := by
  induction h with
  | start => cases hmem
  | @step ls op calls new _ _ hnew ih =>
    rcases List.mem_append.mp hmem with hmem | hmem
    · obtain ⟨-, -, t, ⟨duration, now, -, pre, post, rfl, -⟩, -⟩ := (hnew k v).mp hmem
      exact ⟨duration, now, by simp⟩
    · obtain ⟨duration, now, hset⟩ := ih hmem
      exact ⟨duration, now, List.mem_append_left _ hset⟩

end

/-- A `Set` that replaces the entry of a colliding key leaves the record of its expiry behind: the
eviction finds both keys, and one entry is reported. -/
theorem callbacks_exact_collision :
    ∃ (c : ListCache) (s : ListShard), ((reachable _ _ lengthHasher).restrict Exact).Run
        [.set [1] [7] 1000000000 0, .set [2] [8] 1000000000 0, .evict 1 1 [[1], [2]]] c ∧
      c.shards[1]? = some s ∧ s.callbacks = [([2], [8])] ∧
      Trace lengthHasher c.shardMask 1
        [.set [1] [7] 1000000000 0, .set [2] [8] 1000000000 0, .evict 1 1 [[1], [2]]]
        s.callbacks := by
  obtain ⟨c, hr, hc⟩ := TransitionSystem.exists_run
    (S := (reachable (SortedAssoc ℤ Ptr) (SortedAssoc UInt64 (Finset Key)) lengthHasher).restrict
      Exact)
    TransitionSystem.step_of_guarded
    (l := [.set [1] [7] 1000000000 0, .set [2] [8] 1000000000 0, .evict 1 1 [[1], [2]]])
    (x := (newBigCache ⟨2, 0, 1, 0, true⟩ (some lengthHasher) 0).toOption.bind Except.toOption)
    (p := fun c ↦ c.config.onRemove ∧
      (c.shards[1]?).map CacheShard.callbacks = some [([2], [8])])
    (fun c hc ↦ ⟨_, 0, newBigCache_of_toOption hc⟩) (by decide +kernel)
  obtain ⟨hon, hcalls⟩ := of_decide_eq_true hc
  obtain ⟨s, hs, hcalls⟩ := Option.map_eq_some_iff.mp hcalls
  exact ⟨c, s, hr, hs, hcalls, callbacks_exact hr hon hs⟩

/-- **An empty value is reported** for one of `2 ^ 32` bytes. -/
theorem callback_wraps :
    ∃ (c : ListCache) (i : ℕ) (s : ListShard), c.config.onRemove = true ∧
      (reachable _ _ lengthHasher).Run
        [.set [1] (List.replicate (2 ^ 32) 0) 0 0, .delete [1] 0] c ∧
      c.shards[i]? = some s ∧ s.callbacks = [([1], [])] ∧
      ¬ Trace lengthHasher c.shardMask i
        [.set [1] (List.replicate (2 ^ 32) 0) 0 0, .delete [1] 0] s.callbacks := by
  obtain ⟨z, hz⟩ : ∃ z : Bytes, z = List.replicate (2 ^ 32) 0 := ⟨_, rfl⟩
  have hlen : z.length = 2 ^ 32 := by rw [hz, List.length_replicate]
  rw [← hz]
  obtain ⟨c, hr, hc⟩ := TransitionSystem.exists_run
    (S := (reachable (SortedAssoc ℤ Ptr) (SortedAssoc UInt64 (Finset Key)) lengthHasher).restrict
      Sound)
    TransitionSystem.step_of_guarded (l := [])
    (x := (newBigCache smallConfig (some lengthHasher) 0).toOption.bind Except.toOption)
    (p := fun c ↦ c.config.onRemove ∧ c.shards ≠ [] ∧ ∀ s ∈ c.shards,
      s.entries.maxCapacity = 0 ∧ s.entries.tail = 1 ∧ s.onRemove ∧ s.callbacks = [])
    (fun c hc ↦ ⟨_, 0, newBigCache_of_toOption hc⟩) (by decide +kernel)
  obtain ⟨hon, hne, hall⟩ := of_decide_eq_true hc
  obtain ⟨hhash, hrep⟩ := reachable_represents hr
  obtain ⟨s, hget, hs⟩ := getShard_of_mask (hrep hne).mask (c.hash [1])
  obtain ⟨hmax, htail, hremove, hnone⟩ := hall s (List.mem_of_getElem? hs)
  obtain ⟨s₁, j, hset, hread, hremove₁, hcalls₁⟩ :=
    ((hrep hne).shard _ s hs).set_wraps hmax (by rw [htail]; decide) [1] (by decide) (c.hash [1])
      hlen 0 0
  obtain ⟨s₂, hdel, hcalls₂⟩ : ∃ s₂, s₁.del [1] (c.hash [1]) 0 = .ok (s₂, .ok ()) ∧
      s₂.callbacks = [([1], [])] := by
    rw [hread.del, Entry.callback_of_le (by decide), hremove₁, hremove, if_pos rfl]
    refine ⟨_, rfl, ?_⟩
    exact congrArg (([1], []) :: ·) (hcalls₁.trans hnone)
  have hget₁ := getShard_putShard hget s₁
  have hrun := (hr.of_restrict.snoc (call_of_set hget hset)).snoc (call_of_del hget₁ hdel)
  refine ⟨(c.putShard (c.hash [1]) s₁).putShard (c.hash [1]) s₂, c.shardIndex (c.hash [1]), s₂, hon,
    hrun, getElem?_of_getShard (getShard_putShard hget₁ s₂), hcalls₂, fun htrace ↦ ?_⟩
  rw [hcalls₂] at htrace
  obtain ⟨duration, now, hmem⟩ := htrace.exists_set List.mem_cons_self
  rcases List.mem_pair.mp hmem with h | h
  · rw [← (Op.set.inj h).2.1] at hlen
    exact absurd hlen (by decide)
  · cases h

end BigCache
end ClusteredBigCache
