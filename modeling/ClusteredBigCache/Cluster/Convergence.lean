import Mathlib.Data.Fintype.Basic
import ClusteredBigCache.Cluster.Replica
import ClusteredBigCache.Lib.TransitionSystem
import ClusteredBigCache.Lib.WorkerPool

/-!
# Do the replicas converge?

Some active nodes are all registered with one another.  `Put` and `Delete` can be called at any of
them, several at a time: a call changes the cache of its node at once, and pushes one message for
each other node to `replicationChan`, from where they go through the goroutines of `replication`, a
queue and a connection to their replicas.  A replica makes the writes in the order in which they
arrive.  Nothing tells it which of two writes is the newer one.

`replicas_converge` says that `Get` returns the same at all nodes once every message is handled when
the calls for one key never meet: one is only made when no write to the key by another node is on
its way and no other call for it is still pushing its messages, and when the goroutines of
`replication` do not overtake each other.  The caches of the nodes are `BigCache`s, where a write to
one key touches another one with the same hash; so the keys that are used may not share a hash.  In
`replicas_diverge` two nodes put the same key at the same time, and each ends up with the value of
the other one.

A message is named by its write; its value does not expire.  From the `outboundMsgQueue` of the
sender to the `inboundMsgQueue` of the receiver it is in one queue, the `wire`.
-/

set_option autoImplicit false

namespace ClusteredBigCache

/-- A call of `Put` or `Delete`, after its local part. -/
structure PendingCall (ν : Type) where
  write : Write
  /-- The nodes for which it has not pushed the message yet. -/
  peers : List ν
  deriving DecidableEq, Repr

/-- Nodes that are registered with one another. -/
structure Replicas (ν T M : Type) where
  /-- The cache of each node. -/
  cache : ν → BigCache T M
  /-- The calls that were made at each node. -/
  calls : ν → List (PendingCall ν)
  /-- `replicationChan` and the goroutines behind it. -/
  pool : ν → WorkerPool (Fin 5) ν Write
  /-- What is queued at one node for another one. -/
  wire : ν → ν → List Write

namespace Replicas

inductive Step (ν : Type)
  /-- `Put` or `Delete` is called at a node, at some time, and goes through its peers in some
  order. -/
  | call (n : ν) (now : ℕ) (w : Write) (peers : List ν)
  /-- A call pushes the message for the next peer. -/
  | push (n : ν) (i : ℕ)
  /-- A goroutine of `replication` takes a message from `replicationChan`. -/
  | take (n : ν) (w : Fin 5)
  /-- The goroutine calls `sendMessage`. -/
  | sendMessage (n : ν) (w : Fin 5)
  /-- The next message from one node to another is handled, at some time. -/
  | deliver (n m : ν) (now : ℕ)
  deriving DecidableEq, Repr

variable {ν T M : Type} [DecidableEq ν]

section

variable [Fintype ν] [OrderedMap T ℤ Ptr] [OrderedMap M UInt64 (Finset Key)]

def step (json : EncodingJson) (timeLeft : ℕ → UInt64 → Int64) (c : Replicas ν T M) :
    Step ν → Option (Replicas ν T M)
  | .call n now w peers =>
    if peers.Nodup ∧ peers.toFinset = Finset.univ.erase n then
      match (c.cache n).write now w with
      | .error _ => none
      | .ok (cache, goesOn) => some { c with
          cache := Function.update c.cache n cache
          calls := Function.update c.calls n
            (c.calls n ++ [⟨w, if goesOn then peers else []⟩]) }
    else none
  | .push n i =>
    match (c.calls n)[i]? with
    | some ⟨w, m :: rest⟩ =>
      some { c with
        calls := Function.update c.calls n ((c.calls n).set i ⟨w, rest⟩)
        pool := Function.update c.pool n ((c.pool n).push m w) }
    | _ => none
  | .take n w => ((c.pool n).take w).map fun pool ↦
      { c with pool := Function.update c.pool n pool }
  | .sendMessage n w =>
    ((c.pool n).holding w).map fun (m, msg) ↦ { c with
      pool := Function.update c.pool n ((c.pool n).put w)
      wire := Function.update c.wire n (Function.update (c.wire n) m (c.wire n m ++ [msg])) }
  | .deliver n m now =>
    match c.wire n m with
    | [] => none
    | w :: rest =>
      match (c.cache m).handleMessage json (timeLeft now) now ((w.message 0).serialize json) with
      | .error _ => none
      | .ok cache => some { c with
          wire := Function.update c.wire n (Function.update (c.wire n) m rest)
          cache := Function.update c.cache m cache }

/-- Nothing is on its way. -/
def new (cache : ν → BigCache T M) : Replicas ν T M where
  cache := cache
  calls _ := []
  pool _ := .empty
  wire _ _ := []

def system (json : EncodingJson) (timeLeft : ℕ → UInt64 → Int64) (cache : ν → BigCache T M) :
    TransitionSystem (Replicas ν T M) (Step ν) :=
  .ofStep (· = new cache) (step json timeLeft)

end

/-- The writes to a key that some calls have still to push for a node. -/
def unpushed (calls : List (PendingCall ν)) (m : ν) (key : Key) : List Write :=
  (calls.filter fun call ↦ m ∈ call.peers ∧ call.write.key = key).map PendingCall.write

/-- The writes to a key that are on their way from one node to another. -/
def onTheWay (c : Replicas ν T M) (n m : ν) (key : Key) : List Write :=
  (c.wire n m ++ (c.pool n).inFlight m).filter (·.key = key) ++ unpushed (c.calls n) m key

/-- Every message is handled. -/
def Quiet (c : Replicas ν T M) : Prop :=
  ∀ n, (∀ call ∈ c.calls n, call.peers = []) ∧
    ∀ m, (c.pool n).inFlight m = [] ∧ c.wire n m = []

section

variable [Fintype ν]

instance (c : Replicas ν T M) : Decidable c.Quiet := inferInstanceAs (Decidable (∀ _, _ ∧ ∀ _, _))

/-- Calls are for some keys only, those for one key do not meet, and goroutines do not overtake each
other. -/
def Careful (keys : Set Key) (c : Replicas ν T M) : Step ν → Prop
  | .call n _ w _ => w.key ∈ keys ∧ (∀ n' ≠ n, ∀ m, c.onTheWay n' m w.key = []) ∧
      ∀ call ∈ c.calls n, call.write.key = w.key → call.peers = []
  | .sendMessage n w => (c.pool n).Oldest w
  | _ => True

instance (keys : Set Key) [DecidablePred (· ∈ keys)] (c : Replicas ν T M) (step : Step ν) :
    Decidable (c.Careful keys step) :=
  match step with
  | .call n _ w _ => inferInstanceAs (Decidable (w.key ∈ keys ∧
      (∀ n' ≠ n, ∀ m, c.onTheWay n' m w.key = []) ∧ ∀ call ∈ c.calls n, _))
  | .sendMessage n w => inferInstanceAs (Decidable ((c.pool n).Oldest w))
  | .push _ _ | .take _ _ | .deliver _ _ _ => inferInstanceAs (Decidable True)

end

/-! ## What is still to be pushed

A call goes through its peers one by one, and other calls may be made at the node meanwhile.  As
long as there is only one of them for a key, its messages are pushed in the order of the calls. -/

theorem unpushed_append (calls calls' : List (PendingCall ν)) (m : ν) (key : Key) :
    unpushed (calls ++ calls') m key = unpushed calls m key ++ unpushed calls' m key := by
  simp [unpushed]

theorem unpushed_singleton (call : PendingCall ν) (m : ν) (key : Key) :
    unpushed [call] m key =
      if m ∈ call.peers ∧ call.write.key = key then [call.write] else [] := by
  rw [unpushed]
  split_ifs with h
  · rw [List.filter_cons_of_pos (by simpa using h)]
    rfl
  · rw [List.filter_cons_of_neg (by simpa using h)]
    rfl

/-- When all calls for a key have pushed their messages, none is left. -/
theorem unpushed_eq_nil {calls : List (PendingCall ν)} {key : Key}
    (h : ∀ call ∈ calls, call.write.key = key → call.peers = []) (m : ν) :
    unpushed calls m key = [] := by
  refine List.map_eq_nil_iff.mpr (List.filter_eq_nil_iff.mpr fun call hcall ↦ ?_)
  simp only [decide_eq_true_eq, not_and]
  intro hm hkey
  rw [h call hcall hkey] at hm
  cases hm

/-- Where a list is changed by `set`. -/
theorem set_split {α : Type*} {l : List α} {i : ℕ} {a : α} (hi : l[i]? = some a) :
    ∃ before after, l = before ++ a :: after ∧ ∀ a', l.set i a' = before ++ a' :: after := by
  obtain ⟨hlt, rfl⟩ := List.getElem?_eq_some_iff.mp hi
  refine ⟨l.take i, l.drop (i + 1), ?_, fun a' ↦ ?_⟩
  · rw [← List.drop_eq_getElem_cons hlt, List.take_append_drop]
  · rw [List.set_eq_take_append_cons_drop, if_pos hlt]

/-- The only call for its key pushes its next message. -/
theorem unpushed_set {calls : List (PendingCall ν)} {i : ℕ} {w : Write} {m : ν} {rest : List ν}
    (hi : calls[i]? = some ⟨w, m :: rest⟩) (hnodup : (m :: rest).Nodup)
    (hsingle : (calls.filter fun call ↦
      call.write.key = w.key ∧ call.peers ≠ []).length ≤ 1) (m' : ν) (key : Key) :
    unpushed calls m' key = (if m = m' ∧ w.key = key then [w] else []) ++
      unpushed (calls.set i ⟨w, rest⟩) m' key := by
  obtain ⟨before, after, rfl, hset⟩ := set_split hi
  rw [hset, ← List.singleton_append, unpushed_append, unpushed_append, unpushed_singleton,
    ← List.singleton_append (x := PendingCall.mk w rest), unpushed_append, unpushed_append,
    unpushed_singleton]
  by_cases hkey : w.key = key
  · subst hkey
    -- no other call for the key has anything to push
    have hnone : ∀ call ∈ before ++ after, call.write.key = w.key → call.peers = [] := by
      intro call hcall hk
      by_contra hne
      rw [List.filter_append, List.filter_cons_of_pos (by simp), List.length_append,
        List.length_cons] at hsingle
      have hmem : call ∈ before.filter (fun call ↦ call.write.key = w.key ∧ call.peers ≠ []) ++
          after.filter (fun call ↦ call.write.key = w.key ∧ call.peers ≠ []) := by
        rw [← List.filter_append]
        exact List.mem_filter.mpr ⟨hcall, by simp [hk, hne]⟩
      have hpos := List.length_pos_of_mem hmem
      rw [List.length_append] at hpos
      omega
    rw [unpushed_eq_nil fun call hcall ↦ hnone call (List.mem_append_left _ hcall),
      unpushed_eq_nil fun call hcall ↦ hnone call (List.mem_append_right _ hcall)]
    by_cases hm : m = m'
    · subst hm
      simp [(List.nodup_cons.mp hnodup).1]
    · simp [hm, Ne.symm hm]
  · simp [hkey]

/-! ## What each step does

The caches are followed through the stores that they hold: `st n` is the store of the node `n`. -/

/-- What a step does to the stores and to what is on its way. -/
inductive Outcome (c c' : Replicas ν T M) (st st' : ν → Store) : Step ν → Prop
  | silent {a : Step ν} (hst : st' = st) (hway : c'.onTheWay = c.onTheWay) : Outcome c c' st st' a
  | called {n : ν} {now : ℕ} {w : Write} {peers : List ν}
      (hst : st' = Function.update st n ((st n).write w))
      (hway : ∀ n' m key, c'.onTheWay n' m key = c.onTheWay n' m key ++
        if n' = n ∧ m ≠ n ∧ w.key = key then [w] else []) :
      Outcome c c' st st' (.call n now w peers)
  | delivered {n m : ν} {now : ℕ} {w : Write}
      (hst : st' = Function.update st m ((st m).write w))
      (hway : ∀ n' m' key, c.onTheWay n' m' key =
        (if n' = n ∧ m' = m ∧ w.key = key then [w] else []) ++ c'.onTheWay n' m' key) :
      Outcome c c' st st' (.deliver n m now)

/-- At each node at most one call for each key has still something to push, and no call pushes a
message twice. -/
structure Tidy (c : Replicas ν T M) : Prop where
  nodup : ∀ n, ∀ call ∈ c.calls n, call.peers.Nodup
  single : ∀ n key,
    ((c.calls n).filter fun call ↦ call.write.key = key ∧ call.peers ≠ []).length ≤ 1

section

variable {c : Replicas ν T M} {n m : ν} {w : Write}

/-- A call is made when those that were made before for its key are finished. -/
theorem Tidy.call {peers : List ν} (ht : c.Tidy) (cache : ν → BigCache T M) (hnodup : peers.Nodup)
    (hfinished : ∀ call ∈ c.calls n, call.write.key = w.key → call.peers = []) :
    Tidy { c with
      cache := cache
      calls := Function.update c.calls n (c.calls n ++ [⟨w, peers⟩]) } := by
  constructor
  · intro n' call hcall
    simp only [Function.update_apply] at hcall
    split_ifs at hcall with hn
    · rcases List.mem_append.mp hcall with hcall | hcall
      · exact ht.nodup n call hcall
      · rw [List.mem_singleton.mp hcall]
        exact hnodup
    · exact ht.nodup n' call hcall
  · intro n' key
    simp only [Function.update_apply]
    split_ifs with hn
    · rw [List.filter_append, List.length_append]
      by_cases hkey : w.key = key
      · have hnil : (c.calls n).filter
            (fun call ↦ call.write.key = key ∧ call.peers ≠ []) = [] := by
          refine List.filter_eq_nil_iff.mpr fun call hcall ↦ ?_
          simp only [decide_eq_true_eq, not_and, not_not]
          exact fun hk ↦ hfinished call hcall (hk.trans hkey.symm)
        rw [hnil, List.length_nil, Nat.zero_add]
        exact List.length_filter_le _ _
      · rw [List.filter_cons_of_neg (by simp [hkey])]
        exact ht.single n key
    · exact ht.single n' key

theorem Tidy.push {i : ℕ} {rest : List ν} (ht : c.Tidy)
    (hcall : (c.calls n)[i]? = some ⟨w, m :: rest⟩) :
    Tidy { c with
      calls := Function.update c.calls n ((c.calls n).set i ⟨w, rest⟩)
      pool := Function.update c.pool n ((c.pool n).push m w) } := by
  obtain ⟨before, after, hcalls, hset⟩ := set_split hcall
  constructor
  · intro n' call hmem
    simp only [Function.update_apply] at hmem
    split_ifs at hmem with hn
    · rw [hset, List.mem_append, List.mem_cons] at hmem
      rcases hmem with hmem | rfl | hmem
      · exact ht.nodup n call (hcalls ▸ List.mem_append_left _ hmem)
      · exact (List.nodup_cons.mp (ht.nodup n _ (List.mem_of_getElem? hcall))).2
      · exact ht.nodup n call (hcalls ▸ by simp [hmem])
    · exact ht.nodup n' call hmem
  · intro n' key
    simp only [Function.update_apply]
    split_ifs with hn
    · have hle := ht.single n key
      rw [hcalls, List.filter_append, List.filter_cons, List.length_append] at hle
      rw [hset, List.filter_append, List.filter_cons, List.length_append]
      split_ifs at hle ⊢ <;> simp_all
      omega
    · exact ht.single n' key

/-- A call has its write on the way to every other node. -/
theorem onTheWay_call [Fintype ν] {peers : List ν} (cache : ν → BigCache T M)
    (hpeers : peers.toFinset = Finset.univ.erase n) (n' m : ν) (key : Key) :
    onTheWay { c with
        cache := cache
        calls := Function.update c.calls n (c.calls n ++ [⟨w, peers⟩]) } n' m key =
      c.onTheWay n' m key ++ if n' = n ∧ m ≠ n ∧ w.key = key then [w] else [] := by
  have hmem : m ∈ peers ↔ m ≠ n := by
    rw [← List.mem_toFinset, hpeers, Finset.mem_erase]
    simp
  simp only [onTheWay, Function.update_apply]
  split_ifs with hn hw hw
  · rw [unpushed_append, unpushed_singleton, if_pos ⟨hmem.mpr hw.2.1, hw.2.2⟩, hn]
    simp
  · rw [unpushed_append, unpushed_singleton, if_neg, hn]
    · simp
    · exact fun hm ↦ hw ⟨hn, hmem.mp hm.1, hm.2⟩
  · exact absurd hw.1 hn
  · simp

theorem onTheWay_push {i : ℕ} {rest : List ν} (ht : c.Tidy)
    (hcall : (c.calls n)[i]? = some ⟨w, m :: rest⟩) :
    onTheWay { c with
        calls := Function.update c.calls n ((c.calls n).set i ⟨w, rest⟩)
        pool := Function.update c.pool n ((c.pool n).push m w) } = c.onTheWay := by
  funext n' m' key
  simp only [onTheWay, Function.update_apply]
  split_ifs with hn
  · subst hn
    have hmem := List.mem_of_getElem? hcall
    rw [unpushed_set hcall (ht.nodup _ _ hmem) (ht.single _ _), WorkerPool.inFlight_push]
    split_ifs with hm hk hk
    · simp [hk.2]
    · simp [show w.key ≠ key from fun h ↦ hk ⟨hm, h⟩]
    · exact absurd hk.1 hm
    · simp
  · rfl

theorem onTheWay_take {i : Fin 5} {pool : WorkerPool (Fin 5) ν Write}
    (htake : (c.pool n).take i = some pool) :
    onTheWay { c with pool := Function.update c.pool n pool } = c.onTheWay := by
  funext n' m key
  simp only [onTheWay, Function.update_apply]
  split_ifs with hn
  · rw [hn, WorkerPool.inFlight_take htake]
  · rfl

/-- A goroutine that overtakes no other one keeps the order of the messages. -/
theorem onTheWay_sendMessage {i : Fin 5} (hholding : (c.pool n).holding i = some (m, w))
    (holdest : (c.pool n).Oldest i) :
    onTheWay { c with
        pool := Function.update c.pool n ((c.pool n).put i)
        wire := Function.update c.wire n (Function.update (c.wire n) m (c.wire n m ++ [w])) } =
      c.onTheWay := by
  funext n' m' key
  simp only [onTheWay, Function.update_apply]
  split_ifs with hn
  · subst hn
    rw [WorkerPool.inFlight_put hholding holdest m', Function.update_apply]
    split_ifs with hm hm' hm'
    · simp [hm]
    · exact absurd hm.symm hm'
    · exact absurd hm'.symm hm
    · simp
  · rfl

/-- What is delivered was the next one on its way. -/
theorem onTheWay_deliver {rest : List Write} (cache : ν → BigCache T M)
    (hwire : c.wire n m = w :: rest) (n' m' : ν) (key : Key) :
    c.onTheWay n' m' key = (if n' = n ∧ m' = m ∧ w.key = key then [w] else []) ++
      onTheWay { c with
        wire := Function.update c.wire n (Function.update (c.wire n) m rest)
        cache := cache } n' m' key := by
  simp only [onTheWay, Function.update_apply]
  split_ifs with hw hn hn
  · rw [hn, Function.update_apply, if_pos hw.2.1, hw.2.1, hwire]
    simp [hw.2.2]
  · exact absurd hw.1 hn
  · rw [Function.update_apply]
    split_ifs with hm
    · rw [hn, hm, hwire]
      simp [show w.key ≠ key from fun h ↦ hw ⟨hn, hm, h⟩]
    · rw [hn]
      rfl
  · rfl

end

/-! ## Owners

At any time the writes to a key that are on their way come from one node, its owner.  When they have
all been handled, every node has what the owner has. -/

section

variable {c c' : Replicas ν T M} {st st' : ν → Store}

/-- The value that some writes leave. -/
def latest (v : Option Bytes) (ws : List Write) : Option Bytes := ws.foldl (fun _ w ↦ w.value) v

theorem latest_append_singleton (v : Option Bytes) (ws : List Write) (w : Write) :
    latest v (ws ++ [w]) = w.value := by
  simp [latest]

/-- Each key has an owner: only its writes are on their way, and they will leave every node with the
value that the owner has. -/
def Owned (c : Replicas ν T M) (st : ν → Store) (key : Key) : Prop :=
  ∃ o, (∀ n ≠ o, ∀ m, c.onTheWay n m key = []) ∧
    ∀ m, latest (st m key) (c.onTheWay o m key) = st o key

/-- A node that writes to a key to which no other node is writing becomes its owner. -/
theorem owned_of_call {n : ν} {w : Write} (hothers : ∀ n' ≠ n, ∀ m, c.onTheWay n' m w.key = [])
    (hapart : ∀ m key, c.onTheWay m m key = [])
    (hst : st' = Function.update st n ((st n).write w))
    (hway : ∀ n' m key, c'.onTheWay n' m key = c.onTheWay n' m key ++
      if n' = n ∧ m ≠ n ∧ w.key = key then [w] else []) : c'.Owned st' w.key := by
  have hself : st' n w.key = w.value := by
    rw [hst, Function.update_self, Store.write_apply, if_pos rfl]
  refine ⟨n, fun n' hn' m ↦ ?_, fun m ↦ ?_⟩
  · rw [hway, hothers n' hn' m, if_neg fun h ↦ hn' h.1]
    rfl
  · rw [hway, hself]
    by_cases hm : m = n
    · subst hm
      rw [hapart, if_neg fun h ↦ h.2.1 rfl, hself]
      rfl
    · rw [if_pos ⟨rfl, hm, rfl⟩, latest_append_singleton]

/-- A key to which nothing is written keeps its owner. -/
theorem Owned.congr {key : Key} (h : c.Owned st key) (hst : ∀ m, st' m key = st m key)
    (hway : ∀ n m, c'.onTheWay n m key = c.onTheWay n m key) : c'.Owned st' key := by
  obtain ⟨o, hothers, hlatest⟩ := h
  refine ⟨o, fun n hn m ↦ ?_, fun m ↦ ?_⟩
  · rw [hway, hothers n hn m]
  · rw [hway, hst, hst, hlatest m]

/-- A write to another key. -/
theorem Owned.of_ne {n : ν} {w : Write} {key : Key} (h : c.Owned st key) (hkey : w.key ≠ key)
    (hst : st' = Function.update st n ((st n).write w))
    (hway : ∀ n m, c'.onTheWay n m key = c.onTheWay n m key) : c'.Owned st' key := by
  refine h.congr (fun m ↦ ?_) hway
  rw [hst, Function.update_apply]
  split_ifs with hm
  · rw [hm, Store.write_apply, if_neg (Ne.symm hkey)]
  · rfl

/-- What is handled was on its way from the owner of the key. -/
theorem Owned.delivered {n m : ν} {w : Write} (h : c.Owned st w.key)
    (hapart : ∀ n, c.onTheWay n n w.key = [])
    (hst : st' = Function.update st m ((st m).write w))
    (hway : ∀ n' m' key, c.onTheWay n' m' key =
      (if n' = n ∧ m' = m ∧ w.key = key then [w] else []) ++ c'.onTheWay n' m' key) :
    c'.Owned st' w.key := by
  obtain ⟨o, hothers, hlatest⟩ := h
  have hcons : c.onTheWay n m w.key = w :: c'.onTheWay n m w.key := by
    rw [hway, if_pos ⟨rfl, rfl, rfl⟩]
    rfl
  obtain rfl : n = o := by
    by_contra hn
    rw [hothers n hn m] at hcons
    cases hcons
  have hm : n ≠ m := by
    rintro rfl
    rw [hapart] at hcons
    cases hcons
  refine ⟨n, fun n' hn' m' ↦ ?_, fun m' ↦ ?_⟩
  · have hnil := hothers n' hn' m'
    rw [hway] at hnil
    exact (List.append_eq_nil_iff.mp hnil).2
  · have hlast := hlatest m'
    rw [hst, Function.update_of_ne hm, ← hlast, hway n m']
    by_cases hm' : m' = m
    · subst hm'
      rw [if_pos ⟨rfl, rfl, rfl⟩, Function.update_self, Store.write_apply, if_pos rfl]
      rfl
    · rw [if_neg fun h ↦ hm' h.2.1, Function.update_of_ne hm']
      rfl

theorem Quiet.onTheWay_eq (hquiet : c.Quiet) (n m : ν) (key : Key) : c.onTheWay n m key = [] := by
  obtain ⟨hcalls, hqueues⟩ := hquiet n
  rw [onTheWay, (hqueues m).1, (hqueues m).2, unpushed_eq_nil fun call hcall _ ↦ hcalls call hcall]
  rfl

end

/-! ## Convergence

`Inv` has the store that each cache holds, and for every key an owner.  A step acts on the caches as
it acts on the stores (`step_outcome`), so the owners are kept (`Inv.step`). -/

section

variable [OrderedMap T ℤ Ptr] {keys : Set Key} {hash : ν → Hasher} {c c' : Replicas ν T M}
  {st : ν → Store}

/-- What is true along a careful run, with the stores that the caches hold. -/
structure Inv (keys : Set Key) (hash : ν → Hasher) (c : Replicas ν T M) (st : ν → Store) :
    Prop where
  tidy : c.Tidy
  known : ∀ n m key, c.onTheWay n m key ≠ [] → key ∈ keys
  apart : ∀ n key, c.onTheWay n n key = []
  holds : ∀ n, (c.cache n).Holds keys (st n) ∧ (c.cache n).hash = hash n
  owned : ∀ key, c.Owned st key

theorem new_inv [Nonempty ν] {cache : ν → BigCache T M} {store : Store}
    (hstart : ∀ n, (cache n).Holds keys store) :
    (new cache).Inv keys (fun n ↦ (cache n).hash) fun _ ↦ store where
  tidy := ⟨by rintro _ _ ⟨⟩, fun _ _ ↦ Nat.zero_le _⟩
  known _ _ _ h := absurd rfl h
  apart _ _ := rfl
  holds n := ⟨hstart n, rfl⟩
  owned key := ‹Nonempty ν›.elim fun o ↦ ⟨o, fun _ _ _ ↦ rfl, fun _ ↦ rfl⟩

/-- One of the caches makes a write. -/
theorem Inv.update_holds {n : ν} {w : Write} {cache : BigCache T M} (hi : c.Inv keys hash st)
    (hholds : cache.Holds keys ((st n).write w)) (hhash : cache.hash = (c.cache n).hash) (m : ν) :
    (Function.update c.cache n cache m).Holds keys
        (Function.update st n ((st n).write w) m) ∧
      (Function.update c.cache n cache m).hash = hash m := by
  rcases eq_or_ne m n with rfl | hm
  · rw [Function.update_self, Function.update_self]
    exact ⟨hholds, hhash.trans (hi.holds m).2⟩
  · rw [Function.update_of_ne hm, Function.update_of_ne hm]
    exact hi.holds m

variable [Fintype ν] [OrderedMap M UInt64 (Finset Key)] {json : EncodingJson}
  {timeLeft : ℕ → UInt64 → Int64} {a : Step ν} {ls : List (Step ν)}

/-- **What each step does** to the stores that the caches hold. -/
theorem step_outcome (hi : c.Inv keys hash st) (hdelete : json.delete.KeepsValid)
    (hinj : ∀ n, Set.InjOn (hash n) keys) (hkeys : ∀ key ∈ keys, Storable key)
    (h : c.step json timeLeft a = some c') (hok : c.Careful keys a)
    (hsmall : ∀ n, (c'.cache n).Small) :
    ∃ st', (∀ n, (c'.cache n).Holds keys (st' n) ∧ (c'.cache n).hash = hash n) ∧
      c.Outcome c' st st' a := by
  cases a with
  | call n now w peers =>
    rw [step] at h
    split_ifs at h with hguard
    split at h
    · cases h
    · next cache goesOn hwrite =>
      obtain rfl := Option.some.inj h
      have hcache : cache.Small := by simpa using hsmall n
      obtain ⟨hold, hhash⟩ := hi.holds n
      obtain ⟨hholds, hhash', rfl⟩ := hold.write (hhash ▸ hinj n) hok.1 (hkeys _ hok.1).2 hwrite
        hcache
      exact ⟨_, hi.update_holds hholds hhash', .called rfl (onTheWay_call _ hguard.2)⟩
  | push n i =>
    rw [step] at h
    split at h
    · next w m rest hcall =>
      obtain rfl := Option.some.inj h
      exact ⟨st, hi.holds, .silent rfl (onTheWay_push hi.tidy hcall)⟩
    · cases h
  | take n w =>
    obtain ⟨pool, htake, rfl⟩ := Option.map_eq_some_iff.mp h
    exact ⟨st, hi.holds, .silent rfl (onTheWay_take htake)⟩
  | sendMessage n w =>
    obtain ⟨⟨m, msg⟩, hholding, rfl⟩ := Option.map_eq_some_iff.mp h
    exact ⟨st, hi.holds, .silent rfl (onTheWay_sendMessage hholding hok)⟩
  | deliver n m now =>
    rw [step] at h
    split at h
    · cases h
    · next w rest hwire =>
      split at h
      · cases h
      · next cache hhandle =>
        obtain rfl := Option.some.inj h
        have hkey : w.key ∈ keys := hi.known n m w.key (by simp [onTheWay, hwire])
        have hcache : cache.Small := by simpa using hsmall m
        obtain ⟨hold, hhash⟩ := hi.holds m
        obtain ⟨hholds, hhash'⟩ := hold.handleMessage (hhash ▸ hinj m) hdelete hkey (hkeys _ hkey)
          hhandle hcache
        exact ⟨_, hi.update_holds hholds hhash', .delivered rfl (onTheWay_deliver _ hwire)⟩

theorem Tidy.step (ht : c.Tidy) (h : c.step json timeLeft a = some c')
    (hok : c.Careful keys a) : c'.Tidy := by
  cases a with
  | call n now w peers =>
    rw [Replicas.step] at h
    split_ifs at h with hguard
    split at h
    · cases h
    · next cache goesOn hwrite =>
      obtain rfl := Option.some.inj h
      refine ht.call _ ?_ hok.2.2
      split_ifs
      · exact hguard.1
      · exact List.nodup_nil
  | push n i =>
    rw [Replicas.step] at h
    split at h
    · next w m rest hcall =>
      obtain rfl := Option.some.inj h
      exact ht.push hcall
    · cases h
  | take n w =>
    obtain ⟨pool, -, rfl⟩ := Option.map_eq_some_iff.mp h
    exact ⟨ht.nodup, ht.single⟩
  | sendMessage n w =>
    obtain ⟨x, -, rfl⟩ := Option.map_eq_some_iff.mp h
    exact ⟨ht.nodup, ht.single⟩
  | deliver n m now =>
    rw [Replicas.step] at h
    split at h
    · cases h
    · split at h
      · cases h
      · obtain rfl := Option.some.inj h
        exact ⟨ht.nodup, ht.single⟩

theorem Inv.step (hi : c.Inv keys hash st) (hdelete : json.delete.KeepsValid)
    (hinj : ∀ n, Set.InjOn (hash n) keys) (hkeys : ∀ key ∈ keys, Storable key)
    (h : c.step json timeLeft a = some c') (hok : c.Careful keys a)
    (hsmall : ∀ n, (c'.cache n).Small) : ∃ st', c'.Inv keys hash st' := by
  have htidy := hi.tidy.step h hok
  obtain ⟨st', hholds, ho⟩ := step_outcome hi hdelete hinj hkeys h hok hsmall
  refine ⟨st', ?_⟩
  cases ho with
  | silent hst hway =>
    exact ⟨htidy, hway ▸ hi.known, hway ▸ hi.apart, hholds, fun key ↦
      (hi.owned key).congr (fun _ ↦ by rw [hst]) fun _ _ ↦ by rw [hway]⟩
  | @called n now w peers hst hway =>
    refine ⟨htidy, fun n' m key hne ↦ ?_, fun n' key ↦ ?_, hholds, fun key ↦ ?_⟩
    · rw [hway] at hne
      split_ifs at hne with hw
      · exact hw.2.2 ▸ hok.1
      · exact hi.known n' m key (by simpa using hne)
    · rw [hway, hi.apart, if_neg fun h ↦ h.2.1 h.1]
      rfl
    · by_cases hkey : w.key = key
      · exact hkey ▸ owned_of_call hok.2.1 hi.apart hst hway
      · refine (hi.owned key).of_ne hkey hst fun n' m ↦ ?_
        rw [hway, if_neg fun h ↦ hkey h.2.2, List.append_nil]
  | @delivered n m now w hst hway =>
    refine ⟨htidy, fun n' m' key hne ↦ ?_, fun n' key ↦ ?_, hholds, fun key ↦ ?_⟩
    · refine hi.known n' m' key fun hnil ↦ hne ?_
      rw [hway] at hnil
      exact (List.append_eq_nil_iff.mp hnil).2
    · have hnil := hi.apart n' key
      rw [hway] at hnil
      exact (List.append_eq_nil_iff.mp hnil).2
    · by_cases hkey : w.key = key
      · subst hkey
        exact (hi.owned _).delivered (fun n ↦ hi.apart n _) hst hway
      · refine (hi.owned key).of_ne hkey hst fun n' m' ↦ ?_
        rw [hway n' m', if_neg fun h ↦ hkey h.2.2, List.nil_append]

/-- **When the replicas converge**: nodes whose caches hold the same store in the beginning, which
are used with keys that do not share a hash, whose writes to one key do not meet and whose
goroutines do not overtake each other, agree once every message is handled: for every key, `Get`
returns the same at all of them. -/
theorem replicas_converge {cache : ν → BigCache T M} {store : Store}
    (hdelete : json.delete.KeepsValid) (hstart : ∀ n, (cache n).Holds keys store)
    (hinj : ∀ n, Set.InjOn (cache n).hash keys) (hkeys : ∀ key ∈ keys, Storable key)
    (hr : ((system json timeLeft cache).restrict (Careful keys)).Run ls c)
    (hsmall : ∀ pre t, pre <+: ls →
      ((system json timeLeft cache).restrict (Careful keys)).Run pre t → ∀ n, (t.cache n).Small)
    (hquiet : c.Quiet) (key : Key) : ∃ value, ∀ n, (c.cache n).Reads key value := by
  rcases isEmpty_or_nonempty ν with hempty | hne
  · exact ⟨none, fun n ↦ hempty.elim n⟩
  obtain ⟨st, hi⟩ : ∃ st, c.Inv keys (fun n ↦ (cache n).hash) st := by
    refine hr.invariant_of_always hsmall ?_ fun c a c' ⟨st, hi⟩ h hsmall ↦ ?_
    · rintro _ rfl
      exact ⟨_, new_inv hstart⟩
    · exact hi.step hdelete hinj hkeys h.1 h.2 hsmall
  by_cases hkey : key ∈ keys
  · obtain ⟨o, -, hlatest⟩ := hi.owned key
    refine ⟨st o key, fun n ↦ ?_⟩
    have hlast := hlatest n
    rw [hquiet.onTheWay_eq] at hlast
    obtain ⟨hholds, hhash⟩ := hi.holds n
    exact hlast ▸ hholds.reads (hhash ▸ hinj n) hkey
  · exact ⟨none, fun n ↦ (hi.holds n).1.reads_of_notMem hkey⟩

end

/-- Positions in the queues fit thirty-two bits after a step. -/
def Fits [Fintype ν] [OrderedMap T ℤ Ptr] [OrderedMap M UInt64 (Finset Key)]
    (c : Replicas ν T M) (a : Step ν) : Prop :=
  ∀ c' ∈ c.step (.plain Utf8.repair) (fun _ _ ↦ 0) a, ∀ n, (c'.cache n).Small

instance [Fintype ν] [OrderedMap T ℤ Ptr] [OrderedMap M UInt64 (Finset Key)]
    (c : Replicas ν T M) (a : Step ν) : Decidable (c.Fits a) :=
  inferInstanceAs (Decidable (∀ _ ∈ _, _))

/-- Two nodes put the same key, one after the other. -/
theorem replicas_converge_turns : ∃ cache, BigCache.someCache = some cache ∧
    ∃ (ls : List (Step Bool)) (c : Replicas Bool _ _),
      ((system (.plain Utf8.repair) (fun _ _ ↦ 0) fun _ ↦ cache).restrict
        (Careful {[107]})).Run ls c ∧ c.Quiet ∧
      (c.cache false).Reads [107] (some [2]) ∧ (c.cache true).Reads [107] (some [2]) := by
  obtain ⟨cache, hcache, c, hres, hc⟩ := TransitionSystem.exists_run_of_param
    (S := fun cache ↦ (system (.plain Utf8.repair) (fun _ _ ↦ 0) fun _ : Bool ↦ cache).restrict
      fun c a ↦ c.Careful {[107]} a ∧ c.Fits a)
    (f := TransitionSystem.guarded (Replicas.step (.plain Utf8.repair) fun _ _ ↦ 0)
      fun c a ↦ c.Careful {[107]} a ∧ c.Fits a)
    (x := BigCache.someCache.filter fun c ↦ c.Small)
    (l := [.call true 0 (.put [107] [1]) [false], .push true 0, .take true 0, .sendMessage true 0,
      .deliver true false 0, .call false 0 (.put [107] [2]) [true], .push false 0, .take false 3,
      .sendMessage false 3, .deliver false true 0])
    (p := fun c ↦ decide (c.Quiet ∧ (c.cache false).Reads [107] (some [2])))
    (fun _ ↦ TransitionSystem.step_of_guarded) (fun _ ↦ rfl) (by decide +kernel)
  obtain ⟨hcache, hsmall⟩ := Option.filter_eq_some_iff.mp hcache
  obtain ⟨hquiet, hread⟩ := of_decide_eq_true hc
  have hcareful := hres.restrict_mono fun _ _ h ↦ h.1
  have hfits := hres.always_of_restrict (P := fun t ↦ ∀ n, (t.cache n).Small)
    TransitionSystem.run_ofStep_unique (by rintro _ rfl; exact fun _ ↦ of_decide_eq_true hsmall)
    fun _ _ c' h hok ↦ hok.2 c' h
  obtain ⟨value, hvalue⟩ := replicas_converge
    (Json.Repairs.keepsValid (EncodingJson.plain_delete Utf8.repair))
    (fun _ ↦ BigCache.someCache_holds hcache _) (fun _ ↦ Set.injOn_singleton _ _)
    (by rintro _ rfl; decide) hcareful (fun pre t hpre ht ↦ hfits pre t hpre ht.of_restrict)
    hquiet [107]
  obtain rfl : value = some [2] := Option.some.inj ((hvalue false).symm.trans hread)
  exact ⟨cache, hcache, _, c, hcareful, hquiet, hread, hvalue true⟩

/-- Two nodes put the same key at the same time, and each ends up with the value of the other. -/
theorem replicas_diverge : ∃ cache, BigCache.someCache = some cache ∧
    ∃ (ls : List (Step Bool)) (c : Replicas Bool _ _),
      (system (.plain Utf8.repair) (fun _ _ ↦ 0) fun _ ↦ cache).Run ls c ∧ c.Quiet ∧
      (c.cache true).Reads [107] (some [2]) ∧ (c.cache false).Reads [107] (some [1]) := by
  obtain ⟨cache, hcache, c, hr, hc⟩ := TransitionSystem.exists_run_of_param
    (S := fun cache ↦ system (.plain Utf8.repair) (fun _ _ ↦ 0) fun _ : Bool ↦ cache)
    (f := Replicas.step (.plain Utf8.repair) fun _ _ ↦ 0) (x := BigCache.someCache)
    (l := [.call true 0 (.put [107] [1]) [false], .call false 0 (.put [107] [2]) [true],
      .push true 0, .push false 0, .take true 0, .take false 0, .sendMessage true 0,
      .sendMessage false 0, .deliver true false 0, .deliver false true 0])
    (p := fun c ↦ decide (c.Quiet ∧ (c.cache true).Reads [107] (some [2]) ∧
      (c.cache false).Reads [107] (some [1])))
    (fun _ _ _ _ ↦ id) (fun _ ↦ rfl) (by decide +kernel)
  exact ⟨cache, hcache, _, c, hr, of_decide_eq_true hc⟩

end Replicas
end ClusteredBigCache
