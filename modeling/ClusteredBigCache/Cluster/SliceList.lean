import Mathlib.Data.Finmap
import ClusteredBigCache.Lib.Go
import ClusteredBigCache.Lib.TransitionSystem

/-!
# `SliceList`

The list in which a node keeps its remote nodes is a map with a counter beside it: `Add` counts
before it stores, whether or not the key was there, and `Remove` counts when it found the key.

Each operation on the map and on the counter is atomic, and the calls are not.  `SharedList` is a
list with any number of calls under way, and `SharedList.system` lets their steps follow each other
in any order.  `size_eq_card` is what holds when no `Add` stores over a key and no `Remove` deletes
a key that is already gone: the counter is the number of keys, and of what the calls under way have
counted and not stored, or deleted and not counted.  Without that the counter drifts, and it can
become negative, so that `Values` panics (`size_drifts`).
-/

set_option autoImplicit false

namespace ClusteredBigCache

/-- `SliceList` represents a list of slices. -/
structure SliceList (κ ν : Type) where
  items : Finmap fun _ : κ ↦ ν
  size : Int32

namespace SliceList

variable {κ ν : Type}

/-- `NewSliceList` creates a new list. -/
def new : SliceList κ ν := ⟨∅, 0⟩

/-- `Values` returns the values, in some order. -/
def values (list : SliceList κ ν) : Multiset ν := list.items.entries.map Sigma.snd

/-- `Values`, as a call: the size is the capacity of a new slice, and must not be negative. -/
def makeValues (list : SliceList κ ν) : Go (Multiset ν) :=
  if list.size < 0 then .error .panic else .ok list.values

variable [DecidableEq κ]

/-- `Add` stores a value, which is not `nil`. -/
def add (list : SliceList κ ν) (key : κ) (value : ν) : SliceList κ ν :=
  ⟨list.items.insert key value, list.size + 1⟩

/-- `Get` returns the value of a key, if there is one. -/
def get (list : SliceList κ ν) (key : κ) : Option ν := list.items.lookup key

/-- `Contains` verifies if a key exists within the list. -/
def contains (list : SliceList κ ν) (key : κ) : Bool := (list.items.lookup key).isSome

/-- `Remove` removes a key, if it is there. -/
def remove (list : SliceList κ ν) (key : κ) : SliceList κ ν :=
  if list.contains key then ⟨list.items.erase key, list.size - 1⟩ else list

theorem get_add (list : SliceList κ ν) (key key' : κ) (value : ν) :
    (list.add key value).get key' = if key' = key then some value else list.get key' := by
  rw [get, add]
  split_ifs with h
  · rw [h, Finmap.lookup_insert]
  · rw [Finmap.lookup_insert_of_ne _ h, get]

theorem get_remove (list : SliceList κ ν) (key key' : κ) :
    (list.remove key).get key' = if key' = key then none else list.get key' := by
  rw [remove]
  split_ifs with hc h h
  · rw [h, get, Finmap.lookup_erase]
  · rw [get, Finmap.lookup_erase_ne h, get]
  · rw [h, get]
    simpa [contains] using hc
  · rfl

theorem mem_values {list : SliceList κ ν} {value : ν} :
    value ∈ list.values ↔ ∃ key, list.get key = some value := by
  rw [values, Multiset.mem_map]
  constructor
  · rintro ⟨⟨key, _⟩, hmem, rfl⟩
    exact ⟨key, Finmap.mem_lookup_iff.mpr hmem⟩
  · rintro ⟨key, hkey⟩
    exact ⟨⟨key, value⟩, Finmap.mem_lookup_iff.mp hkey, rfl⟩

theorem contains_iff {list : SliceList κ ν} {key : κ} :
    list.contains key ↔ key ∈ list.items.keys := by
  rw [contains, Finmap.lookup_isSome, Finmap.mem_keys]

/-- Where a call of `Add` or `Remove` is. -/
inductive Call (κ ν : Type)
  /-- `Add` has counted, and has yet to store. -/
  | counted (key : κ) (value : ν)
  /-- `Remove` has found the key, and has yet to delete it. -/
  | found (key : κ)
  /-- `Remove` has deleted the key, and has yet to count. -/
  | deleted (key : κ)

namespace Call

/-- The key of a call. -/
def key : Call κ ν → κ
  | .counted key _ | .found key | .deleted key => key

/-- The counter is one more than the map for this call. -/
def owes : Call κ ν → Bool
  | .counted _ _ | .deleted _ => true
  | .found _ => false

end Call
end SliceList

/-! ## Calls that cross

`Add` counts and then stores its key, and `Remove` looks for its key before it deletes it and
counts.  Other calls may come in between; the counter is right as long as every `store` adds a key
and every `delete` takes one away. -/

/-- A list, and the calls on it that are under way. -/
structure SharedList (κ ν : Type) where
  list : SliceList κ ν
  calls : List (SliceList.Call κ ν)

namespace SharedList

open SliceList (Call)

/-- The steps of the calls. -/
inductive Step (κ ν : Type)
  /-- `Add` is called, with a value that is not `nil`, and counts. -/
  | count (key : κ) (value : ν)
  /-- One of the calls of `Add` stores. -/
  | store (i : ℕ)
  /-- `Remove` is called, and looks the key up. -/
  | load (key : κ)
  /-- One of the calls of `Remove` deletes the key it has found. -/
  | delete (i : ℕ)
  /-- One of the calls of `Remove` counts. -/
  | uncount (i : ℕ)

variable {κ ν : Type} [DecidableEq κ]

/-- One step, where it can be taken. -/
def step (s : SharedList κ ν) : Step κ ν → Option (SharedList κ ν)
  | .count key value => some { s with
      list.size := s.list.size + 1
      calls := .counted key value :: s.calls }
  | .store i =>
    match s.calls[i]? with
    | some (.counted key value) => some { s with
        list.items := s.list.items.insert key value
        calls := s.calls.eraseIdx i }
    | _ => none
  | .load key =>
    if s.list.contains key then some { s with calls := .found key :: s.calls } else some s
  | .delete i =>
    match s.calls[i]? with
    | some (.found key) => some { s with
        list.items := s.list.items.erase key
        calls := s.calls.set i (.deleted key) }
    | _ => none
  | .uncount i =>
    match s.calls[i]? with
    | some (.deleted _) => some { s with
        list.size := s.list.size - 1
        calls := s.calls.eraseIdx i }
    | _ => none

/-- A new list, and any number of calls on it at the same time. -/
def system (κ ν : Type) [DecidableEq κ] : TransitionSystem (SharedList κ ν) (Step κ ν) :=
  .ofStep (· = ⟨.new, []⟩) step

/-- A call of `Add` that no other call crosses. -/
theorem foldlM_add (s : SharedList κ ν) (key : κ) (value : ν) :
    [.count key value, .store 0].foldlM step s = some { s with list := s.list.add key value } :=
  rfl

/-- A call of `Remove` that no other call crosses. -/
theorem foldlM_remove (s : SharedList κ ν) (key : κ) :
    (if s.list.contains key then [.load key, .delete 0, .uncount 0]
      else [.load key]).foldlM step s = some { s with list := s.list.remove key } := by
  rw [SliceList.remove]
  split_ifs with hkey
  · have hload : s.step (.load key) = some { s with calls := .found key :: s.calls } := if_pos hkey
    rw [List.foldlM_cons, hload]
    rfl
  · have hload : s.step (.load key) = some s := if_neg hkey
    rw [List.foldlM_cons, hload]
    rfl

/-- Everything a step can do. -/
inductive Outcome (s : SharedList κ ν) : Step κ ν → SharedList κ ν → Prop
  | count (key : κ) (value : ν) :
      Outcome s (.count key value)
        { s with list.size := s.list.size + 1, calls := .counted key value :: s.calls }
  | store {i : ℕ} {key : κ} {value : ν} (hcall : s.calls[i]? = some (.counted key value)) :
      Outcome s (.store i)
        { s with list.items := s.list.items.insert key value, calls := s.calls.eraseIdx i }
  | found {key : κ} (hkey : s.list.contains key) :
      Outcome s (.load key) { s with calls := .found key :: s.calls }
  | missed (key : κ) : Outcome s (.load key) s
  | delete {i : ℕ} {key : κ} (hcall : s.calls[i]? = some (.found key)) :
      Outcome s (.delete i)
        { s with list.items := s.list.items.erase key, calls := s.calls.set i (.deleted key) }
  | uncount {i : ℕ} {key : κ} (hcall : s.calls[i]? = some (.deleted key)) :
      Outcome s (.uncount i)
        { s with list.size := s.list.size - 1, calls := s.calls.eraseIdx i }

/-- **A step does one of these.** -/
theorem step_outcome {s s' : SharedList κ ν} {a : Step κ ν} (h : s.step a = some s') :
    Outcome s a s' := by
  unfold step at h
  cases a with
  | count key value =>
    obtain rfl := Option.some.inj h
    exact .count key value
  | load key =>
    simp only at h
    split_ifs at h with hkey
    · obtain rfl := Option.some.inj h
      exact .found hkey
    · obtain rfl := Option.some.inj h
      exact .missed key
  | store i =>
    simp only at h
    split at h
    · next hcall =>
      obtain rfl := Option.some.inj h
      exact .store hcall
    · cases h
  | delete i =>
    simp only at h
    split at h
    · next hcall =>
      obtain rfl := Option.some.inj h
      exact .delete hcall
    · cases h
  | uncount i =>
    simp only at h
    split at h
    · next hcall =>
      obtain rfl := Option.some.inj h
      exact .uncount hcall
    · cases h

/-- `Add` stores a key that is not there, `Remove` deletes a key that is, and the counter does not
overflow. -/
def Orderly (s : SharedList κ ν) : Step κ ν → Prop
  | .count _ _ => s.list.size.toInt + 1 < 2 ^ 31
  | .store i => ∀ call ∈ s.calls[i]?, s.list.contains call.key = false
  | .delete i => ∀ call ∈ s.calls[i]?, s.list.contains call.key
  | .load _ | .uncount _ => True

instance (s : SharedList κ ν) (a : Step κ ν) : Decidable (s.Orderly a) :=
  match a with
  | .count _ _ => inferInstanceAs (Decidable (s.list.size.toInt + 1 < 2 ^ 31))
  | .store i =>
    inferInstanceAs (Decidable (∀ call ∈ s.calls[i]?, s.list.contains call.key = false))
  | .delete i => inferInstanceAs (Decidable (∀ call ∈ s.calls[i]?, s.list.contains call.key = true))
  | .load _ | .uncount _ => inferInstanceAs (Decidable True)

/-- How much the counter is ahead of the map. -/
def owed (s : SharedList κ ν) : ℕ := s.calls.countP Call.owes

/-- The counter is the number of keys, and what the calls under way owe. -/
def Balanced (s : SharedList κ ν) : Prop :=
  s.list.size.toInt = s.list.items.keys.card + s.owed

section

variable {s s' : SharedList κ ν} {a : Step κ ν}

omit [DecidableEq κ] in
theorem countP_eraseIdx {i : ℕ} {call : Call κ ν} (h : s.calls[i]? = some call) :
    s.owed = (s.calls.eraseIdx i).countP Call.owes + if call.owes then 1 else 0 := by
  obtain ⟨hi, rfl⟩ := List.getElem?_eq_some_iff.mp h
  rw [owed, ← (List.getElem_cons_eraseIdx_perm hi).countP_eq, List.countP_cons]

/-- **Every orderly step keeps the balance.** -/
theorem Outcome.balanced (ho : Outcome s a s') (hb : s.Balanced) (horderly : s.Orderly a) :
    s'.Balanced := by
  have hone : (1 : Int32).toInt = 1 := rfl
  rw [Balanced] at hb ⊢
  cases ho with
  | count key value =>
    have hlt : s.list.size.toInt + 1 < 2 ^ 31 := horderly
    simp only [owed, List.countP_cons, Call.owes, if_true, Int32.toInt_add, hone]
    rw [Int.bmod_eq_of_le (by omega) (by omega), hb, owed]
    push_cast
    ring
  | @store i key value hcall =>
    have habsent : s.list.contains key = false := horderly _ hcall
    have hnew : key ∉ s.list.items.keys := by
      rw [← SliceList.contains_iff, habsent]
      simp
    have hkeys : (s.list.items.insert key value).keys = insert key s.list.items.keys := by
      ext k
      rw [Finmap.mem_keys, Finmap.mem_insert, Finset.mem_insert, Finmap.mem_keys]
    have howed := countP_eraseIdx hcall
    simp only [Call.owes, if_true] at howed
    simp only [owed, hkeys, Finset.card_insert_of_notMem hnew]
    push_cast
    omega
  | found hkey => simpa [owed, Call.owes] using hb
  | missed key => exact hb
  | @delete i key hcall =>
    have hold : key ∈ s.list.items.keys := SliceList.contains_iff.mp (horderly _ hcall)
    have hpos := Finset.card_pos.mpr ⟨key, hold⟩
    obtain ⟨hi, heq⟩ := List.getElem?_eq_some_iff.mp hcall
    have hset : (s.calls.set i (.deleted key)).countP Call.owes = s.owed + 1 := by
      rw [List.countP_set hi, heq]
      rfl
    simp only [owed, hset, Finmap.keys_erase, Finset.card_erase_of_mem hold] at hb ⊢
    omega
  | @uncount i key hcall =>
    have howed := countP_eraseIdx hcall
    simp only [Call.owes, if_true] at howed
    have hlt := s.list.size.toInt_lt
    simp only [owed, Int32.toInt_sub, hone]
    rw [Int.bmod_eq_of_le (by omega) (by omega), hb]
    omega

theorem balanced_of_run {ls : List (Step κ ν)} (hr : ((system κ ν).restrict Orderly).Run ls s) :
    s.Balanced := by
  refine hr.invariant ?_ ?_
  · rintro s rfl
    rfl
  · rintro s a s' hb ⟨hstep, horderly⟩
    exact (step_outcome hstep).balanced hb horderly

end

/-- **The size is the number of keys.**  When no call stores over a key, or deletes a key that is
gone, the size is at no time negative, so that `Values` returns, and once all calls have finished it
is the number of keys in the list. -/
theorem size_eq_card {ls : List (Step κ ν)} {s : SharedList κ ν}
    (hr : ((system κ ν).restrict Orderly).Run ls s) :
    0 ≤ s.list.size ∧ s.list.makeValues = .ok s.list.values ∧
      (s.calls = [] → s.list.size.toInt = s.list.items.keys.card) := by
  have hb : s.list.size.toInt = s.list.items.keys.card + s.owed := balanced_of_run hr
  have hzero : (0 : Int32).toInt = 0 := rfl
  have hnonneg : 0 ≤ s.list.size := by
    rw [Int32.le_iff_toInt_le, hb, hzero]
    omega
  refine ⟨hnonneg, if_neg (Int32.not_lt.mpr hnonneg), fun hcalls ↦ ?_⟩
  rw [hb, owed, hcalls]
  simp

/-- Two keys are added by calls that cross, and one of them is removed and added again. -/
theorem size_eq_card_crossing :
    ∃ s : SharedList ℕ ℕ, ((system ℕ ℕ).restrict Orderly).Run
        [.count 1 10, .count 2 20, .store 1, .load 1, .delete 0, .store 1, .count 1 11, .uncount 1,
          .store 0] s ∧
      s.calls = [] ∧ s.list.size.toInt = s.list.items.keys.card ∧ s.list.size = 2 := by
  obtain ⟨s, hr, hs⟩ := TransitionSystem.exists_run_from (S := (system ℕ ℕ).restrict Orderly)
    (fun _ _ _ ↦ TransitionSystem.step_of_guarded _ _ _)
    (l := [.count 1 10, .count 2 20, .store 1, .load 1, .delete 0, .store 1, .count 1 11,
      .uncount 1, .store 0])
    (p := fun s ↦ s.calls.isEmpty ∧ s.list.size = 2) rfl (by decide +kernel)
  obtain ⟨hcalls, hsize⟩ := of_decide_eq_true hs
  have hcalls := List.isEmpty_iff.mp hcalls
  exact ⟨s, hr, hcalls, (size_eq_card hr).2.2 hcalls, hsize⟩

/-- **The size drifts away from the number of keys.**  A key that is added twice is counted twice.
Two calls of `Remove` that both find a key both count it, and the size becomes negative: `Values`
panics. -/
theorem size_drifts :
    (∃ s : SharedList ℕ ℕ, (system ℕ ℕ).Run [.count 1 10, .store 0, .count 1 11, .store 0] s ∧
      s.calls = [] ∧ s.list.items.keys.card = 1 ∧ s.list.size = 2) ∧
    ∃ s : SharedList ℕ ℕ, (system ℕ ℕ).Run
        [.count 1 10, .store 0, .load 1, .load 1, .delete 0, .delete 1, .uncount 0, .uncount 0] s ∧
      s.calls = [] ∧ s.list.items.keys.card = 0 ∧ s.list.size = -1 ∧
      s.list.makeValues = .error .panic := by
  constructor
  · refine Exists.imp (fun s hs ↦ ⟨hs.1, ?_⟩) (TransitionSystem.exists_run_from (S := system ℕ ℕ)
      (fun _ _ _ ↦ id) rfl
      (p := fun s ↦ s.calls.isEmpty ∧ s.list.items.keys.card = 1 ∧ s.list.size = 2)
      (by decide +kernel))
    obtain ⟨hcalls, hrest⟩ := of_decide_eq_true hs.2
    exact ⟨List.isEmpty_iff.mp hcalls, hrest⟩
  · refine Exists.imp (fun s hs ↦ ⟨hs.1, ?_⟩) (TransitionSystem.exists_run_from (S := system ℕ ℕ)
      (fun _ _ _ ↦ id) rfl
      (p := fun s ↦ s.calls.isEmpty ∧ s.list.items.keys.card = 0 ∧ s.list.size = -1)
      (by decide +kernel))
    obtain ⟨hcalls, hcard, hsize⟩ := of_decide_eq_true hs.2
    refine ⟨List.isEmpty_iff.mp hcalls, hcard, hsize, if_pos ?_⟩
    rw [hsize]
    decide

end SharedList
end ClusteredBigCache
