import Mathlib.Algebra.Order.BigOperators.Group.List
import Mathlib.Algebra.Order.Ring.Nat

/-!
# A chain of bounded buffers

Messages go through a chain of buffers, each with room for so many of them.  A message is pushed
into the first buffer when there is room, advances from one buffer to the next when there is room
in that one, and is popped from the last.

* `contents` are the messages in the chain, the oldest first: `contents_push`, `contents_advance`
  and `contents_pop` say that a chain is a queue.
* `rank` counts the steps the messages have still to make: an `advance` and a `pop` take one away.
  `holes` counts the steps it takes to fill the chain: an `advance` and a `push` take one away.
* A chain is `Jammed` when nothing can advance.  A jammed chain that takes no message any more is
  full from the first to the last buffer (`full_of_jammed`), and one that has nothing to pop is
  empty (`contents_of_jammed`).
* `exists_full`: pushing the same message over and over fills the chain.
-/

set_option autoImplicit false

universe u

/-- A buffer with the messages in it, the oldest first. -/
structure Pipeline.Stage (α : Type u) where
  capacity : ℕ
  items : List α

/-- A chain of buffers, from the one where messages enter to the one where they leave. -/
abbrev Pipeline (α : Type u) := List (Pipeline.Stage α)

namespace Pipeline

variable {α : Type u}

/-- There is no room. -/
def Stage.Full (b : Stage α) : Prop := b.capacity ≤ b.items.length

instance (b : Stage α) : Decidable b.Full := inferInstanceAs (Decidable (_ ≤ _))

/-- One more message. -/
def Stage.add (b : Stage α) (a : α) : Stage α := { b with items := b.items ++ [a] }

/-- A message enters. -/
def push (p : Pipeline α) (a : α) : Option (Pipeline α) :=
  match p with
  | [] => none
  | b :: rest => if b.Full then none else some (b.add a :: rest)

/-- The oldest message of a buffer goes to the next one. -/
def advance : Pipeline α → ℕ → Option (Pipeline α)
  | [], _ => none
  | b :: rest, 0 =>
    match b.items, rest with
    | a :: items, c :: rest =>
      if c.Full then none else some ({ b with items := items } :: c.add a :: rest)
    | _, _ => none
  | b :: rest, i + 1 => (advance rest i).map (b :: ·)

/-- A message leaves. -/
def pop : Pipeline α → Option (α × Pipeline α)
  | [] => none
  | [b] =>
    match b.items with
    | [] => none
    | a :: items => some (a, [{ b with items := items }])
  | b :: c :: rest => (pop (c :: rest)).map fun (a, p) ↦ (a, b :: p)

/-- The messages in the chain, the oldest first. -/
def contents : Pipeline α → List α
  | [] => []
  | b :: rest => contents rest ++ b.items

/-- How much room there is in the buffers. -/
def capacities (p : Pipeline α) : List ℕ := p.map Stage.capacity

/-- The steps that the messages have still to make, and what is to be done with each one after it
has left. -/
def rank (weight : α → ℕ) : Pipeline α → ℕ
  | [] => 0
  | b :: rest => (b.items.map fun a ↦ weight a + rest.length + 1).sum + rank weight rest

/-- The steps that it takes to fill the buffers, the first of which is at some distance from where
the messages come from. -/
def holes (n : ℕ) : Pipeline α → ℕ
  | [] => 0
  | b :: rest => (b.capacity - b.items.length) * (n + 1) + holes (n + 1) rest

/-- No message can go from one buffer to the next. -/
def Jammed (p : Pipeline α) : Prop := ∀ i, p.advance i = none

/-! ## The three steps

Each is a recursion along the chain.  The case lemmas say what happens at the first buffer, and the
measures of the next sections follow by induction. -/

variable {p p' : Pipeline α} {a : α} {i : ℕ}

theorem push_eq_some (h : p.push a = some p') :
    ∃ b rest, p = b :: rest ∧ ¬ b.Full ∧ p' = b.add a :: rest := by
  match p with
  | b :: rest =>
    obtain ⟨hfull, h⟩ := Option.ite_none_left_eq_some.mp h
    exact ⟨b, rest, rfl, hfull, (Option.some.inj h).symm⟩

/-- **An advance**, of the first buffer or of a later one. -/
theorem advance_cases {motive : Pipeline α → Pipeline α → Prop}
    (hfirst : ∀ capacity a items (c : Stage α) rest, ¬ c.Full →
      motive (⟨capacity, a :: items⟩ :: c :: rest) (⟨capacity, items⟩ :: c.add a :: rest))
    (hlater : ∀ b p p', motive p p' → motive (b :: p) (b :: p')) (h : p.advance i = some p') :
    motive p p' := by
  induction p generalizing i p' with
  | nil => cases h
  | cons b rest ih =>
    match i with
    | 0 =>
      obtain ⟨capacity, items⟩ := b
      match items, rest with
      | [], _ | _ :: _, [] => cases h
      | a :: items, c :: rest =>
        obtain ⟨hfull, h⟩ := Option.ite_none_left_eq_some.mp h
        obtain rfl := Option.some.inj h
        exact hfirst capacity a items c rest hfull
    | i + 1 =>
      obtain ⟨q, hq, rfl⟩ := Option.map_eq_some_iff.mp h
      exact hlater b rest q (ih hq)

/-- **A pop**, from the last buffer. -/
theorem pop_cases {motive : Pipeline α → Pipeline α → Prop}
    (hlast : ∀ capacity items, motive [⟨capacity, a :: items⟩] [⟨capacity, items⟩])
    (hlater : ∀ b p p', p.length = p'.length → motive p p' → motive (b :: p) (b :: p'))
    (h : p.pop = some (a, p')) : p.length = p'.length ∧ motive p p' := by
  induction p generalizing p' with
  | nil => cases h
  | cons b rest ih =>
    match rest with
    | [] =>
      obtain ⟨capacity, items⟩ := b
      rw [pop] at h
      match items with
      | [] => cases h
      | a' :: items =>
        obtain ⟨rfl, rfl⟩ := Prod.mk.inj (Option.some.inj h)
        exact ⟨rfl, hlast capacity items⟩
    | c :: rest =>
      obtain ⟨⟨a', q⟩, hq, h⟩ := Option.map_eq_some_iff.mp h
      obtain ⟨rfl, rfl⟩ := Prod.mk.inj h
      obtain ⟨hlength, hmotive⟩ := ih hq
      exact ⟨by simpa using hlength, hlater b _ q hlength hmotive⟩

/-! ### What is in the chain -/

theorem contents_push (h : p.push a = some p') : p'.contents = p.contents ++ [a] := by
  obtain ⟨b, rest, rfl, -, rfl⟩ := push_eq_some h
  simp [contents, Stage.add]

theorem contents_advance (h : p.advance i = some p') : p'.contents = p.contents := by
  refine advance_cases (motive := fun p p' ↦ contents p' = contents p) ?_ ?_ h
  · intro capacity a items c rest _
    simp [contents, Stage.add]
  · intro b p p' h
    rw [contents, contents, h]

theorem contents_pop (h : p.pop = some (a, p')) : p.contents = a :: p'.contents := by
  refine (pop_cases (motive := fun p p' ↦ contents p = a :: contents p') ?_ ?_ h).2
  · intro capacity items
    simp [contents]
  · intro b p p' _ h
    rw [contents, contents, h, List.cons_append]

theorem capacities_push (h : p.push a = some p') : p'.capacities = p.capacities := by
  obtain ⟨b, rest, rfl, -, rfl⟩ := push_eq_some h
  rfl

theorem capacities_advance (h : p.advance i = some p') : p'.capacities = p.capacities := by
  refine advance_cases (motive := fun p p' ↦ capacities p' = capacities p) ?_ ?_ h
  · intro capacity a items c rest _
    rfl
  · intro b p p' h
    simp only [capacities, List.map_cons] at h ⊢
    rw [h]

theorem capacities_pop (h : p.pop = some (a, p')) : p'.capacities = p.capacities := by
  refine (pop_cases (motive := fun p p' ↦ capacities p' = capacities p) ?_ ?_ h).2
  · intro capacity items
    rfl
  · intro b p p' _ h
    simp only [capacities, List.map_cons] at h ⊢
    rw [h]

/-! ### The steps that are left -/

theorem holes_push {n : ℕ} (h : p.push a = some p') : p'.holes n + n + 1 = p.holes n := by
  obtain ⟨b, rest, rfl, hfull, rfl⟩ := push_eq_some h
  obtain ⟨k, hk⟩ := Nat.exists_eq_add_of_lt (Nat.lt_of_not_le hfull)
  have hbefore : b.capacity - b.items.length = k + 1 := by omega
  have hafter : b.capacity - (b.items ++ [a]).length = k := by
    rw [List.length_append, List.length_singleton]
    omega
  simp only [holes, Stage.add, hbefore, hafter, Nat.succ_mul]
  omega

theorem holes_advance {n : ℕ} (h : p.advance i = some p')
    (hcap : ∀ b ∈ p, b.items.length ≤ b.capacity) : p'.holes n + 1 = p.holes n := by
  revert n hcap
  refine advance_cases (motive := fun p p' ↦ ∀ {n : ℕ}, (∀ b ∈ p, b.items.length ≤ b.capacity) →
    holes n p' + 1 = holes n p) ?_ ?_ h
  · intro capacity a items c rest hfull n hcap
    obtain ⟨k, hk⟩ := Nat.exists_eq_add_of_lt (Nat.lt_of_not_le hfull)
    have hitems : items.length + 1 ≤ capacity := hcap _ List.mem_cons_self
    have hfirst : capacity - items.length = capacity - (items.length + 1) + 1 := by omega
    have hbefore : c.capacity - c.items.length = k + 1 := by omega
    have hafter : c.capacity - (c.items ++ [a]).length = k := by
      rw [List.length_append, List.length_singleton]
      omega
    simp only [holes, Stage.add, List.length_cons, hfirst, hbefore, hafter, Nat.succ_mul]
    omega
  · intro b p p' ih n hcap
    have := ih (n := n + 1) fun b hb ↦ hcap b (List.mem_cons_of_mem _ hb)
    rw [holes, holes]
    omega

/-! ## Chains in which nothing moves

When no message can advance, a buffer with something in it is followed by a full one.  The two
extremes follow by induction: a chain whose first buffer is full is full, and one with nothing in
its last buffer is empty. -/

theorem Jammed.tail {b : Stage α} (h : Jammed (b :: p)) : p.Jammed := fun i ↦
  Option.map_eq_none_iff.mp (h (i + 1))

/-- Where there is something, there is no room in the next buffer. -/
theorem Jammed.next {b c : Stage α} {rest : List (Stage α)} (h : Jammed (b :: c :: rest))
    (hb : b.items ≠ []) : c.Full := by
  obtain ⟨a, items, hitems⟩ := List.exists_cons_of_ne_nil hb
  have h0 := h 0
  simp only [advance, hitems] at h0
  by_contra hfull
  rw [if_neg hfull] at h0
  cases h0

/-- **A jammed chain that takes no message any more is full.** -/
theorem full_of_jammed {b : Stage α} (h : Jammed (b :: p)) (hcap : ∀ n ∈ capacities p, 0 < n)
    (hb : b.Full) (hb0 : 0 < b.capacity) : ∀ c ∈ b :: p, c.Full := by
  induction p generalizing b with
  | nil => simpa using hb
  | cons c rest ih =>
    have hne : b.items ≠ [] := List.ne_nil_of_length_pos (hb0.trans_le hb)
    have hc := h.next hne
    rw [capacities, List.map_cons, List.forall_mem_cons] at hcap
    exact List.forall_mem_cons.mpr ⟨hb, ih h.tail hcap.2 hc hcap.1⟩

/-- **A jammed chain that has nothing to pop is empty.** -/
theorem contents_of_jammed (h : p.Jammed) (hcap : ∀ n ∈ capacities p, 0 < n)
    (hpop : p.pop = none) : p.contents = [] := by
  induction p with
  | nil => rfl
  | cons b rest ih =>
    match rest with
    | [] =>
      match hitems : b.items with
      | [] => simp [contents, hitems]
      | a :: items => simp [pop, hitems] at hpop
    | c :: rest =>
      have hrest := ih h.tail (fun n hn ↦ hcap n (List.mem_cons_of_mem _ hn))
        (Option.map_eq_none_iff.mp hpop)
      have hc : c.items = [] := (List.append_eq_nil_iff.mp hrest).2
      have hb : b.items = [] := by
        by_contra hne
        have hfull := h.next hne
        rw [Stage.Full, hc] at hfull
        exact absurd (hcap c.capacity (by simp [capacities])) (Nat.not_lt.mpr hfull)
      rw [contents, hrest, hb, List.append_nil]

/-- Nothing moves in a chain that is full, and nothing enters it. -/
theorem jammed_of_full (h : ∀ b ∈ p, b.Full) : p.Jammed ∧ ∀ a, p.push a = none := by
  constructor
  · intro i
    rw [Option.eq_none_iff_forall_ne_some]
    intro p' hp'
    revert h
    refine advance_cases (motive := fun p _ ↦ ¬ ∀ b ∈ p, b.Full) ?_ ?_ hp'
    · intro capacity a items c rest hfull h
      exact hfull (h c (by simp))
    · intro b p _ ih h
      exact ih fun c hc ↦ h c (List.mem_cons_of_mem _ hc)
  · intro a
    match p with
    | [] => rfl
    | b :: rest => exact if_pos (h b List.mem_cons_self)

/-! ## Filling a chain -/

/-- No buffer has more in it than it has room for. -/
def Bounded (p : Pipeline α) : Prop := ∀ b ∈ p, b.items.length ≤ b.capacity

theorem Stage.length_add_le {b : Stage α} (h : ¬ b.Full) (a : α) :
    (b.add a).items.length ≤ (b.add a).capacity := by
  rw [Stage.add, List.length_append]
  exact Nat.lt_of_not_le h

theorem Bounded.push (hp : p.Bounded) (h : p.push a = some p') : p'.Bounded := by
  obtain ⟨b, rest, rfl, hfull, rfl⟩ := push_eq_some h
  exact List.forall_mem_cons.mpr
    ⟨Stage.length_add_le hfull a, fun c hc ↦ hp c (List.mem_cons_of_mem _ hc)⟩

theorem Bounded.advance (hp : p.Bounded) (h : p.advance i = some p') : p'.Bounded := by
  revert hp
  refine advance_cases (motive := fun p p' ↦ Bounded p → Bounded p') ?_ ?_ h
  · intro capacity a items c rest hfull hp
    simp only [Bounded, List.forall_mem_cons] at hp ⊢
    exact ⟨Nat.le_of_succ_le hp.1, Stage.length_add_le hfull a, hp.2.2⟩
  · intro b p p' ih hp
    simp only [Bounded, List.forall_mem_cons] at hp ⊢
    exact ⟨hp.1, ih hp.2⟩

theorem Bounded.pop (hp : p.Bounded) (h : p.pop = some (a, p')) : p'.Bounded := by
  revert hp
  refine (pop_cases (motive := fun p p' ↦ Bounded p → Bounded p') ?_ ?_ h).2
  · intro capacity items hp
    simp only [Bounded, List.forall_mem_cons] at hp ⊢
    exact ⟨Nat.le_of_succ_le hp.1, hp.2⟩
  · intro b p p' _ ih hp
    simp only [Bounded, List.forall_mem_cons] at hp ⊢
    exact ⟨hp.1, ih hp.2⟩

/-- **Pushing one message over and over fills a chain**: what is kept by pushing it and by letting
messages advance is true of a chain that is full. -/
theorem exists_full {motive : Pipeline α → Prop} (a : α)
    (hpush : ∀ p p', motive p → p.push a = some p' → motive p')
    (hadvance : ∀ p i p', motive p → p.advance i = some p' → motive p') (hp : motive p)
    (hb : p.Bounded) (hcap : ∀ n ∈ p.capacities, 0 < n) :
    ∃ p' : Pipeline α, motive p' ∧ p'.capacities = p.capacities ∧ ∀ b ∈ p', b.Full := by
  generalize hn : p.holes 0 = n
  induction n using Nat.strong_induction_on generalizing p with
  | _ n ih =>
    -- a step leaves fewer holes
    have hmove : ∀ q, motive q → q.Bounded → q.capacities = p.capacities → q.holes 0 < n →
        ∃ p' : Pipeline α, motive p' ∧ p'.capacities = p.capacities ∧ ∀ b ∈ p', b.Full := by
      intro q hq hb hcaps hlt
      rw [← hcaps] at hcap ⊢
      exact ih _ hlt hq hb hcap rfl
    match hpush? : p.push a with
    | some q =>
      have hholes := holes_push hpush? (n := 0)
      exact hmove q (hpush p q hp hpush?) (hb.push hpush?) (capacities_push hpush?) (by omega)
    | none =>
      by_cases hjam : p.Jammed
      · refine ⟨p, hp, rfl, ?_⟩
        match p with
        | [] => simp
        | b :: rest =>
          have hfull : b.Full := by
            by_contra hfull
            simp [push, hfull] at hpush?
          rw [capacities, List.map_cons, List.forall_mem_cons] at hcap
          exact full_of_jammed hjam hcap.2 hfull hcap.1
      · obtain ⟨i, hi⟩ := not_forall.mp hjam
        obtain ⟨q, hq⟩ := Option.ne_none_iff_exists'.mp hi
        have hholes := holes_advance hq hb (n := 0)
        exact hmove q (hadvance p i q hp hq) (hb.advance hq) (capacities_advance hq) (by omega)

/-- How many messages there are in a full chain. -/
theorem length_contents_of_full (hb : p.Bounded) (h : ∀ b ∈ p, b.Full) :
    p.contents.length = p.capacities.sum := by
  induction p with
  | nil => rfl
  | cons b rest ih =>
    simp only [Bounded, List.forall_mem_cons] at hb h
    have hlength : b.items.length = b.capacity := Nat.le_antisymm hb.1 h.1
    rw [contents, List.length_append, ih hb.2 h.2, hlength, capacities, capacities, List.map_cons,
      List.sum_cons, Nat.add_comm]

end Pipeline
