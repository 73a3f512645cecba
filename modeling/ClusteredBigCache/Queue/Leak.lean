import ClusteredBigCache.Queue.FreeListRuns
import ClusteredBigCache.Queue.Storage

/-!
# How the space of a queue leaks

When an entry between two free blocks is deleted, `add` forgets the block before it.  What is
forgotten is never handed out again, and this can be repeated: of three entries of one size, one
behind the other, the outer two are deleted first and the one in the middle last.  Two thirds of the
space are free then, the next two entries are put there, and the third one goes behind the tail,
where it is next to the others again.

`Row` is the queue with the three entries in it, and `Gap` the queue when they are gone.  `Row.gap`
and `Gap.row` lead from one to the other and back, one entry further on each time, so that the tail
goes beyond every bound (`leaks`) although there are never more than three entries.  The queue is
`unlimited`: it starts with an array of a given length and no limit, and it is the calls that make
the array longer.  Blocks of 4096 bytes are left out, and those of 2048 bytes, two of which are one
such block: no size list holds it, and `find` does not find it at all.
-/

set_option autoImplicit false

namespace ClusteredBigCache

open OrderedMap

variable {T : Type} [OrderedMap T ℤ Ptr]

/-! ## The free list

The round needs three facts: one free block is found and its front is taken, a range with nothing
free before it is added as it is, and a range between two blocks makes `add` forget the first. -/

namespace FreeList

variable {l : FreeList T} {a n size : ℤ}

/-- What is found is the front of a block. -/
theorem findFrom_start {lists : List (Fin 8)} {buckSize : ℤ} (h : l.WF)
    (hne : (findFrom l size lists buckSize).2 ≠ -1) :
    ∃ p, l.Recorded p ∧ l.start p = (findFrom l size lists buckSize).2 := by
  induction lists generalizing buckSize with
  | nil => exact absurd rfl hne
  | cons idx rest ih =>
    rw [findFrom] at hne ⊢
    rcases hfind : (l.sizeList idx).find? (fun p ↦ decide (size ≤ (l.heap p).actualSize)) with _ | p
    · simp only [findInSizeList, hfind] at hne ⊢
      exact ih hne
    · have hp := ((h.listed idx p).mp (List.mem_of_find?_eq_some hfind)).1
      refine ⟨p, hp, ?_⟩
      simp only [findInSizeList, hfind]
      split_ifs <;> rfl

/-- Free positions with none before and none behind them are one block. -/
theorem WF.exists_block (h : l.WF) (hin : Set.Ico a (a + n) ⊆ l.covered) (hn : 1 ≤ n)
    (hleft : a - 1 ∉ l.covered) (hright : a + n ∉ l.covered) :
    ∃ p, l.Recorded p ∧ l.start p = a ∧ l.len p = n := by
  obtain ⟨p, hp, hap⟩ := hin (Set.mem_Ico.mpr ⟨le_refl a, by omega⟩)
  rw [mem_block] at hap
  have hfirst : a - 1 ∉ l.block p := fun hx ↦ hleft (block_subset_covered hp hx)
  have hbehind : a + n ∉ l.block p := fun hx ↦ hright (block_subset_covered hp hx)
  rw [mem_block] at hfirst hbehind
  refine ⟨p, hp, by omega, ?_⟩
  by_contra hne
  -- the position behind the block is free as well, and its block would touch this one
  obtain ⟨q, hq, hxq⟩ := hin (Set.mem_Ico.mpr
    (⟨by omega, by omega⟩ : a ≤ l.start p + l.len p ∧ l.start p + l.len p < a + n))
  rw [mem_block] at hxq
  have hpq : p ≠ q := by
    rintro rfl
    omega
  have hapart := h.apart p q hp hq hpq
  omega

theorem WF.exists_only_block (h : l.WF) (hcov : l.covered = Set.Ico a (a + n)) (hn : 1 ≤ n) :
    ∃ p, l.Recorded p ∧ l.start p = a ∧ l.len p = n := by
  refine h.exists_block hcov.ge hn ?_ ?_
  · rw [hcov, Set.mem_Ico]
    omega
  · rw [hcov, Set.mem_Ico]
    omega

theorem WF.start_eq (h : l.WF) (hcov : l.covered = Set.Ico a (a + n)) (hn : 1 ≤ n) {p : Ptr}
    (hp : l.Recorded p) : l.start p = a := by
  obtain ⟨q, hq, hstart, hlen⟩ := h.exists_only_block hcov hn
  have hpos := h.len_pos p hp
  have hmem := block_subset_covered hp (mem_block.mpr ⟨le_refl (l.start p), by omega⟩)
  rw [hcov, Set.mem_Ico] at hmem
  rw [h.eq_of_mem_block hp hq (mem_block.mpr ⟨le_refl (l.start p), by omega⟩)
    (mem_block.mpr (by omega)), hstart]

/-- **`find` takes the front** of the only block. -/
theorem find_interval (h : l.WF) (hcov : l.covered = Set.Ico a (a + n)) (ha : 0 ≤ a)
    (hs : 1 ≤ size) (hle : size ≤ n) (hclass : n ≠ 4096) :
    ∃ l', l.find size = (l', a) ∧ l'.WF ∧ l'.covered = Set.Ico (a + size) (a + n) := by
  obtain ⟨p, hp, hstart, hlen⟩ := h.exists_only_block hcov (by omega)
  rcases find_spec h hs with hnone | htook
  · have hlt := (find_eq_neg_one_iff h hs).mp hnone p hp (by omega)
    omega
  · have hne : (l.find size).2 ≠ -1 := by
      have hmem := (htook.start_mem hs).1
      rw [hcov, Set.mem_Ico] at hmem
      omega
    obtain ⟨q, hq, hfront⟩ := findFrom_start h hne
    have heq : (l.find size).2 = a := hfront.symm.trans (h.start_eq hcov (by omega) hq)
    refine ⟨_, Prod.ext rfl heq, htook.wf, ?_⟩
    rw [htook.covered_eq, hcov, heq]
    ext x
    simp only [Set.mem_sdiff, Set.mem_Ico]
    omega

theorem find_empty (h : l.WF) (hcov : l.covered = ∅) (hs : 1 ≤ size) : l.find size = (l, -1) := by
  refine (find_eq_neg_one_iff h hs).mpr fun p hp _ ↦ ?_
  have hpos := h.len_pos p hp
  have hmem := block_subset_covered hp (mem_block.mpr ⟨le_refl (l.start p), by omega⟩)
  rw [hcov] at hmem
  exact absurd hmem (Set.notMem_empty _)

/-- A range is added with nothing before it. -/
theorem covered_add_of_notMem (h : l.WF) (hu : l.Uncovered a n) (hn : 1 ≤ n)
    (hleft : a - 1 ∉ l.covered) :
    (l.add a n).WF ∧ (l.add a n).covered = l.covered ∪ Set.Ico a (a + n) := by
  refine ⟨(add_spec h hu hn).1, (covered_add_iff h hu hn).mpr fun hb ↦ hleft ?_⟩
  obtain ⟨p, hp⟩ := Option.isSome_iff_exists.mp hb.1
  exact ⟨p, ⟨_, hp⟩, h.covered_of_get hp⟩

/-- **A range is added between two blocks**: the one before it is forgotten. -/
theorem covered_add_between (h : l.WF) (hn : 1 ≤ n)
    (hcov : l.covered = Set.Ico a (a + n) ∪ Set.Ico (a + 2 * n) (a + 3 * n)) :
    (l.add (a + n) n).WF ∧ (l.add (a + n) n).covered = Set.Ico (a + n) (a + 3 * n) := by
  have hmem : ∀ x, x ∈ l.covered ↔ a ≤ x ∧ x < a + n ∨ a + 2 * n ≤ x ∧ x < a + 3 * n := by
    intro x
    rw [hcov, Set.mem_union, Set.mem_Ico, Set.mem_Ico]
  have hu : l.Uncovered (a + n) n := by
    intro x hx hx' hxc
    rw [hmem] at hxc
    omega
  obtain ⟨v, hv, hstart, hlen⟩ := h.exists_block (a := a) (n := n)
    (fun x hx ↦ (hmem x).mpr (.inl hx)) hn (by rw [hmem]; omega) (by rw [hmem]; omega)
  obtain ⟨w, hw, hstart', -⟩ := h.exists_block (a := a + 2 * n) (n := n)
    (fun x hx ↦ (hmem x).mpr (.inr ⟨hx.1, by have := hx.2; omega⟩)) hn (by rw [hmem]; omega)
    (by rw [hmem]; omega)
  have hleft : get l.indexTree (a + n - 1) = some v := by
    have hlast := h.get_last v hv
    rwa [last, hstart, hlen] at hlast
  have hright : get l.indexTree (a + n + n) = some w := by
    have hfirst := h.get_start w hw
    rw [hstart'] at hfirst
    rwa [show a + n + n = a + 2 * n by omega]
  obtain ⟨hwf, hadd⟩ := add_spec h hu hn
  refine ⟨hwf, ?_⟩
  rw [hadd, lost, hleft, hright]
  ext x
  simp only [Set.mem_sdiff, Set.mem_union, hmem, Set.mem_Ico, mem_block, hstart, hlen]
  omega

end FreeList

/-! ## The queue

`Shape` says what is needed of a queue, and of the calls that led to it, between two calls of the
round.  `push_behind`, `push_front` and `delete` are the calls. -/

namespace BytesQueue

/-- A queue of unlimited size, with an array of this length to begin with. -/
def unlimited (T : Type) [OrderedMap T ℤ Ptr] (initialCapacity : ℕ) :
    TransitionSystem (BytesQueue T) Op :=
  .ofStep (· = new initialCapacity 0) perform

/-- Only this is pushed, and only when there are at most two entries. -/
def Modest (data : Bytes) (q : BytesQueue T) : Op → Prop
  | .push d _ => d = data ∧ q.live.length ≤ 2
  | .delete _ | .get _ => True

/-- The queue is in its invariant, and there are never more than three entries. -/
theorem inv_of_modest {cap : ℕ} {data : Bytes} {ls : List Op} {q : BytesQueue T}
    (hr : ((unlimited T cap).restrict (Modest data)).Run ls q) :
    q.Inv ∧ q.live.length ≤ 3 := by
  refine hr.invariant ?_ ?_
  · rintro q rfl
    exact ⟨new_inv _ _, Nat.zero_le _⟩
  · rintro q op q' ⟨hinv, hle⟩ ⟨hstep, hmodest⟩
    rcases hinv.perform_cases hstep with
      ⟨d, r, rfl, hone, hlt, ho⟩ | ⟨e, -, rfl, rfl, hinv'⟩ | ⟨i, rfl, rfl⟩
    · have htwo : q.live.length ≤ 2 := hmodest.2
      refine ⟨ho.inv hinv hone hlt, ?_⟩
      rcases r with err | i
      · rw [ho.eq_of_error.1]
        exact hle
      · rw [ho.live_of_ok, List.length_cons]
        omega
    · exact ⟨hinv', (List.length_filter_le _ _).trans hle⟩
    · exact ⟨hinv, hle⟩

/-- What matters of a queue of unlimited size that was used with modesty: its entries, the free
positions and the tail. -/
structure Shape (cap : ℕ) (data : Bytes) (live : List (ℕ × Bytes)) (free : Set ℤ)
    (tail : ℕ) (q : BytesQueue T) : Prop where
  made : ∃ ls, ((unlimited T cap).restrict (Modest data)).Run ls q
  inv : q.Inv
  maxCapacity_eq : q.maxCapacity = 0
  live_eq : q.live = live
  free_eq : q.freelist.covered = free
  tail_eq : q.tail = tail

variable {cap : ℕ} {data : Bytes} {live : List (ℕ × Bytes)} {free : Set ℤ} {tail : ℕ}
  {q : BytesQueue T}

theorem shape_new (cap : ℕ) (data : Bytes) :
    Shape cap data [] ∅ 1 (new cap 0 : BytesQueue T) where
  made := ⟨[], .start rfl⟩
  inv := new_inv cap 0
  maxCapacity_eq := rfl
  live_eq := rfl
  free_eq := FreeList.covered_new
  tail_eq := rfl

theorem Shape.congr {live' : List (ℕ × Bytes)} {free' : Set ℤ} {tail' : ℕ}
    (h : Shape cap data live free tail q) (hlive : live = live') (hfree : free = free')
    (htail : tail = tail') : Shape cap data live' free' tail' q := by
  subst hlive hfree htail
  exact h

/-- An entry can be pushed. -/
theorem Shape.exists_push (h : Shape cap data live free tail q) (hone : 1 ≤ data.length)
    (hlt : data.length < 2 ^ 32) (hlive : live.length ≤ 2) :
    ∃ q' r, (∃ ls, ((unlimited T cap).restrict (Modest data)).Run ls q') ∧ q'.Inv ∧
      q'.maxCapacity = 0 ∧ PushOutcome q data q' r := by
  obtain ⟨ls, hr⟩ := h.made
  obtain ⟨q', r, hpush, ho⟩ := Push_cases h.inv data
  have hstep : q.perform (.push data r) = some q' := by
    unfold perform
    simp only [hpush]
    rw [if_pos ⟨hone, hlt, trivial⟩]
  refine ⟨q', r, ⟨_, hr.snoc ⟨hstep, rfl, ?_⟩⟩, ho.inv h.inv hone hlt,
    ho.maxCapacity_eq.trans h.maxCapacity_eq, ho⟩
  rwa [h.live_eq]

/-- Nothing is free, and the entry goes behind the tail. -/
theorem Shape.push_behind (h : Shape cap data live ∅ tail q) (hone : 1 ≤ data.length)
    (hlt : data.length < 2 ^ 32) (hlive : live.length ≤ 2) :
    ∃ q' : BytesQueue T, Shape cap data ((tail, data) :: live) ∅ (tail + (data.length + 4)) q' := by
  obtain ⟨q', r, hmade, hinv, hmax, ho⟩ := h.exists_push hone hlt hlive
  have hnone := FreeList.find_empty h.inv.free_wf h.free_eq
    (show (1 : ℤ) ≤ (data.length + 4 : ℕ) by omega)
  have hlive' := h.live_eq
  have htail := h.tail_eq
  have hcap := h.maxCapacity_eq
  suffices hs : q'.live = (tail, data) :: live ∧ q'.freelist.covered = ∅ ∧
      q'.tail = tail + (data.length + 4) from ⟨q', hmade, hinv, hmax, hs.1, hs.2.1, hs.2.2⟩
  cases ho with
  | reuse hf hi _ =>
    rw [hnone] at hf
    exact absurd (Prod.mk.inj hf).2.symm hi
  | behind | grow =>
    exact ⟨by rw [← hlive', ← htail]; rfl, h.free_eq, by rw [← htail]; rfl⟩
  | full _ _ hfull => exact absurd hfull.2 (by omega)

/-- The entry goes to the front of the only free block. -/
theorem Shape.push_front {a : ℕ} {n : ℤ} {free' : Set ℤ} (h : Shape cap data live free tail q)
    (hone : 1 ≤ data.length) (hlt : data.length < 2 ^ 32) (hlive : live.length ≤ 2)
    (hfree : free = Set.Ico (a : ℤ) (a + n)) (hle : (data.length + 4 : ℕ) ≤ n) (hclass : n ≠ 4096)
    (hfree' : Set.Ico (a + (data.length + 4 : ℕ) : ℤ) (a + n) = free') :
    ∃ q' : BytesQueue T, Shape cap data ((a, data) :: live) free' tail q' := by
  obtain ⟨q', r, hmade, hinv, hmax, ho⟩ := h.exists_push hone hlt hlive
  obtain ⟨fl, hfind, -, hcov⟩ := FreeList.find_interval h.inv.free_wf (h.free_eq.trans hfree)
    (by omega) (show (1 : ℤ) ≤ (data.length + 4 : ℕ) by omega) hle hclass
  have hlive' := h.live_eq
  suffices hs : q'.live = (a, data) :: live ∧
      q'.freelist.covered = free' ∧ q'.tail = tail from
    ⟨q', hmade, hinv, hmax, hs.1, hs.2.1, hs.2.2⟩
  cases ho with
  | reuse hf _ _ =>
    obtain ⟨rfl, rfl⟩ := Prod.mk.inj (hf.symm.trans hfind)
    exact ⟨by rw [← hlive']; rfl, hcov.trans hfree', h.tail_eq⟩
  | behind hf _ | grow hf _ _ | full hf _ _ =>
    have heq := (Prod.mk.inj (hf.symm.trans hfind)).2
    omega

/-- An entry is deleted. -/
theorem Shape.delete {i : ℕ} {live' : List (ℕ × Bytes)} {free' : Set ℤ}
    (h : Shape cap data live free tail q) (hi : (i, data) ∈ live)
    (hlive : live.filter (fun f ↦ f.1 ≠ i) = live')
    (hfree : (q.freelist.add i (data.length + 4)).covered = free') :
    ∃ q' : BytesQueue T, Shape cap data live' free' tail q' := by
  obtain ⟨ls, hr⟩ := h.made
  rw [← h.live_eq] at hi
  obtain ⟨hdel, hinv⟩ := h.inv.delete_live hi
  have hstep : q.perform (.delete i) = some (q.removed (i, data)) := by
    have hfound : ∃ e ∈ q.live, e.1 = i := ⟨_, hi, rfl⟩
    unfold perform
    simp only [hdel]
    rw [if_pos hfound]
  refine ⟨q.removed (i, data), ⟨_, hr.snoc ⟨hstep, trivial⟩⟩, hinv, h.maxCapacity_eq, ?_, hfree,
    h.tail_eq⟩
  rw [← hlive, ← h.live_eq]
  rfl

/-- A live entry is not free. -/
theorem Shape.uncovered {i : ℕ} (h : Shape cap data live free tail q) (hi : (i, data) ∈ live) :
    q.freelist.Uncovered i (data.length + 4) := by
  intro x hx hx' hxc
  rw [← h.live_eq] at hi
  have hapart := h.inv.free_apart _ hi x hxc
  simp only at hapart
  omega

/-- An entry with nothing free before it is deleted. -/
theorem Shape.delete_alone {i : ℕ} {live' : List (ℕ × Bytes)} {free' : Set ℤ}
    (h : Shape cap data live free tail q) (hi : (i, data) ∈ live)
    (hlive : live.filter (fun f ↦ f.1 ≠ i) = live') (hleft : (i : ℤ) - 1 ∉ free)
    (hfree : free ∪ Set.Ico (i : ℤ) (i + (data.length + 4)) = free') :
    ∃ q' : BytesQueue T, Shape cap data live' free' tail q' := by
  refine h.delete hi hlive ?_
  rw [← hfree, ← h.free_eq]
  rw [← h.free_eq] at hleft
  exact (FreeList.covered_add_of_notMem h.inv.free_wf (h.uncovered hi) (by omega) hleft).2

/-! ## Round after round

From three entries to none, and from none to three entries again, `data.length + 4` positions
further on. -/

/-- Three entries, one behind the other, and nothing free. -/
def Row (cap : ℕ) (data : Bytes) (a : ℕ) : BytesQueue T → Prop :=
  Shape cap data [(a + 2 * (data.length + 4), data), (a + (data.length + 4), data), (a, data)] ∅
    (a + 3 * (data.length + 4))

/-- No entries, and room for two of them before the tail. -/
def Gap (cap : ℕ) (data : Bytes) (a : ℕ) : BytesQueue T → Prop :=
  Shape cap data [] (Set.Ico (a : ℤ) (a + 2 * (data.length + 4))) (a + 2 * (data.length + 4))

/-- The middle one of the entries is deleted last. -/
theorem Row.gap {a : ℕ} (h : Row cap data a q) :
    ∃ q' : BytesQueue T, Gap cap data (a + (data.length + 4)) q' := by
  obtain ⟨q₁, h₁⟩ : ∃ q₁ : BytesQueue T,
      Shape cap data [(a + 2 * (data.length + 4), data), (a + (data.length + 4), data)]
        (Set.Ico (a : ℤ) (a + (data.length + 4))) (a + 3 * (data.length + 4)) q₁ :=
    Shape.delete_alone h (i := a) (by simp) (by simp) (Set.notMem_empty _) (Set.empty_union _)
  obtain ⟨q₂, h₂⟩ : ∃ q₂ : BytesQueue T, Shape cap data [(a + (data.length + 4), data)]
      (Set.Ico (a : ℤ) (a + (data.length + 4)) ∪
        Set.Ico (a + 2 * (data.length + 4) : ℤ) (a + 3 * (data.length + 4)))
      (a + 3 * (data.length + 4)) q₂ := by
    refine h₁.delete_alone (i := a + 2 * (data.length + 4)) (by simp) (by simp) ?_ ?_
    · rw [Set.mem_Ico]
      omega
    · push_cast
      congr 2
      ring
  have hlive : ([(a + (data.length + 4), data)] : List (ℕ × Bytes)).filter
      (fun f ↦ f.1 ≠ a + (data.length + 4)) = [] := by simp
  obtain ⟨q₃, h₃⟩ := h₂.delete (List.mem_singleton.mpr rfl) hlive rfl
  have hbetween := (FreeList.covered_add_between h₂.inv.free_wf (by omega) h₂.free_eq).2
  refine ⟨q₃, h₃.congr rfl ?_ (by ring)⟩
  push_cast
  rw [hbetween]
  congr 1
  ring

/-- Two entries go to the free space, and the third one behind the tail. -/
theorem Gap.row {a : ℕ} (h : Gap cap data a q) (hone : 1 ≤ data.length) (hlt : data.length < 2 ^ 32)
    (hclass : data.length + 4 ≠ 4096) (hclass₂ : 2 * (data.length + 4) ≠ 4096) :
    ∃ q' : BytesQueue T, Row cap data a q' := by
  obtain ⟨q₁, h₁⟩ : ∃ q₁ : BytesQueue T, Shape cap data [(a, data)]
      (Set.Ico ((a + (data.length + 4) : ℕ) : ℤ) ((a + (data.length + 4) : ℕ) + (data.length + 4)))
      (a + 2 * (data.length + 4)) q₁ := by
    refine Shape.push_front h hone hlt (by simp) rfl (by push_cast; omega) (by omega) ?_
    push_cast
    congr 1
    ring
  obtain ⟨q₂, h₂⟩ : ∃ q₂ : BytesQueue T,
      Shape cap data [(a + (data.length + 4), data), (a, data)] ∅ (a + 2 * (data.length + 4))
        q₂ := by
    refine h₁.push_front hone hlt (by simp) rfl (by push_cast; omega) (by omega) ?_
    push_cast
    exact Set.Ico_self _
  obtain ⟨q₃, h₃⟩ := h₂.push_behind hone hlt (by simp)
  exact ⟨q₃, h₃.congr rfl rfl (by ring)⟩

/-- The first three entries. -/
theorem exists_row (cap : ℕ) (hone : 1 ≤ data.length) (hlt : data.length < 2 ^ 32) :
    ∃ q : BytesQueue T, Row cap data 1 q := by
  obtain ⟨q₁, h₁⟩ := (shape_new (T := T) cap data).push_behind hone hlt (by simp)
  obtain ⟨q₂, h₂⟩ := h₁.push_behind hone hlt (by simp)
  obtain ⟨q₃, h₃⟩ := h₂.push_behind hone hlt (by simp)
  refine ⟨q₃, h₃.congr ?_ rfl (by ring)⟩
  congr 2
  ring

theorem exists_gap (cap : ℕ) (hone : 1 ≤ data.length) (hlt : data.length < 2 ^ 32)
    (hclass : data.length + 4 ≠ 4096) (hclass₂ : 2 * (data.length + 4) ≠ 4096) (k : ℕ) :
    ∃ a ≥ k, ∃ q : BytesQueue T, Gap cap data a q := by
  induction k with
  | zero =>
    obtain ⟨q, hq⟩ := exists_row (T := T) cap hone hlt
    exact ⟨_, Nat.zero_le _, hq.gap⟩
  | succ k ih =>
    obtain ⟨a, hak, q, hq⟩ := ih
    obtain ⟨q', hq'⟩ := hq.row hone hlt hclass hclass₂
    exact ⟨_, by omega, hq'.gap⟩

/-- **The space leaks**: with entries of one size, and never more than three of them, the array of a
queue of unlimited size grows beyond every bound, and the queue is empty in the end. -/
theorem leaks (cap : ℕ) (hone : 1 ≤ data.length) (hlt : data.length < 2 ^ 32)
    (hclass : data.length + 4 ≠ 4096) (hclass₂ : 2 * (data.length + 4) ≠ 4096) :
    (∀ (ls : List Op) (q : BytesQueue T),
      ((unlimited T cap).restrict (Modest data)).Run ls q → q.live.length ≤ 3) ∧
    ∀ bound, ∃ (ls : List Op) (q : BytesQueue T),
      ((unlimited T cap).restrict (Modest data)).Run ls q ∧
        q.live = [] ∧ bound < q.array.length := by
  refine ⟨fun ls q hr ↦ (inv_of_modest hr).2, fun bound ↦ ?_⟩
  obtain ⟨a, ha, q, h⟩ := exists_gap (T := T) cap hone hlt hclass hclass₂ bound
  obtain ⟨ls, hr⟩ := h.made
  have htail := h.tail_eq
  have hle := h.inv.tail_le
  have hlen := h.inv.length_eq
  exact ⟨ls, q, hr, h.live_eq, by omega⟩

/-- Entries of one byte, no array to begin with, and a million. -/
theorem leaks_byte : ∃ (ls : List Op) (q : BytesQueue (SortedAssoc ℤ Ptr)),
    ((unlimited (SortedAssoc ℤ Ptr) 0).restrict (Modest [7])).Run ls q ∧ q.live = [] ∧
      1000000 < q.array.length :=
  (leaks 0 (by decide) (by decide) (by decide) (by decide)).2 1000000

end BytesQueue
end ClusteredBigCache
