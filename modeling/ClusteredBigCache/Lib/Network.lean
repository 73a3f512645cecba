import Mathlib.Data.List.Basic
import Mathlib.Logic.Function.Basic
import ClusteredBigCache.Lib.TransitionSystem

/-!
# Networks of programs with FIFO connections

Each node of a `Network` is a program given by a step function.  Some of its actions receive a
message on one of its ports or send one, which its `Ports` say.  An end of a connection is a node
with a port, and `peer` is the other end.  What is sent at one end is received at the other, in
order.

* `run_node`: in a run of the network, every node makes a run of its own program.
* `received_append_wire`: what was received at an end, and what is on the wire to it, is what was
  sent at the other end.
* `node_invariant` is the rule for what is true of one node in every run of the network.
* `run_map`: a network of programs is a network of their abstractions.
-/

set_option autoImplicit false

/-- Which actions receive or send a message, and on which port. -/
structure Ports (ι π μ : Type) where
  input : ι → Option (π × μ)
  output : ι → Option (π × μ)

namespace Ports

variable {ι π μ : Type} [DecidableEq π]

/-- The message, if it is on this port. -/
def on (p : π) (x : Option (π × μ)) : Option μ :=
  x.bind fun y ↦ if y.1 = p then some y.2 else none

/-- The messages that some actions receive on a port. -/
def received (P : Ports ι π μ) (p : π) (as : List ι) : List μ :=
  as.filterMap fun a ↦ on p (P.input a)

/-- The messages that some actions send on a port. -/
def sent (P : Ports ι π μ) (p : π) (as : List ι) : List μ :=
  as.filterMap fun a ↦ on p (P.output a)

theorem received_append (P : Ports ι π μ) (p : π) (as bs : List ι) :
    P.received p (as ++ bs) = P.received p as ++ P.received p bs :=
  List.filterMap_append

theorem mem_received_append {P : Ports ι π μ} {p : π} {as : List ι} {m : μ}
    (h : m ∈ P.received p as) (bs : List ι) : m ∈ P.received p (as ++ bs) := by
  rw [received_append]
  exact List.mem_append_left _ h

theorem sent_append (P : Ports ι π μ) (p : π) (as bs : List ι) :
    P.sent p (as ++ bs) = P.sent p as ++ P.sent p bs :=
  List.filterMap_append

theorem received_append_of_input {P : Ports ι π μ} {a : ι} (h : P.input a = none) (p : π)
    (as : List ι) : P.received p (as ++ [a]) = P.received p as := by
  simp [received, on, h]

end Ports

/-- The nodes, and what is on the wire to each end of a connection. -/
structure Network (ν π σ μ : Type) where
  node : ν → σ
  wire : ν × π → List μ

namespace Network

variable {ν π σ μ ι : Type} [DecidableEq ν]

/-- What a node did. -/
def acts (n : ν) (ls : List (ν × ι)) : List ι :=
  ls.filterMap fun x ↦ if x.1 = n then some x.2 else none

theorem acts_append (n : ν) (ls ms : List (ν × ι)) :
    acts n (ls ++ ms) = acts n ls ++ acts n ms :=
  List.filterMap_append

theorem acts_singleton (n : ν) (x : ν × ι) : acts n [x] = if x.1 = n then [x.2] else [] := by
  rw [acts, List.filterMap_cons]
  split_ifs <;> rfl

theorem mem_acts {n : ν} {a : ι} {ls : List (ν × ι)} : a ∈ acts n ls ↔ (n, a) ∈ ls := by
  rw [acts, List.mem_filterMap]
  constructor
  · rintro ⟨⟨n', a'⟩, hx, h⟩
    split_ifs at h with hn
    obtain rfl := Option.some.inj h
    obtain rfl : n' = n := hn
    exact hx
  · exact fun h ↦ ⟨_, h, if_pos rfl⟩

variable [DecidableEq π]

/-- The message that a node sends goes to the other end. -/
def give (peer : ν × π → ν × π) (wire : ν × π → List μ) (n : ν) :
    Option (π × μ) → ν × π → List μ
  | none => wire
  | some (p, m) => Function.update wire (peer (n, p)) (wire (peer (n, p)) ++ [m])

/-- What is given comes to the end of the wire. -/
theorem give_apply {P : Ports ι π μ} {peer : ν × π → ν × π} (hpeer : ∀ e, peer (peer e) = e)
    (wire : ν × π → List μ) (x : ν × ι) (e : ν × π) :
    give peer wire x.1 (P.output x.2) e =
      wire e ++ P.sent (peer e).2 (acts (peer e).1 [x]) := by
  rw [acts_singleton]
  cases hout : P.output x.2 with
  | none => split_ifs <;> simp [give, Ports.sent, Ports.on, hout]
  | some y =>
    obtain ⟨q, m⟩ := y
    have hend : e = peer (x.1, q) ↔ x.1 = (peer e).1 ∧ q = (peer e).2 := by
      constructor
      · rintro rfl
        rw [hpeer]
        exact ⟨rfl, rfl⟩
      · rintro ⟨hn, hq⟩
        rw [hn, hq, hpeer]
    rw [give, Function.update_apply]
    split_ifs with he hn hn
    · rw [← he]
      simp [Ports.sent, Ports.on, hout, (hend.mp he).2]
    · exact absurd (hend.mp he).1 hn
    · have hq : q ≠ (peer e).2 := fun hq ↦ he (hend.mpr ⟨hn, hq⟩)
      simp [Ports.sent, Ports.on, hout, hq]
    · simp [Ports.sent]

variable [DecidableEq μ]

/-- A node takes the message that it receives from the wire. -/
def take (wire : ν × π → List μ) (n : ν) : Option (π × μ) → Option (ν × π → List μ)
  | none => some wire
  | some (p, m) =>
    match wire (n, p) with
    | [] => none
    | m' :: rest => if m' = m then some (Function.update wire (n, p) rest) else none

/-- A node takes a step. -/
def step (P : Ports ι π μ) (peer : ν × π → ν × π) (f : ν → σ → ι → Option σ)
    (s : Network ν π σ μ) (x : ν × ι) : Option (Network ν π σ μ) :=
  (f x.1 (s.node x.1) x.2).bind fun t ↦ (take s.wire x.1 (P.input x.2)).map fun wire ↦
    ⟨Function.update s.node x.1 t, give peer wire x.1 (P.output x.2)⟩

/-- Nothing is on the wire. -/
def new (init : ν → σ) : Network ν π σ μ := ⟨init, fun _ ↦ []⟩

def system (P : Ports ι π μ) (peer : ν × π → ν × π) (f : ν → σ → ι → Option σ) (init : ν → σ) :
    TransitionSystem (Network ν π σ μ) (ν × ι) :=
  .ofStep (· = new init) (step P peer f)

section

variable {P : Ports ι π μ} {peer : ν × π → ν × π} {f : ν → σ → ι → Option σ} {init : ν → σ}
  {s s' : Network ν π σ μ} {ls : List (ν × ι)} {x : ν × ι}

theorem step_eq_some (h : step P peer f s x = some s') :
    f x.1 (s.node x.1) x.2 = some (s'.node x.1) ∧ (∀ n ≠ x.1, s'.node n = s.node n) ∧
      ∃ wire, take s.wire x.1 (P.input x.2) = some wire ∧
        s'.wire = give peer wire x.1 (P.output x.2) := by
  obtain ⟨t, ht, h⟩ := Option.bind_eq_some_iff.mp h
  obtain ⟨wire, hwire, rfl⟩ := Option.map_eq_some_iff.mp h
  refine ⟨?_, fun n hn ↦ Function.update_of_ne hn _ _, wire, hwire, rfl⟩
  simp [ht]

/-- What a node does without sending or receiving changes nothing else. -/
theorem foldlM_step_silent {n : ν} {as : List ι} {t : σ}
    (has : ∀ a ∈ as, P.input a = none ∧ P.output a = none)
    (h : as.foldlM (f n) (s.node n) = some t) :
    (as.map (Prod.mk n)).foldlM (step P peer f) s = some ⟨Function.update s.node n t, s.wire⟩ := by
  induction as generalizing s with
  | nil =>
    obtain rfl : s.node n = t := Option.some.inj h
    simp
  | cons a as ih =>
    rw [List.foldlM_cons, Option.bind_eq_bind, Option.bind_eq_some_iff] at h
    obtain ⟨u, hu, h⟩ := h
    obtain ⟨⟨hin, hout⟩, has⟩ := List.forall_mem_cons.mp has
    have hstep : step P peer f s (n, a) = some ⟨Function.update s.node n u, s.wire⟩ := by
      simp [step, hu, hin, hout, take, give]
    rw [List.map_cons, List.foldlM_cons, hstep, Option.bind_eq_bind, Option.bind_some]
    rw [ih (s := ⟨Function.update s.node n u, s.wire⟩) has (by simpa using h),
      Function.update_idem]

/-- **A message is carried over an empty wire**: one node sends it, and the node at the other end
receives it and does something with it. -/
theorem foldlM_step_carry {n n' : ν} {p p' : π} {m : μ} {a b : ι} {bs : List ι} {t t' : σ}
    (hne : n ≠ n') (hpeer : peer (n, p) = (n', p')) (hwire : s.wire (n', p') = [])
    (ha : f n (s.node n) a = some t) (hin : P.input a = none) (hout : P.output a = some (p, m))
    (hb : (b :: bs).foldlM (f n') (s.node n') = some t') (hin' : P.input b = some (p', m))
    (hout' : P.output b = none) (hbs : ∀ a ∈ bs, P.input a = none ∧ P.output a = none) :
    ((n, a) :: (b :: bs).map (Prod.mk n')).foldlM (step P peer f) s =
      some ⟨Function.update (Function.update s.node n t) n' t', s.wire⟩ := by
  rw [List.foldlM_cons, Option.bind_eq_bind, Option.bind_eq_some_iff] at hb
  obtain ⟨u, hu, hb⟩ := hb
  have hsend : step P peer f s (n, a) =
      some ⟨Function.update s.node n t, Function.update s.wire (n', p') [m]⟩ := by
    simp [step, ha, hin, hout, take, give, hpeer, hwire]
  have hreceive : step P peer f ⟨Function.update s.node n t, Function.update s.wire (n', p') [m]⟩
      (n', b) = some ⟨Function.update (Function.update s.node n t) n' u, s.wire⟩ := by
    have hempty : Function.update s.wire (n', p') [] = s.wire := by rw [← hwire]; simp
    simp [step, Function.update_of_ne hne.symm, hu, hin', hout', take, give, hempty]
  rw [List.foldlM_cons, hsend, Option.bind_eq_bind, Option.bind_some, List.map_cons,
    List.foldlM_cons, hreceive, Option.bind_eq_bind, Option.bind_some,
    foldlM_step_silent hbs (t := t') (by simpa using hb), Function.update_idem]

/-- What is taken was at the front of the wire. -/
theorem take_apply {wire wire' : ν × π → List μ} (h : take wire x.1 (P.input x.2) = some wire')
    (e : ν × π) : wire e = P.received e.2 (acts e.1 [x]) ++ wire' e := by
  rw [acts_singleton]
  cases hin : P.input x.2 with
  | none =>
    rw [hin] at h
    obtain rfl := Option.some.inj h
    split_ifs <;> simp [Ports.received, Ports.on, hin]
  | some y =>
    obtain ⟨q, m⟩ := y
    rw [hin, take] at h
    split at h
    · cases h
    · next m' rest hwire =>
      split_ifs at h with hm
      obtain rfl := Option.some.inj h
      subst hm
      rw [Function.update_apply]
      split_ifs with hn he he
      · rw [he, hwire]
        simp [Ports.received, Ports.on, hin]
      · have hq : q ≠ e.2 := fun hq ↦ he (Prod.ext hn.symm hq.symm)
        simp [Ports.received, Ports.on, hin, hq]
      · exact absurd (congrArg Prod.fst he).symm hn
      · simp [Ports.received]

/-- **The invariant rule for one node**, in a system that takes some of the steps of the network.
The fact may mention what the node did, and the run of the whole system is there to be used. -/
theorem node_invariant {S : TransitionSystem (Network ν π σ μ) (ν × ι)} {motive : List ι → σ → Prop}
    {n : ν} (hr : S.Run ls s) (hinit : ∀ s, S.init s → s = new init)
    (hS : ∀ s x s', S.step s x s' → step P peer f s x = some s') (h0 : motive [] (init n))
    (hstep : ∀ ls s a s', S.Run ls s → S.step s (n, a) s' → f n (s.node n) a = some (s'.node n) →
      motive (acts n ls) (s.node n) → motive (acts n ls ++ [a]) (s'.node n)) :
    motive (acts n ls) (s.node n) := by
  induction hr with
  | start h =>
    rw [hinit _ h]
    exact h0
  | @snoc ls s s' x hr h ih =>
    obtain ⟨m, a⟩ := x
    obtain ⟨hnode, hothers, -⟩ := step_eq_some (hS _ _ _ h)
    rw [acts_append, acts_singleton]
    split_ifs with hn
    · obtain rfl : m = n := hn
      exact hstep _ _ _ _ hr h hnode ih
    · rw [hothers n (Ne.symm hn), List.append_nil]
      exact ih

/-- **Every node runs its own program.** -/
theorem run_node (hr : (system P peer f init).Run ls s) (n : ν) :
    (TransitionSystem.ofStep (· = init n) (f n)).Run (acts n ls) (s.node n) :=
  node_invariant (motive := (TransitionSystem.ofStep (· = init n) (f n)).Run) hr (fun _ ↦ id)
    (fun _ _ _ ↦ id) (.start rfl) fun _ _ _ _ _ _ hnode hrun ↦ .snoc hrun hnode

/-- **What was sent at one end was received at the other or is on the wire to it**, in order. -/
theorem received_append_wire (hpeer : ∀ e, peer (peer e) = e)
    (hr : (system P peer f init).Run ls s) (e : ν × π) :
    P.received e.2 (acts e.1 ls) ++ s.wire e = P.sent (peer e).2 (acts (peer e).1 ls) := by
  refine hr.history_invariant ?_ fun ls s x s' hs h ↦ ?_
  · rintro _ rfl
    rfl
  · obtain ⟨-, -, wire, hwire, hgive⟩ := step_eq_some h
    rw [acts_append, acts_append, Ports.received_append, Ports.sent_append, hgive,
      give_apply hpeer, ← hs, take_apply hwire e]
    simp only [List.append_assoc]

theorem mem_sent_of_mem_received (hpeer : ∀ e, peer (peer e) = e)
    (hr : (system P peer f init).Run ls s) {e : ν × π} {m : μ}
    (hm : m ∈ P.received e.2 (acts e.1 ls)) : m ∈ P.sent (peer e).2 (acts (peer e).1 ls) := by
  rw [← received_append_wire hpeer hr e]
  exact List.mem_append_left _ hm

end

/-! ## Abstraction

A program can be abstracted to another one on the same ports: `view` is the part of a state that
counts, and `proj` the action that an action is from that point of view, if it is one. -/

section

variable {κ τ : Type} {P : Ports ι π μ} {Q : Ports κ π μ} {peer : ν × π → ν × π}
  {f : ν → σ → ι → Option σ} {g : ν → τ → κ → Option τ} {init : ν → σ} {proj : ι → Option κ}
  {view : σ → τ} {s : Network ν π σ μ} {ls : List (ν × ι)}

/-- The part of the state of each node that counts. -/
def map (view : σ → τ) (s : Network ν π σ μ) : Network ν π τ μ := ⟨fun n ↦ view (s.node n), s.wire⟩

/-- The actions that count. -/
def mapActs (proj : ι → Option κ) (ls : List (ν × ι)) : List (ν × κ) :=
  ls.filterMap fun x ↦ (proj x.2).map fun b ↦ (x.1, b)

theorem acts_mapActs (n : ν) (ls : List (ν × ι)) :
    acts n (mapActs proj ls) = (acts n ls).filterMap proj := by
  rw [acts, mapActs, acts, List.filterMap_filterMap, List.filterMap_filterMap]
  refine List.filterMap_congr fun x _ ↦ ?_
  cases hx : proj x.2 <;> by_cases hn : x.1 = n <;> simp [hn, hx]

/-- The step of an abstract network that a step of a node makes. -/
theorem step_map {x : ν × ι} {s' : Network ν π σ μ} {b : κ} (h : step P peer f s x = some s')
    (hin : P.input x.2 = Q.input b) (hout : P.output x.2 = Q.output b)
    (hg : g x.1 (view (s.node x.1)) b = some (view (s'.node x.1))) :
    step Q peer g (s.map view) (x.1, b) = some (s'.map view) := by
  obtain ⟨-, hothers, wire, hwire, hgive⟩ := step_eq_some h
  rw [step, map, hg, Option.bind_some, ← hin, hwire, Option.map_some, ← hout, map, hgive]
  congr 2
  funext n
  rw [Function.update_apply]
  split_ifs with hn
  · rw [hn]
  · rw [hothers n hn]

/-- A step that neither receives nor sends leaves the wires alone. -/
theorem map_eq {x : ν × ι} {s' : Network ν π σ μ} (h : step P peer f s x = some s')
    (hin : P.input x.2 = none) (hout : P.output x.2 = none)
    (hview : view (s'.node x.1) = view (s.node x.1)) : s'.map view = s.map view := by
  obtain ⟨-, hothers, wire, hwire, hgive⟩ := step_eq_some h
  rw [hin] at hwire
  obtain rfl := Option.some.inj hwire
  rw [map, map, hgive, hout]
  congr 1
  funext n
  by_cases hn : n = x.1
  · rw [hn, hview]
  · rw [hothers n hn]

/-- **A network of programs is a network of their abstractions.** -/
theorem run_map (hin : ∀ a, P.input a = (proj a).bind Q.input)
    (hout : ∀ a, P.output a = (proj a).bind Q.output)
    (hstep : ∀ n as s a t, (TransitionSystem.ofStep (· = init n) (f n)).Run as s →
      f n s a = some t → (∃ b, proj a = some b ∧ g n (view s) b = some (view t)) ∨
        proj a = none ∧ view t = view s)
    (hr : (system P peer f init).Run ls s) :
    (system Q peer g fun n ↦ view (init n)).Run (mapActs proj ls) (s.map view) := by
  induction hr with
  | start h =>
    obtain rfl := h
    exact .start rfl
  | @snoc ls s s' x hr h ih =>
    have hx := hstep x.1 _ _ x.2 _ (run_node hr x.1) (step_eq_some h).1
    rcases hx with ⟨b, hb, hg⟩ | ⟨hnone, hview⟩
    · have hls : mapActs proj (ls ++ [x]) = mapActs proj ls ++ [(x.1, b)] := by simp [mapActs, hb]
      rw [hls]
      exact .snoc ih (step_map h (by rw [hin, hb]; rfl) (by rw [hout, hb]; rfl) hg)
    · have hls : mapActs proj (ls ++ [x]) = mapActs proj ls := by simp [mapActs, hnone]
      rw [hls, map_eq h (by rw [hin, hnone]; rfl) (by rw [hout, hnone]; rfl) hview]
      exact ih

end

end Network
