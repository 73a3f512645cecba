import ClusteredBigCache.Cluster.Get

/-!
# Replies that get lost

`handleGetResponse` finds the request that a response belongs to, and then offers the data to the
call of `Get` on a channel without a buffer.  It does not wait: if the call is not in its `select`,
the data is gone.  `Get` comes to its `select` only when it has pushed the request for all peers,
and by then the first of them may have answered.  So a call may time out although a peer had the
data and has answered in time (`reply_lost`).

A response is also lost when its pending key is not in the table of the connection any more, because
another call of `Get` for the same key has drawn the same random string.

`usable_reply_returned` says that this is all: when every response finds the request that it belongs
to, and none is offered to a call that still asks peers, a call of `Get` returns data if a response
with some data is handled before it times out.

A call goes through the values of `GetStatus` in one direction (`Progress`).  That it does not turn
from `replied` to `failed` needs that only a call that still asks can find that there are no peers;
each call of `Get` has one `FanOut` (`Calls`).
-/

set_option autoImplicit false

namespace ClusteredBigCache.Member

open scoped List

/-! ## How far a call has come -/

/-- How far a call of `Get` has come. -/
def status (m : Member) (q : ℕ) : Option GetStatus := m.requests[q]?.map (·.status)

/-- **How a call of `Get` goes on** in a step, and for which reason. -/
inductive Progress (m m' : Member) (q : ℕ) : GetStatus → GetStatus → Prop
  | same (st : GetStatus) : Progress m m' q st st
  | notFound {st : GetStatus} {i : ℕ} (h : m.fanOuts[i]? = some ⟨.get q, none⟩)
      (h' : m'.fanOuts[i]? = some ⟨.get q, some []⟩) : Progress m m' q st .failed
  | select {i : ℕ} (h : m.fanOuts[i]? = some ⟨.get q, some []⟩) : Progress m m' q .asking .waiting
  | timeout : Progress m m' q .waiting .failed
  | offer (data : Bytes) : Progress m m' q .waiting (.replied data)

section

variable {json : EncodingJson} {m m' : Member} {a : Step} {q : ℕ} {st : GetStatus} {r : ConnId}

theorem status_of_request {req : GetRequest} (h : m.requests[q]? = some req) :
    m.status q = some req.status := by
  rw [status, h, Option.map_some]

theorem status_setStatus (m : Member) (q' : ℕ) (st : GetStatus) (q : ℕ) :
    (m.setStatus q' st).status q = if q' = q then (m.status q).map fun _ ↦ st else m.status q := by
  rw [status, status, setStatus, List.getElem?_modify, Option.map_eq_map, Option.map_map]
  split_ifs <;> cases m.requests[q]? <;> rfl

/-- A call goes on, and the others stay where they are. -/
theorem progress_setStatus {m₀ : Member} {q' : ℕ} {st' : GetStatus} (hst : m₀.status q = some st)
    (hq : q' = q → Progress m m' q st st') :
    ∃ st₁, (m₀.setStatus q' st').status q = some st₁ ∧ Progress m m' q st st₁ := by
  rw [status_setStatus]
  split_ifs with h
  · exact ⟨st', by rw [hst]; rfl, hq h⟩
  · exact ⟨st, hst, .same st⟩

/-- Data is taken by a call that is in its `select`, and by nobody else. -/
theorem step_offer (h : m.step json (.offer r) = some m') :
    ∃ q data, m.task r = .offer q data ∧
      (m.status q = some .waiting ∧ m' = (m.goto r .idle).setStatus q (.replied data) ∨
        m.status q ≠ some .waiting ∧ m' = m.goto r .idle) := by
  rw [step] at h
  split_ifs at h
  rw [act] at h
  split at h
  · next q data htask =>
    refine ⟨q, data, htask, ?_⟩
    split_ifs at h with hst
    · exact .inl ⟨hst, (Option.some.inj h).symm⟩
    · exact .inr ⟨hst, (Option.some.inj h).symm⟩
  · cases h

theorem step_progress (h : m.step json a = some m') (hst : m.status q = some st) :
    ∃ st', m'.status q = some st' ∧ Progress m m' q st st' := by
  have hsame : ∀ {req : GetRequest} {st' : GetStatus}, m.requests[q]? = some req →
      req.status = st' → st = st' := by
    rintro req _ hreq rfl
    exact Option.some.inj (hst.symm.trans (status_of_request hreq))
  cases step_act h with
  | get hnone =>
    refine ⟨st, ?_, .same st⟩
    obtain ⟨req, hreq, rfl⟩ := Option.map_eq_some_iff.mp hst
    refine status_of_request ?_
    rw [List.getElem?_append_left (List.getElem?_eq_some_iff.mp hreq).1]
    exact hreq
  | @notFound i q' hi =>
    refine progress_setStatus hst ?_
    rintro rfl
    exact .notFound hi (by simp [setStatus, setPeers, hi])
  | select hi hreq hstatus =>
    refine progress_setStatus hst ?_
    rintro rfl
    obtain rfl := hsame hreq hstatus
    exact .select hi
  | timeout hreq hstatus =>
    refine progress_setStatus hst ?_
    rintro rfl
    obtain rfl := hsame hreq hstatus
    exact .timeout
  | @offer r q' data htask =>
    obtain ⟨q'', data', htask', hoffer⟩ := step_offer h
    obtain ⟨rfl, rfl⟩ := Task.offer.inj (htask.symm.trans htask')
    rcases hoffer with ⟨hwaiting, -⟩ | ⟨-, hm'⟩
    · refine progress_setStatus hst ?_
      rintro rfl
      obtain rfl := Option.some.inj (hst.symm.trans hwaiting)
      exact .offer data
    · exact ⟨st, by rw [hm']; exact hst, .same st⟩
  | @push i job => exact ⟨st, by cases job <;> exact hst, .same st⟩
  | _ => exact ⟨st, hst, .same st⟩

end

/-! ## Each call of `Get` asks once -/

/-- What the calls have to send. -/
def jobs (m : Member) : List Job := m.fanOuts.map FanOut.job

/-- Each call of `Get` has a request and asks for it once, and before it has called `Values` it has
not come to its `select`. -/
structure Calls (m : Member) : Prop where
  made : ∀ q, Job.get q ∈ m.jobs → q < m.requests.length
  distinct : m.jobs.Pairwise fun x y ↦ ∀ q, x = .get q → y ≠ .get q
  asking : ∀ i q : ℕ, m.fanOuts[i]? = some ⟨.get q, none⟩ → m.status q = some .asking

section

variable {json : EncodingJson} {config : Config} {m m' : Member} {a : Step} {q : ℕ}
  {as : List Step}

theorem jobs_setPeers (m : Member) (i : ℕ) (peers : List ConnId) :
    (m.setPeers i peers).jobs = m.jobs := by
  refine List.ext_getElem? fun j ↦ ?_
  simp only [jobs, setPeers, List.getElem?_map, List.getElem?_modify, Option.map_eq_map,
    Option.map_map]
  congr 1
  funext f
  rw [Function.comp_apply]
  split_ifs <;> rfl

theorem length_requests_setStatus (m : Member) (q : ℕ) (st : GetStatus) :
    (m.setStatus q st).requests.length = m.requests.length :=
  List.length_modify ..

/-- A step may add something to send, which for a call of `Get` is a new request. -/
theorem Act.jobs (h : Act json m a m') :
    ∃ new : Option Job, m'.jobs = m.jobs ++ new.toList ∧
      m.requests.length ≤ m'.requests.length ∧
      ∀ q, new = some (.get q) → q = m.requests.length ∧ q < m'.requests.length := by
  have hsame : m'.jobs = m.jobs → m'.requests.length = m.requests.length →
      ∃ new : Option Job, m'.jobs = m.jobs ++ new.toList ∧
        m.requests.length ≤ m'.requests.length ∧
        ∀ q, new = some (.get q) → q = m.requests.length ∧ q < m'.requests.length :=
    fun hjobs hlen ↦ ⟨none, by simp [hjobs], hlen.ge, by simp⟩
  cases h with
  | @write w expiry =>
    exact ⟨some (.replicate (w.message expiry)), by simp [Member.jobs], le_rfl, by simp⟩
  | get hnone => exact ⟨some (.get m.requests.length), by simp [Member.jobs], by simp, by simp⟩
  | values hi hpeers => exact hsame (jobs_setPeers ..) rfl
  | notFound hi => exact hsame (jobs_setPeers ..) (length_requests_setStatus ..)
  | skip hi hmode => exact hsame (jobs_setPeers ..) rfl
  | @push i job => cases job <;> exact hsame (jobs_setPeers ..) rfl
  | select hi hreq hstatus => exact hsame rfl (length_requests_setStatus ..)
  | timeout hreq hstatus => exact hsame rfl (length_requests_setStatus ..)
  | offer htask => exact hsame rfl (length_requests_setStatus ..)
  | _ => exact hsame rfl rfl

/-- A call that has not called `Values` had not before, or has just begun. -/
theorem Act.fanOut_none {i : ℕ} (h : Act json m a m')
    (hi : m'.fanOuts[i]? = some ⟨.get q, none⟩) :
    m.fanOuts[i]? = some ⟨.get q, none⟩ ∨ m'.status q = some .asking := by
  -- a call that goes on has called `Values`
  have hset : ∀ {m₀ : Member} {j : ℕ} {peers : List ConnId}, m₀.fanOuts = m.fanOuts →
      (m₀.setPeers j peers).fanOuts[i]? = some ⟨.get q, none⟩ →
      m.fanOuts[i]? = some ⟨.get q, none⟩ ∨ m'.status q = some .asking := by
    intro m₀ j peers hm₀ hi
    rw [setPeers, List.getElem?_modify, hm₀] at hi
    obtain ⟨f, hf, hi⟩ := Option.map_eq_some_iff.mp hi
    split_ifs at hi
    · simp at hi
    · exact .inl (hi ▸ hf)
  cases h with
  | write =>
    simp only [List.getElem?_append] at hi
    split_ifs at hi
    · exact .inl hi
    · simpa using List.mem_of_getElem? hi
  | get hnone =>
    simp only [List.getElem?_append] at hi
    split_ifs at hi
    · exact .inl hi
    · obtain rfl : q = m.requests.length := by simpa using List.mem_of_getElem? hi
      exact .inr (by simp [status])
  | values hj hpeers => exact hset rfl hi
  | notFound hj => exact hset rfl hi
  | skip hj hmode => exact hset rfl hi
  | @push j job => cases job <;> exact hset rfl hi
  | _ => exact .inl hi

/-- A call of `Get` has one `FanOut`. -/
theorem Calls.unique (hc : m.Calls) {i j : ℕ} {p p' : Option (List ConnId)}
    (hi : m.fanOuts[i]? = some ⟨.get q, p⟩) (hj : m.fanOuts[j]? = some ⟨.get q, p'⟩) : i = j := by
  have hjob : ∀ {i : ℕ} {p : Option (List ConnId)}, m.fanOuts[i]? = some ⟨.get q, p⟩ →
      m.jobs[i]? = some (.get q) := fun hi ↦ by rw [jobs, List.getElem?_map, hi, Option.map_some]
  obtain ⟨hilen, hi⟩ := List.getElem?_eq_some_iff.mp (hjob hi)
  obtain ⟨hjlen, hj⟩ := List.getElem?_eq_some_iff.mp (hjob hj)
  rcases lt_trichotomy i j with hlt | heq | hgt
  · exact absurd hj (List.pairwise_iff_getElem.mp hc.distinct i j hilen hjlen hlt q hi)
  · exact heq
  · exact absurd hi (List.pairwise_iff_getElem.mp hc.distinct j i hjlen hilen hgt q hj)

theorem Calls.step (hc : m.Calls) (h : m.step json a = some m') : m'.Calls := by
  have hact := step_act h
  obtain ⟨new, hjobs, hlen, hnew⟩ := hact.jobs
  refine ⟨fun q hq ↦ ?_, ?_, fun i q hi ↦ ?_⟩
  · rw [hjobs, List.mem_append, Option.mem_toList] at hq
    rcases hq with hq | hq
    · exact (hc.made q hq).trans_le hlen
    · exact (hnew q hq).2
  · rw [hjobs, List.pairwise_append]
    refine ⟨hc.distinct, by cases new <;> simp, fun x hx y hy q hxq hyq ↦ ?_⟩
    -- the new request is not one of those before
    subst hxq hyq
    obtain ⟨rfl, -⟩ := hnew q (Option.mem_toList.mp hy)
    exact lt_irrefl _ (hc.made _ hx)
  · rcases hact.fanOut_none hi with hbefore | hasking
    · obtain ⟨st, hst, hprogress⟩ := step_progress h (hc.asking i q hbefore)
      cases hprogress with
      | same => exact hst
      | notFound hj hj' =>
        obtain rfl := hc.unique hbefore hj
        cases hi.symm.trans hj'
      | select hj =>
        obtain rfl := hc.unique hbefore hj
        cases hbefore.symm.trans hj
    · exact hasking

theorem run_calls (hr : (system json config).Run as m) : m.Calls := by
  refine hr.invariant ?_ fun m a m' hc h ↦ hc.step h
  rintro _ rfl
  exact ⟨by simp [new, jobs], by simp [new, jobs], by simp [new]⟩

/-! ## A call that has returned -/

/-- A call of `Get` has returned the data of a peer. -/
def HasReplied (m : Member) (q : ℕ) : Prop := ∃ data, m.status q = some (.replied data)

theorem HasReplied.step (hc : m.Calls) (hq : m.HasReplied q) (h : m.step json a = some m') :
    m'.HasReplied q := by
  obtain ⟨data, hst⟩ := hq
  obtain ⟨st, hst', hprogress⟩ := step_progress h hst
  cases hprogress with
  | same => exact ⟨data, hst'⟩
  | notFound hi hi' => cases hst.symm.trans (hc.asking _ q hi)

theorem failed_step (hq : m.status q = some .failed) (h : m.step json a = some m') :
    m'.status q = some .failed := by
  obtain ⟨st, hst', hprogress⟩ := step_progress h hq
  cases hprogress with
  | same => exact hst'
  | notFound hi hi' => exact hst'

end

/-! ## Handling a response

A handler looks the pending key up and offers the data to the call it has found.  `Handled` is the
whole of it, in time.  `Awaited` is what makes sure that the call gets the data: the right request
is found, and the call has asked all peers and listens. -/

/-- The connection whose handler takes a step. -/
def Step.handler : Step → Option ConnId
  | .store r | .cacheGet r _ _ | .respond r _ | .load r | .forget r | .offer r => some r
  | _ => none

/-- The response with some data that the handler of a connection has been called with. -/
def response (m : Member) (r : ConnId) : Option GetRspMessage :=
  match m.task r with
  | .called msg =>
    match GetRspMessage.deSerialize msg with
    | .ok rsp => if msg.code = msgGETRsp ∧ rsp.data ≠ [] then some rsp else none
    | .error _ => none
  | _ => none

/-- The handler of a connection has been called with a response that has data for a request. -/
def Usable (m : Member) (r : ConnId) (q : ℕ) : Prop :=
  ∃ rsp, m.response r = some rsp ∧ m.pendingKey q = some rsp.pendingKey

/-- A response with data for a request has been handled, and the call had not timed out by then. -/
def Handled (json : EncodingJson) (config : Config) (q : ℕ) (as : List Step) : Prop :=
  ∃ r pre mid t t', pre ++ .load r :: mid <+: as ∧ (system json config).Run pre t ∧ t.Usable r q ∧
    (system json config).Run (pre ++ .load r :: mid) t' ∧ t'.task r = .idle ∧
    t'.status q ≠ some .failed

/-- The request whose call the handler of a connection has some data for. -/
def offered (m : Member) (r : ConnId) : Option ℕ :=
  match m.task r with
  | .offer q _ => some q
  | _ => none

/-- A response finds the request that it belongs to, if the call goes on, and it is not offered to a
call that still asks. -/
def Awaited (m : Member) : Step → Prop
  | .load r => ∀ rsp ∈ m.response r, ∀ q < m.requests.length,
      m.pendingKey q = some rsp.pendingKey →
      m.status q = some .asking ∨ m.status q = some .waiting →
      (m.pendingGet r).bind (· rsp.pendingKey) = some q
  | .offer r => ∀ q ∈ m.offered r, m.status q ≠ some .asking
  | _ => True

instance (m : Member) (a : Step) : Decidable (m.Awaited a) :=
  match a with
  | .load r => inferInstanceAs (Decidable (∀ rsp ∈ m.response r, ∀ q < m.requests.length,
      m.pendingKey q = some rsp.pendingKey →
      m.status q = some .asking ∨ m.status q = some .waiting →
      (m.pendingGet r).bind (· rsp.pendingKey) = some q))
  | .offer r => inferInstanceAs (Decidable (∀ q ∈ m.offered r, m.status q ≠ some .asking))
  | .link _ | .write _ _ | .get _ _ | .values _ _ | .push _ | .select _ | .timeout _ | .take _
  | .replicate _ _ _ | .takeGet _ | .getData _ | .sendGet _ _ _ | .store _ | .cacheGet _ _ _
  | .respond _ _ | .forget _ | .evict _ => inferInstanceAs (Decidable True)

/-- A response with data for a request is being handled, or the call has returned. -/
inductive Settling (m : Member) (r : ConnId) (q : ℕ) : Prop
  | forget (rsp : GetRspMessage) (h : m.task r = .forget q rsp) (hdata : rsp.data ≠ [])
  | offer (data : Bytes) (h : m.task r = .offer q data)
  | replied (h : m.HasReplied q)
  | failed (h : m.status q = some .failed)

section

variable {json : EncodingJson} {config : Config} {m m' : Member} {a : Step} {q : ℕ} {r : ConnId}
  {as : List Step}

theorem response_eq_some {rsp : GetRspMessage} (h : m.response r = some rsp) :
    ∃ msg, m.task r = .called msg ∧ msg.code = msgGETRsp ∧
      GetRspMessage.deSerialize msg = .ok rsp ∧ rsp.data ≠ [] := by
  rw [response] at h
  split at h
  · next msg htask =>
    split at h
    · next rsp' hrsp =>
      split_ifs at h with hguard
      obtain rfl := Option.some.inj h
      exact ⟨msg, htask, hguard.1, hrsp, hguard.2⟩
    · cases h
  · cases h

theorem exists_status {key : Bytes} (h : m.pendingKey q = some key) :
    q < m.requests.length ∧ ∃ st, m.status q = some st := by
  obtain ⟨req, hreq, -⟩ := Option.map_eq_some_iff.mp h
  exact ⟨(List.getElem?_eq_some_iff.mp hreq).1, _, status_of_request hreq⟩

/-- A handler that has something to do goes on in its own steps only. -/
theorem Wired.task_eq (hw : m.Wired) (h : Act json m a m') (hbusy : m.task r ≠ .idle)
    (ha : a.handler ≠ some r) : m'.task r = m.task r := by
  have hgoto : ∀ {r' : ConnId} {task : Task}, a.handler = some r' →
      (m.goto r' task).task r = m.task r := by
    intro r' task hr'
    rw [task_goto, if_neg]
    rintro rfl
    exact ha hr'
  cases h with
  | @link b links h hmay =>
    rcases nextTask_apply m.task b r with htask | ⟨msg, rfl, -, -⟩
    · exact htask
    · simp [Links.step, hw.busy r hbusy] at h
  | store h hcache => exact hgoto rfl
  | cacheGet h hcode hcache => exact hgoto rfl
  | load h hcode hrsp hpending hq => exact hgoto rfl
  | forget h hpending => exact hgoto rfl
  | respond h | unknown h | offer h | refuse h => exact hgoto rfl
  | @push i job => cases job <;> rfl
  | _ => rfl

/-- The request of a response with data is deleted, and then the data is offered. -/
theorem forget_step {rsp : GetRspMessage} (hr : (system json config).Run as m)
    (h : m.step json a = some m') (htask : m.task r = .forget q rsp) (hdata : rsp.data ≠ []) :
    m'.Settling r q := by
  by_cases ha : a.handler = some r
  · cases a with
    | forget r' =>
      obtain rfl := Option.some.inj ha
      cases step_act h with
      | forget htask' hpending =>
        obtain ⟨rfl, rfl⟩ := Task.forget.inj (htask.symm.trans htask')
        have hlen : ¬ rsp.data.length < 1 := by simpa [List.length_pos_iff] using hdata
        exact .offer rsp.data (by simp [goto, hlen])
      | nilCache _ h hmsg hcache => exact .forget rsp htask hdata
      | fail _ hcrash => exact .forget rsp htask hdata
    | store r' | cacheGet r' key data | respond r' rsp' | load r' | offer r' =>
      obtain rfl := Option.some.inj ha
      simp [step, act, htask] at h
    | _ => cases ha
  · refine .forget rsp ?_ hdata
    rw [(run_wired hr).task_eq (step_act h) (by simp [htask]) ha, htask]

/-- Data that is offered is taken, or the call has returned. -/
theorem offer_step {data : Bytes} (hr : (system json config).Run as m)
    (h : m.step json a = some m') (htask : m.task r = .offer q data) (hok : m.Awaited a) :
    m'.Settling r q := by
  by_cases ha : a.handler = some r
  · cases a with
    | offer r' =>
      obtain rfl := Option.some.inj ha
      obtain ⟨q', data', htask', hoffer⟩ := step_offer h
      obtain ⟨rfl, rfl⟩ := Task.offer.inj (htask.symm.trans htask')
      rcases hoffer with ⟨hwaiting, rfl⟩ | ⟨hwaiting, rfl⟩
      · refine .replied ⟨data, ?_⟩
        rw [status_setStatus, if_pos rfl]
        exact congrArg (Option.map _) hwaiting
      · -- the call is not in its `select`, and it does not ask any more
        have hasking : m.status q ≠ some .asking := hok q (by simp [offered, htask])
        obtain ⟨key, hkey, -⟩ := (run_matched hr r').offered q data htask
        obtain ⟨-, st, hst⟩ := exists_status hkey
        cases st with
        | asking => exact absurd hst hasking
        | waiting => exact absurd hst hwaiting
        | replied data' => exact .replied ⟨data', hst⟩
        | failed => exact .failed hst
    | store r' | cacheGet r' key data | respond r' rsp' | load r' | forget r' =>
      obtain rfl := Option.some.inj ha
      simp [step, act, htask] at h
    | _ => cases ha
  · refine .offer data ?_
    rw [(run_wired hr).task_eq (step_act h) (by simp [htask]) ha, htask]

theorem Settling.step (hr : (system json config).Run as m) (hs : m.Settling r q)
    (h : m.step json a = some m') (hok : m.Awaited a) : m'.Settling r q := by
  cases hs with
  | forget rsp htask hdata => exact forget_step hr h htask hdata
  | offer data htask => exact offer_step hr h htask hok
  | replied hq => exact .replied (hq.step (run_calls hr) h)
  | failed hq => exact .failed (failed_step hq h)

/-- The request of a response is found. -/
theorem Usable.load (hr : (system json config).Run as m) (hu : m.Usable r q)
    (h : m.step json (.load r) = some m') (hok : m.Awaited (.load r)) : m'.Settling r q := by
  obtain ⟨rsp, hresponse, hkey⟩ := hu
  obtain ⟨hlen, st, hst⟩ := exists_status hkey
  have hfind : st = .asking ∨ st = .waiting → m'.Settling r q := by
    intro hgoing
    have hfound := hok rsp hresponse q hlen hkey (by simpa [hst] using hgoing)
    obtain ⟨pending, hpending, hq⟩ := Option.bind_eq_some_iff.mp hfound
    obtain ⟨msg, htask, hcode, hrsp, hdata⟩ := response_eq_some hresponse
    rw [Member.step] at h
    split_ifs at h
    simp only [act, htask, hcode, if_true, handleGetResponse, hrsp, hpending, hq] at h
    obtain rfl := Option.some.inj h
    exact .forget rsp (by simp [goto]) hdata
  cases st with
  | asking => exact hfind (.inl rfl)
  | waiting => exact hfind (.inr rfl)
  | replied data => exact .replied (HasReplied.step (run_calls hr) ⟨data, hst⟩ h)
  | failed => exact .failed (failed_step hst h)

end

/-- **No usable reply is lost**, when every response finds the request that it belongs to and none
is offered to a call of `Get` that still asks peers.  If a response with data for the request of a
call is handled before the call times out, the call returns data. -/
theorem usable_reply_returned {json : EncodingJson} {config : Config} {as : List Step} {m : Member}
    (hr : ((system json config).restrict Awaited).Run as m) {q : ℕ}
    (hq : Handled json config q as) : ∃ data ≠ [], m.status q = some (.replied data) := by
  obtain ⟨r, pre, mid, t, t', hpre, ht, husable, ht', hidle, hfailed⟩ := hq
  have hunique : ∀ ls u v, (system json config).Run ls u → (system json config).Run ls v → u = v :=
    TransitionSystem.run_ofStep_unique
  -- from the time at which the handler looks for the request
  have hsettling : ∀ u, ((system json config).restrict Awaited).Run (pre ++ .load r :: mid) u →
      u.Settling r q := by
    intro u hu
    have hload : pre ++ [.load r] <+: pre ++ .load r :: mid := ⟨mid, by simp⟩
    refine hu.invariant_from (motive := (·.Settling r q)) hload (fun v hv ↦ ?_)
      fun _ _ _ _ hv hs h ↦ hs.step hv.of_restrict h.1 h.2
    obtain ⟨w, hw, h⟩ := hv.of_append_singleton
    obtain rfl := hunique pre t w ht hw.of_restrict
    exact husable.load ht h.1 h.2
  -- the handler has nothing more to do, so the call has returned
  have hreplied : m.HasReplied q := by
    refine hr.invariant_from (motive := (·.HasReplied q)) hpre (fun u hu ↦ ?_)
      fun _ _ _ _ hu hq h ↦ hq.step (run_calls hu.of_restrict) h.1
    obtain rfl := hunique _ t' u ht' hu.of_restrict
    cases hsettling t' hu with
    | forget rsp htask hdata => cases hidle.symm.trans htask
    | offer data htask => cases hidle.symm.trans htask
    | replied hq => exact hq
    | failed hq => exact absurd hq hfailed
  obtain ⟨data, hdata⟩ := hreplied
  obtain ⟨req, hreq, hstatus⟩ := Option.map_eq_some_iff.mp hdata
  obtain ⟨_, hne, -⟩ := replied_of_status hr.of_restrict hreq hstatus
  exact ⟨data, hne, hdata⟩

/-! ## A reply that comes in time, and one that comes too early -/

theorem handled_of_eval {json : EncodingJson} {config : Config} {as pre mid : List Step} {q : ℕ}
    {r : ConnId} (hpre : pre ++ .load r :: mid <+: as)
    (h : (pre.foldlM (step json) (new config)).any (fun t ↦
      (t.response r).any (fun rsp ↦ t.pendingKey q = some rsp.pendingKey) &&
        ((.load r :: mid).foldlM (step json) t).any fun t' ↦
          t'.task r = .idle ∧ t'.status q ≠ some .failed) = true) : Handled json config q as := by
  obtain ⟨t, ht, h⟩ := (Option.any_eq_true _ _).mp h
  obtain ⟨hresponse, h⟩ := (Bool.and_eq_true _ _).mp h
  obtain ⟨rsp, hrsp, hkey⟩ := (Option.any_eq_true _ _).mp hresponse
  obtain ⟨t', ht', hend⟩ := (Option.any_eq_true _ _).mp h
  obtain ⟨hidle, hfailed⟩ := of_decide_eq_true hend
  have hrun : (system json config).Run pre t := TransitionSystem.run_ofStep_iff.mpr ht
  exact ⟨r, pre, mid, t, t', hpre, hrun, ⟨rsp, hrsp, of_decide_eq_true hkey⟩,
    hrun.append_foldlM (fun _ _ _ ↦ id) ht', hidle, hfailed⟩

/-- The call is in its `select` when the response comes. -/
theorem usable_reply_returned_lookUp :
    ∃ m, ((system (.plain Utf8.repair) (pairConfig (fun _ ↦ false) true)).restrict Awaited).Run
        (Network.acts true lookUp) m ∧
      Handled (.plain Utf8.repair) (pairConfig (fun _ ↦ false) true) 0
        (Network.acts true lookUp) ∧
      ∃ data ≠ [], m.status 0 = some (.replied data) := by
  obtain ⟨m, hr, -⟩ := TransitionSystem.exists_run_from
    (S := (system (.plain Utf8.repair) (pairConfig (fun _ ↦ false) true)).restrict Awaited)
    (fun _ _ _ ↦ TransitionSystem.step_of_guarded _ _ _) (l := Network.acts true lookUp)
    (p := fun _ ↦ true) rfl (by decide +kernel)
  have hq : Handled (.plain Utf8.repair) (pairConfig (fun _ ↦ false) true) 0
      (Network.acts true lookUp) :=
    handled_of_eval (r := 0) (show (Network.acts true lookUp).takeWhile (· ≠ .load 0) ++
      .load 0 :: [.forget 0, .offer 0] <+: _ by decide +kernel) (by decide +kernel)
  exact ⟨m, hr, hq, usable_reply_returned hr hq⟩

/-- The call comes to its `select` when the response has been handled. -/
def slowLookUp : List (Bool × Step) :=
  lookUp.erase (true, .select 0) ++ [(true, .select 0), (true, .timeout 0)]

/-- **A reply that comes too early is lost.**  The node that was asked has the key and answers, and
the response is handled before the call comes to its `select`.  The call times out. -/
theorem reply_lost :
    ∃ s, (network (.plain Utf8.repair) Links.pairPeer (pairConfig fun _ ↦ false)).Run
        slowLookUp s ∧
      Handled (.plain Utf8.repair) (pairConfig (fun _ ↦ false) true) 0
        (Network.acts true slowLookUp) ∧
      (s.node true).status 0 = some .failed := by
  obtain ⟨s, hr, hs⟩ := TransitionSystem.exists_run_from
    (S := network (.plain Utf8.repair) Links.pairPeer (pairConfig fun _ ↦ false))
    (f := Network.step ports Links.pairPeer fun _ ↦ step (.plain Utf8.repair)) (l := slowLookUp)
    (p := fun s ↦ decide ((s.node true).status 0 = some .failed))
    (fun _ _ _ h ↦ h) rfl (by decide +kernel)
  refine ⟨s, hr, ?_, of_decide_eq_true hs⟩
  exact handled_of_eval (r := 0) (show (Network.acts true slowLookUp).takeWhile (· ≠ .load 0) ++
    .load 0 :: [.forget 0, .offer 0] <+: _ by decide +kernel) (by decide +kernel)

end ClusteredBigCache.Member
