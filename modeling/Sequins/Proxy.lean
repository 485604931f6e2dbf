import Sequins.Machine
import Sequins.GoMap
import Sequins.Partitions
import Mathlib.Data.List.Perm.Basic

/-!
# Proxying a request

`proxy.go`: a request is tried on one peer after the other. A new attempt is started
whenever a stage times out or an attempt comes back with an error; the first good answer
wins. The attempts run concurrently and report on a buffered channel, so `version.proxy`
is a machine (`proxyMachine`) whose events are the completion of an attempt, the receipt of
a report, and the three timers. Requests that cannot even be built and attempts that
fail are the environment's choice.

`ProxyState.Accounted` keeps the books: every attempt started is still running, or has
its report in the channel, or had its error consumed, or won. When no timer but the
stages' fires and every attempt gets the answer of its peer, the books show that the
call returns, with a good answer if some peer has one (`proxy_spec`).
-/

namespace Sequins

/-! ## Responses -/

/-- An HTTP response, with the headers the handlers set; `none` for one that is not set. -/
structure Response where
  /-- the status code -/
  status : ℕ
  /-- `X-Sequins-Version` -/
  version : Option Bytes
  /-- `X-Sequins-Proxied-To` -/
  proxiedTo : Option Address
  /-- `Content-Length` -/
  contentLength : Option ℕ
  /-- `Last-Modified` -/
  lastModified : Option ℕ
  /-- the body -/
  body : Bytes
  deriving DecidableEq, Repr

/-- Why an attempt failed. -/
inductive AttemptError where
  /-- the client's `Do` failed -/
  | request
  /-- `got %d` -/
  | status (code : ℕ)
  deriving DecidableEq, Repr

/-- A response that is passed on. -/
def Response.Good (r : Response) : Prop := r.status = 200 ∨ r.status = 404

instance (r : Response) : Decidable r.Good := inferInstanceAs (Decidable (_ ∨ _))

/-- `proxyAttempt`, from what `Do` returned; `none` is an error. -/
def proxyAttempt : Option Response → Except AttemptError Response
  | none => .error .request
  | some resp =>
    if resp.status ≠ 200 ∧ resp.status ≠ 404 then .error (.status resp.status) else .ok resp

/-- Only a good response is passed on, and as it is. -/
theorem proxyAttempt_eq_ok {resp resp' : Response} :
    proxyAttempt (some resp) = .ok resp' ↔ resp' = resp ∧ resp.Good := by
  simp only [proxyAttempt, Response.Good]
  split_ifs with h
  · simp only [false_iff, not_and, not_or]
    exact fun _ => h
  · simp only [Except.ok.injEq]
    constructor
    · rintro rfl
      exact ⟨rfl, by tauto⟩
    · rintro ⟨rfl, -⟩
      rfl

/-! ## The machine -/

/-- What a call of `proxy` is given: the peers, and whether the request to each of them can
be built. -/
structure ProxyEnv where
  /-- the peers, in the order they are tried -/
  peers : List Address
  /-- `newProxyRequest` succeeds for the peer at an index -/
  builds : ℕ → Bool

/-- `proxyResponse`, with the index of the peer for its address. -/
structure ProxyResponse where
  /-- which attempt -/
  index : ℕ
  /-- its outcome -/
  outcome : Except AttemptError Response

/-- What `proxy` returns. -/
inductive ProxyResult where
  /-- a response, and the peer it is from -/
  | response (resp : Response) (index : ℕ)
  /-- `errNoAvailablePeers` -/
  | noAvailablePeers
  /-- `errProxyTimeout` -/
  | proxyTimeout
  /-- `errRequestCanceled` -/
  | requestCanceled
  deriving DecidableEq, Repr

/-- The variables of `proxy`, and its attempts. -/
structure ProxyState where
  /-- `peerIndex` -/
  peerIndex : ℕ
  /-- `outstanding` -/
  outstanding : ℤ
  /-- `cancels`: the attempt whose context each peer's entry cancels -/
  cancels : AList fun _ : Address => ℕ
  /-- the attempts started so far, in order -/
  started : List ℕ
  /-- the attempts that have not reported yet -/
  running : List ℕ
  /-- the contents of the channel `responses`, oldest first -/
  responses : List ProxyResponse
  /-- the attempts whose error report was consumed -/
  failed : List ℕ
  /-- the attempts whose context was canceled -/
  canceled : List ℕ
  /-- what was returned -/
  result : Option ProxyResult

/-- What can happen next. -/
inductive ProxyEvent where
  /-- an attempt gets its response, or an error, and sends its report -/
  | attemptDone (index : ℕ) (resp : Option Response)
  /-- the select takes a report -/
  | receive
  /-- `stageTimeout` fires -/
  | stageTimeout
  /-- `totalTimeout` fires -/
  | totalTimeout
  /-- the client gives up -/
  | ctxDone

namespace ProxyState

/-- The top of the loop: another attempt, or the end if there is nothing to wait for. -/
def enter (env : ProxyEnv) (s : ProxyState) : ProxyState :=
  match env.peers[s.peerIndex]? with
  | some peer =>
    if env.builds s.peerIndex then
      { s with
        cancels := s.cancels.insert peer s.peerIndex
        outstanding := s.outstanding + 1
        started := s.started ++ [s.peerIndex]
        running := s.running ++ [s.peerIndex] }
    else
      s
  | none => if s.outstanding = 0 then { s with result := some .noAvailablePeers } else s

/-- The state in which the first select waits. -/
def start (env : ProxyEnv) : ProxyState := enter env ⟨0, 0, ∅, [], [], [], [], [], none⟩

/-- The next round of the loop. -/
def next (env : ProxyEnv) (s : ProxyState) : ProxyState :=
  enter env { s with peerIndex := s.peerIndex + 1 }

/-- A report is taken from the channel. -/
def consume (env : ProxyEnv) (s : ProxyState) (res : ProxyResponse) (rest : List ProxyResponse) :
    ProxyState :=
  match res.outcome with
  | .error _ =>
    next env { s with
      responses := rest
      canceled := s.canceled ++ (env.peers[res.index]?.bind s.cancels.lookup).toList
      failed := s.failed ++ [res.index]
      outstanding := s.outstanding - 1 }
  | .ok resp =>
    { s with
      responses := rest
      canceled := s.canceled ++
        (s.cancels.entries.filter fun e => decide (some e.1 ≠ env.peers[res.index]?)).map fun e => e.2
      result := some (.response resp res.index) }

/-- One event, if it can happen. A report needs room in the channel. -/
def step (env : ProxyEnv) (s : ProxyState) : ProxyEvent → Option ProxyState
  | .attemptDone index resp =>
    if index ∈ s.running ∧ s.responses.length < env.peers.length then
      some { s with
        running := s.running.erase index
        responses := s.responses ++ [⟨index, proxyAttempt resp⟩] }
    else
      none
  | .receive =>
    match s.result, s.responses with
    | none, res :: rest => some (s.consume env res rest)
    | _, _ => none
  | .stageTimeout => if s.result = none then some (s.next env) else none
  | .totalTimeout =>
    if s.result = none then
      some { s with canceled := s.canceled ++ s.started, result := some .proxyTimeout }
    else
      none
  | .ctxDone =>
    -- the contexts of the attempts are derived from this one
    if s.result = none then
      some { s with canceled := s.canceled ++ s.started, result := some .requestCanceled }
    else
      none

end ProxyState

/-- A call of `proxy`. -/
def proxyMachine (env : ProxyEnv) : Machine ProxyState ProxyEvent :=
  .ofStep (.start env) fun s e => s.step env e

/-! ## Keeping the books

Every attempt that was started is running, has reported, has failed or has won, and is in one of
these places only. The books are kept as a permutation, so that each event has only to say what
moves where. -/

/-- The attempt whose response was returned. -/
def winner : Option ProxyResult → List ℕ
  | some (.response _ index) => [index]
  | _ => []

namespace ProxyState

/-- Where every attempt is, before the round of index `rounds` or, with `rounds` one more,
after it was entered. -/
structure Books (env : ProxyEnv) (rounds : ℕ) (s : ProxyState) : Prop where
  /-- the peers were tried in order, each once -/
  started : s.started = (List.range (min rounds env.peers.length)).filter env.builds
  /-- an attempt is running, or reported, or failed, or won -/
  perm : s.started.Perm
    (s.running ++ (s.responses.map ProxyResponse.index ++ (s.failed ++ winner s.result)))
  /-- `outstanding` counts the attempts whose error was not consumed -/
  outstanding : s.outstanding = (s.started.length : ℤ) - s.failed.length

/-- What holds at the select of every round. -/
structure Accounted (env : ProxyEnv) (s : ProxyState) : Prop where
  /-- the books are in order -/
  books : s.Books env (s.peerIndex + 1)
  /-- the call only gives up with nothing left to try or to wait for -/
  noPeers : s.result = some .noAvailablePeers →
    env.peers.length ≤ s.peerIndex ∧ s.outstanding = 0
  /-- the select waits for an attempt, unless the request of this round could not be built -/
  waiting : s.result = none →
    0 < s.outstanding ∨ (s.peerIndex < env.peers.length ∧ env.builds s.peerIndex = false)

variable {env : ProxyEnv} {s : ProxyState}

theorem Books.length {rounds : ℕ} (h : s.Books env rounds) :
    s.running.length + s.responses.length + s.failed.length + (winner s.result).length =
      s.started.length := by
  have hlen := h.perm.length_eq
  simp only [List.length_append, List.length_map] at hlen
  omega

/-- Entering a round keeps the books. -/
theorem Books.enter (h : s.Books env s.peerIndex) (hres : s.result = none) :
    (s.enter env).Accounted env := by
  have hlen := h.length
  have hout := h.outstanding
  rw [ProxyState.enter]
  rcases hpeer : env.peers[s.peerIndex]? with _ | peer
  · -- past the last peer
    have hge : env.peers.length ≤ s.peerIndex := List.getElem?_eq_none_iff.mp hpeer
    have hmin : min (s.peerIndex + 1) env.peers.length = min s.peerIndex env.peers.length := by omega
    dsimp only
    split_ifs with hzero
    · refine ⟨⟨hmin ▸ h.started, ?_, h.outstanding⟩, fun _ => ⟨hge, hzero⟩, fun hnone => by cases hnone⟩
      have hperm := h.perm
      rw [hres] at hperm
      exact hperm
    · refine ⟨⟨hmin ▸ h.started, h.perm, h.outstanding⟩, ?_, fun _ => .inl (by omega)⟩
      intro hno
      rw [hres] at hno
      cases hno
  · have hlt : s.peerIndex < env.peers.length := (List.getElem?_eq_some_iff.mp hpeer).1
    have hrange : List.range (min (s.peerIndex + 1) env.peers.length) =
        List.range (min s.peerIndex env.peers.length) ++ [s.peerIndex] := by
      rw [min_eq_left (by omega), min_eq_left (by omega), List.range_succ]
    dsimp only
    split_ifs with hbuild
    · refine ⟨⟨?_, ?_, ?_⟩, fun hno => ?_, fun _ => .inl (by dsimp only; omega)⟩
      · rw [hrange, List.filter_append, ← h.started, List.filter_singleton, hbuild]
        rfl
      · -- the new attempt runs
        refine (h.perm.append_right [s.peerIndex]).trans ?_
        dsimp only
        rw [List.append_assoc s.running, List.append_assoc s.running]
        exact List.perm_append_comm.append_left _
      · simp only [List.length_append, List.length_singleton]
        omega
      · dsimp only at hno
        rw [hres] at hno
        cases hno
    · refine ⟨⟨?_, h.perm, h.outstanding⟩, fun hno => ?_, fun _ => .inr ⟨hlt, by simpa using hbuild⟩⟩
      · rw [hrange, List.filter_append, ← h.started, List.filter_singleton]
        simp [hbuild]
      · rw [hres] at hno
        cases hno

theorem accounted_start (env : ProxyEnv) : (start env).Accounted env :=
  Books.enter ⟨rfl, List.Perm.refl _, rfl⟩ rfl

theorem Books.next (h : s.Books env (s.peerIndex + 1)) (hres : s.result = none) :
    (s.next env).Accounted env :=
  Books.enter ⟨h.started, h.perm, h.outstanding⟩ hres

/-- A report moves an attempt from the running ones to the channel. -/
theorem Accounted.attemptDone (h : s.Accounted env) {index : ℕ} (hrun : index ∈ s.running)
    (outcome : Except AttemptError Response) :
    ({ s with
        running := s.running.erase index
        responses := s.responses ++ [⟨index, outcome⟩] } : ProxyState).Accounted env where
  books := {
    started := h.books.started
    perm := by
      refine h.books.perm.trans ?_
      rw [List.map_append, List.append_assoc]
      refine ((List.perm_cons_erase hrun).append_right _).trans ?_
      rw [List.cons_append, List.map_singleton, List.singleton_append]
      exact ((List.perm_middle.append_left _).trans List.perm_middle).symm
    outstanding := h.books.outstanding }
  noPeers := h.noPeers
  waiting := h.waiting

/-- A report taken out of the channel goes to the failed attempts, or to the winner. -/
theorem Accounted.perm_receive (h : s.Accounted env) (hres : s.result = none) {res : ProxyResponse}
    {rest : List ProxyResponse} (hresp : s.responses = res :: rest) :
    s.started.Perm (s.running ++ (rest.map ProxyResponse.index ++ (s.failed ++ [res.index]))) := by
  have hperm := h.books.perm
  rw [hresp, hres, List.map_cons] at hperm
  simp only [winner, List.append_nil] at hperm
  refine hperm.trans (List.Perm.append_left _ ?_)
  rw [← List.append_assoc]
  exact (List.perm_append_singleton _ _).symm

/-- The books after an error report was taken. -/
theorem Accounted.books_error (h : s.Accounted env) (hres : s.result = none) {res : ProxyResponse}
    {rest : List ProxyResponse} (hresp : s.responses = res :: rest) (canceled : List ℕ) :
    ({ s with
        responses := rest
        canceled := canceled
        failed := s.failed ++ [res.index]
        outstanding := s.outstanding - 1 } : ProxyState).Books env (s.peerIndex + 1) where
  started := h.books.started
  perm := by
    have hperm := h.perm_receive hres hresp
    rw [hres]
    simpa only [winner, List.append_nil] using hperm
  outstanding := by
    have hout := h.books.outstanding
    simp only [List.length_append, List.length_singleton]
    omega

/-- Taking a report out of the channel keeps the books. -/
theorem Accounted.consume (h : s.Accounted env) (hres : s.result = none) {res : ProxyResponse}
    {rest : List ProxyResponse} (hresp : s.responses = res :: rest) :
    (s.consume env res rest).Accounted env := by
  rw [ProxyState.consume]
  rcases res.outcome with err | resp
  · exact (h.books_error hres hresp _).next hres
  · exact ⟨⟨h.books.started, h.perm_receive hres hresp, h.books.outstanding⟩,
      fun hno => by simp at hno, fun hno => by simp at hno⟩

/-- Leaving through one of the timers keeps the books. -/
theorem Accounted.leave (h : s.Accounted env) (hres : s.result = none) {res : ProxyResult}
    (canceled : List ℕ) (hleave : winner (some res) = []) (hne : res ≠ .noAvailablePeers) :
    ({ s with canceled := canceled, result := some res } : ProxyState).Accounted env where
  books := {
    started := h.books.started
    perm := by
      have hperm := h.books.perm
      rw [hres] at hperm
      rw [hleave]
      exact hperm
    outstanding := h.books.outstanding }
  noPeers := fun hno => absurd (Option.some.inj hno) hne
  waiting := fun hno => by cases hno

/-- Everything an event can do. -/
theorem step_cases {e : ProxyEvent} {s' : ProxyState} (hstep : s.step env e = some s') :
    (∃ index resp, e = .attemptDone index resp ∧ index ∈ s.running ∧
      s' = { s with
        running := s.running.erase index
        responses := s.responses ++ [⟨index, proxyAttempt resp⟩] }) ∨
    (s.result = none ∧ ∃ res rest, e = .receive ∧ s.responses = res :: rest ∧
      s' = s.consume env res rest) ∨
    (s.result = none ∧ e = .stageTimeout ∧ s' = s.next env) ∨
    (s.result = none ∧ ∃ res, (e = .totalTimeout ∧ res = .proxyTimeout ∨
        e = .ctxDone ∧ res = .requestCanceled) ∧
      s' = { s with canceled := s.canceled ++ s.started, result := some res }) := by
  cases e with
  | attemptDone index resp =>
    simp only [ProxyState.step] at hstep
    split_ifs at hstep with hcan
    exact .inl ⟨index, resp, rfl, hcan.1, (Option.some.inj hstep).symm⟩
  | receive =>
    simp only [ProxyState.step] at hstep
    split at hstep
    · rename_i res rest hres hresp
      exact .inr (.inl ⟨hres, res, rest, rfl, hresp, (Option.some.inj hstep).symm⟩)
    · cases hstep
  | stageTimeout =>
    simp only [ProxyState.step] at hstep
    split_ifs at hstep with hres
    exact .inr (.inr (.inl ⟨hres, rfl, (Option.some.inj hstep).symm⟩))
  | totalTimeout =>
    simp only [ProxyState.step] at hstep
    split_ifs at hstep with hres
    exact .inr (.inr (.inr ⟨hres, _, .inl ⟨rfl, rfl⟩, (Option.some.inj hstep).symm⟩))
  | ctxDone =>
    simp only [ProxyState.step] at hstep
    split_ifs at hstep with hres
    exact .inr (.inr (.inr ⟨hres, _, .inr ⟨rfl, rfl⟩, (Option.some.inj hstep).symm⟩))

/-- **The books are kept** over every event. -/
theorem Accounted.step (h : s.Accounted env) {e : ProxyEvent} {s' : ProxyState}
    (hstep : s.step env e = some s') : s'.Accounted env := by
  rcases step_cases hstep with ⟨index, resp, -, hrun, rfl⟩ | ⟨hres, res, rest, -, hresp, rfl⟩ |
    ⟨hres, -, rfl⟩ | ⟨hres, res, hleave, rfl⟩
  · exact h.attemptDone hrun _
  · exact h.consume hres hresp
  · exact h.books.next hres
  · obtain ⟨-, rfl⟩ | ⟨-, rfl⟩ := hleave
    · exact h.leave hres _ rfl (by simp)
    · exact h.leave hres _ rfl (by simp)

theorem accounted_of_reachable (h : (proxyMachine env).Reachable s) : s.Accounted env :=
  h.invariant (fun _ hs => hs ▸ accounted_start env) fun _ _ _ _ hacc hstep => hacc.step hstep

end ProxyState

/-! ## Undisturbed calls

Every request can be built, every attempt gets the answer of its peer, and no timer but
the stages' fires. What is left to the environment is the order of events. -/

/-- The event is one of an undisturbed call. -/
def Undisturbed (env : ProxyEnv) (answer : Address → Response) : ProxyEvent → Prop
  | .attemptDone index resp =>
    ∃ peer, env.peers[index]? = some peer ∧ resp = some (answer peer)
  | .receive => True
  | .stageTimeout => True
  | .totalTimeout => False
  | .ctxDone => False

/-- The reports, and what was made of them, are the peers' answers. -/
structure ProxyState.Faithful (env : ProxyEnv) (answer : Address → Response) (s : ProxyState) :
    Prop where
  /-- a report in the channel -/
  responses : ∀ r ∈ s.responses, ∃ peer, env.peers[r.index]? = some peer ∧
    r.outcome = proxyAttempt (some (answer peer))
  /-- a consumed error -/
  failed : ∀ i ∈ s.failed, ∃ peer, env.peers[i]? = some peer ∧ ¬ (answer peer).Good
  /-- the response returned -/
  result : ∀ res, s.result = some res → res = .noAvailablePeers ∨
    ∃ i peer, env.peers[i]? = some peer ∧ (answer peer).Good ∧ res = .response (answer peer) i

namespace ProxyState

variable {env : ProxyEnv} {answer : Address → Response} {s : ProxyState}

theorem Faithful.enter (h : s.Faithful env answer) : (s.enter env).Faithful env answer := by
  rw [ProxyState.enter]
  split
  · split
    · exact ⟨h.responses, h.failed, h.result⟩
    · exact h
  · split
    · exact ⟨h.responses, h.failed, fun res hres => .inl (Option.some.inj hres).symm⟩
    · exact h

theorem Faithful.next (h : s.Faithful env answer) : (s.next env).Faithful env answer :=
  Faithful.enter ⟨h.responses, h.failed, h.result⟩

theorem Faithful.consume (h : s.Faithful env answer) {res : ProxyResponse}
    {rest : List ProxyResponse} (hresp : s.responses = res :: rest) :
    (s.consume env res rest).Faithful env answer := by
  obtain ⟨peer, hpeer, hout⟩ := h.responses res (by rw [hresp]; exact List.mem_cons_self ..)
  have hrest : ∀ r ∈ rest, r ∈ s.responses := fun r hr => by
    rw [hresp]
    exact List.mem_cons_of_mem _ hr
  rw [ProxyState.consume]
  rcases hres : res.outcome with err | resp
  · refine Faithful.next ⟨fun r hr => h.responses r (hrest r hr), fun i hi => ?_, h.result⟩
    rcases List.mem_append.mp hi with hi | hi
    · exact h.failed i hi
    · obtain rfl := List.mem_singleton.mp hi
      refine ⟨peer, hpeer, fun hgood => ?_⟩
      rw [hres] at hout
      cases hout.trans (proxyAttempt_eq_ok.mpr ⟨rfl, hgood⟩)
  · refine ⟨fun r hr => h.responses r (hrest r hr), h.failed, fun r hr => .inr ?_⟩
    rw [hres] at hout
    obtain ⟨rfl, hgood⟩ := proxyAttempt_eq_ok.mp hout.symm
    exact ⟨res.index, peer, hpeer, hgood, (Option.some.inj hr).symm⟩

/-- What a report says is what the peer has answered, from the attempt on. -/
theorem Faithful.step (h : s.Faithful env answer) {e : ProxyEvent} (he : Undisturbed env answer e)
    {s' : ProxyState} (hstep : s.step env e = some s') : s'.Faithful env answer := by
  rcases step_cases hstep with ⟨index, resp, rfl, -, rfl⟩ | ⟨-, res, rest, -, hresp, rfl⟩ |
    ⟨-, -, rfl⟩ | ⟨-, res, hleave, -⟩
  · obtain ⟨peer, hpeer, rfl⟩ := he
    refine ⟨fun r hr => ?_, h.failed, h.result⟩
    rcases List.mem_append.mp hr with hr | hr
    · exact h.responses r hr
    · obtain rfl := List.mem_singleton.mp hr
      exact ⟨peer, hpeer, rfl⟩
  · exact h.consume hresp
  · exact h.next
  · -- no timer fires
    obtain ⟨rfl, -⟩ | ⟨rfl, -⟩ := hleave <;> exact absurd he id

/-- An undisturbed call, as a machine. -/
abbrev undisturbed (env : ProxyEnv) (answer : Address → Response) : Machine ProxyState ProxyEvent :=
  (proxyMachine env).restrict fun _ e => Undisturbed env answer e

theorem faithful_of_reachable (h : (undisturbed env answer).Reachable s) :
    s.Faithful env answer := by
  refine h.invariant (fun s hs => ?_) fun s e s' _ hf hstep => hf.step hstep.1 hstep.2
  rw [hs]
  exact Faithful.enter ⟨fun r hr => absurd hr List.not_mem_nil, fun i hi => absurd hi List.not_mem_nil,
    fun res hres => by cases hres⟩

/-- The call gives up only if no peer has a good answer. -/
theorem not_good_of_noAvailablePeers (h : (undisturbed env answer).Reachable s)
    (hbuilds : ∀ i, env.builds i = true) (hres : s.result = some .noAvailablePeers) :
    ∀ peer ∈ env.peers, ¬ (answer peer).Good := by
  have hacc := accounted_of_reachable h.of_restrict
  have hfaith := faithful_of_reachable h
  obtain ⟨hge, hzero⟩ := hacc.noPeers hres
  intro peer hpeer
  obtain ⟨i, hi⟩ := List.mem_iff_getElem?.mp hpeer
  have hlt : i < env.peers.length := (List.getElem?_eq_some_iff.mp hi).1
  -- nothing is outstanding, so every attempt failed
  have hlen := hacc.books.length
  have hout := hacc.books.outstanding
  have hrun : s.running = [] := List.length_eq_zero_iff.mp (by omega)
  have hresp : s.responses = [] := List.length_eq_zero_iff.mp (by omega)
  have hperm := hacc.books.perm
  rw [hrun, hresp, hres] at hperm
  simp only [winner, List.map_nil, List.nil_append, List.append_nil] at hperm
  have hstarted : i ∈ s.started := by
    rw [hacc.books.started, List.mem_filter, List.mem_range]
    exact ⟨by omega, hbuilds i⟩
  obtain ⟨peer', hpeer', hbad⟩ := hfaith.failed i (hperm.mem_iff.mp hstarted)
  rw [hi] at hpeer'
  obtain rfl := Option.some.inj hpeer'
  exact hbad

end ProxyState

/-! ## Scheduling a call

An undisturbed call as a function of the order of events: first as the environment
schedules them, and then, the attempts being bound to complete, to the end. -/

/-- A choice of the environment. -/
inductive Tick where
  /-- an attempt completes -/
  | attemptDone (index : ℕ)
  /-- the select takes a report -/
  | receive
  /-- the stage times out -/
  | stageTimeout
  deriving DecidableEq, Repr

/-- The event chosen, if there is such a peer. -/
def Tick.event (env : ProxyEnv) (answer : Address → Response) : Tick → Option ProxyEvent
  | .attemptDone index => env.peers[index]?.map fun peer => .attemptDone index (some (answer peer))
  | .receive => some .receive
  | .stageTimeout => some .stageTimeout

namespace ProxyState

/-- The state after a choice; one that cannot happen is passed over. -/
def tick (env : ProxyEnv) (answer : Address → Response) (s : ProxyState) (t : Tick) : ProxyState :=
  ((t.event env answer).bind (s.step env)).getD s

/-- To the end: reports are taken, attempts complete, and failing both a stage times out. -/
def settle (env : ProxyEnv) (answer : Address → Response) : ℕ → ProxyState → ProxyState
  | 0, s => s
  | fuel + 1, s =>
    match s.result, s.responses, s.running with
    | some _, _, _ => s
    | none, _ :: _, _ => settle env answer fuel (s.tick env answer .receive)
    | none, [], index :: _ => settle env answer fuel (s.tick env answer (.attemptDone index))
    | none, [], [] => settle env answer fuel (s.tick env answer .stageTimeout)

end ProxyState

/-- `proxy`, undisturbed. -/
def proxy (answer : Address → Response) (peers : List Address) (ticks : List Tick) :
    Option ProxyResult :=
  (ProxyState.settle ⟨peers, fun _ => true⟩ answer (2 * peers.length + 1)
    (ticks.foldl (ProxyState.tick ⟨peers, fun _ => true⟩ answer)
      (.start ⟨peers, fun _ => true⟩))).result

namespace ProxyState

variable {env : ProxyEnv} {answer : Address → Response} {s : ProxyState}

theorem reachable_tick (h : (undisturbed env answer).Reachable s) (t : Tick) :
    (undisturbed env answer).Reachable (s.tick env answer t) := by
  rw [tick]
  rcases he : t.event env answer with _ | e
  · exact h
  · have hun : Undisturbed env answer e := by
      cases t with
      | attemptDone index =>
        obtain ⟨peer, hpeer, rfl⟩ := Option.map_eq_some_iff.mp he
        exact ⟨peer, hpeer, rfl⟩
      | receive =>
        obtain rfl := Option.some.inj he
        trivial
      | stageTimeout =>
        obtain rfl := Option.some.inj he
        trivial
    rcases hstep : s.step env e with _ | s'
    · simpa [hstep] using h
    · simpa [hstep] using h.step ⟨hun, hstep⟩

theorem reachable_ticks (h : (undisturbed env answer).Reachable s) (ticks : List Tick) :
    (undisturbed env answer).Reachable (ticks.foldl (tick env answer) s) := by
  induction ticks generalizing s with
  | nil => exact h
  | cons t ticks ih => exact ih (reachable_tick h t)

theorem reachable_settle (fuel : ℕ) (h : (undisturbed env answer).Reachable s) :
    (undisturbed env answer).Reachable (settle env answer fuel s) := by
  induction fuel generalizing s with
  | zero => exact h
  | succ fuel ih =>
    rw [settle]
    split
    · exact h
    · exact ih (reachable_tick h _)
    · exact ih (reachable_tick h _)
    · exact ih (reachable_tick h _)

/-- What is left to do: attempts to start, to complete and to hear of. -/
def remaining (env : ProxyEnv) (s : ProxyState) : ℕ :=
  2 * (env.peers.length - s.started.length) + 2 * s.running.length + s.responses.length

theorem Books.length_started_le {rounds : ℕ} (h : s.Books env rounds) :
    s.started.length ≤ min rounds env.peers.length := by
  rw [h.started]
  exact (List.length_filter_le _ _).trans (List.length_range).le

/-- What is left to do is bounded by the number of peers. -/
theorem Books.remaining_le {rounds : ℕ} (h : s.Books env rounds) :
    s.remaining env ≤ 2 * env.peers.length := by
  have hlen := h.length
  have hle := h.length_started_le
  rw [remaining]
  omega

/-- Entering a round leaves no more to do: an attempt to start becomes one to complete. -/
theorem Books.remaining_enter (h : s.Books env s.peerIndex) :
    (s.enter env).remaining env ≤ s.remaining env := by
  have hle := h.length_started_le
  rw [ProxyState.enter]
  split
  · rename_i peer hpeer
    have hlt : s.peerIndex < env.peers.length := (List.getElem?_eq_some_iff.mp hpeer).1
    split
    · simp only [remaining, List.length_append, List.length_singleton]
      omega
    · exact le_refl _
  · split
    · exact le_refl _
    · exact le_refl _

theorem Books.remaining_next (h : s.Books env (s.peerIndex + 1)) :
    (s.next env).remaining env ≤ s.remaining env :=
  Books.remaining_enter ⟨h.started, h.perm, h.outstanding⟩

/-- Taking a report leaves less to do, or ends the call. -/
theorem Accounted.remaining_consume (h : s.Accounted env) (hres : s.result = none)
    {res : ProxyResponse} {rest : List ProxyResponse} (hresp : s.responses = res :: rest)
    (hnone : (s.consume env res rest).result = none) :
    (s.consume env res rest).remaining env < s.remaining env := by
  rw [ProxyState.consume] at hnone ⊢
  rcases hout : res.outcome with err | resp
  · refine lt_of_le_of_lt (h.books_error hres hresp _).remaining_next ?_
    simp only [remaining, hresp, List.length_cons]
    omega
  · rw [hout] at hnone
    cases hnone

/-- An attempt that completes leaves less to do; there is room for its report. -/
theorem Accounted.attemptDone_enabled (h : s.Accounted env) {index : ℕ} (hrun : index ∈ s.running)
    (resp : Option Response) :
    ∃ s', s.step env (.attemptDone index resp) = some s' ∧ s'.remaining env < s.remaining env := by
  have hlen := h.books.length
  have hle := h.books.length_started_le
  have hpos := List.length_pos_of_mem hrun
  have hroom : s.responses.length < env.peers.length := by omega
  refine ⟨_, by rw [ProxyState.step, if_pos ⟨hrun, hroom⟩], ?_⟩
  simp only [remaining, List.length_append, List.length_singleton, List.length_erase_of_mem hrun]
  omega

/-- Each move of `settle` leaves less to do, or ends the call. -/
theorem settle_returns (hbuilds : ∀ i, env.builds i = true) (fuel : ℕ)
    (h : (undisturbed env answer).Reachable s) (hfuel : s.remaining env < fuel) :
    (settle env answer fuel s).result ≠ none := by
  induction fuel generalizing s with
  | zero => exact absurd hfuel (Nat.not_lt_zero _)
  | succ fuel ih =>
    have hacc := accounted_of_reachable h.of_restrict
    rw [settle]
    split
    · rename_i res _ _ hres
      rw [hres]
      simp
    · rename_i res rest hres hresp
      have hstep : s.tick env answer .receive = s.consume env res rest := by
        simp [tick, Tick.event, ProxyState.step, hres, hresp]
      rcases hnext : (s.consume env res rest).result with _ | result
      · have hless := hacc.remaining_consume hres hresp hnext
        exact ih (reachable_tick h _) (by rw [hstep]; omega)
      · -- the call has ended, and `settle` leaves it at that
        rw [hstep]
        cases fuel with
        | zero => rw [settle, hnext]; simp
        | succ fuel => rw [settle, hnext]; simp [hnext]
    · rename_i index running hres hresp hrun
      have hmem : index ∈ s.running := by rw [hrun]; exact List.mem_cons_self ..
      have hstarted : index ∈ s.started :=
        hacc.books.perm.mem_iff.mpr (List.mem_append.mpr (.inl hmem))
      rw [hacc.books.started, List.mem_filter, List.mem_range] at hstarted
      have hlt : index < env.peers.length := by omega
      obtain ⟨peer, hpeer⟩ : ∃ peer, env.peers[index]? = some peer :=
        ⟨env.peers[index], List.getElem?_eq_getElem hlt⟩
      obtain ⟨s', hstep, hless⟩ := hacc.attemptDone_enabled hmem (some (answer peer))
      have htick : s.tick env answer (.attemptDone index) = s' := by
        simp [tick, Tick.event, hpeer, hstep]
      exact ih (reachable_tick h _) (by rw [htick]; omega)
    · -- there is always something to wait for
      rename_i hres hresp hrun
      have hlen := hacc.books.length
      have hout := hacc.books.outstanding
      rw [hres, hresp, hrun] at hlen
      simp only [winner, List.length_nil] at hlen
      rcases hacc.waiting hres with hpos | ⟨-, hnot⟩
      · omega
      · rw [hbuilds] at hnot
        cases hnot

end ProxyState

/-- **An undisturbed call returns**: with the answer of some peer, if a peer has a good
one, and otherwise with `errNoAvailablePeers`. -/
theorem proxy_spec (answer : Address → Response) (peers : List Address) (ticks : List Tick) :
    (∃ i peer, peers[i]? = some peer ∧ (answer peer).Good ∧
      proxy answer peers ticks = some (.response (answer peer) i)) ∨
    ((∀ peer ∈ peers, ¬ (answer peer).Good) ∧
      proxy answer peers ticks = some .noAvailablePeers) := by
  have hstart : (ProxyState.undisturbed ⟨peers, fun _ => true⟩ answer).Reachable
      (.start ⟨peers, fun _ => true⟩) := .start rfl
  have hticks := ProxyState.reachable_ticks hstart ticks
  have hfuel : (ticks.foldl (ProxyState.tick ⟨peers, fun _ => true⟩ answer)
      (.start ⟨peers, fun _ => true⟩)).remaining ⟨peers, fun _ => true⟩ < 2 * peers.length + 1 :=
    Nat.lt_succ_of_le (ProxyState.accounted_of_reachable hticks.of_restrict).books.remaining_le
  have hsettle := ProxyState.reachable_settle (2 * peers.length + 1) hticks
  have hreturns := ProxyState.settle_returns (fun _ => rfl) _ hticks hfuel
  obtain ⟨res, hres⟩ := Option.ne_none_iff_exists'.mp hreturns
  rcases (ProxyState.faithful_of_reachable hsettle).result res hres with rfl | ⟨i, peer, hpeer, hgood, rfl⟩
  · exact .inr ⟨ProxyState.not_good_of_noAvailablePeers hsettle (fun _ => rfl) hres, hres⟩
  · exact .inl ⟨i, peer, hpeer, hgood, hres⟩

end Sequins
