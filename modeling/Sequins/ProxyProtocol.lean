import Sequins.Proxy
import Mathlib.Data.List.Nodup

/-!
# The attempt protocol of a proxied request

What holds of a call of `proxy` in every interleaving: of requests that cannot be built, attempts
that come back with anything, the stage timer, the total timer and the client giving up. The
books of the module before say where every attempt is. Two more things are kept along a run:

* `ProxyState.Traced`: every report, and what was made of it, goes back to the completion of the
  attempt it names;
* `ProxyState.Cancelable`: the map of cancel functions has the one of every attempt started, as
  long as the peers are distinct, so a good answer cancels all others.
-/

namespace Sequins

theorem proxyAttempt_ok {resp : Option Response} {resp' : Response}
    (h : proxyAttempt resp = .ok resp') : resp = some resp' ∧ resp'.Good := by
  cases resp with
  | none => cases h
  | some resp =>
    obtain ⟨rfl, hgood⟩ := proxyAttempt_eq_ok.mp h
    exact ⟨rfl, hgood⟩

namespace ProxyState

variable {env : ProxyEnv} {s : ProxyState} {es : List ProxyEvent}

/-! ## Where the reports come from

Along a run with its events so far: every report on the channel, and every result, names the
event in which the attempt came back. -/

/-- Reports and results go back to what happened. -/
structure Traced (es : List ProxyEvent) (s : ProxyState) : Prop where
  /-- a report in the channel -/
  responses : ∀ r ∈ s.responses, ∃ resp, .attemptDone r.index resp ∈ es ∧
    r.outcome = proxyAttempt resp
  /-- a consumed error -/
  failed : ∀ i ∈ s.failed, ∃ resp err, .attemptDone i resp ∈ es ∧ proxyAttempt resp = .error err
  /-- the response returned -/
  result : ∀ resp i, s.result = some (.response resp i) → .attemptDone i (some resp) ∈ es ∧ resp.Good

theorem Traced.mono {es' : List ProxyEvent} (h : s.Traced es) (hes : es ⊆ es') : s.Traced es' where
  responses := fun r hr => by
    obtain ⟨resp, hmem, hout⟩ := h.responses r hr
    exact ⟨resp, hes hmem, hout⟩
  failed := fun i hi => by
    obtain ⟨resp, err, hmem, herr⟩ := h.failed i hi
    exact ⟨resp, err, hes hmem, herr⟩
  result := fun resp i hres => by
    obtain ⟨hmem, hgood⟩ := h.result resp i hres
    exact ⟨hes hmem, hgood⟩

theorem Traced.enter (h : s.Traced es) : (s.enter env).Traced es := by
  rw [ProxyState.enter]
  split
  · split
    · exact ⟨h.responses, h.failed, h.result⟩
    · exact h
  · split
    · exact ⟨h.responses, h.failed, fun resp i hres => by cases hres⟩
    · exact h

theorem Traced.next (h : s.Traced es) : (s.next env).Traced es :=
  Traced.enter ⟨h.responses, h.failed, h.result⟩

/-- A report that is taken off the channel goes on to be a result. -/
theorem Traced.consume (h : s.Traced es) {res : ProxyResponse} {rest : List ProxyResponse}
    (hresp : s.responses = res :: rest) : (s.consume env res rest).Traced es := by
  have hrest : ∀ r ∈ rest, r ∈ s.responses := fun r hr => hresp ▸ List.mem_cons_of_mem _ hr
  obtain ⟨resp, hmem, hout⟩ := h.responses res (hresp ▸ List.mem_cons_self ..)
  rw [ProxyState.consume]
  rcases hres : res.outcome with err | good
  · refine Traced.next ⟨fun r hr => h.responses r (hrest r hr), fun i hi => ?_, h.result⟩
    rcases List.mem_append.mp hi with hi | hi
    · exact h.failed i hi
    · obtain rfl := List.mem_singleton.mp hi
      exact ⟨resp, err, hmem, hout.symm.trans hres⟩
  · obtain ⟨rfl, hgood⟩ := proxyAttempt_ok (hout.symm.trans hres)
    refine ⟨fun r hr => h.responses r (hrest r hr), h.failed, fun resp i hresult => ?_⟩
    cases hresult
    exact ⟨hmem, hgood⟩

theorem Traced.step (h : s.Traced es) {e : ProxyEvent} {s' : ProxyState}
    (hstep : s.step env e = some s') : s'.Traced (es ++ [e]) := by
  have hmono := h.mono (List.subset_append_left es [e])
  rcases step_cases hstep with ⟨index, resp, rfl, -, rfl⟩ | ⟨-, res, rest, -, hresp, rfl⟩ |
    ⟨-, -, rfl⟩ | ⟨-, res, hleave, rfl⟩
  · refine ⟨fun r hr => ?_, hmono.failed, hmono.result⟩
    rcases List.mem_append.mp hr with hr | hr
    · exact hmono.responses r hr
    · obtain rfl := List.mem_singleton.mp hr
      exact ⟨resp, by simp, rfl⟩
  · exact hmono.consume hresp
  · exact hmono.next
  · refine ⟨hmono.responses, hmono.failed, fun resp i hres => ?_⟩
    obtain ⟨-, rfl⟩ | ⟨-, rfl⟩ := hleave <;> cases hres

/-! ## Whose contexts can be canceled

The source keeps the cancel functions in a map by address, so two attempts on one address would
share an entry. With distinct peers there is one for each attempt, and a good answer calls all
but the winner's. -/

/-- The map of cancel functions is complete, and a good answer has used it. -/
structure Cancelable (env : ProxyEnv) (s : ProxyState) : Prop where
  /-- every attempt is under its peer -/
  cancels : ∀ i ∈ s.started, ∃ peer, env.peers[i]? = some peer ∧ s.cancels.lookup peer = some i
  /-- a good answer cancels the others -/
  others : ∀ resp i, s.result = some (.response resp i) → ∀ j ∈ s.started, j ≠ i → j ∈ s.canceled

theorem index_unique (hdistinct : env.peers.Nodup) {i j : ℕ} {peer : Address}
    (hi : env.peers[i]? = some peer) (hj : env.peers[j]? = some peer) : i = j := by
  obtain ⟨hi, rfl⟩ := List.getElem?_eq_some_iff.mp hi
  obtain ⟨hj, heq⟩ := List.getElem?_eq_some_iff.mp hj
  exact (hdistinct.getElem_inj_iff.mp heq).symm

theorem Cancelable.enter (hdistinct : env.peers.Nodup) (h : s.Cancelable env)
    (hnew : s.peerIndex ∉ s.started) (hres : s.result = none) : (s.enter env).Cancelable env := by
  rw [ProxyState.enter]
  rcases hpeer : env.peers[s.peerIndex]? with _ | peer
  · dsimp only
    split
    · exact ⟨h.cancels, fun resp i hresult => by cases hresult⟩
    · exact h
  · dsimp only
    split
    · refine ⟨fun i hi => ?_, fun resp i hresult => by rw [hres] at hresult; cases hresult⟩
      rcases List.mem_append.mp hi with hold | hlast
      · obtain ⟨other, hother, hlook⟩ := h.cancels i hold
        have hne : other ≠ peer := by
          rintro rfl
          exact hnew (index_unique hdistinct hother hpeer ▸ hold)
        exact ⟨other, hother, by rwa [AList.lookup_insert_ne hne]⟩
      · obtain rfl := List.mem_singleton.mp hlast
        exact ⟨peer, hpeer, AList.lookup_insert _⟩
    · exact h

/-- The attempt of the round that comes was not started yet. -/
theorem Books.not_mem_started {rounds : ℕ} (h : s.Books env rounds) : rounds ∉ s.started := by
  rw [h.started, List.mem_filter, List.mem_range]
  rintro ⟨hlt, -⟩
  omega

/-- A good answer cancels all other attempts. -/
theorem Cancelable.consume (hdistinct : env.peers.Nodup) (h : s.Cancelable env)
    (hacc : s.Accounted env) (hres : s.result = none) (res : ProxyResponse)
    (rest : List ProxyResponse) : (s.consume env res rest).Cancelable env := by
  rw [ProxyState.consume]
  rcases res.outcome with err | resp
  · refine Cancelable.enter hdistinct ⟨h.cancels, fun resp i hresult => ?_⟩
      hacc.books.not_mem_started hres
    exact absurd (hres.symm.trans hresult) (by simp)
  · refine ⟨h.cancels, fun resp' i hresult j hj hne => ?_⟩
    cases hresult
    obtain ⟨peer, hpeer, hlook⟩ := h.cancels j hj
    refine List.mem_append_right _ (List.mem_map.mpr ⟨⟨peer, j⟩, List.mem_filter.mpr ⟨?_, ?_⟩, rfl⟩)
    · exact AList.mem_entries_iff_lookup.mpr hlook
    · -- another attempt has another peer
      exact decide_eq_true fun hsame => hne (index_unique hdistinct hpeer hsame.symm)

theorem Cancelable.step (hdistinct : env.peers.Nodup) (h : s.Cancelable env)
    (hacc : s.Accounted env) {e : ProxyEvent} {s' : ProxyState}
    (hstep : s.step env e = some s') : s'.Cancelable env := by
  rcases step_cases hstep with ⟨index, resp, -, -, rfl⟩ | ⟨hres, res, rest, -, -, rfl⟩ |
    ⟨hres, -, rfl⟩ | ⟨hres, res, hleave, rfl⟩
  · exact ⟨h.cancels, h.others⟩
  · exact h.consume hdistinct hacc hres res rest
  · exact Cancelable.enter hdistinct ⟨h.cancels, h.others⟩ hacc.books.not_mem_started hres
  · refine ⟨h.cancels, fun resp i hresult => ?_⟩
    obtain ⟨-, rfl⟩ | ⟨-, rfl⟩ := hleave <;> cases hresult

/-! ## Whole runs -/

/-- What is kept along a run. -/
structure Followed (env : ProxyEnv) (es : List ProxyEvent) (s : ProxyState) : Prop where
  /-- the books -/
  accounted : s.Accounted env
  /-- where reports come from -/
  traced : s.Traced es
  /-- what can be canceled -/
  cancelable : s.Cancelable env

theorem followed_start (hdistinct : env.peers.Nodup) : (start env).Followed env [] where
  accounted := accounted_start env
  traced := Traced.enter ⟨fun r hr => absurd hr List.not_mem_nil,
    fun i hi => absurd hi List.not_mem_nil, fun resp i hres => by cases hres⟩
  cancelable := Cancelable.enter hdistinct ⟨fun i hi => absurd hi List.not_mem_nil,
    fun resp i hres => by cases hres⟩ List.not_mem_nil rfl

/-- **By induction on the events**, with all three invariants at once. -/
theorem Followed.run (hdistinct : env.peers.Nodup) {past : List ProxyEvent}
    (h : s.Followed env past) {s' : ProxyState} (es : List ProxyEvent)
    (hrun : Machine.runEvents (fun s e => s.step env e) s es = some s') :
    s'.Followed env (past ++ es) := by
  induction es generalizing s past with
  | nil =>
    obtain rfl := Option.some.inj hrun
    rwa [List.append_nil]
  | cons e es ih =>
    obtain ⟨s₁, hstep, hrest⟩ := Option.bind_eq_some_iff.mp hrun
    have h₁ : s₁.Followed env (past ++ [e]) :=
      ⟨h.accounted.step hstep, h.traced.step hstep, h.cancelable.step hdistinct h.accounted hstep⟩
    have hall := ih h₁ hrest
    rwa [List.append_assoc] at hall

/-- The peers attempted, in the order of the attempts. -/
def attempted (env : ProxyEnv) (s : ProxyState) : List Address :=
  s.started.filterMap fun i => env.peers[i]?

theorem filterMap_range_getElem? {α : Type} (l : List α) (n : ℕ) :
    (List.range n).filterMap (fun i => l[i]?) = l.take n := by
  induction n with
  | zero => rfl
  | succ n ih =>
    rw [List.range_succ, List.filterMap_append, ih, List.take_add_one]
    congr 1

/-- Peers are attempted in the order of the list, and some may be left out. -/
theorem Books.attempted_sublist {rounds : ℕ} (h : s.Books env rounds) :
    (s.attempted env).Sublist env.peers := by
  rw [attempted, h.started]
  refine (List.filter_sublist.filterMap _).trans ?_
  rw [filterMap_range_getElem?]
  exact List.take_sublist _ _

/-- Giving up means that nothing is left to try, and nothing to wait for. -/
theorem Accounted.started_failed (h : s.Accounted env) (hres : s.result = some .noAvailablePeers) :
    (∀ i < env.peers.length, i ∈ s.started ∨ env.builds i = false) ∧
      ∀ i ∈ s.started, i ∈ s.failed := by
  obtain ⟨hge, hzero⟩ := h.noPeers hres
  constructor
  · intro i hi
    rcases hbuild : env.builds i with _ | _
    · exact .inr rfl
    · refine .inl ?_
      rw [h.books.started, List.mem_filter, List.mem_range]
      exact ⟨by omega, hbuild⟩
  · intro i hi
    have hlen := h.books.length
    have hout := h.books.outstanding
    have hrun : s.running = [] := List.length_eq_zero_iff.mp (by omega)
    have hresp : s.responses = [] := List.length_eq_zero_iff.mp (by omega)
    have hmem := h.books.perm.mem_iff.mp hi
    rw [hrun, hresp, hres] at hmem
    simpa [winner] using hmem

end ProxyState

/-- **The attempt protocol.** In every run of a call with distinct peers: the peers are attempted
in the order of the list and each at most once; `outstanding` is the number of attempts started
less the errors consumed; an attempt that is running can report, also after the call returned;
`errNoAvailablePeers` means that every peer was tried, or its request could not be built, and
every attempt reported an error; and a response that is returned is a `200` or `404` that the
attempt it names came back with, when all other attempts are canceled. -/
theorem proxy_attempt_protocol (env : ProxyEnv) (hdistinct : env.peers.Nodup)
    (es : List ProxyEvent) {s : ProxyState}
    (hrun : Machine.runEvents (fun s e => s.step env e) (.start env) es = some s) :
    ((s.attempted env).Sublist env.peers ∧ (s.attempted env).Nodup) ∧
    s.outstanding = (s.started.length : ℤ) - s.failed.length ∧
    (∀ i ∈ s.running, ∀ resp, s.step env (.attemptDone i resp) ≠ none) ∧
    (s.result = some .noAvailablePeers →
      (∀ i < env.peers.length, i ∈ s.started ∨ env.builds i = false) ∧
      ∀ i ∈ s.started, ∃ resp err, .attemptDone i resp ∈ es ∧ proxyAttempt resp = .error err) ∧
    ∀ resp i, s.result = some (.response resp i) →
      (resp.status = 200 ∨ resp.status = 404) ∧ .attemptDone i (some resp) ∈ es ∧
      ∀ j ∈ s.started, j ≠ i → j ∈ s.canceled := by
  have hall := (ProxyState.followed_start hdistinct).run hdistinct es hrun
  rw [List.nil_append] at hall
  have hsub := hall.accounted.books.attempted_sublist
  refine ⟨⟨hsub, hdistinct.sublist hsub⟩, hall.accounted.books.outstanding, ?_, ?_, ?_⟩
  · intro i hi resp
    obtain ⟨s', hstep, -⟩ := hall.accounted.attemptDone_enabled hi resp
    rw [hstep]
    exact Option.some_ne_none _
  · intro hres
    obtain ⟨htried, hfailed⟩ := hall.accounted.started_failed hres
    exact ⟨htried, fun i hi => hall.traced.failed i (hfailed i hi)⟩
  · intro resp i hres
    obtain ⟨hmem, hgood⟩ := hall.traced.result resp i hres
    exact ⟨hgood, hmem, hall.cancelable.others resp i hres⟩

/-- Two peers, of which the first is slow and the second answers. -/
theorem proxy_attempt_protocol_slow :
    ∃ s : ProxyState, s.result = some (.response ⟨200, none, none, none, none, [7]⟩ 1) ∧
      ∀ j ∈ s.started, j ≠ 1 → j ∈ s.canceled :=
  ⟨_, rfl, ((proxy_attempt_protocol ⟨[[97], [98]], fun _ => true⟩ (by decide)
    [.stageTimeout, .attemptDone 1 (some ⟨200, none, none, none, none, [7]⟩), .receive]
    rfl).2.2.2.2 _ _ rfl).2.2⟩

end Sequins
