import Sequins.OneWatcher

/-!
# Shutting the watcher down

`close` takes the watcher's lock, sends a value to `run`, and closes the connection, all while it
holds the lock. `run` takes the value in either of its selects. But everything that asks ZooKeeper
something takes the lock too: `reconnect` for itself, the hooks and the goroutines that read a list
again to share it. So when `close` has the lock and `run` is not at a select, whether it will come
to one depends on what stands before it.

`close_returns_iff` says when it does, for the runs of `Watcher.InOrder`. If the timer was up
already, or `runHooks` has an ephemeral node to create or has `hooksLock` and a node to watch, or
`cancelWatches` waits for a goroutine that is about to read its list again, or `run` waits for
`hooksLock` and its holder waits for the lock, then `close` never returns (`Stuck`).

The machine is that of `watcherMachine`, with the lock, and with `run` held up where it waits for
one of the two locks.
-/

namespace Sequins

/-- Where a call of `close` stands. -/
inductive CloseStage where
  /-- before the call -/
  | notCalled
  /-- it has the lock, and sends on `shutdown` -/
  | sending
  /-- it has returned -/
  | returned
  deriving DecidableEq, Repr

/-- Where `run` stands between two events of the watcher. -/
inductive RunPhase where
  /-- where the watcher says -/
  | loop
  /-- it has taken an error, and waits for `hooksLock` in `cancelWatches` -/
  | gotError
  /-- the timer is up, and it waits for the lock in `reconnect` -/
  | dials
  /-- it has taken the value from `close`, and waits for `hooksLock` in `cancelWatches` -/
  | stops
  deriving DecidableEq, Repr

/-- A watcher with its locks. -/
structure ClosingWatcher where
  /-- the watcher -/
  w : Watcher
  /-- `ephemeralNodes` -/
  ephemeralNodes : Finset Bytes
  /-- `run` -/
  phase : RunPhase
  /-- `close` -/
  close : CloseStage
  /-- a caller has `hooksLock` and waits for the lock -/
  blocked : Bool

/-- What can happen. -/
inductive CloseEvent where
  /-- something happens to the watcher, other than what is below -/
  | watcher (e : WatcherEvent)
  /-- `createEphemeral`, which succeeds or not -/
  | createEphemeral (node : Bytes) (ok : Bool)
  /-- `removeEphemeral` -/
  | removeEphemeral (node : Bytes)
  /-- `watchChildren`, `createEphemeral` or `removeEphemeral` is called, and takes `hooksLock`
  while `close` has the lock -/
  | block
  /-- that caller has got the lock, and gives both back -/
  | unblock
  /-- `run` takes an error -/
  | takeError
  /-- `cancelWatches` takes `hooksLock`; `again` if another error has come since -/
  | cancelWatches (order : IterOrder (Σ _ : Bytes, ℕ)) (again : Bool)
  /-- the timer is up -/
  | timer
  /-- `reconnect` takes the lock, and returns -/
  | reconnect (result : Reconnect)
  /-- `close` is called, and takes the lock -/
  | close
  /-- `run` takes the value that `close` sends, and `close` returns -/
  | receive
  /-- `cancelWatches` takes `hooksLock` for the last time -/
  | stop (order : IterOrder (Σ _ : Bytes, ℕ))

namespace ClosingWatcher

/-- A watcher that has just connected. -/
def new : ClosingWatcher := ⟨.new, ∅, .loop, .notCalled, false⟩

/-- Neither lock keeps the watcher from it. Where `runHooks` has no ephemeral node to create, it
needs no lock there and cannot fail. -/
def allowed (s : ClosingWatcher) : WatcherEvent → Bool
  | .watchChildren .. => s.close ≠ .sending && !s.blocked
  | .removeWatch _ => !s.blocked
  | .reread .. => s.close ≠ .sending
  | .runHooks => !s.blocked
  | .ephemerals ok _ => if s.ephemeralNodes = ∅ then ok else s.close ≠ .sending
  | .hook _ => s.close ≠ .sending
  | .takeError _ => false
  | .shutdown _ => false
  | .reconnect _ => false
  | _ => true

/-- Both locks are free. -/
def free (s : ClosingWatcher) : Bool := s.w.run.unlocked && !s.blocked && s.close ≠ .sending

/-- One event. -/
def act (s : ClosingWatcher) : CloseEvent → Option ClosingWatcher
  | .watcher e => if s.allowed e then (s.w.act e).map fun w => { s with w := w } else none
  | .createEphemeral node ok =>
    if s.free then
      some { s with
        w := { s.w with errs := s.w.errs || !ok }
        ephemeralNodes := insert node s.ephemeralNodes }
    else
      none
  | .removeEphemeral node =>
    if s.free then some { s with ephemeralNodes := s.ephemeralNodes.erase node } else none
  | .block =>
    if s.close = .sending ∧ s.w.run.unlocked ∧ s.blocked = false then
      some { s with blocked := true }
    else
      none
  | .unblock =>
    if s.close ≠ .sending ∧ s.blocked = true then some { s with blocked := false } else none
  | .takeError =>
    if s.phase = .loop ∧ s.w.run = .select ∧ s.w.errs = true then
      some { s with phase := .gotError }
    else
      none
  | .cancelWatches order again =>
    if s.phase = .gotError ∧ s.blocked = false then
      (s.w.act (.takeError order)).map fun w =>
        { s with w := { w with errs := again }, phase := .loop }
    else
      none
  | .timer =>
    if s.phase = .loop ∧ s.w.run = .waiting then some { s with phase := .dials } else none
  | .reconnect result =>
    if s.phase = .dials ∧ s.close ≠ .sending then
      (s.w.act (.reconnect result)).map fun w => { s with w := w, phase := .loop }
    else
      none
  | .close => if s.close = .notCalled then some { s with close := .sending } else none
  | .receive =>
    if s.close = .sending ∧ s.phase = .loop ∧ (s.w.run = .select ∨ s.w.run = .waiting) then
      some { s with close := .returned, phase := .stops }
    else
      none
  | .stop order =>
    if s.phase = .stops ∧ s.blocked = false then
      (s.w.act (.shutdown order)).map fun w => { s with w := w, phase := .loop }
    else
      none

/-- A panic ends everything. -/
def step (s : ClosingWatcher) (e : CloseEvent) : Option ClosingWatcher :=
  if s.w.panicked then none else s.act e

/-- The watcher keeps to its order. -/
def InOrder (s : ClosingWatcher) : CloseEvent → Prop
  | .watcher e => s.w.InOrder e
  | .stop order => s.w.InOrder (.shutdown order)
  | _ => True

instance (s : ClosingWatcher) : DecidablePred s.InOrder
  | .watcher e => inferInstanceAs (Decidable (s.w.InOrder e))
  | .stop order => inferInstanceAs (Decidable (s.w.InOrder (.shutdown order)))
  | .createEphemeral .. | .removeEphemeral _ | .block | .unblock | .takeError | .cancelWatches ..
  | .timer | .reconnect _ | .close | .receive => isTrue trivial

end ClosingWatcher

/-- Every interleaving on one watcher that may be closed. -/
def closingMachine : Machine ClosingWatcher CloseEvent := .ofStep .new ClosingWatcher.step

namespace ClosingWatcher

variable {s s' : ClosingWatcher}

/-! ## What they can do -/

/-- The events, with their conditions. -/
inductive Acts (s : ClosingWatcher) : CloseEvent → ClosingWatcher → Prop
  | watcher {e : WatcherEvent} {w : Watcher} (hallowed : s.allowed e) (hact : s.w.act e = some w) :
      Acts s (.watcher e) { s with w := w }
  | createEphemeral {node : Bytes} {ok : Bool} (hfree : s.free) :
      Acts s (.createEphemeral node ok) { s with
        w := { s.w with errs := s.w.errs || !ok }
        ephemeralNodes := insert node s.ephemeralNodes }
  | removeEphemeral {node : Bytes} (hfree : s.free) :
      Acts s (.removeEphemeral node) { s with ephemeralNodes := s.ephemeralNodes.erase node }
  | block (hclose : s.close = .sending) : Acts s .block { s with blocked := true }
  | unblock (hclose : s.close ≠ .sending) : Acts s .unblock { s with blocked := false }
  | takeError (hphase : s.phase = .loop) (hrun : s.w.run = .select) (herrs : s.w.errs = true) :
      Acts s .takeError { s with phase := .gotError }
  | cancelWatches {order : IterOrder (Σ _ : Bytes, ℕ)} {again : Bool} {w : Watcher}
      (hphase : s.phase = .gotError) (hblocked : s.blocked = false)
      (hact : s.w.act (.takeError order) = some w) :
      Acts s (.cancelWatches order again) { s with w := { w with errs := again }, phase := .loop }
  | timer (hphase : s.phase = .loop) (hrun : s.w.run = .waiting) :
      Acts s .timer { s with phase := .dials }
  | reconnect {result : Reconnect} {w : Watcher} (hphase : s.phase = .dials)
      (hclose : s.close ≠ .sending) (hact : s.w.act (.reconnect result) = some w) :
      Acts s (.reconnect result) { s with w := w, phase := .loop }
  | close (hclose : s.close = .notCalled) : Acts s .close { s with close := .sending }
  | receive (hclose : s.close = .sending) (hphase : s.phase = .loop)
      (hrun : s.w.run = .select ∨ s.w.run = .waiting) :
      Acts s .receive { s with close := .returned, phase := .stops }
  | stop {order : IterOrder (Σ _ : Bytes, ℕ)} {w : Watcher} (hphase : s.phase = .stops)
      (hact : s.w.act (.shutdown order) = some w) :
      Acts s (.stop order) { s with w := w, phase := .loop }

theorem acts_of_step {e : CloseEvent} (hs : s.step e = some s') : Acts s e s' := by
  rw [step] at hs
  split at hs
  · cases hs
  cases e with
  | watcher e =>
    rw [act] at hs
    split_ifs at hs with hallowed
    obtain ⟨w, hw, rfl⟩ := Option.map_eq_some_iff.mp hs
    exact .watcher hallowed hw
  | createEphemeral node ok =>
    rw [act] at hs
    split_ifs at hs with hfree
    exact Option.some.inj hs ▸ .createEphemeral hfree
  | removeEphemeral node =>
    rw [act] at hs
    split_ifs at hs with hfree
    exact Option.some.inj hs ▸ .removeEphemeral hfree
  | block =>
    rw [act] at hs
    split_ifs at hs with hblock
    exact Option.some.inj hs ▸ .block hblock.1
  | unblock =>
    rw [act] at hs
    split_ifs at hs with hunblock
    exact Option.some.inj hs ▸ .unblock hunblock.1
  | takeError =>
    rw [act] at hs
    split_ifs at hs with herror
    exact Option.some.inj hs ▸ .takeError herror.1 herror.2.1 herror.2.2
  | cancelWatches order again =>
    rw [act] at hs
    split_ifs at hs with hcancel
    obtain ⟨w, hw, rfl⟩ := Option.map_eq_some_iff.mp hs
    exact .cancelWatches hcancel.1 hcancel.2 hw
  | timer =>
    rw [act] at hs
    split_ifs at hs with htimer
    exact Option.some.inj hs ▸ .timer htimer.1 htimer.2
  | reconnect result =>
    rw [act] at hs
    split_ifs at hs with hdials
    obtain ⟨w, hw, rfl⟩ := Option.map_eq_some_iff.mp hs
    exact .reconnect hdials.1 hdials.2 hw
  | close =>
    rw [act] at hs
    split_ifs at hs with hclose
    exact Option.some.inj hs ▸ .close hclose
  | receive =>
    rw [act] at hs
    split_ifs at hs with hreceive
    exact Option.some.inj hs ▸ .receive hreceive.1 hreceive.2.1 hreceive.2.2
  | stop order =>
    rw [act] at hs
    split_ifs at hs with hstop
    obtain ⟨w, hw, rfl⟩ := Option.map_eq_some_iff.mp hs
    exact .stop hstop.1 hw

/-- **The watcher in it is a watcher.** -/
theorem reachable_watcher (h : (closingMachine.restrict InOrder).Reachable s) :
    (watcherMachine.restrict Watcher.InOrder).Reachable s.w := by
  induction h with
  | start hs =>
    rw [show _ = new from hs]
    exact .start rfl
  | @step s s' e _ hs ih =>
    obtain ⟨hin, hs⟩ := hs
    change s.step e = some s' at hs
    have hpanicked : s.w.panicked ≠ true := by
      intro hpanicked
      rw [step, if_pos hpanicked] at hs
      cases hs
    have hgoes : ∀ {e : WatcherEvent} {w : Watcher}, s.w.InOrder e → s.w.act e = some w →
        (watcherMachine.restrict Watcher.InOrder).Reachable w := fun hin hact =>
      .step ih ⟨hin, (if_neg hpanicked).trans hact⟩
    cases acts_of_step hs with
    | watcher hallowed hact => exact hgoes hin hact
    | @createEphemeral node ok hfree =>
      cases ok with
      | true => simpa using ih
      | false => simpa using hgoes (e := .error) trivial rfl
    | removeEphemeral hfree => exact ih
    | block hclose => exact ih
    | unblock hclose => exact ih
    | takeError hphase hrun herrs => exact ih
    | @cancelWatches order again w hphase hblocked hact =>
      have htaken := hgoes (e := .takeError order) trivial hact
      cases Watcher.moves_of_act hact with
      | takeError hrun =>
        cases again with
        | false => exact htaken
        | true => exact .step (e := .error) htaken ⟨trivial, if_neg hpanicked⟩
    | timer hphase hrun => exact ih
    | @reconnect result w hphase hclose hact => exact hgoes (e := .reconnect result) trivial hact
    | close hclose => exact ih
    | receive hclose hphase hrun => exact ih
    | @stop order w hphase hact => exact hgoes (e := .shutdown order) hin hact

/-! ## Where `run` waits

`run` takes a lock when it reconnects and when it runs its hooks. Between two events of the
watcher it may stand before such a lock, which `watcherMachine` does not show; the phase does. -/

/-- What holds in every run. -/
structure Phased (s : ClosingWatcher) : Prop where
  gotError : s.phase = .gotError → s.w.run = .select ∧ s.w.errs = true
  dials : s.phase = .dials → s.w.run = .waiting
  stops : s.phase = .stops → s.close = .returned
  /-- `run` does not end by itself -/
  final : s.close ≠ .returned → s.w.run ≠ .done ∧ ∀ rest, s.w.run ≠ .cancelling rest true

theorem Phased.new : ClosingWatcher.new.Phased where
  gotError := nofun
  dials := nofun
  stops := nofun
  final := fun _ => ⟨nofun, nofun⟩

/-- In a select, `run` stays there whatever happens to the watcher. -/
theorem run_of_allowed {e : WatcherEvent} {w : Watcher} (hallowed : s.allowed e)
    (hact : s.w.act e = some w) (hrun : s.w.run = .select ∨ s.w.run = .waiting) :
    w.run = s.w.run ∧ (s.w.errs = true → w.errs = true) := by
  have hnot : ∀ {r : RunStage}, s.w.run = r → r = .select ∨ r = .waiting := fun hr => hr ▸ hrun
  cases Watcher.moves_of_act hact with
  | watchChildren => exact ⟨rfl, fun herr => by simp [herr]⟩
  | removeNone => exact ⟨rfl, id⟩
  | remove => exact ⟨rfl, id⟩
  | error => exact ⟨rfl, fun _ => rfl⟩
  | deliver => exact ⟨rfl, id⟩
  | panics => exact ⟨rfl, id⟩
  | event => exact ⟨rfl, id⟩
  | badEvent => exact ⟨rfl, fun _ => rfl⟩
  | reread => exact ⟨rfl, id⟩
  | rereadFails => exact ⟨rfl, fun _ => rfl⟩
  | canceled => exact ⟨rfl, id⟩
  | closeChannels => exact ⟨rfl, id⟩
  | takeError => cases hallowed
  | shutdown => cases hallowed
  | cancel hr => simpa using hnot hr
  | cancelled hr => simpa using hnot hr
  | refused => cases hallowed
  | broken => cases hallowed
  | reconnected => cases hallowed
  | runHooks hr => simpa using hnot hr
  | ephemerals hr => simpa using hnot hr
  | ephemeralsFail hr => simpa using hnot hr
  | hook hr => simpa using hnot hr
  | hookFails hr => simpa using hnot hr
  | hooked hr => simpa using hnot hr

/-- Nothing but `close` makes `run` end. -/
theorem final_of_allowed {e : WatcherEvent} {w : Watcher} (hallowed : s.allowed e)
    (hact : s.w.act e = some w)
    (hfinal : s.w.run ≠ .done ∧ ∀ rest, s.w.run ≠ .cancelling rest true) :
    w.run ≠ .done ∧ ∀ rest, w.run ≠ .cancelling rest true := by
  cases Watcher.moves_of_act hact with
  | takeError => cases hallowed
  | shutdown => cases hallowed
  | refused => cases hallowed
  | broken => cases hallowed
  | reconnected => cases hallowed
  | @cancel g rest final hr =>
    have hnot : final ≠ true := fun hf => hfinal.2 _ (hf ▸ hr)
    simpa using hnot
  | @cancelled final hr =>
    have hnot : final ≠ true := fun hf => hfinal.2 _ (hf ▸ hr)
    simp [hnot]
  | runHooks => simp
  | ephemerals => simp
  | ephemeralsFail => simp
  | hook => simp
  | hookFails => simp
  | hooked => simp
  | _ => exact hfinal

theorem Phased.step (h : s.Phased) {e : CloseEvent} (hs : Acts s e s') : s'.Phased := by
  cases hs with
  | watcher hallowed hact =>
    refine ⟨fun hphase => ?_, fun hphase => ?_, h.stops, fun hclose => ?_⟩
    · obtain ⟨hrun, herrs⟩ := h.gotError hphase
      obtain ⟨hsame, hkept⟩ := run_of_allowed hallowed hact (.inl hrun)
      exact ⟨hsame.trans hrun, hkept herrs⟩
    · exact (run_of_allowed hallowed hact (.inr (h.dials hphase))).1.trans (h.dials hphase)
    · exact final_of_allowed hallowed hact (h.final hclose)
  | createEphemeral hfree =>
    exact ⟨fun hphase => ⟨(h.gotError hphase).1, by simp [(h.gotError hphase).2]⟩, h.dials, h.stops,
      h.final⟩
  | removeEphemeral hfree => exact ⟨h.gotError, h.dials, h.stops, h.final⟩
  | block hclose => exact ⟨h.gotError, h.dials, h.stops, h.final⟩
  | unblock hclose => exact ⟨h.gotError, h.dials, h.stops, h.final⟩
  | takeError hphase hrun herrs =>
    exact ⟨fun _ => ⟨hrun, herrs⟩, nofun, nofun, h.final⟩
  | cancelWatches hphase hblocked hact =>
    refine ⟨nofun, nofun, nofun, fun _ => ?_⟩
    cases Watcher.moves_of_act hact with
    | takeError => simp
  | timer hphase hrun =>
    exact ⟨nofun, fun _ => hrun, nofun, h.final⟩
  | reconnect hphase hclose hact =>
    refine ⟨nofun, nofun, nofun, fun hreturned => ?_⟩
    cases Watcher.moves_of_act hact with
    | refused => exact h.final hreturned
    | broken => exact h.final hreturned
    | reconnected => simp
  | close hclose =>
    refine ⟨h.gotError, h.dials, fun hphase => ?_, fun _ => h.final (by rw [hclose]; simp)⟩
    cases hclose.symm.trans (h.stops hphase)
  | receive hclose hphase hrun =>
    exact ⟨nofun, nofun, fun _ => rfl, fun h => absurd rfl h⟩
  | stop hphase hact =>
    exact ⟨nofun, nofun, nofun,
      fun hreturned => absurd (h.stops hphase) hreturned⟩

theorem phased_of_reachable (h : closingMachine.Reachable s) : s.Phased := by
  refine h.invariant (P := Phased) (fun s hs => ?_) (fun s e s' _ hphased hs => ?_)
  · rw [show s = new from hs]
    exact .new
  · exact hphased.step (acts_of_step hs)

/-! ## Where `close` waits forever

`Stuck` lists what can stand between `run` and its next select while `close` has the lock. Each
of these is kept by everything that can still happen, as all that could end it needs the lock. -/

/-- What keeps `run` from its selects while `close` has the lock. -/
inductive Stuck (s : ClosingWatcher) : Prop
  /-- it waits for the lock itself -/
  | dials (hphase : s.phase = .dials)
  /-- it waits for `hooksLock`, and its holder for the lock -/
  | gotError (hphase : s.phase = .gotError) (hblocked : s.blocked = true)
  /-- the same, or it will wait for the lock to create an ephemeral node -/
  | connected (hphase : s.phase = .loop) (hrun : s.w.run = .connected)
      (hwaits : s.blocked = true ∨ s.ephemeralNodes ≠ ∅)
  /-- it waits for the lock to create an ephemeral node, or will to watch a node -/
  | ephemerals (hphase : s.phase = .loop) (hrun : s.w.run = .ephemerals)
      (hwaits : s.ephemeralNodes ≠ ∅ ∨ ∃ wn, s.w.Watches wn)
  /-- it waits for the lock to watch a node -/
  | hooks (hphase : s.phase = .loop) {started : List ℕ} {wn : ℕ} {rest : List ℕ}
      (hrun : s.w.run = .hooks started (wn :: rest))
  /-- it waits for a goroutine, which waits for the lock to read its list again -/
  | cancelling (hphase : s.phase = .loop) {rest : List ℕ} {final : Bool}
      (hrun : s.w.run = .cancelling rest final) {g : Goroutine} (hg : g ∈ s.w.goroutines)
      (hmem : g.wn ∈ rest) (hstage : g.stage = .reread) (hone : s.w.serving g.wn ≤ 1)

theorem receives_of_cancel {w w' : Watcher} {g : Goroutine} (h : w.act (.cancel g) = some w') :
    g.stage.receives = true := by
  rw [Watcher.act] at h
  split at h
  · split_ifs at h with hg
    exact hg.2.1
  · cases h

/-- A goroutine stays where it is if another one goes on. -/
theorem stays_of_goesOn {w : Watcher} {g g' : Goroutine} (hg : g ∈ w.goroutines)
    (hg' : g' ∈ w.goroutines) (hone : w.serving g.wn ≤ 1) (hstage : g'.stage ≠ g.stage)
    (next : Option WatchStage) :
    g ∈ (w.goesOn g' next).goroutines ∧ (w.goesOn g' next).serving g.wn ≤ 1 := by
  have hne : g ≠ g' := fun heq => hstage (heq ▸ rfl)
  exact ⟨List.mem_append_right _ ((List.mem_erase_of_ne hne).mpr hg),
    (Watcher.serving_goesOn_le hg' next _).trans hone⟩

/-- What the watcher can do while `close` has the lock. -/
inductive Goes (s : ClosingWatcher) (w : Watcher) : Prop
  /-- `run` does nothing -/
  | same (hrun : w.run = s.w.run)
      (hnodes : s.w.run.unlocked = false → w.watchedNodes = s.w.watchedNodes)
      (hstays : ∀ g ∈ s.w.goroutines, g.stage = .reread → s.w.serving g.wn ≤ 1 →
        g ∈ w.goroutines ∧ w.serving g.wn ≤ 1)
  /-- `cancelWatches` gets rid of a value -/
  | cancel {g : Goroutine} {rest : List ℕ} {final : Bool}
      (hrun : s.w.run = .cancelling (g.wn :: rest) final) (hg : g ∈ s.w.goroutines)
      (hreceives : g.stage.receives = true)
      (hw : w = { s.w.goesOn g none with run := .cancelling rest final })
  /-- it returns -/
  | cancelled {final : Bool} (hrun : s.w.run = .cancelling [] final)
  /-- `runHooks` begins -/
  | runHooks (hrun : s.w.run = .connected) (hblocked : s.blocked = false)
      (hw : w.run = .ephemerals)
  /-- it has no ephemeral node to create -/
  | ephemerals {order : IterOrder (Σ _ : Bytes, ℕ)} (hrun : s.w.run = .ephemerals)
      (hnone : s.ephemeralNodes = ∅) (hw : w.run = .hooks [] (s.w.watched order))
  /-- it returns -/
  | hooked {started : List ℕ} (hrun : s.w.run = .hooks started [])

/-- Nothing that needs the lock happens. -/
theorem goes_of_allowed (hclose : s.close = .sending) {e : WatcherEvent} {w : Watcher}
    (hallowed : s.allowed e) (hact : s.w.act e = some w) : Goes s w := by
  -- a goroutine at another stage leaves those that wait for the lock alone
  have hother : ∀ {g' : Goroutine} (next : Option WatchStage), g' ∈ s.w.goroutines →
      g'.stage ≠ .reread → ∀ g ∈ s.w.goroutines, g.stage = .reread → s.w.serving g.wn ≤ 1 →
      g ∈ (s.w.goesOn g' next).goroutines ∧ (s.w.goesOn g' next).serving g.wn ≤ 1 :=
    fun next hg' hstage' g hg hstage hone => stays_of_goesOn hg hg' hone (hstage ▸ hstage') next
  have hnolock : decide (s.close ≠ .sending) = false := by simp [hclose]
  cases Watcher.moves_of_act hact with
  | watchChildren => simp [allowed, hnolock] at hallowed
  | removeNone => exact .same rfl (fun _ => rfl) (fun g hg _ hone => ⟨hg, hone⟩)
  | remove hrun =>
    exact .same rfl (fun hlocked => by rw [hlocked] at hrun; cases hrun)
      (fun g hg _ hone => ⟨hg, hone⟩)
  | error => exact .same rfl (fun _ => rfl) (fun g hg _ hone => ⟨hg, hone⟩)
  | deliver hg => exact .same rfl (fun _ => rfl) (hother _ hg (by simp))
  | panics => exact .same rfl (fun _ => rfl) (fun g hg _ hone => ⟨hg, hone⟩)
  | event hg hstage => exact .same rfl (fun _ => rfl) (hother _ hg (by simp [hstage]))
  | badEvent hg hstage => exact .same rfl (fun _ => rfl) (hother _ hg (by simp [hstage]))
  | reread => simp [allowed, hnolock] at hallowed
  | rereadFails => simp [allowed, hnolock] at hallowed
  | canceled hg hstage =>
    refine .same rfl (fun _ => rfl) (hother _ hg fun hreread => ?_)
    rw [hreread] at hstage
    cases hstage
  | closeChannels hg hstage => exact .same rfl (fun _ => rfl) (hother _ hg (by simp [hstage]))
  | takeError => cases hallowed
  | shutdown => cases hallowed
  | cancel hrun hg => exact .cancel hrun hg (receives_of_cancel hact) rfl
  | cancelled hrun => exact .cancelled hrun
  | refused => cases hallowed
  | broken => cases hallowed
  | reconnected => cases hallowed
  | runHooks hrun => exact .runHooks hrun (by simpa [allowed] using hallowed) rfl
  | ephemerals hrun =>
    have hnone : s.ephemeralNodes = ∅ := by simpa [allowed, hnolock] using hallowed
    exact .ephemerals hrun hnone rfl
  | ephemeralsFail => simp [allowed, hnolock] at hallowed
  | hook => simp [allowed, hnolock] at hallowed
  | hookFails => simp [allowed, hnolock] at hallowed
  | hooked hrun => exact .hooked hrun

/-- Whatever happens to the watcher, `run` stays stuck. -/
theorem Stuck.watcher (h : s.Stuck) {w : Watcher} (hgoes : Goes s w) : Stuck { s with w := w } := by
  cases h with
  | dials hphase => exact .dials hphase
  | gotError hphase hblocked => exact .gotError hphase hblocked
  | connected hphase hrun hwaits =>
    cases hgoes with
    | same hsame => exact .connected hphase (hsame.trans hrun) hwaits
    | runHooks _ hblocked hw =>
      exact .ephemerals hphase hw (.inl (hwaits.resolve_left (by simp [hblocked])))
    | cancel hr => cases hr.symm.trans hrun
    | cancelled hr => cases hr.symm.trans hrun
    | ephemerals hr => cases hr.symm.trans hrun
    | hooked hr => cases hr.symm.trans hrun
  | ephemerals hphase hrun hwaits =>
    cases hgoes with
    | same hsame hnodes =>
      have hkept : w.watchedNodes = s.w.watchedNodes := hnodes (by rw [hrun]; rfl)
      exact .ephemerals hphase (hsame.trans hrun) (hwaits.imp_right fun ⟨wn, node, hnode⟩ =>
        ⟨wn, node, hkept ▸ hnode⟩)
    | @ephemerals order _ hnone hw =>
      obtain ⟨wn, hwatches⟩ := hwaits.resolve_left (not_not.mpr hnone)
      cases hrest : s.w.watched order with
      | nil =>
        have hmem := (Watcher.mem_watched order).mpr hwatches
        rw [hrest] at hmem
        cases hmem
      | cons wn' rest => exact .hooks hphase (hw.trans (by rw [hrest]))
    | cancel hr => cases hr.symm.trans hrun
    | cancelled hr => cases hr.symm.trans hrun
    | runHooks hr => cases hr.symm.trans hrun
    | hooked hr => cases hr.symm.trans hrun
  | hooks hphase hrun =>
    cases hgoes with
    | same hsame => exact .hooks hphase (hsame.trans hrun)
    | cancel hr => cases hr.symm.trans hrun
    | cancelled hr => cases hr.symm.trans hrun
    | runHooks hr => cases hr.symm.trans hrun
    | ephemerals hr => cases hr.symm.trans hrun
    | hooked hr => cases hr.symm.trans hrun
  | @cancelling hphase rest final hrun g hg hmem hstage hone =>
    cases hgoes with
    | same hsame _ hstays =>
      obtain ⟨hg, hone⟩ := hstays g hg hstage hone
      exact .cancelling hphase (hsame.trans hrun) hg hmem hstage hone
    | @cancel g' rest' final' hr hg' hreceives hw =>
      obtain ⟨rfl, rfl⟩ : g'.wn :: rest' = rest ∧ final' = final := by
        simpa using hr.symm.trans hrun
      have hstage' : g'.stage ≠ g.stage := by
        intro heq
        rw [heq, hstage] at hreceives
        cases hreceives
      have hne : g.wn ≠ g'.wn := by
        intro heq
        exact hstage' (congrArg _ (Watcher.eq_of_serving_le hone hg' hg heq.symm rfl))
      obtain ⟨hg, hone⟩ := stays_of_goesOn hg hg' hone hstage' none
      subst hw
      exact .cancelling hphase rfl hg ((List.mem_cons.mp hmem).resolve_left hne) hstage hone
    | cancelled hr =>
      obtain ⟨rfl, -⟩ : [] = rest ∧ _ = final := by simpa using hr.symm.trans hrun
      cases hmem
    | runHooks hr => cases hr.symm.trans hrun
    | ephemerals hr => cases hr.symm.trans hrun
    | hooked hr => cases hr.symm.trans hrun

/-- `run` is not at a select. -/
theorem Stuck.not_selecting (h : s.Stuck) (hphase : s.phase = .loop)
    (hrun : s.w.run = .select ∨ s.w.run = .waiting) : False := by
  have hnot : ∀ {r : RunStage}, s.w.run = r → r = .select ∨ r = .waiting := fun hr => hr ▸ hrun
  cases h with
  | dials hp => cases hp.symm.trans hphase
  | gotError hp => cases hp.symm.trans hphase
  | connected _ hr => simpa using hnot hr
  | ephemerals _ hr => simpa using hnot hr
  | hooks _ hr => simpa using hnot hr
  | cancelling _ hr => simpa using hnot hr

/-- The phases in which `run` can be stuck. -/
theorem Stuck.phase_cases (h : s.Stuck) :
    s.phase = .loop ∨ s.phase = .dials ∨ s.phase = .gotError ∧ s.blocked = true := by
  cases h with
  | dials hphase => exact .inr (.inl hphase)
  | gotError hphase hblocked => exact .inr (.inr ⟨hphase, hblocked⟩)
  | connected hphase => exact .inl hphase
  | ephemerals hphase => exact .inl hphase
  | hooks hphase => exact .inl hphase
  | cancelling hphase => exact .inl hphase

/-- **Once stuck, always stuck.** -/
theorem Stuck.step (h : s.Stuck) (hclose : s.close = .sending) {e : CloseEvent}
    (hs : Acts s e s') : s'.Stuck ∧ s'.close = .sending := by
  cases hs with
  | watcher hallowed hact => exact ⟨h.watcher (goes_of_allowed hclose hallowed hact), hclose⟩
  | createEphemeral hfree => simp [free, hclose] at hfree
  | removeEphemeral hfree => simp [free, hclose] at hfree
  | block =>
    refine ⟨?_, hclose⟩
    cases h with
    | dials hphase => exact .dials hphase
    | gotError hphase => exact .gotError hphase rfl
    | connected hphase hrun => exact .connected hphase hrun (.inl rfl)
    | ephemerals hphase hrun hwaits => exact .ephemerals hphase hrun hwaits
    | hooks hphase hrun => exact .hooks hphase hrun
    | cancelling hphase hrun hg hmem hstage hone =>
      exact .cancelling hphase hrun hg hmem hstage hone
  | unblock hnot => exact absurd hclose hnot
  | takeError hphase hrun => exact (h.not_selecting hphase (.inl hrun)).elim
  | cancelWatches hphase hblocked =>
    obtain hp | hp | ⟨-, hstuck⟩ := h.phase_cases
    · cases hp.symm.trans hphase
    · cases hp.symm.trans hphase
    · cases hstuck.symm.trans hblocked
  | timer hphase hrun => exact (h.not_selecting hphase (.inr hrun)).elim
  | reconnect hphase hnot => exact absurd hclose hnot
  | close hnot => cases hnot.symm.trans hclose
  | receive _ hphase hrun => exact (h.not_selecting hphase hrun).elim
  | stop hphase =>
    obtain hp | hp | ⟨hp, -⟩ := h.phase_cases
    · cases hp.symm.trans hphase
    · cases hp.symm.trans hphase
    · cases hp.symm.trans hphase

/-- `close` can still return. -/
def CanReturn (s : ClosingWatcher) : Prop :=
  ∃ es s', Machine.runEvents step s es = some s' ∧ s'.close = .returned

theorem Stuck.not_canReturn (h : s.Stuck) (hclose : s.close = .sending) : ¬ s.CanReturn := by
  rintro ⟨es, s', hrun, hreturned⟩
  induction es generalizing s with
  | nil =>
    obtain rfl := Option.some.inj hrun
    cases hclose.symm.trans hreturned
  | cons e es ih =>
    obtain ⟨s₁, hs, hrun⟩ := Option.bind_eq_some_iff.mp hrun
    obtain ⟨hstuck, hclose⟩ := h.step hclose (acts_of_step hs)
    exact ih hstuck hclose hrun

/-! ## Where `close` returns

The other direction, by a run: from each place that is not stuck, some events lead to a select. -/

theorem step_eq_act (hpanicked : s.w.panicked = false) (e : CloseEvent) : s.step e = s.act e := by
  simp [step, hpanicked]

theorem CanReturn.after {e : CloseEvent} (hpanicked : s.w.panicked = false)
    (hs : s.act e = some s') (h : s'.CanReturn) : s.CanReturn := by
  obtain ⟨es, s'', hrun, hreturned⟩ := h
  have hstep : s.step e = some s' := (step_eq_act hpanicked e).trans hs
  exact ⟨e :: es, s'', Option.bind_eq_some_iff.mpr ⟨s', hstep, hrun⟩, hreturned⟩

section Returns

variable (hpanicked : s.w.panicked = false) (hclose : s.close = .sending)
include hpanicked hclose

/-- `run` takes the value at a select. -/
theorem canReturn_of_selecting (hphase : s.phase = .loop)
    (hrun : s.w.run = .select ∨ s.w.run = .waiting) : s.CanReturn :=
  .after (e := .receive) hpanicked (if_pos ⟨hclose, hphase, hrun⟩) ⟨[], _, rfl, rfl⟩

/-- `runHooks` has nothing left to do. -/
theorem canReturn_of_hooked (hphase : s.phase = .loop) {started : List ℕ}
    (hrun : s.w.run = .hooks started []) : s.CanReturn := by
  refine .after (e := .watcher .hooked) hpanicked ?_
    (canReturn_of_selecting (s := { s with w := { s.w with run := .select } }) hpanicked hclose
      hphase (.inl rfl))
  simp [act, allowed, Watcher.act, hrun]

/-- `runHooks` has no ephemeral node to create, and nothing is watched. -/
theorem canReturn_of_ephemerals (hphase : s.phase = .loop) (hrun : s.w.run = .ephemerals)
    (hnone : s.ephemeralNodes = ∅) (hwatches : s.w.watchedNodes = ∅) : s.CanReturn := by
  have hwatched : s.w.watched (.stored _) = [] := by simp [Watcher.watched, hwatches]
  refine .after (e := .watcher (.ephemerals true (.stored _))) hpanicked ?_
    (canReturn_of_hooked (s := { s with w := { s.w with run := .hooks [] [] } }) hpanicked hclose
      hphase rfl)
  simp [act, allowed, Watcher.act, hrun, hnone, hwatched]

/-- `cancelWatches` has got rid of all values. -/
theorem canReturn_of_cancelled (hphase : s.phase = .loop) (hrun : s.w.run = .cancelling [] false) :
    s.CanReturn := by
  refine .after (e := .watcher .cancelled) hpanicked ?_
    (canReturn_of_selecting (s := { s with w := { s.w with run := .waiting } }) hpanicked hclose
      hphase (.inr rfl))
  simp [act, allowed, Watcher.act, hrun]

/-- Whoever watches something can stop it while `hooksLock` is free. -/
theorem canReturn_of_removed (hunlocked : s.w.run.unlocked) (hblocked : s.blocked = false)
    (hnext : ∀ w : Watcher, w.watchedNodes = ∅ → w.run = s.w.run → w.errs = s.w.errs →
      w.panicked = false → CanReturn { s with w := w }) : s.CanReturn := by
  induction hn : s.w.watchedNodes.keys.length generalizing s with
  | zero =>
    have hnone : s.w.watchedNodes = ∅ := by
      refine AList.ext (List.eq_nil_of_length_eq_zero ?_)
      simpa [AList.keys, List.keys] using hn
    exact hnext s.w hnone rfl rfl hpanicked
  | succ n ih =>
    have hpos : 0 < s.w.watchedNodes.keys.length := by omega
    obtain ⟨node, hnode⟩ := List.exists_mem_of_length_pos hpos
    obtain ⟨wn, hlookup⟩ := Option.isSome_iff_exists.mp (AList.lookup_isSome.mpr hnode)
    have hs : s.act (.watcher (.removeWatch node)) = some { s with w := { s.w with
        watchedNodes := s.w.watchedNodes.erase node, removed := insert wn s.w.removed } } := by
      simp [act, allowed, hblocked, Watcher.act, hunlocked, hlookup]
    refine .after hpanicked hs (ih hpanicked hclose hunlocked hblocked hnext ?_)
    -- keys are compared as they are decided to be equal there
    rw [AList.keys_erase]
    refine (@List.length_erase_of_mem _ instBEqOfDecidableEq _ _ _ hnode).trans ?_
    omega

end Returns

theorem watchedNodes_eq_empty {w : Watcher} (h : ¬ ∃ wn, w.Watches wn) : w.watchedNodes = ∅ := by
  refine AList.ext (List.eq_nil_iff_forall_not_mem.mpr fun ⟨node, wn⟩ hmem => ?_)
  exact h ⟨wn, node, AList.mem_lookup_iff.mpr hmem⟩

/-- `cancelWatches` gets rid of its values if nobody it waits for waits for the lock. -/
theorem canReturn_of_cancelling (h : (closingMachine.restrict InOrder).Reachable s)
    (hpanicked : s.w.panicked = false) (hclose : s.close = .sending) (hphase : s.phase = .loop)
    {rest : List ℕ} (hrun : s.w.run = .cancelling rest false) (hstuck : ¬ s.Stuck) :
    s.CanReturn := by
  induction rest generalizing s with
  | nil => exact canReturn_of_cancelled hpanicked hclose hphase hrun
  | cons wn rest ih =>
    have hwatcher := reachable_watcher h
    have hsound := Watcher.sound_of_reachable hwatcher.of_restrict
    obtain ⟨hpaired, -⟩ := Watcher.paired_of_reachable hwatcher
    have hwatches : s.w.Watches wn := hsound.rest.2 wn (by simp [hrun, RunStage.rest])
    have hpos : 0 < s.w.serving wn := by
      rw [hpaired.serves (by simp [hrun]) wn hwatches]
      simp [hrun, RunStage.serves]
    obtain ⟨g, hg, hwn⟩ := List.countP_pos_iff.mp hpos
    obtain rfl : g.wn = wn := by simpa using hwn
    have hreceives : g.stage.receives := by
      cases hstage : g.stage with
      | closing => exact absurd (hsound.closing g hg hstage) (hsound.watched _ hwatches).2
      | reread =>
        have hmem : g.wn ∈ g.wn :: rest := List.mem_cons_self ..
        exact absurd (.cancelling hphase hrun hg hmem hstage (hpaired.one _)) hstuck
      | _ => rfl
    have hs : s.act (.watcher (.cancel g)) =
        some { s with w := { s.w.goesOn g none with run := .cancelling rest false } } := by
      simp [act, allowed, Watcher.act, hrun, hg, hreceives]
    refine .after hpanicked hs
      (ih (.step (e := .watcher (.cancel g)) h ⟨trivial, ?_⟩) hpanicked hclose hphase rfl ?_)
    · exact (step_eq_act hpanicked _).trans hs
    · rintro (hp | ⟨hp, -⟩ | ⟨-, hr, -⟩ | ⟨-, hr, -⟩ | ⟨-, hr⟩ | ⟨-, hr, hg', hmem, hstage, -⟩)
      · cases hp.symm.trans hphase
      · cases hp.symm.trans hphase
      · cases hr
      · cases hr
      · cases hr
      · obtain ⟨rfl, -⟩ : rest = _ ∧ false = _ := by simpa using hr
        exact hstuck (.cancelling hphase hrun (List.mem_of_mem_erase hg')
          (List.mem_cons_of_mem _ hmem) hstage (hpaired.one _))

end ClosingWatcher

/-- **When `close` returns.** Let `close` have the lock, after any interleaving that keeps to the
order of `one_watcher`. Then it can still return unless `run` is stuck, and if `run` is stuck, it
never does, whatever happens. -/
theorem close_returns_iff {s : ClosingWatcher}
    (h : (closingMachine.restrict ClosingWatcher.InOrder).Reachable s) (hclose : s.close = .sending)
    (hpanicked : s.w.panicked = false) : s.CanReturn ↔ ¬ s.Stuck := by
  refine ⟨fun hreturns hstuck => hstuck.not_canReturn hclose hreturns, fun hstuck => ?_⟩
  have hphased := ClosingWatcher.phased_of_reachable h.of_restrict
  obtain ⟨hnotDone, hnotFinal⟩ := hphased.final (by rw [hclose]; simp)
  cases hphase : s.phase with
  | dials => exact absurd (.dials hphase) hstuck
  | stops => cases hclose.symm.trans (hphased.stops hphase)
  | gotError =>
    obtain ⟨hrun, herrs⟩ := hphased.gotError hphase
    have hblocked : s.blocked = false :=
      Bool.eq_false_iff.mpr fun hblocked => hstuck (.gotError hphase hblocked)
    refine ClosingWatcher.canReturn_of_removed hpanicked hclose (by rw [hrun]; rfl) hblocked ?_
    intro w hnone hr he hp
    refine .after (e := .cancelWatches (.stored _) false) hp ?_
      (ClosingWatcher.canReturn_of_cancelled (s := { s with
        w := { w with errs := false, run := .cancelling [] false }, phase := .loop }) hp hclose rfl
        rfl)
    simp [ClosingWatcher.act, Watcher.act, hphase, hblocked, hr, he, hrun, herrs, Watcher.watched,
      hnone]
  | loop =>
    cases hrun : s.w.run with
    | select => exact ClosingWatcher.canReturn_of_selecting hpanicked hclose hphase (.inl hrun)
    | waiting => exact ClosingWatcher.canReturn_of_selecting hpanicked hclose hphase (.inr hrun)
    | done => exact absurd hrun hnotDone
    | cancelling rest final =>
      cases final with
      | true => exact absurd hrun (hnotFinal rest)
      | false => exact ClosingWatcher.canReturn_of_cancelling h hpanicked hclose hphase hrun hstuck
    | connected =>
      have hblocked : s.blocked = false :=
        Bool.eq_false_iff.mpr fun hblocked => hstuck (.connected hphase hrun (.inl hblocked))
      have hnone : s.ephemeralNodes = ∅ :=
        not_not.mp fun hsome => hstuck (.connected hphase hrun (.inr hsome))
      refine ClosingWatcher.canReturn_of_removed hpanicked hclose (by rw [hrun]; rfl) hblocked ?_
      intro w hnodes hr _ hp
      refine .after (e := .watcher .runHooks) hp ?_
        (ClosingWatcher.canReturn_of_ephemerals (s := { s with w := { w with run := .ephemerals } })
          hp hclose hphase rfl hnone hnodes)
      simp [ClosingWatcher.act, ClosingWatcher.allowed, Watcher.act, hblocked, hr, hrun]
    | ephemerals =>
      have hnone : s.ephemeralNodes = ∅ :=
        not_not.mp fun hsome => hstuck (.ephemerals hphase hrun (.inl hsome))
      have hnodes := ClosingWatcher.watchedNodes_eq_empty fun hwatches =>
        hstuck (.ephemerals hphase hrun (.inr hwatches))
      exact ClosingWatcher.canReturn_of_ephemerals hpanicked hclose hphase hrun hnone hnodes
    | hooks started rest =>
      cases rest with
      | nil => exact ClosingWatcher.canReturn_of_hooked hpanicked hclose hphase hrun
      | cons wn rest => exact absurd (.hooks hphase hrun) hstuck

/-- A watch is lost, and `close` is called when the timer is up. -/
def closedWhileDialing : List CloseEvent :=
  [.createEphemeral [110] true, .watcher (.watchChildren [112] true), .watcher .error, .takeError,
    .cancelWatches (.stored _) false, .watcher (.cancel ⟨0, .offer 0⟩), .watcher .cancelled, .timer,
    .close]

/-- It never returns. -/
theorem close_returns_closedWhileDialing :
    ∃ s, (closingMachine.restrict ClosingWatcher.InOrder).Reachable s ∧ ¬ s.CanReturn :=
  have hreach : (closingMachine.restrict ClosingWatcher.InOrder).Reachable _ :=
    .runGuarded (.start rfl) closedWhileDialing rfl
  ⟨_, hreach, fun hreturns => (close_returns_iff hreach rfl rfl).mp hreturns (.dials rfl)⟩

end Sequins
