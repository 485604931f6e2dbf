import Sequins.OneWatcher

/-!
# What a watcher's readers know

The lists of children that a watcher delivers, over the interleavings of `watcherMachine`. ZooKeeper
tells of a change once for each read: `ChildrenW` returns the children with a channel on which one
event comes when they change, and the next change is only seen after the next read. A session can
expire at any time, and then no event comes any more.

So between a read and the next a list may change many times, and the list that is being offered may
be old. `no_lost_update` says that this does not last. Whenever nothing is left for the watcher to
do, every reader has got the children that the znode has now, whatever changes, expiries and
failed calls there were before.

There is an exception. `childrenW` creates a znode that is not there and asks again, but only so
often (`maxCreateRetries`). If the znode is gone each time, it reports success with neither a list
nor a channel. Its reader then gets an empty list, and hears of no change until the next
reconnect.

The data are kept for each watched node, since it has at most one goroutine (`one_watcher`); hence
the runs are those of `Watcher.InOrder`.
-/

namespace Sequins

/-- What is known of the children of a watched node. -/
structure Known where
  /-- the znode -/
  znode : Bytes
  /-- `children`, as its goroutine has read them last -/
  list : List Bytes
  /-- the channel that came with them, on which an event has come or not; `none` if it is nil -/
  events : Option Bool
  /-- the last list that was taken from `updates` -/
  seen : Option (List Bytes)

/-- A watcher, the znodes it watches, and those who read its lists. -/
structure Observed where
  /-- the watcher -/
  w : Watcher
  /-- the children of each znode -/
  server : Bytes → List Bytes
  /-- the session of the connection is alive -/
  alive : Bool
  /-- the session has expired, and nobody has been told -/
  unreported : Bool
  /-- what is known, for each watched node -/
  known : ℕ → Known

/-- What can happen. -/
inductive ObservedEvent where
  /-- something happens to the watcher; if children are read, `childrenW` may have given up -/
  | watcher (e : WatcherEvent) (gaveUp : Bool)
  /-- the children of a znode change -/
  | change (node : Bytes) (children : List Bytes)
  /-- the session expires -/
  | expire
  /-- the goroutine that `reconnect` has started is told so, and calls `sendErr` -/
  | report

/-- The watcher, or whoever reads its lists, does it of their own accord. -/
def ObservedEvent.internal : ObservedEvent → Bool
  | .watcher (.watchChildren ..) _ => false
  | .watcher (.removeWatch _) _ => false
  | .watcher .error _ => false
  | .watcher (.event _ ok) _ => ok
  | .watcher (.shutdown _) _ => false
  | .watcher _ _ => true
  | .change .. => false
  | .expire => false
  | .report => true

/-- Children are read in it. -/
def WatcherEvent.reads : WatcherEvent → Bool
  | .watchChildren _ ok => ok
  | .reread _ ok => ok
  | .hook ok => ok
  | _ => false

namespace Observed

/-- A watcher that has just connected. -/
def new : Observed where
  w := .new
  server := fun _ => []
  alive := true
  unreported := false
  known := fun _ => ⟨[], [], none, none⟩

/-- What a call of `childrenW` that succeeds returns. After `maxCreateRetries` answers that there is
no such node, there is neither a list nor a channel. -/
def childrenW (s : Observed) (node : Bytes) (gaveUp : Bool) : List Bytes × Option Bool :=
  if gaveUp then ([], none) else (s.server node, some false)

/-- The children of a watched node are read. -/
def read (s : Observed) (wn : ℕ) (gaveUp : Bool) : Observed :=
  { s with
    known := Function.update s.known wn
      { s.known wn with
        list := (s.childrenW (s.known wn).znode gaveUp).1
        events := (s.childrenW (s.known wn).znode gaveUp).2 } }

/-- What is learnt in an event of the watcher. -/
def learn (s : Observed) (gaveUp : Bool) : WatcherEvent → Observed
  | .watchChildren node ok =>
    { s with
      known := Function.update s.known s.w.made
        (if ok then ⟨node, (s.childrenW node gaveUp).1, (s.childrenW node gaveUp).2, none⟩
        else ⟨node, [], none, none⟩) }
  | .deliver g =>
    { s with
      known := Function.update s.known g.wn
        { s.known g.wn with seen := some (s.known g.wn).list } }
  | .reread g true => s.read g.wn gaveUp
  | .hook true =>
    match s.w.run.rest with
    | wn :: _ => s.read wn gaveUp
    | [] => s
  | .reconnect .ok => { s with alive := true, unreported := false }
  | .reconnect .broken => { s with alive := false }
  | _ => s

/-- Calls do not succeed on an expired session, only they can give up, and an event comes from a
channel if the children have changed or something else has happened. -/
def possible (s : Observed) (gaveUp : Bool) (e : WatcherEvent) : Bool :=
  (!e.reads || s.alive) && (!gaveUp || e.reads) &&
    match e with
    | .event g ok => (s.known g.wn).events.any fun fired => !ok || fired
    | _ => true

/-- One event. -/
def step (s : Observed) : ObservedEvent → Option Observed
  | .watcher e gaveUp =>
    if s.possible gaveUp e then (s.w.step e).map fun w => { s.learn gaveUp e with w := w }
    else none
  | .change node children =>
    some { s with
      server := Function.update s.server node children
      known := fun wn => { s.known wn with
        events := (s.known wn).events.map fun fired =>
          fired || (s.alive && decide ((s.known wn).znode = node)) } }
  | .expire => if s.alive then some { s with alive := false, unreported := true } else none
  | .report =>
    if s.unreported then (s.w.step .error).map fun w => { s with w := w, unreported := false }
    else none

/-- Nothing is left to do, until something new happens. -/
def Idle (s : Observed) : Prop := ∀ e : ObservedEvent, e.internal → s.step e = none

/-- The watcher keeps to its order. -/
def InOrder (s : Observed) : ObservedEvent → Prop
  | .watcher e _ => s.w.InOrder e
  | _ => True

instance (s : Observed) : DecidablePred s.InOrder
  | .watcher e _ => inferInstanceAs (Decidable (s.w.InOrder e))
  | .change .. | .expire | .report => isTrue trivial

end Observed

/-- Every interleaving on one watcher, with the znodes it watches. -/
def observedMachine : Machine Observed ObservedEvent := .ofStep .new Observed.step

/-- `run` is on its way to a new connection, or has ended. -/
def RunStage.disconnected : RunStage → Bool
  | .cancelling .. => true
  | .waiting => true
  | .done => true
  | _ => false

/-- The other goroutines are those of other watched nodes. -/
theorem Watcher.ne_of_mem_erase {w : Watcher} {g x : Goroutine} (hone : w.serving g.wn ≤ 1)
    (hg : g ∈ w.goroutines) (hx : x ∈ w.goroutines.erase g) : x.wn ≠ g.wn := by
  intro heq
  have hcount := Watcher.serving_goesOn_none hg g.wn
  rw [if_pos rfl] at hcount
  have hpos : 0 < (w.goesOn g none).serving g.wn :=
    List.countP_pos_iff.mpr ⟨x, hx, by simpa using heq⟩
  omega

namespace Observed

variable {s s' : Observed}

/-! ## What they can do -/

/-- The events, with what the watcher does in them. -/
inductive Happens (s : Observed) : ObservedEvent → Observed → Prop
  | watcher {e : WatcherEvent} {gaveUp : Bool} {w : Watcher} (hpossible : s.possible gaveUp e)
      (hstep : watcherMachine.step s.w e w) :
      Happens s (.watcher e gaveUp) { s.learn gaveUp e with w := w }
  | change {node : Bytes} {children : List Bytes} :
      Happens s (.change node children) { s with
        server := Function.update s.server node children
        known := fun wn => { s.known wn with
          events := (s.known wn).events.map fun fired =>
            fired || (s.alive && decide ((s.known wn).znode = node)) } }
  | expire : Happens s .expire { s with alive := false, unreported := true }
  | report {w : Watcher} (hstep : watcherMachine.step s.w .error w) :
      Happens s .report { s with w := w, unreported := false }

theorem happens_of_step {e : ObservedEvent} (hs : observedMachine.step s e s') :
    Happens s e s' := by
  change s.step e = some s' at hs
  cases e with
  | watcher e gaveUp =>
    rw [step] at hs
    split_ifs at hs with hpossible
    obtain ⟨w, hw, rfl⟩ := Option.map_eq_some_iff.mp hs
    exact .watcher hpossible hw
  | change node children =>
    cases hs
    exact .change
  | expire =>
    rw [step] at hs
    split_ifs at hs
    cases hs
    exact .expire
  | report =>
    rw [step] at hs
    split_ifs at hs
    obtain ⟨w, hw, rfl⟩ := Option.map_eq_some_iff.mp hs
    exact .report hw

/-- **The watcher in it is a watcher.** -/
theorem reachable_watcher (h : (observedMachine.restrict InOrder).Reachable s) :
    (watcherMachine.restrict Watcher.InOrder).Reachable s.w := by
  induction h with
  | start hs =>
    rw [show _ = new from hs]
    exact .start rfl
  | step _ hs ih =>
    obtain ⟨hin, hs⟩ := hs
    cases happens_of_step hs with
    | watcher hpossible hstep => exact .step ih ⟨hin, hstep⟩
    | change => exact ih
    | expire => exact ih
    | report hstep => exact .step (e := .error) ih ⟨trivial, hstep⟩

/-! ## Lists that are up to date

A list that was read may be old when it is delivered, but then its goroutine will read again:
there is an event waiting for it, or an error for `run`. `Serves` says what a goroutine owes at
each of its stages. -/

/-- The list that was read is the list there is, unless an event has come or the session is lost;
there is none if `childrenW` gave up. -/
def UpToDate (s : Observed) (wn : ℕ) : Prop :=
  s.alive = true → (s.known wn).events ≠ some true →
    (s.known wn).list = (s.childrenW (s.known wn).znode (s.known wn).events.isNone).1

/-- The watch will be started again: there is an error that `run` will take, or it is about to
cancel the watch. -/
def WillRestart (s : Observed) (wn : ℕ) : Prop :=
  s.w.errs = true ∨ ∃ rest final, s.w.run = .cancelling rest final ∧ wn ∈ rest

/-- What holds of a goroutine at each of its stages. -/
def Serves (s : Observed) (g : Goroutine) : Prop :=
  match g.stage with
  | .offer _ => s.UpToDate g.wn
  | .await => s.UpToDate g.wn ∧ (s.known g.wn).seen = some (s.known g.wn).list
  | .reread => True
  | .failed => s.WillRestart g.wn
  | .badEvent => s.WillRestart g.wn
  | .placeholder => s.WillRestart g.wn
  | .closing => True

/-- What holds in every run. -/
structure Fresh (s : Observed) : Prop where
  /-- the znode of a watched node -/
  znode : ∀ node wn, s.w.watchedNodes.lookup node = some wn → (s.known wn).znode = node
  /-- the goroutines of what is watched -/
  goroutines : ∀ g ∈ s.w.goroutines, s.w.Watches g.wn → s.Serves g
  /-- an expired session is noticed -/
  lost : s.alive = false →
    s.unreported = true ∨ s.w.errs = true ∨ s.w.run.disconnected = true

/-- What a step leaves to a watched node that it is not about. -/
structure Carries (s s' : Observed) (wn : ℕ) : Prop where
  known : s'.known wn = s.known wn
  server : s'.server = s.server
  alive : s'.alive = true → s.alive = true
  restart : s.WillRestart wn → s'.WillRestart wn

/-- A goroutine that a step is not about owes what it did. -/
theorem Carries.serves {g : Goroutine} (h : Carries s s' g.wn) (hg : s.Serves g) : s'.Serves g := by
  have hdate : s.UpToDate g.wn → s'.UpToDate g.wn := by
    intro hdate halive hfired
    rw [h.known] at hfired ⊢
    rw [childrenW, h.server]
    exact hdate (h.alive halive) hfired
  obtain ⟨wn, stage⟩ := g
  cases stage with
  | offer conn => exact hdate hg
  | await => exact ⟨hdate hg.1, by rw [h.known]; exact hg.2⟩
  | reread => trivial
  | failed => exact h.restart hg
  | badEvent => exact h.restart hg
  | placeholder => exact h.restart hg
  | closing => trivial

theorem read_known (s : Observed) (wn : ℕ) (gaveUp : Bool) :
    (s.read wn gaveUp).known wn =
      { s.known wn with
        list := (s.childrenW (s.known wn).znode gaveUp).1
        events := (s.childrenW (s.known wn).znode gaveUp).2 } :=
  Function.update_self ..

theorem isNone_childrenW (s : Observed) (node : Bytes) (gaveUp : Bool) :
    (s.childrenW node gaveUp).2.isNone = gaveUp := by
  cases gaveUp <;> rfl

theorem upToDate_read (s : Observed) (wn : ℕ) (gaveUp : Bool) : (s.read wn gaveUp).UpToDate wn := by
  intro _ _
  rw [read_known]
  dsimp only
  rw [isNone_childrenW]
  rfl

/-- Taking a list does not make it old. -/
theorem UpToDate.taken {wn : ℕ} (hdate : s.UpToDate wn) (w : Watcher) :
    UpToDate { s with
      w := w
      known := Function.update s.known wn
        { s.known wn with seen := some (s.known wn).list } } wn := by
  intro halive hfired
  simp only [Function.update_self] at hfired ⊢
  exact hdate halive hfired

theorem Fresh.new : Observed.new.Fresh where
  znode := fun _ _ hnode => by cases hnode
  goroutines := fun _ hg => by cases hg
  lost := fun halive => by cases halive

section Steps

variable (h : s.Fresh)
include h

/-- A step that only the run loop takes, apart from the goroutines that it ends. -/
theorem Fresh.run {w : Watcher} (hnodes : ∀ node wn, w.watchedNodes.lookup node = some wn →
      s.w.watchedNodes.lookup node = some wn)
    (hgoroutines : ∀ g ∈ w.goroutines, g ∈ s.w.goroutines)
    (hrestart : ∀ g ∈ w.goroutines, s.w.Watches g.wn → s.WillRestart g.wn →
      WillRestart { s with w := w } g.wn)
    (hlost : s.alive = false →
      s.unreported = true ∨ w.errs = true ∨ w.run.disconnected = true) :
    Fresh { s with w := w } where
  znode := fun node wn hnode => h.znode node wn (hnodes node wn hnode)
  goroutines := by
    rintro g hg ⟨node, hnode⟩
    have hwatches : s.w.Watches g.wn := ⟨node, hnodes node _ hnode⟩
    exact Carries.serves (s := s) ⟨rfl, rfl, id, hrestart g hg hwatches⟩
      (h.goroutines g (hgoroutines g hg) hwatches)
  lost := hlost

/-- A goroutine goes on. -/
theorem Fresh.goes (hone : ∀ wn, s.w.serving wn ≤ 1) {g : Goroutine} (hg : g ∈ s.w.goroutines)
    {stage : WatchStage} {errs : Bool} (herrs : s.w.errs = true → errs = true)
    {deliveries : List (ℕ × ℕ)} (known : ℕ → Known)
    (hknown : ∀ wn, wn ≠ g.wn → known wn = s.known wn)
    (hznode : (known g.wn).znode = (s.known g.wn).znode)
    (hserves : s.w.Watches g.wn → Serves { s with
      w := { s.w.goesOn g (some stage) with errs := errs, deliveries := deliveries }
      known := known } ⟨g.wn, stage⟩) :
    Fresh { s with
      w := { s.w.goesOn g (some stage) with errs := errs, deliveries := deliveries }
      known := known } where
  znode := by
    intro node wn hnode
    have hold := h.znode node wn hnode
    by_cases hwn : wn = g.wn
    · subst hwn
      exact hznode.trans hold
    · exact (congrArg Known.znode (hknown wn hwn)).trans hold
  goroutines := by
    intro x hx hwatches
    obtain hx | hx := Threads.mem_goesOn hx
    · obtain rfl : ⟨g.wn, stage⟩ = x := by simpa using hx
      exact hserves hwatches
    · have hne := Watcher.ne_of_mem_erase (hone _) hg hx
      refine Carries.serves ⟨hknown _ hne, rfl, id, ?_⟩
        (h.goroutines x (List.mem_of_mem_erase hx) hwatches)
      rintro (herr | hcancel)
      · exact .inl (herrs herr)
      · exact .inr hcancel
  lost := by
    intro halive
    rcases h.lost halive with hun | herr | hrun
    · exact .inl hun
    · exact .inr (.inl (herrs herr))
    · exact .inr (.inr hrun)

/-- A goroutine starts, for a watched node that has none. -/
theorem Fresh.starts {wn : ℕ} (hnone : s.w.serving wn = 0) {stage : WatchStage} {w : Watcher}
    (hw : w.goroutines = ⟨wn, stage⟩ :: s.w.goroutines)
    (hnodes : ∀ node m, w.watchedNodes.lookup node = some m → m ≠ wn →
      s.w.watchedNodes.lookup node = some m)
    (herrs : s.w.errs = true → w.errs = true) (hrun : s.w.run.disconnected = true → w.run = s.w.run)
    (known : ℕ → Known) (hknown : ∀ m, m ≠ wn → known m = s.known m)
    (hznode : ∀ node, w.watchedNodes.lookup node = some wn → (known wn).znode = node)
    (hserves : Serves { s with w := w, known := known } ⟨wn, stage⟩) :
    Fresh { s with w := w, known := known } where
  znode := by
    intro node m hnode
    by_cases hm : m = wn
    · subst hm
      exact hznode node hnode
    · exact (congrArg Known.znode (hknown m hm)).trans (h.znode node m (hnodes node m hnode hm))
  goroutines := by
    rintro x hx ⟨node, hnode⟩
    change x ∈ w.goroutines at hx
    rw [hw] at hx
    rcases List.mem_cons.mp hx with rfl | hx
    · exact hserves
    · have hne : x.wn ≠ wn := fun heq =>
        absurd (List.countP_eq_zero.mp hnone x hx) (by simpa using heq)
      refine Carries.serves (s := s) ⟨hknown _ hne, rfl, id, ?_⟩
        (h.goroutines x hx ⟨node, hnodes node _ hnode hne⟩)
      rintro (herr | ⟨rest, final, hcancel, hmem⟩)
      · exact .inl (herrs herr)
      · exact .inr ⟨rest, final, (hrun (by rw [hcancel]; rfl)).trans hcancel, hmem⟩
  lost := by
    intro halive
    rcases h.lost halive with hun | herr | hdis
    · exact .inl hun
    · exact .inr (.inl (herrs herr))
    · exact .inr (.inr (by rw [hrun hdis]; exact hdis))

/-- A goroutine of a node that is not watched any more goes on, or ends. -/
theorem Fresh.leaves {g : Goroutine} (hg : ¬ s.w.Watches g.wn) (next : Option WatchStage)
    {updatesCloses disconnectedCloses : ℕ → ℕ} {panicked : Bool} :
    Fresh { s with
      w := { s.w.goesOn g next with
        updatesCloses := updatesCloses, disconnectedCloses := disconnectedCloses
        panicked := panicked } } := by
  refine ⟨h.znode, fun x hx hwatches => ?_, h.lost⟩
  obtain hx | ⟨stage, -, rfl⟩ := Watcher.mem_goesOn hx
  · exact Carries.serves (s := s) ⟨rfl, rfl, id, id⟩ (h.goroutines x hx hwatches)
  · exact absurd hwatches hg

/-- `run` goes on while it is connected. -/
theorem Fresh.setRun {q : RunStage} (hrun : s.w.run = q) (hq : q.disconnected = false)
    (r : RunStage) : Fresh { s with w := { s.w with run := r } } := by
  have hrun : s.w.run.disconnected ≠ true := by rw [hrun, hq]; simp
  refine h.run (fun _ _ => id) (fun _ => id) (fun g _ _ hrestart => ?_) (fun halive => ?_)
  · obtain herr | ⟨rest, final, hcancel, -⟩ := hrestart
    · exact .inl herr
    · exact absurd (by rw [hcancel]; rfl) hrun
  · exact (h.lost halive).imp_right fun hlost => .inl (hlost.resolve_right hrun)

/-- `run` begins with `cancelWatches`. -/
theorem Fresh.cancels (order : IterOrder (Σ _ : Bytes, ℕ)) (final errs : Bool) :
    Fresh { s with
      w := { s.w with errs := errs, run := .cancelling (s.w.watched order) final } } := by
  refine h.run (fun _ _ => id) (fun _ => id) (fun g _ hwatches _ => ?_) (fun _ => .inr (.inr rfl))
  exact .inr ⟨_, final, rfl, (Watcher.mem_watched order).mpr hwatches⟩

/-- The children change: whoever has read them has an event now. -/
theorem Fresh.change (node : Bytes) (children : List Bytes) :
    Fresh { s with
      server := Function.update s.server node children
      known := fun wn => { s.known wn with
        events := (s.known wn).events.map fun fired =>
          fired || (s.alive && decide ((s.known wn).znode = node)) } } := by
  refine ⟨h.znode, fun g hg hwatches => ?_, h.lost⟩
  have hserves := h.goroutines g hg hwatches
  -- whoever has read this znode gets an event, or the session is lost
  have hdate : s.UpToDate g.wn → UpToDate { s with
      server := Function.update s.server node children
      known := fun wn => { s.known wn with
        events := (s.known wn).events.map fun fired =>
          fired || (s.alive && decide ((s.known wn).znode = node)) } } g.wn := by
    intro hdate halive hfired
    change s.alive = true at halive
    rcases hevents : (s.known g.wn).events with _ | fired
    · have hlist := hdate halive (by simp [hevents])
      simpa [hevents, childrenW] using hlist
    · have hnot : fired = false ∧ (s.known g.wn).znode ≠ node := by
        simpa [hevents, halive] using hfired
      have hlist := hdate halive (by simp [hevents, hnot.1])
      simpa [hevents, childrenW, Function.update_of_ne hnot.2] using hlist
  obtain ⟨wn, stage⟩ := g
  cases stage with
  | offer conn => exact hdate hserves
  | await => exact ⟨hdate hserves.1, hserves.2⟩
  | _ => exact hserves

/-- A list is taken from a closed channel. -/
theorem Fresh.panics (wn : ℕ) :
    Fresh { s with
      w := { s.w with panicked := true }
      known := Function.update s.known wn
        { s.known wn with seen := some (s.known wn).list } } := by
  refine ⟨fun node m hnode => ?_, fun g hg hwatches => ?_, h.lost⟩
  · refine Eq.trans ?_ (h.znode node m hnode)
    by_cases hm : m = wn
    · subst hm
      simp only [Function.update_self]
    · simp only [Function.update_of_ne hm]
  · have hserves := h.goroutines g hg hwatches
    by_cases hwn : g.wn = wn
    · subst hwn
      obtain ⟨wn, stage⟩ := g
      cases stage with
      | offer conn => exact UpToDate.taken hserves _
      | await => exact ⟨hserves.1.taken _, by simp only [Function.update_self]⟩
      | _ => exact hserves
    · exact Carries.serves (s := s) ⟨Function.update_of_ne hwn _ _, rfl, id, id⟩ hserves

theorem Fresh.watchChildren (hsound : s.w.Sound) (node : Bytes) (ok gaveUp : Bool) :
    Fresh { s with
      w := { s.w with
        errs := s.w.errs || !ok
        watchedNodes := s.w.watchedNodes.insert node s.w.made
        made := s.w.made + 1
        goroutines :=
          ⟨s.w.made, if ok then .offer s.w.conn else .placeholder⟩ :: s.w.goroutines }
      known := Function.update s.known s.w.made
        (if ok then ⟨node, (s.childrenW node gaveUp).1, (s.childrenW node gaveUp).2, none⟩
        else ⟨node, [], none, none⟩) } := by
  refine h.starts (Watcher.serving_made hsound) (by rfl) (fun node' m hnode hm => ?_)
    (fun herr => ?_) (fun _ => ?_) _ (fun m hm => Function.update_of_ne hm _ s.known)
    (fun node' hnode => ?_) ?_
  · by_cases heq : node' = node
    · subst heq
      rw [AList.lookup_insert] at hnode
      exact absurd (Option.some.inj hnode).symm hm
    · rwa [AList.lookup_insert_ne heq] at hnode
  · simp [herr]
  · rfl
  · rw [Function.update_self, apply_ite Known.znode, ite_self]
    by_contra heq
    rw [AList.lookup_insert_ne (Ne.symm heq)] at hnode
    exact absurd (hsound.watched _ ⟨node', hnode⟩).1 (lt_irrefl _)
  · cases ok with
    | true =>
      intro _ _
      simp only [Function.update_self, if_true, isNone_childrenW]
      rfl
    | false => exact .inl (Bool.or_true _)

/-- A list is delivered, by the one goroutine that there is. -/
theorem Fresh.deliver (hpaired : s.w.Paired) {wn conn : ℕ}
    (hg : ⟨wn, .offer conn⟩ ∈ s.w.goroutines) :
    Fresh { s with
      w := { s.w.goesOn ⟨wn, .offer conn⟩ (some .await) with
        deliveries := (wn, conn) :: s.w.deliveries }
      known := Function.update s.known wn
        { s.known wn with seen := some (s.known wn).list } } := by
  refine h.goes hpaired.one hg id _ (fun m hm => Function.update_of_ne hm _ s.known) ?_ ?_
  · rw [Function.update_self]
  · intro hwatches
    have hdate : s.UpToDate wn := h.goroutines _ hg hwatches
    exact ⟨hdate.taken _, by simp only [Function.update_self]⟩

/-- The children are read again. -/
theorem Fresh.reread (hpaired : s.w.Paired) {g : Goroutine} (hg : g ∈ s.w.goroutines)
    (gaveUp : Bool) :
    Fresh { s.read g.wn gaveUp with w := s.w.goesOn g (some (.offer s.w.conn)) } := by
  refine h.goes hpaired.one hg id _ (fun m hm => Function.update_of_ne hm _ s.known) ?_ ?_
  · rw [read_known]
  · intro _
    exact upToDate_read s g.wn gaveUp

end Steps

/-- A watch that `runHooks` starts reads the children. -/
theorem learn_hook {wn : ℕ} {started rest : List ℕ} (hrun : s.w.run = .hooks started (wn :: rest))
    (gaveUp : Bool) : s.learn gaveUp (.hook true) = s.read wn gaveUp := by
  rw [learn, hrun]
  rfl

/-- **Every event keeps it.** -/
theorem Fresh.happens (h : s.Fresh) (hsound : s.w.Sound) (hpaired : s.w.Paired) {e : ObservedEvent}
    (hs : Happens s e s') : s'.Fresh := by
  cases hs with
  | change => exact h.change _ _
  | expire =>
    refine ⟨h.znode, fun g hg hwatches => ?_, fun _ => .inl rfl⟩
    exact Carries.serves (s := s) ⟨rfl, rfl, fun halive => (by cases halive), id⟩
      (h.goroutines g hg hwatches)
  | report hstep =>
    cases Watcher.moves_of_step hstep with
    | error =>
      refine ⟨h.znode, fun g hg hwatches => ?_, fun _ => .inr (.inl rfl)⟩
      exact Carries.serves (s := s) ⟨rfl, rfl, id, fun _ => .inl rfl⟩ (h.goroutines g hg hwatches)
  | watcher hpossible hstep =>
    cases Watcher.moves_of_step hstep with
    | watchChildren hrun => exact h.watchChildren hsound _ _ _
    | removeNone => exact h
    | remove hrun hnode =>
      exact h.run (fun _ _ hnode => (AList.lookup_erase_eq_some hnode).2) (fun _ => id)
        (fun _ _ _ => id) h.lost
    | error =>
      exact h.run (fun _ _ => id) (fun _ => id) (fun _ _ _ _ => .inl rfl) (fun _ => .inr (.inl rfl))
    | deliver hg =>
      exact h.deliver hpaired hg
    | panics => exact h.panics _
    | event hg hstage =>
      exact h.goes hpaired.one hg id _ (fun _ _ => rfl) rfl (fun _ => trivial)
    | badEvent hg hstage =>
      exact h.goes hpaired.one hg (fun _ => rfl) _ (fun _ _ => rfl) rfl (fun _ => .inl rfl)
    | reread hg hstage =>
      exact h.reread hpaired hg _
    | rereadFails hg hstage =>
      exact h.goes hpaired.one hg (fun _ => rfl) _ (fun _ _ => rfl) rfl (fun _ => .inl rfl)
    | canceled hg hstage hremoved =>
      exact h.leaves (fun hwatches => (hsound.watched _ hwatches).2 hremoved) _
    | closeChannels hg hstage =>
      have hremoved := hsound.closing _ hg hstage
      exact h.leaves (fun hwatches => (hsound.watched _ hwatches).2 hremoved) none
    | takeError hrun => exact h.cancels _ _ _
    | shutdown hrun => exact h.cancels _ _ s.w.errs
    | @cancel g rest final hrun hg =>
      refine h.run (fun _ _ => id) (fun _ => List.mem_of_mem_erase) (fun x hx _ hrestart => ?_)
        (fun _ => .inr (.inr rfl))
      obtain herr | ⟨all, last, hcancel, hmem⟩ := hrestart
      · exact .inl herr
      · obtain ⟨rfl, rfl⟩ : g.wn :: rest = all ∧ final = last := by simpa [hrun] using hcancel
        have hne := Watcher.ne_of_mem_erase (hpaired.one _) hg hx
        exact .inr ⟨rest, final, rfl, (List.mem_cons.mp hmem).resolve_left hne⟩
    | @cancelled final hrun =>
      refine h.run (fun _ _ => id) (fun _ => id) (fun g _ _ hrestart => ?_)
        (fun _ => .inr (.inr (by cases final <;> rfl)))
      obtain herr | ⟨all, last, hcancel, hmem⟩ := hrestart
      · exact .inl herr
      · obtain ⟨rfl, -⟩ : [] = all ∧ final = last := by simpa [hrun] using hcancel
        cases hmem
    | refused => exact h
    | broken hrun =>
      refine ⟨h.znode, fun g hg hwatches => ?_, fun _ => .inr (.inr (by
        change s.w.run.disconnected = true
        rw [hrun]
        rfl))⟩
      exact Carries.serves (s := s) ⟨rfl, rfl, fun halive => (by cases halive), id⟩
        (h.goroutines g hg hwatches)
    | reconnected hrun =>
      refine ⟨h.znode, fun g hg hwatches => ?_, fun halive => by cases halive⟩
      -- nothing that is watched has a goroutine
      have hnone := hpaired.serves (by rw [hrun]; simp) g.wn hwatches
      rw [hrun] at hnone
      exact absurd (List.countP_eq_zero.mp hnone g hg) (by simp)
    | runHooks hrun => exact h.setRun hrun rfl _
    | ephemerals hrun => exact h.setRun hrun rfl _
    | ephemeralsFail hrun => exact h.setRun hrun rfl _
    | @hook wn started rest hrun =>
      rw [learn_hook hrun]
      have hwatches : s.w.Watches wn := by
        refine hsound.rest.2 wn ?_
        rw [hrun]
        exact List.mem_cons_self ..
      have hnone : s.w.serving wn = 0 := by
        rw [hpaired.serves (by rw [hrun]; simp) wn hwatches, hrun]
        simp [RunStage.serves]
      refine h.starts hnone (by rfl) (fun _ _ hnode _ => ?_) (fun herr => ?_) (fun hdis => ?_) _
        (fun m hm => Function.update_of_ne hm _ s.known) (fun node hnode => ?_) ?_
      · exact hnode
      · exact herr
      · rw [hrun] at hdis
        cases hdis
      · rw [read_known]
        exact h.znode node wn hnode
      · exact upToDate_read s wn _
    | hookFails hrun => exact h.setRun hrun rfl _
    | hooked hrun => exact h.setRun hrun rfl _

theorem fresh_of_reachable (h : (observedMachine.restrict InOrder).Reachable s) : s.Fresh := by
  refine h.invariant (P := Fresh) (fun s hs => ?_) ?_
  · rw [show s = new from hs]
    exact .new
  · rintro s e s' hreach hfresh ⟨-, hs⟩
    have hwatcher := reachable_watcher hreach
    exact hfresh.happens (Watcher.sound_of_reachable hwatcher.of_restrict)
      (Watcher.paired_of_reachable hwatcher).1 (happens_of_step hs)

/-! ## When nothing is left to do

Whatever is owed can be done, so where nothing can be done nothing is owed. -/

section Idle

variable (hidle : s.Idle) (hpanicked : s.w.panicked = false)
include hidle hpanicked

theorem Idle.act {e : WatcherEvent} (he : (ObservedEvent.watcher e false).internal)
    (hpossible : s.possible false e) : s.w.act e = none := by
  have hnone := hidle _ he
  rw [step, if_pos hpossible, Option.map_eq_none_iff, Watcher.step, hpanicked] at hnone
  exact hnone

/-- A goroutine that is left waits for an event, and none has come; or it has failed. -/
theorem Idle.stage {g : Goroutine} (hg : g ∈ s.w.goroutines) :
    (g.stage = .await ∧ (s.known g.wn).events ≠ some true) ∨
      g.stage = .failed ∨ g.stage = .badEvent ∨ g.stage = .placeholder := by
  cases hstage : g.stage with
  | offer conn =>
    have hnone := hidle.act hpanicked (e := .deliver g) rfl rfl
    simp only [Watcher.act, hstage, if_pos hg] at hnone
    split_ifs at hnone
  | await =>
    refine .inl ⟨rfl, fun hfired => ?_⟩
    have hnone := hidle.act hpanicked (e := .event g true) rfl
      (by simp [possible, WatcherEvent.reads, hfired])
    simp [Watcher.act, hg, hstage] at hnone
  | reread =>
    have hnone := hidle.act hpanicked (e := .reread g false) rfl rfl
    simp [Watcher.act, hg, hstage] at hnone
  | closing =>
    have hnone := hidle.act hpanicked (e := .closeChannels g) rfl rfl
    simp [Watcher.act, hg, hstage] at hnone
  | _ => simp

theorem Idle.run (hsound : s.w.Sound) (hpaired : s.w.Paired) :
    s.w.run = .select ∨ s.w.run = .done := by
  cases hrun : s.w.run with
  | select => exact .inl rfl
  | cancelling rest final =>
    cases rest with
    | nil =>
      have hnone := hidle.act hpanicked (e := .cancelled) rfl rfl
      simp [Watcher.act, hrun] at hnone
    | cons wn rest =>
      -- its goroutine takes the value
      have hwatches : s.w.Watches wn := hsound.rest.2 wn (by simp [hrun, RunStage.rest])
      have hone := hpaired.serves (by simp [hrun]) wn hwatches
      have hpos : 0 < s.w.serving wn := by
        rw [hone]
        simp [hrun, RunStage.serves]
      obtain ⟨g, hg, hwn⟩ := List.countP_pos_iff.mp hpos
      obtain rfl : g.wn = wn := by simpa using hwn
      have hreceives : g.stage.receives := by
        rcases hidle.stage hpanicked hg with ⟨hstage, -⟩ | hstage | hstage | hstage
        all_goals simp [hstage, WatchStage.receives]
      have hnone := hidle.act hpanicked (e := .cancel g) rfl rfl
      simp [Watcher.act, hrun, hg, hreceives] at hnone
  | waiting =>
    have hnone := hidle.act hpanicked (e := .reconnect .refused) rfl rfl
    simp [Watcher.act, hrun] at hnone
  | connected =>
    have hnone := hidle.act hpanicked (e := .runHooks) rfl rfl
    simp [Watcher.act, hrun] at hnone
  | ephemerals =>
    have hnone := hidle.act hpanicked (e := .ephemerals false (.stored _)) rfl rfl
    simp [Watcher.act, hrun] at hnone
  | hooks started rest =>
    cases rest with
    | nil =>
      have hnone := hidle.act hpanicked (e := .hooked) rfl rfl
      simp [Watcher.act, hrun] at hnone
    | cons wn rest =>
      have hnone := hidle.act hpanicked (e := .hook false) rfl rfl
      simp [Watcher.act, hrun] at hnone
  | done => exact .inr rfl

theorem Idle.errs (hrun : s.w.run = .select) : s.w.errs = false := by
  have hnone := hidle.act hpanicked (e := .takeError (.stored _)) rfl rfl
  simpa [Watcher.act, hrun] using hnone

theorem Idle.unreported : s.unreported = false := by
  have hnone := hidle .report rfl
  simpa [step, Watcher.step, Watcher.act, hpanicked] using hnone

end Idle

end Observed

/-- **No update is lost, unless `childrenW` gives up.** Take any run in which watches, changes of
znodes, expired sessions, bad events, failed calls and calls that give up come in any order (apart
from what `one_watcher` excludes). Whenever the watcher has nothing left to do and is not shut down,
whoever watches a znode has got the children that it has now; or its children were last read by a
call that gave up, and then an empty list was the last that came. -/
theorem no_lost_update {s : Observed} (h : (observedMachine.restrict Observed.InOrder).Reachable s)
    (hidle : s.Idle) (hpanicked : s.w.panicked = false) (hdone : s.w.run ≠ .done) {node : Bytes}
    {wn : ℕ} (hnode : s.w.watchedNodes.lookup node = some wn) :
    (s.known wn).seen = some (if (s.known wn).events = none then [] else s.server node) := by
  have hfresh := Observed.fresh_of_reachable h
  have hwatcher := Observed.reachable_watcher h
  have hsound := Watcher.sound_of_reachable hwatcher.of_restrict
  obtain ⟨hpaired, -⟩ := Watcher.paired_of_reachable hwatcher
  have hrun := (hidle.run hpanicked hsound hpaired).resolve_right hdone
  have herrs := hidle.errs hpanicked hrun
  have halive : s.alive = true := by
    by_contra hlost
    rcases hfresh.lost (Bool.eq_false_iff.mpr hlost) with hun | herr | hdis
    · rw [hidle.unreported hpanicked] at hun
      cases hun
    · rw [herrs] at herr
      cases herr
    · rw [hrun] at hdis
      cases hdis
  have hrestart : ¬ s.WillRestart wn := by
    rintro (herr | ⟨rest, final, hcancel, -⟩)
    · rw [herrs] at herr
      cases herr
    · rw [hrun] at hcancel
      cases hcancel
  have hpos : 0 < s.w.serving wn := by
    rw [hpaired.serves hdone wn ⟨node, hnode⟩, hrun]
    exact Nat.one_pos
  obtain ⟨⟨wn', stage⟩, hg, hwn⟩ := List.countP_pos_iff.mp hpos
  obtain rfl : wn' = wn := by simpa using hwn
  have hserves := hfresh.goroutines _ hg ⟨node, hnode⟩
  rcases hidle.stage hpanicked hg with ⟨rfl, hfired⟩ | rfl | rfl | rfl
  · obtain ⟨hdate, hseen⟩ := hserves
    rw [hseen, hdate halive hfired, hfresh.znode node _ hnode, Observed.childrenW,
      apply_ite Prod.fst]
    simp only [Option.isNone_iff_eq_none]
  all_goals exact absurd hserves hrestart

/-- When nothing is left to do, in terms of the goroutines. -/
theorem Observed.idle_of_await {s : Observed} (hrun : s.w.run = .select) (herrs : s.w.errs = false)
    (hunreported : s.unreported = false)
    (hawait : ∀ g ∈ s.w.goroutines,
      g.stage = .await ∧ (s.known g.wn).events ≠ some true ∧ g.wn ∉ s.w.removed) : s.Idle := by
  intro e he
  by_contra hne
  obtain ⟨s', hs⟩ := Option.ne_none_iff_exists'.mp hne
  cases happens_of_step hs with
  | change => cases he
  | expire => cases he
  | report => simp [step, hunreported] at hs
  | watcher hpossible hstep =>
    have hselect : ∀ {r : RunStage}, s.w.run = r → r = .select := fun hr => hr.symm.trans hrun
    cases Watcher.moves_of_step hstep with
    | watchChildren => cases he
    | removeNone => cases he
    | remove => cases he
    | error => cases he
    | deliver hg => cases (hawait _ hg).1
    | @panics g =>
      change s.w.step (.deliver g) = _ at hstep
      cases hstage : g.stage with
      | offer conn =>
        have hnot : g ∉ s.w.goroutines := fun hg => by cases hstage.symm.trans (hawait g hg).1
        simp [Watcher.step, Watcher.act, hstage, hnot] at hstep
      | _ => simp [Watcher.step, Watcher.act, hstage] at hstep
    | @event g hg =>
      refine (hawait _ hg).2.1 ?_
      rcases hevents : (s.known g.wn).events with _ | fired
      · simp [possible, hevents] at hpossible
      · simpa [possible, WatcherEvent.reads, hevents] using (Bool.and_eq_true_iff.mp hpossible).2
    | badEvent => cases he
    | reread hg hstage => cases hstage.symm.trans (hawait _ hg).1
    | rereadFails hg hstage => cases hstage.symm.trans (hawait _ hg).1
    | canceled hg _ hremoved => exact (hawait _ hg).2.2 hremoved
    | closeChannels hg hstage => cases hstage.symm.trans (hawait _ hg).1
    | @takeError order =>
      change s.w.step (.takeError order) = _ at hstep
      simp [Watcher.step, Watcher.act, herrs] at hstep
    | shutdown => cases he
    | cancel hr => cases hselect hr
    | cancelled hr => cases hselect hr
    | refused =>
      change s.w.step (.reconnect .refused) = _ at hstep
      simp [Watcher.step, Watcher.act, hrun] at hstep
    | broken hr => cases hselect hr
    | reconnected hr => cases hselect hr
    | runHooks hr => cases hselect hr
    | ephemerals hr => cases hselect hr
    | ephemeralsFail hr => cases hselect hr
    | hook hr => cases hselect hr
    | hookFails hr => cases hselect hr
    | hooked hr => cases hselect hr

/-- The children of a watched znode `p` change, change again before they are read again, and the
session expires after that. When `q` is to be watched again, the call gives up, and then its children
change. -/
def changesTwice : List ObservedEvent :=
  [.watcher (.watchChildren [112] true) false, .watcher (.watchChildren [113] true) false,
    .watcher (.deliver ⟨0, .offer 0⟩) false, .watcher (.deliver ⟨1, .offer 0⟩) false,
    .change [112] [[97]], .watcher (.event ⟨0, .await⟩ true) false, .change [112] [[97], [98]],
    .watcher (.reread ⟨0, .reread⟩ true) false, .expire, .change [112] [[98]], .report,
    .watcher (.takeError (.stored _)) false, .watcher (.cancel ⟨1, .await⟩) false,
    .watcher (.cancel ⟨0, .offer 0⟩) false, .watcher .cancelled false,
    .watcher (.reconnect .ok) false, .watcher .runHooks false,
    .watcher (.ephemerals true (.stored _)) false, .watcher (.hook true) true,
    .watcher (.hook true) false, .watcher .hooked false, .watcher (.deliver ⟨1, .offer 1⟩) false,
    .watcher (.deliver ⟨0, .offer 1⟩) false, .change [113] [[99]]]

/-- The reader of `p` has got what is there now, and never the two lists before; the reader of `q`
has got an empty list. -/
theorem no_lost_update_changesTwice :
    ∃ s, (observedMachine.restrict Observed.InOrder).Reachable s ∧ s.Idle ∧
      (s.known 0).seen = some [[98]] ∧ (s.known 1).seen = some [] ∧ s.server [113] = [[99]] :=
  have hreach : (observedMachine.restrict Observed.InOrder).Reachable _ :=
    .runGuarded (.start rfl) changesTwice rfl
  have hidle : Observed.Idle _ :=
    Observed.idle_of_await rfl rfl rfl (List.forall_mem_cons.mpr
      ⟨⟨rfl, by decide, by decide⟩, List.forall_mem_singleton.mpr ⟨rfl, nofun, by decide⟩⟩)
  have hseen : (Observed.known _ 0).seen =
      some (if (Observed.known _ 0).events = none then [] else Observed.server _ [112]) :=
    no_lost_update hreach hidle rfl (by decide) rfl
  have hempty : (Observed.known _ 1).seen =
      some (if (Observed.known _ 1).events = none then [] else Observed.server _ [113]) :=
    no_lost_update hreach hidle rfl (by decide) rfl
  ⟨_, hreach, hidle, hseen.trans (by rfl), hempty.trans (by rfl), rfl⟩

end Sequins
