import Sequins.HashCode
import Sequins.GoMap
import Sequins.Machine
import Sequins.Threads

/-!
# Watches and the run loop

The half of `zk_watcher.go` that watches znodes, as a machine. Whoever watches a znode gets a
`watchedNode`, three channels that outlive connections: lists of children come out of `updates`,
`disconnected` tells of lost connections, and `cancel` stops the goroutine that serves the other
two. That goroutine is started by `watchChildren`, or by `runHooks` after a reconnect, and it is
stopped by a value from `cancelWatches`, before a reconnect, or for good by `removeWatch`, which
closes `cancel`; only then it closes the other two channels on its way out.

`hooksLock` keeps `watchChildren`, `removeWatch`, `cancelWatches` and `runHooks` apart. The first
two are single events. The loops of the other two are not, since the goroutines go on meanwhile: a
send on `cancel` waits for a goroutine to take the value.

Each call to ZooKeeper may fail, errors may be reported at any time, and the events of znodes are
arbitrary. A list of children is known by the connection that it was read on.
-/

namespace Sequins

/-- Where a goroutine of a watched node stands. -/
inductive WatchStage where
  /-- its first select: it offers the list it has read on that connection -/
  | offer (conn : ℕ)
  /-- its second select: it waits for an event -/
  | await
  /-- before it reads the children again -/
  | reread
  /-- reading them has failed, and it waits for `cancel` -/
  | failed
  /-- the event was a bad one, and it waits for `cancel` -/
  | badEvent
  /-- `watchChildren` has failed, and it was started in place of the real one -/
  | placeholder
  /-- `cancel` is closed, and it is going to close the other channels -/
  | closing
  deriving DecidableEq, Repr

/-- A goroutine that serves a watched node. -/
structure Goroutine where
  /-- the watched node -/
  wn : ℕ
  /-- where it stands -/
  stage : WatchStage
  deriving DecidableEq, Repr

/-- It receives from `cancel`, in a select or not. -/
def WatchStage.receives : WatchStage → Bool
  | .reread => false
  | .closing => false
  | _ => true

/-- What a goroutine does that finds `cancel` closed; `none` if it just returns. The value that is
received on the way out of a bad event is thrown away, and `reconnecting` stays true. -/
def WatchStage.onClosed : WatchStage → Option WatchStage
  | .badEvent => none
  | .placeholder => none
  | _ => some .closing

/-- Where `run` stands. -/
inductive RunStage where
  /-- connected, waiting for an error or the end -/
  | select
  /-- in `cancelWatches`, with the watched nodes it has still to cancel; it is the last thing to
  do if `final` -/
  | cancelling (rest : List ℕ) (final : Bool)
  /-- not connected, waiting for the timer or the end -/
  | waiting
  /-- connected again, before `runHooks` -/
  | connected
  /-- in `runHooks`, at the ephemeral nodes -/
  | ephemerals
  /-- in `runHooks`, at the watched nodes, with those it has started and those it has not -/
  | hooks (started rest : List ℕ)
  /-- it has returned -/
  | done
  deriving DecidableEq, Repr

/-- It does not hold `hooksLock`. -/
def RunStage.unlocked : RunStage → Bool
  | .select => true
  | .waiting => true
  | .connected => true
  | .done => true
  | _ => false

/-- The watched nodes that a loop of `run` has not come to. -/
def RunStage.rest : RunStage → List ℕ
  | .cancelling rest _ => rest
  | .hooks _ rest => rest
  | _ => []

/-- Without `hooksLock`, `run` is in no loop. -/
theorem RunStage.rest_of_unlocked {r : RunStage} (h : r.unlocked) : r.rest = [] := by
  cases r with
  | cancelling rest final => cases h
  | hooks started rest => cases h
  | _ => rfl

/-- How `reconnect` ends. -/
inductive Reconnect where
  /-- `zk.Dial` fails -/
  | refused
  /-- something fails after the new connection has replaced the old one -/
  | broken
  /-- it succeeds -/
  | ok
  deriving DecidableEq, Repr

/-- `zkWatcher`, as far as watches go, with its goroutines. -/
structure Watcher where
  /-- `conn`: how many connections there were before -/
  conn : ℕ
  /-- an error is in the channel `errs` -/
  errs : Bool
  /-- `watchedNodes` -/
  watchedNodes : AList fun _ : Bytes => ℕ
  /-- how many watched nodes were made -/
  made : ℕ
  /-- the goroutines that serve them -/
  goroutines : List Goroutine
  /-- `run` -/
  run : RunStage
  /-- the watched nodes whose `cancel` is closed -/
  removed : Finset ℕ
  /-- how many times `close(wn.updates)` was executed -/
  updatesCloses : ℕ → ℕ
  /-- how many times `close(wn.disconnected)` was executed -/
  disconnectedCloses : ℕ → ℕ
  /-- history: which watched node delivered a list from which connection, latest first -/
  deliveries : List (ℕ × ℕ)
  /-- a closed channel was closed again, or sent to -/
  panicked : Bool

/-- What can happen. -/
inductive WatcherEvent where
  /-- `watchChildren`, which succeeds or not -/
  | watchChildren (node : Bytes) (ok : Bool)
  /-- `removeWatch` -/
  | removeWatch (node : Bytes)
  /-- somebody reports an error -/
  | error
  /-- the list that a goroutine offers is taken -/
  | deliver (g : Goroutine)
  /-- a goroutine gets an event -/
  | event (g : Goroutine) (ok : Bool)
  /-- a goroutine reads the children again -/
  | reread (g : Goroutine) (ok : Bool)
  /-- a goroutine finds that its `cancel` is closed -/
  | canceled (g : Goroutine)
  /-- a goroutine closes its channels on its way out -/
  | closeChannels (g : Goroutine)
  /-- `run` takes an error and calls `cancelWatches` -/
  | takeError (order : IterOrder (Σ _ : Bytes, ℕ))
  /-- `run` is told to end and calls `cancelWatches` -/
  | shutdown (order : IterOrder (Σ _ : Bytes, ℕ))
  /-- a goroutine takes the value that `cancelWatches` sends -/
  | cancel (g : Goroutine)
  /-- `cancelWatches` returns -/
  | cancelled
  /-- the timer is up, and `reconnect` returns -/
  | reconnect (result : Reconnect)
  /-- `runHooks` takes its lock -/
  | runHooks
  /-- it has created the ephemeral nodes again, or failed to -/
  | ephemerals (ok : Bool) (order : IterOrder (Σ _ : Bytes, ℕ))
  /-- it watches the next node again, or fails to -/
  | hook (ok : Bool)
  /-- it returns -/
  | hooked

namespace Watcher

/-- A watcher that has just connected. -/
def new : Watcher where
  conn := 0
  errs := false
  watchedNodes := ∅
  made := 0
  goroutines := []
  run := .select
  removed := ∅
  updatesCloses := fun _ => 0
  disconnectedCloses := fun _ => 0
  deliveries := []
  panicked := false

/-- The watched nodes, in the order in which a loop visits them. -/
def watched (w : Watcher) (order : IterOrder (Σ _ : Bytes, ℕ)) : List ℕ :=
  (order.arrange w.watchedNodes.entries).map fun e => e.2

/-- A goroutine goes on, or ends. -/
def goesOn (w : Watcher) (g : Goroutine) (next : Option WatchStage) : Watcher :=
  { w with goroutines := (next.map (Goroutine.mk g.wn)).toList ++ w.goroutines.erase g }

/-- One event. -/
def act (w : Watcher) : WatcherEvent → Option Watcher
  | .watchChildren node ok =>
    if w.run.unlocked then
      some { w with
        errs := w.errs || !ok
        watchedNodes := w.watchedNodes.insert node w.made
        made := w.made + 1
        goroutines := ⟨w.made, if ok then .offer w.conn else .placeholder⟩ :: w.goroutines }
    else
      none
  | .removeWatch node =>
    if w.run.unlocked then
      match w.watchedNodes.lookup node with
      | none => some w
      | some wn =>
        some { w with
          watchedNodes := w.watchedNodes.erase node, removed := insert wn w.removed }
    else
      none
  | .error => some { w with errs := true }
  | .deliver g =>
    match g.stage with
    | .offer conn =>
      if g ∈ w.goroutines then
        if 0 < w.updatesCloses g.wn then
          some { w with panicked := true }
        else
          some { w.goesOn g (some .await) with deliveries := (g.wn, conn) :: w.deliveries }
      else
        none
    | _ => none
  | .event g ok =>
    if g ∈ w.goroutines ∧ g.stage = .await then
      if ok then
        some (w.goesOn g (some .reread))
      else
        some { w.goesOn g (some .badEvent) with errs := true }
    else
      none
  | .reread g ok =>
    if g ∈ w.goroutines ∧ g.stage = .reread then
      if ok then
        some (w.goesOn g (some (.offer w.conn)))
      else
        some { w.goesOn g (some .failed) with errs := true }
    else
      none
  | .canceled g =>
    if g ∈ w.goroutines ∧ g.stage.receives ∧ g.wn ∈ w.removed then
      some (w.goesOn g g.stage.onClosed)
    else
      none
  | .closeChannels g =>
    if g ∈ w.goroutines ∧ g.stage = .closing then
      some { w.goesOn g none with
        updatesCloses := Function.update w.updatesCloses g.wn (w.updatesCloses g.wn + 1)
        disconnectedCloses :=
          Function.update w.disconnectedCloses g.wn (w.disconnectedCloses g.wn + 1)
        panicked := decide (0 < w.updatesCloses g.wn) }
    else
      none
  | .takeError order =>
    if w.run = .select ∧ w.errs then
      some { w with errs := false, run := .cancelling (w.watched order) false }
    else
      none
  | .shutdown order =>
    if w.run = .select ∨ w.run = .waiting then
      some { w with run := .cancelling (w.watched order) true }
    else
      none
  | .cancel g =>
    match w.run with
    | .cancelling (wn :: rest) final =>
      if g ∈ w.goroutines ∧ g.stage.receives ∧ g.wn = wn then
        some { w.goesOn g none with run := .cancelling rest final }
      else
        none
    | _ => none
  | .cancelled =>
    match w.run with
    | .cancelling [] final => some { w with run := if final then .done else .waiting }
    | _ => none
  | .reconnect result =>
    if w.run = .waiting then
      match result with
      | .refused => some w
      | .broken => some { w with conn := w.conn + 1 }
      | .ok => some { w with conn := w.conn + 1, run := .connected }
    else
      none
  | .runHooks => if w.run = .connected then some { w with run := .ephemerals } else none
  | .ephemerals ok order =>
    if w.run = .ephemerals then
      some { w with run := if ok then .hooks [] (w.watched order) else .waiting }
    else
      none
  | .hook ok =>
    match w.run with
    | .hooks started (wn :: rest) =>
      if ok then
        some { w with
          goroutines := ⟨wn, .offer w.conn⟩ :: w.goroutines
          run := .hooks (wn :: started) rest }
      else
        some { w with run := .waiting }
    | _ => none
  | .hooked =>
    match w.run with
    | .hooks _ [] => some { w with run := .select }
    | _ => none

/-- A panic ends everything. -/
def step (w : Watcher) (e : WatcherEvent) : Option Watcher :=
  if w.panicked then none else w.act e

end Watcher

/-- Every interleaving on one watcher. -/
def watcherMachine : Machine Watcher WatcherEvent := .ofStep .new Watcher.step

namespace Watcher

variable {w w' : Watcher} {e : WatcherEvent}

/-! ## What they can do -/

/-- The events, one case for each way through them. -/
inductive Moves (w : Watcher) : WatcherEvent → Watcher → Prop
  | watchChildren {node : Bytes} {ok : Bool} (hrun : w.run.unlocked) :
      Moves w (.watchChildren node ok) { w with
        errs := w.errs || !ok
        watchedNodes := w.watchedNodes.insert node w.made
        made := w.made + 1
        goroutines := ⟨w.made, if ok then .offer w.conn else .placeholder⟩ :: w.goroutines }
  | removeNone {node : Bytes} : Moves w (.removeWatch node) w
  | remove {node : Bytes} {wn : ℕ} (hrun : w.run.unlocked)
      (hnode : w.watchedNodes.lookup node = some wn) :
      Moves w (.removeWatch node) { w with
        watchedNodes := w.watchedNodes.erase node, removed := insert wn w.removed }
  | error : Moves w .error { w with errs := true }
  | deliver {wn conn : ℕ} (hg : ⟨wn, .offer conn⟩ ∈ w.goroutines) :
      Moves w (.deliver ⟨wn, .offer conn⟩) { w.goesOn ⟨wn, .offer conn⟩ (some .await) with
        deliveries := (wn, conn) :: w.deliveries }
  | panics {g : Goroutine} : Moves w (.deliver g) { w with panicked := true }
  | event {g : Goroutine} (hg : g ∈ w.goroutines) (hstage : g.stage = .await) :
      Moves w (.event g true) (w.goesOn g (some .reread))
  | badEvent {g : Goroutine} (hg : g ∈ w.goroutines) (hstage : g.stage = .await) :
      Moves w (.event g false) { w.goesOn g (some .badEvent) with errs := true }
  | reread {g : Goroutine} (hg : g ∈ w.goroutines) (hstage : g.stage = .reread) :
      Moves w (.reread g true) (w.goesOn g (some (.offer w.conn)))
  | rereadFails {g : Goroutine} (hg : g ∈ w.goroutines) (hstage : g.stage = .reread) :
      Moves w (.reread g false) { w.goesOn g (some .failed) with errs := true }
  | canceled {g : Goroutine} (hg : g ∈ w.goroutines) (hstage : g.stage.receives)
      (hremoved : g.wn ∈ w.removed) : Moves w (.canceled g) (w.goesOn g g.stage.onClosed)
  | closeChannels {g : Goroutine} (hg : g ∈ w.goroutines) (hstage : g.stage = .closing) :
      Moves w (.closeChannels g) { w.goesOn g none with
        updatesCloses := Function.update w.updatesCloses g.wn (w.updatesCloses g.wn + 1)
        disconnectedCloses :=
          Function.update w.disconnectedCloses g.wn (w.disconnectedCloses g.wn + 1)
        panicked := decide (0 < w.updatesCloses g.wn) }
  | takeError {order : IterOrder (Σ _ : Bytes, ℕ)} (hrun : w.run = .select) :
      Moves w (.takeError order) { w with
        errs := false, run := .cancelling (w.watched order) false }
  | shutdown {order : IterOrder (Σ _ : Bytes, ℕ)} (hrun : w.run = .select ∨ w.run = .waiting) :
      Moves w (.shutdown order) { w with run := .cancelling (w.watched order) true }
  | cancel {g : Goroutine} {rest : List ℕ} {final : Bool}
      (hrun : w.run = .cancelling (g.wn :: rest) final) (hg : g ∈ w.goroutines) :
      Moves w (.cancel g) { w.goesOn g none with run := .cancelling rest final }
  | cancelled {final : Bool} (hrun : w.run = .cancelling [] final) :
      Moves w .cancelled { w with run := if final then .done else .waiting }
  | refused : Moves w (.reconnect .refused) w
  | broken (hrun : w.run = .waiting) :
      Moves w (.reconnect .broken) { w with conn := w.conn + 1 }
  | reconnected (hrun : w.run = .waiting) :
      Moves w (.reconnect .ok) { w with conn := w.conn + 1, run := .connected }
  | runHooks (hrun : w.run = .connected) : Moves w .runHooks { w with run := .ephemerals }
  | ephemerals {order : IterOrder (Σ _ : Bytes, ℕ)} (hrun : w.run = .ephemerals) :
      Moves w (.ephemerals true order) { w with run := .hooks [] (w.watched order) }
  | ephemeralsFail {order : IterOrder (Σ _ : Bytes, ℕ)} (hrun : w.run = .ephemerals) :
      Moves w (.ephemerals false order) { w with run := .waiting }
  | hook {wn : ℕ} {started rest : List ℕ} (hrun : w.run = .hooks started (wn :: rest)) :
      Moves w (.hook true) { w with
        goroutines := ⟨wn, .offer w.conn⟩ :: w.goroutines, run := .hooks (wn :: started) rest }
  | hookFails {wn : ℕ} {started rest : List ℕ} (hrun : w.run = .hooks started (wn :: rest)) :
      Moves w (.hook false) { w with run := .waiting }
  | hooked {started : List ℕ} (hrun : w.run = .hooks started []) :
      Moves w .hooked { w with run := .select }

theorem moves_of_act (hs : w.act e = some w') : Moves w e w' := by
  cases e with
  | watchChildren node ok =>
    rw [act] at hs
    split at hs
    · exact Option.some.inj hs ▸ .watchChildren ‹_›
    · cases hs
  | removeWatch node =>
    rw [act] at hs
    split_ifs at hs with hrun
    split at hs
    · exact Option.some.inj hs ▸ .removeNone
    · exact Option.some.inj hs ▸ .remove hrun ‹_›
  | error => exact Option.some.inj hs ▸ .error
  | deliver g =>
    obtain ⟨wn, stage⟩ := g
    rw [act] at hs
    split at hs
    · rename_i conn hstage
      obtain rfl : stage = .offer conn := hstage
      split_ifs at hs with hg
      · exact Option.some.inj hs ▸ .panics
      · exact Option.some.inj hs ▸ .deliver hg
    · cases hs
  | event g ok =>
    rw [act] at hs
    split_ifs at hs with hg hok
    · subst hok
      exact Option.some.inj hs ▸ .event hg.1 hg.2
    · obtain rfl : ok = false := Bool.eq_false_iff.mpr hok
      exact Option.some.inj hs ▸ .badEvent hg.1 hg.2
  | reread g ok =>
    rw [act] at hs
    split_ifs at hs with hg hok
    · subst hok
      exact Option.some.inj hs ▸ .reread hg.1 hg.2
    · obtain rfl : ok = false := Bool.eq_false_iff.mpr hok
      exact Option.some.inj hs ▸ .rereadFails hg.1 hg.2
  | canceled g =>
    rw [act] at hs
    split_ifs at hs with hg
    exact Option.some.inj hs ▸ .canceled hg.1 hg.2.1 hg.2.2
  | closeChannels g =>
    rw [act] at hs
    split_ifs at hs with hg
    exact Option.some.inj hs ▸ .closeChannels hg.1 hg.2
  | takeError order =>
    rw [act] at hs
    split_ifs at hs with hrun
    exact Option.some.inj hs ▸ .takeError hrun.1
  | shutdown order =>
    rw [act] at hs
    split_ifs at hs with hrun
    exact Option.some.inj hs ▸ .shutdown hrun
  | cancel g =>
    rw [act] at hs
    split at hs
    · rename_i hrun
      split_ifs at hs with hg
      obtain ⟨hmem, -, rfl⟩ := hg
      exact Option.some.inj hs ▸ .cancel hrun hmem
    · cases hs
  | cancelled =>
    rw [act] at hs
    split at hs
    · exact Option.some.inj hs ▸ .cancelled ‹_›
    · cases hs
  | reconnect result =>
    simp only [act] at hs
    split at hs
    · rename_i hrun
      cases result with
      | refused => exact Option.some.inj hs ▸ .refused
      | broken => exact Option.some.inj hs ▸ .broken hrun
      | ok => exact Option.some.inj hs ▸ .reconnected hrun
    · cases hs
  | runHooks =>
    rw [act] at hs
    split_ifs at hs with hrun
    exact Option.some.inj hs ▸ .runHooks hrun
  | ephemerals ok order =>
    rw [act] at hs
    split at hs
    · rename_i hrun
      cases ok with
      | true => exact Option.some.inj hs ▸ .ephemerals hrun
      | false => exact Option.some.inj hs ▸ .ephemeralsFail hrun
    · cases hs
  | hook ok =>
    rw [act] at hs
    split at hs
    · rename_i hrun
      cases ok with
      | true => exact Option.some.inj hs ▸ .hook hrun
      | false => exact Option.some.inj hs ▸ .hookFails hrun
    · cases hs
  | hooked =>
    rw [act] at hs
    split at hs
    · exact Option.some.inj hs ▸ .hooked ‹_›
    · cases hs

theorem moves_of_step (hs : watcherMachine.step w e w') : Moves w e w' := by
  change w.step e = some w' at hs
  rw [step] at hs
  split at hs
  · cases hs
  · exact moves_of_act hs

/-! ## Watched nodes and their goroutines

What holds in every run: a watched node is known by a number that is given once, one that was
removed is not watched, and the loops of `run` go through nodes that are watched, since
`hooksLock` keeps anybody from changing that meanwhile. -/

/-- The watched node is in `watchedNodes`. -/
def Watches (w : Watcher) (wn : ℕ) : Prop := ∃ node, w.watchedNodes.lookup node = some wn

theorem mem_watched (order : IterOrder (Σ _ : Bytes, ℕ)) {wn : ℕ} :
    wn ∈ w.watched order ↔ w.Watches wn := by
  simp only [watched, List.mem_map, IterOrder.mem_arrange, Watches]
  constructor
  · rintro ⟨⟨node, wn⟩, hmem, rfl⟩
    exact ⟨node, AList.mem_lookup_iff.mpr hmem⟩
  · rintro ⟨node, hnode⟩
    exact ⟨⟨node, wn⟩, AList.mem_lookup_iff.mp hnode, rfl⟩

/-- The goroutines after a move are those before, or the one that has moved. -/
theorem mem_goesOn {g x : Goroutine} {next : Option WatchStage}
    (hx : x ∈ (w.goesOn g next).goroutines) :
    x ∈ w.goroutines ∨ ∃ stage, next = some stage ∧ x = ⟨g.wn, stage⟩ := by
  obtain hx | hx := Threads.mem_goesOn hx
  · obtain ⟨stage, hstage, rfl⟩ := Option.map_eq_some_iff.mp hx
    exact .inr ⟨stage, hstage, rfl⟩
  · exact .inl (List.mem_of_mem_erase hx)

/-- How a goroutine that goes on, or ends, counts. -/
theorem countP_goesOn {g : Goroutine} (hg : g ∈ w.goroutines) (next : Option WatchStage)
    (p : Goroutine → Bool) :
    (w.goesOn g next).goroutines.countP p + [g].countP p =
      w.goroutines.countP p + (next.map (Goroutine.mk g.wn)).toList.countP p :=
  Threads.countP_goesOn hg _ p

/-- What holds in every run. -/
structure Sound (w : Watcher) : Prop where
  /-- watched nodes are made before they are served -/
  served : ∀ g ∈ w.goroutines, g.wn < w.made
  /-- and before they are removed -/
  removed : ∀ wn ∈ w.removed, wn < w.made
  /-- those in `watchedNodes` are not removed -/
  watched : ∀ wn, w.Watches wn → wn < w.made ∧ wn ∉ w.removed
  /-- each is there once -/
  distinct : ∀ node node' wn, w.watchedNodes.lookup node = some wn →
    w.watchedNodes.lookup node' = some wn → node = node'
  /-- the loops of `run` are about them -/
  rest : w.run.rest.Nodup ∧ ∀ wn ∈ w.run.rest, w.Watches wn
  /-- channels are closed after `removeWatch` -/
  closing : ∀ g ∈ w.goroutines, g.stage = .closing → g.wn ∈ w.removed

namespace Sound

theorem new : Watcher.new.Sound where
  served := fun _ hg => by cases hg
  removed := fun _ hwn => by cases hwn
  watched := fun _ ⟨_, hnode⟩ => by cases hnode
  distinct := fun _ _ _ hnode => by cases hnode
  rest := ⟨List.nodup_nil, fun _ hwn => by cases hwn⟩
  closing := fun _ hg => by cases hg

variable (h : w.Sound)
include h

theorem nodup_watched (order : IterOrder (Σ _ : Bytes, ℕ)) : (w.watched order).Nodup := by
  have hentries : (order.arrange w.watchedNodes.entries).Nodup :=
    (order.perm _).nodup_iff.mpr w.watchedNodes.nodupKeys.nodup
  refine hentries.map_on fun x hx y hy hxy => ?_
  obtain ⟨node, wn⟩ := x
  obtain ⟨node', wn'⟩ := y
  obtain rfl : wn = wn' := hxy
  rw [IterOrder.mem_arrange] at hx hy
  obtain rfl := h.distinct node node' wn (AList.mem_lookup_iff.mpr hx) (AList.mem_lookup_iff.mpr hy)
  rfl

/-- What it is not about. -/
theorem idle {conn : ℕ} {errs panicked : Bool} {updatesCloses disconnectedCloses : ℕ → ℕ}
    {deliveries : List (ℕ × ℕ)} :
    Sound { w with
      conn := conn, errs := errs, updatesCloses := updatesCloses
      disconnectedCloses := disconnectedCloses, deliveries := deliveries, panicked := panicked } :=
  ⟨h.served, h.removed, h.watched, h.distinct, h.rest, h.closing⟩

theorem setRun {r : RunStage} (hrest : r.rest.Nodup ∧ ∀ wn ∈ r.rest, w.Watches wn) :
    Sound { w with run := r } :=
  ⟨h.served, h.removed, h.watched, h.distinct, hrest, h.closing⟩

theorem goes {g : Goroutine} (hg : g ∈ w.goroutines) {next : Option WatchStage}
    (hnext : next = some .closing → g.wn ∈ w.removed) : (w.goesOn g next).Sound := by
  refine ⟨fun x hx => ?_, h.removed, h.watched, h.distinct, h.rest, fun x hx hstage => ?_⟩
  · obtain hx | ⟨stage, -, rfl⟩ := mem_goesOn hx
    · exact h.served x hx
    · exact h.served g hg
  · obtain hx | ⟨stage, hs, rfl⟩ := mem_goesOn hx
    · exact h.closing x hx hstage
    · obtain rfl : stage = .closing := hstage
      exact hnext hs

/-- One more goroutine. -/
theorem start {g : Goroutine} (hg : g.wn < w.made) (hstage : g.stage ≠ .closing) :
    Sound { w with goroutines := g :: w.goroutines } where
  served := List.forall_mem_cons.mpr ⟨hg, h.served⟩
  removed := h.removed
  watched := h.watched
  distinct := h.distinct
  rest := h.rest
  closing := List.forall_mem_cons.mpr ⟨fun hs => absurd hs hstage, h.closing⟩

theorem watchChildren (hrun : w.run.unlocked) (node : Bytes) :
    Sound { w with watchedNodes := w.watchedNodes.insert node w.made, made := w.made + 1 } := by
  have hlookup : ∀ {node' wn}, (w.watchedNodes.insert node w.made).lookup node' = some wn →
      node' = node ∧ wn = w.made ∨ w.watchedNodes.lookup node' = some wn := by
    intro node' wn hnode
    by_cases heq : node' = node
    · subst heq
      rw [AList.lookup_insert] at hnode
      exact .inl ⟨rfl, (Option.some.inj hnode).symm⟩
    · rw [AList.lookup_insert_ne heq] at hnode
      exact .inr hnode
  have hnew : ∀ {node'}, w.watchedNodes.lookup node' ≠ some w.made := by
    intro node' hnode
    exact absurd (h.watched _ ⟨node', hnode⟩).1 (lt_irrefl _)
  refine ⟨fun g hg => Nat.lt_succ_of_lt (h.served g hg),
    fun wn hwn => Nat.lt_succ_of_lt (h.removed wn hwn), ?_, ?_, ?_, h.closing⟩
  · rintro wn ⟨node', hnode⟩
    obtain ⟨-, rfl⟩ | hnode := hlookup hnode
    · exact ⟨Nat.lt_succ_self _, fun hmem => absurd (h.removed _ hmem) (lt_irrefl _)⟩
    · obtain ⟨hmade, hnot⟩ := h.watched wn ⟨node', hnode⟩
      exact ⟨Nat.lt_succ_of_lt hmade, hnot⟩
  · intro node₁ node₂ wn h₁ h₂
    obtain ⟨rfl, rfl⟩ | hold₁ := hlookup h₁
    · obtain ⟨rfl, -⟩ | hold₂ := hlookup h₂
      · rfl
      · exact absurd hold₂ hnew
    · obtain ⟨rfl, rfl⟩ | hold₂ := hlookup h₂
      · exact absurd hold₁ hnew
      · exact h.distinct node₁ node₂ wn hold₁ hold₂
  · refine ⟨h.rest.1, fun wn hwn => ?_⟩
    rw [show w.run.rest = [] from RunStage.rest_of_unlocked hrun] at hwn
    cases hwn

theorem remove (hrun : w.run.unlocked) {node : Bytes} {wn : ℕ}
    (hnode : w.watchedNodes.lookup node = some wn) :
    Sound { w with
      watchedNodes := w.watchedNodes.erase node, removed := insert wn w.removed } := by
  have hlookup : ∀ {node' wn'}, (w.watchedNodes.erase node).lookup node' = some wn' →
      node' ≠ node ∧ w.watchedNodes.lookup node' = some wn' := AList.lookup_erase_eq_some
  refine ⟨h.served, fun wn' hwn' => ?_, ?_, fun node₁ node₂ wn' h₁ h₂ => ?_, ?_,
    fun g hg hstage => Finset.mem_insert_of_mem (h.closing g hg hstage)⟩
  · obtain rfl | hwn' := Finset.mem_insert.mp hwn'
    · exact (h.watched _ ⟨node, hnode⟩).1
    · exact h.removed wn' hwn'
  · rintro wn' ⟨node', hnode'⟩
    obtain ⟨hne, hold⟩ := hlookup hnode'
    obtain ⟨hmade, hnot⟩ := h.watched wn' ⟨node', hold⟩
    refine ⟨hmade, fun hmem => ?_⟩
    obtain rfl | hmem := Finset.mem_insert.mp hmem
    · exact hne (h.distinct node' node wn' hold hnode)
    · exact hnot hmem
  · exact h.distinct node₁ node₂ wn' (hlookup h₁).2 (hlookup h₂).2
  · refine ⟨h.rest.1, fun wn' hwn' => ?_⟩
    rw [show w.run.rest = [] from RunStage.rest_of_unlocked hrun] at hwn'
    cases hwn'

/-- `run` starts to go through the watched nodes. -/
theorem setWatched (order : IterOrder (Σ _ : Bytes, ℕ)) {r : RunStage}
    (hr : r.rest = w.watched order) : Sound { w with run := r } := by
  refine h.setRun ?_
  rw [hr]
  exact ⟨h.nodup_watched order, fun wn hwn => (mem_watched order).mp hwn⟩

/-- `run` is through with one of them. -/
theorem setTail {wn : ℕ} {rest : List ℕ} (hrun : w.run.rest = wn :: rest) {r : RunStage}
    (hr : r.rest = rest) : Sound { w with run := r } := by
  refine h.setRun ?_
  obtain ⟨hnodup, hwatches⟩ := h.rest
  rw [hrun] at hnodup hwatches
  rw [hr]
  exact ⟨(List.nodup_cons.mp hnodup).2, fun wn hwn => hwatches wn (List.mem_cons_of_mem _ hwn)⟩

/-- `run` is not in a loop. -/
theorem setIdle {r : RunStage} (hr : r.rest = []) : Sound { w with run := r } := by
  refine h.setRun ?_
  rw [hr]
  exact ⟨List.nodup_nil, fun wn hwn => by cases hwn⟩

/-- **Every event keeps it.** -/
theorem moves (hs : Moves w e w') : w'.Sound := by
  cases hs with
  | @watchChildren node ok hrun =>
    have hstart := (h.watchChildren hrun node).start
      (g := ⟨w.made, if ok then .offer w.conn else .placeholder⟩) (Nat.lt_succ_self _)
      (by cases ok <;> simp)
    exact hstart.idle
  | removeNone => exact h
  | remove hrun hnode => exact h.remove hrun hnode
  | error => exact h.idle
  | deliver hg => exact (h.goes hg (by simp)).idle
  | panics => exact h.idle
  | event hg => exact h.goes hg (by simp)
  | badEvent hg => exact (h.goes hg (by simp)).idle
  | reread hg => exact h.goes hg (by simp)
  | rereadFails hg => exact (h.goes hg (by simp)).idle
  | canceled hg hstage hremoved => exact h.goes hg fun _ => hremoved
  | closeChannels hg => exact (h.goes hg (by simp)).idle
  | @takeError order hrun =>
    exact (h.setWatched order (r := .cancelling (w.watched order) false) rfl).idle
  | shutdown hrun => exact h.setWatched _ rfl
  | @cancel g rest final hrun hg =>
    have hrest : w.run.rest = g.wn :: rest := congrArg RunStage.rest hrun
    refine (h.setTail hrest (r := .cancelling rest final) rfl).goes hg ?_
    simp
  | cancelled hrun => exact h.setIdle (by split <;> rfl)
  | refused => exact h
  | broken hrun => exact h.idle
  | reconnected hrun => exact (h.setIdle (r := .connected) rfl).idle
  | runHooks hrun => exact h.setIdle rfl
  | ephemerals hrun => exact h.setWatched _ rfl
  | ephemeralsFail hrun => exact h.setIdle rfl
  | @hook wn started rest hrun =>
    have hrest : w.run.rest = wn :: rest := congrArg RunStage.rest hrun
    have hwn := h.rest.2 wn (hrest ▸ List.mem_cons_self ..)
    refine (h.setTail hrest (r := .hooks (wn :: started) rest) rfl).start (h.watched wn hwn).1 ?_
    simp
  | hookFails hrun => exact h.setIdle rfl
  | hooked hrun => exact h.setIdle rfl

end Sound

theorem sound_of_reachable (h : watcherMachine.Reachable w) : w.Sound := by
  refine h.invariant (fun s hs => ?_) fun s e s' _ hsound hs => ?_
  · rw [show s = new from hs]
    exact .new
  · exact hsound.moves (moves_of_step hs)

end Watcher

end Sequins
