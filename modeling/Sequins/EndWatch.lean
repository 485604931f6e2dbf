import Sequins.Watcher

/-!
# The end of a watch

Whoever watches a znode reads from `updates` until it is closed, so `removeWatch` has to see to it
that it is. `removeWatch` itself only closes `cancel`, and leaves the rest to the goroutine that
serves the watched node: on finding `cancel` closed it closes `updates` and `disconnected`.

That takes a goroutine which does so. Between `cancelWatches` and `runHooks` there is none, and then
the channels are never closed (`removed_while_disconnected`). The one that `watchChildren` starts
when it fails does not, and neither does one that has got a bad event, since it throws away what it
receives from `cancel`. If there is exactly one when `removeWatch` is called, and it does not get a
bad event afterwards, the channels are closed once each (`removed_watch_ends`).
-/

namespace Sequins

/-- A goroutine at this stage closes the channels if it finds `cancel` closed. -/
def WatchStage.closes : WatchStage → Bool
  | .badEvent => false
  | .placeholder => false
  | _ => true

namespace Watcher

variable {w w' : Watcher} {e : WatcherEvent}

/-- How many goroutines are going to close the channels of a watched node, once `cancel` is
closed. -/
def closers (w : Watcher) (wn : ℕ) : ℕ :=
  w.goroutines.countP fun g => decide (g.wn = wn) && g.stage.closes

/-- `removeWatch` is called for a node whose channels exactly one goroutine is going to close, and
no goroutine gets a bad event after `removeWatch`. -/
def EndsServed (w : Watcher) : WatcherEvent → Prop
  | .removeWatch node => ∀ wn ∈ w.watchedNodes.lookup node, w.closers wn = 1
  | .event g ok => ok = false → g.wn ∉ w.removed
  | _ => True

instance (w : Watcher) : DecidablePred w.EndsServed
  | .removeWatch node => inferInstanceAs (Decidable (∀ wn ∈ w.watchedNodes.lookup node, _ = _))
  | .event .. => inferInstanceAs (Decidable (_ → _ ∉ w.removed))
  | .watchChildren .. | .error | .deliver _ | .reread .. | .canceled _ | .closeChannels _
  | .takeError _ | .shutdown _ | .cancel _ | .cancelled | .reconnect _ | .runHooks
  | .ephemerals .. | .hook _ | .hooked => isTrue trivial

/-- A goroutine that goes on is counted at its new stage and not at its old one. -/
theorem closers_goesOn {g : Goroutine} (hg : g ∈ w.goroutines) (next : Option WatchStage)
    (wn : ℕ) :
    (w.goesOn g next).closers wn + (if g.wn = wn ∧ g.stage.closes then 1 else 0) =
      w.closers wn + (if g.wn = wn ∧ next.any WatchStage.closes then 1 else 0) := by
  have h := countP_goesOn hg next fun g => decide (g.wn = wn) && g.stage.closes
  simp only [List.countP_cons, List.countP_nil, Bool.and_eq_true, decide_eq_true_eq,
    Nat.zero_add] at h
  rw [closers, closers, h]
  cases next with
  | none => simp
  | some stage => simp

theorem closers_goesOn_of_ne {g : Goroutine} (hg : g ∈ w.goroutines) (next : Option WatchStage)
    {wn : ℕ} (hwn : g.wn ≠ wn) : (w.goesOn g next).closers wn = w.closers wn := by
  have h := closers_goesOn hg next wn
  rwa [if_neg fun hor => hwn hor.1, if_neg fun hor => hwn hor.1] at h

theorem closers_cons_of_ne {g : Goroutine} {wn : ℕ} (hwn : g.wn ≠ wn) :
    closers { w with goroutines := g :: w.goroutines } wn = w.closers wn := by
  simp [closers, hwn]

/-- The channels of a watched node are closed by the one goroutine that is there to do it. -/
structure Ends (w : Watcher) : Prop where
  /-- both are closed together -/
  same : ∀ wn, w.disconnectedCloses wn = w.updatesCloses wn
  /-- and not before `removeWatch` -/
  unclosed : ∀ wn, wn ∉ w.removed → w.updatesCloses wn = 0
  /-- after it, they are closed, or one goroutine is going to close them -/
  ends : ∀ wn ∈ w.removed, w.closers wn + w.updatesCloses wn = 1

namespace Ends

theorem new : Watcher.new.Ends where
  same := fun _ => rfl
  unclosed := fun _ _ => rfl
  ends := fun _ hwn => by cases hwn

variable (h : w.Ends)
include h

/-- What it is not about. -/
theorem idle {conn made : ℕ} {errs panicked : Bool} {watchedNodes : AList fun _ : Bytes => ℕ}
    {run : RunStage} {deliveries : List (ℕ × ℕ)} :
    Ends { w with
      conn := conn, errs := errs, watchedNodes := watchedNodes, made := made, run := run
      deliveries := deliveries, panicked := panicked } :=
  ⟨h.same, h.unclosed, h.ends⟩

/-- A goroutine of a node that is not removed starts. -/
theorem start {g : Goroutine} (hg : g.wn ∉ w.removed) :
    Ends { w with goroutines := g :: w.goroutines } := by
  refine ⟨h.same, h.unclosed, fun wn hwn => ?_⟩
  have hne : g.wn ≠ wn := fun heq => hg (heq ▸ hwn)
  rw [closers_cons_of_ne hne]
  exact h.ends wn hwn

/-- A goroutine of a node that is not removed does anything. -/
theorem goes_other {g : Goroutine} (hg : g ∈ w.goroutines) (hnot : g.wn ∉ w.removed)
    (next : Option WatchStage) : (w.goesOn g next).Ends := by
  refine ⟨h.same, h.unclosed, fun wn hwn => ?_⟩
  have hne : g.wn ≠ wn := fun heq => hnot (heq ▸ hwn)
  rw [closers_goesOn_of_ne hg next hne]
  exact h.ends wn hwn

/-- A goroutine goes on, and what it is going to do about the channels does not change. -/
theorem goes {g : Goroutine} (hg : g ∈ w.goroutines) {next : Option WatchStage}
    (hnext : next.any WatchStage.closes = g.stage.closes) : (w.goesOn g next).Ends := by
  refine ⟨h.same, h.unclosed, fun wn hwn => ?_⟩
  have hcount := closers_goesOn hg next wn
  rw [hnext] at hcount
  rw [Nat.add_right_cancel hcount]
  exact h.ends wn hwn

/-- `removeWatch`: from now on the one goroutine is waited for. -/
theorem remove (hsound : w.Sound) {node : Bytes} {wn : ℕ}
    (hnode : w.watchedNodes.lookup node = some wn) (hone : w.closers wn = 1) :
    Ends { w with watchedNodes := w.watchedNodes.erase node, removed := insert wn w.removed } := by
  refine ⟨h.same, fun wn' hwn' => ?_, fun wn' hwn' => ?_⟩
  · exact h.unclosed wn' fun hmem => hwn' (Finset.mem_insert_of_mem hmem)
  · obtain rfl | hwn' := Finset.mem_insert.mp hwn'
    · have hopen := h.unclosed wn' (hsound.watched wn' ⟨node, hnode⟩).2
      change w.closers wn' + w.updatesCloses wn' = 1
      rw [hone, hopen]
    · exact h.ends wn' hwn'

/-- The goroutine closes the channels and ends. -/
theorem closeChannels (hsound : w.Sound) {g : Goroutine} (hg : g ∈ w.goroutines)
    (hstage : g.stage = .closing) (panicked : Bool) :
    Ends { w.goesOn g none with
      updatesCloses := Function.update w.updatesCloses g.wn (w.updatesCloses g.wn + 1)
      disconnectedCloses :=
        Function.update w.disconnectedCloses g.wn (w.disconnectedCloses g.wn + 1)
      panicked := panicked } := by
  have hremoved := hsound.closing g hg hstage
  refine ⟨fun wn => ?_, fun wn hwn => ?_, fun wn hwn => ?_⟩
  · by_cases heq : wn = g.wn
    · subst heq
      simp [h.same]
    · simp [heq, h.same]
  · have hne : wn ≠ g.wn := fun heq => hwn (heq ▸ hremoved)
    change Function.update w.updatesCloses g.wn _ wn = 0
    rw [Function.update_of_ne hne]
    exact h.unclosed wn hwn
  · have hends := h.ends wn hwn
    have hcount := closers_goesOn hg none wn
    change (w.goesOn g none).closers wn + Function.update w.updatesCloses g.wn _ wn = 1
    by_cases heq : g.wn = wn
    · subst heq
      rw [if_pos ⟨rfl, by rw [hstage]; rfl⟩, if_neg (by simp)] at hcount
      rw [Function.update_self]
      omega
    · rw [closers_goesOn_of_ne hg none heq, Function.update_of_ne (Ne.symm heq)]
      exact hends

/-- **One event.** A bad event would take the goroutine away, and is ruled out. -/
theorem moves (hsound : w.Sound) (hin : w.EndsServed e) (hs : Moves w e w') : w'.Ends := by
  have hwatched : ∀ wn ∈ w.run.rest, wn ∉ w.removed :=
    fun wn hwn => (hsound.watched wn (hsound.rest.2 wn hwn)).2
  cases hs with
  | @watchChildren node ok hrun =>
    have hnew : w.made ∉ w.removed := fun hmem => absurd (hsound.removed _ hmem) (lt_irrefl _)
    exact (h.start (g := ⟨w.made, _⟩) hnew).idle
  | removeNone => exact h
  | remove hrun hnode => exact h.remove hsound hnode (hin _ hnode)
  | error => exact h.idle
  | deliver hg => exact (h.goes hg rfl).idle
  | panics => exact h.idle
  | event hg hstage => exact h.goes hg (by rw [hstage]; rfl)
  | badEvent hg hstage => exact (h.goes_other hg (hin rfl) _).idle
  | reread hg hstage => exact h.goes hg (by rw [hstage]; rfl)
  | rereadFails hg hstage => exact (h.goes hg (by rw [hstage]; rfl)).idle
  | @canceled g hg hstage hremoved =>
    refine h.goes hg ?_
    cases hs : g.stage with
    | reread =>
      rw [hs] at hstage
      cases hstage
    | _ => rfl
  | closeChannels hg hstage => exact h.closeChannels hsound hg hstage _
  | takeError hrun => exact h.idle
  | shutdown hrun => exact h.idle
  | @cancel g rest final hrun hg =>
    have hnot := hwatched g.wn (by rw [hrun]; exact List.mem_cons_self ..)
    exact (h.goes_other hg hnot none).idle
  | cancelled hrun => exact h.idle
  | refused => exact h
  | broken hrun => exact h.idle
  | reconnected hrun => exact h.idle
  | runHooks hrun => exact h.idle
  | ephemerals hrun => exact h.idle
  | ephemeralsFail hrun => exact h.idle
  | @hook wn started rest hrun =>
    have hnot := hwatched wn (by rw [hrun]; exact List.mem_cons_self ..)
    exact (h.start (g := ⟨wn, .offer w.conn⟩) hnot).idle
  | hookFails hrun => exact h.idle
  | hooked hrun => exact h.idle

end Ends

theorem ends_of_reachable (h : (watcherMachine.restrict EndsServed).Reachable w) : w.Ends := by
  refine h.invariant (P := Ends) (fun s hs => ?_) fun s e s' hreach hends hs => ?_
  · rw [show s = new from hs]
    exact .new
  · exact hends.moves (sound_of_reachable hreach.of_restrict) hs.1 (moves_of_step hs.2)

end Watcher

/-- **`removeWatch` ends the subscription.** In every run in which `removeWatch` is only called for
a node whose channels exactly one goroutine is going to close, and in which no goroutine gets a bad
event after `removeWatch`: once no goroutine serves a removed node anymore, its `updates` and
`disconnected` are closed, each once. -/
theorem removed_watch_ends {w : Watcher}
    (h : (watcherMachine.restrict Watcher.EndsServed).Reachable w) {wn : ℕ}
    (hremoved : wn ∈ w.removed) (hdone : ∀ g ∈ w.goroutines, g.wn ≠ wn) :
    w.updatesCloses wn = 1 ∧ w.disconnectedCloses wn = 1 := by
  have hends := Watcher.ends_of_reachable h
  have hzero : w.closers wn = 0 := by
    rw [Watcher.closers, List.countP_eq_zero]
    intro g hg hcount
    simp only [Bool.and_eq_true, decide_eq_true_eq] at hcount
    exact hdone g hg hcount.1
  have hone := hends.ends wn hremoved
  rw [hzero, Nat.zero_add] at hone
  exact ⟨hone, (hends.same wn).trans hone⟩

/-- A znode is watched and not anymore. -/
def removesServed : List WatcherEvent :=
  [.watchChildren [112] true, .deliver ⟨0, .offer 0⟩, .removeWatch [112], .canceled ⟨0, .await⟩,
    .closeChannels ⟨0, .closing⟩]

/-- The goroutine finds `cancel` closed, and closes the channels. -/
theorem removed_watch_ends_served :
    ∃ w, (watcherMachine.restrict Watcher.EndsServed).Reachable w ∧
      w.updatesCloses 0 = 1 ∧ w.disconnectedCloses 0 = 1 :=
  have hreach : (watcherMachine.restrict Watcher.EndsServed).Reachable _ :=
    .runGuarded (.start rfl) removesServed rfl
  ⟨_, hreach, removed_watch_ends hreach (by decide) (by decide)⟩

/-- A version is closed while the watcher is not connected. -/
def removesDisconnected : List WatcherEvent :=
  [.watchChildren [112] true, .error, .takeError (.stored _), .cancel ⟨0, .offer 0⟩, .cancelled,
    .removeWatch [112], .reconnect .ok, .runHooks, .ephemerals true (.stored _), .hooked]

/-- **A watch that is removed while there is no goroutine.** Nobody is left to close the
channels. -/
theorem removed_while_disconnected :
    ∃ w, watcherMachine.Reachable w ∧ 0 ∈ w.removed ∧ w.goroutines = [] ∧ w.run = .select ∧
      w.updatesCloses 0 = 0 ∧ w.disconnectedCloses 0 = 0 :=
  ⟨_, .run (.start rfl) removesDisconnected rfl, by decide, rfl, rfl, rfl, rfl⟩

-- a bad event comes while `cancel` is closed
example : ∃ w, watcherMachine.Reachable w ∧ 0 ∈ w.removed ∧ w.goroutines = [] ∧
    w.updatesCloses 0 = 0 :=
  ⟨_, .run (.start rfl) [.watchChildren [112] true, .deliver ⟨0, .offer 0⟩, .removeWatch [112],
    .event ⟨0, .await⟩ false, .canceled ⟨0, .badEvent⟩] rfl, by decide, rfl, rfl⟩

end Sequins
