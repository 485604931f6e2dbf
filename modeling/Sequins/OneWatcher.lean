import Sequins.Watcher

/-!
# One goroutine for each watched node

`cancelWatches` sends one value on the `cancel` of every watched node, so each has to have exactly
one goroutine then, and none when `runHooks` starts new ones. The stage of `run` says for which
watched nodes there is one (`RunStage.serves`), and every event keeps to it (`Paired.moves`), except
in three situations: `runHooks` fails after it has started a watch, so that the next one starts
it again; `watchChildren` is called between `cancelWatches` and `runHooks`; or the watcher is shut
down then, and `cancelWatches` waits for goroutines that are gone.

With two goroutines for a watched node, a list that was read on an old connection can be delivered
after one that was read on the new connection (`hooksFail_old_list_last`). Apart from these
situations there is one (`one_watcher`).
-/

namespace Sequins

/-- At this stage, a watched node has its goroutine. -/
def RunStage.serves (r : RunStage) (wn : ℕ) : Bool :=
  match r with
  | .select => true
  | .cancelling rest _ => rest.contains wn
  | .hooks _ rest => !rest.contains wn
  | _ => false

/-- The watches that `runHooks` has started. -/
def RunStage.started : RunStage → List ℕ
  | .hooks started _ => started
  | _ => []

namespace Watcher

variable {w w' : Watcher} {e : WatcherEvent}

/-- How many goroutines serve a watched node. -/
def serving (w : Watcher) (wn : ℕ) : ℕ := w.goroutines.countP fun g => g.wn = wn

/-- `watchChildren` is not called between `cancelWatches` and the end of `runHooks`, the watcher is
not shut down then unless nothing is watched, and `runHooks` does not fail once it has started a
watch. -/
def InOrder (w : Watcher) : WatcherEvent → Prop
  | .watchChildren _ _ => w.run = .select ∨ w.run = .done
  | .shutdown _ => w.run = .waiting → w.watchedNodes.keys = []
  | .hook ok => ok = false → w.run.started = []
  | _ => True

instance (w : Watcher) : DecidablePred w.InOrder
  | .watchChildren .. => inferInstanceAs (Decidable (_ ∨ _))
  | .shutdown _ => inferInstanceAs (Decidable (_ → w.watchedNodes.keys = []))
  | .hook _ => inferInstanceAs (Decidable (_ → w.run.started = []))
  | .removeWatch _ | .error | .deliver _ | .event .. | .reread .. | .canceled _ | .closeChannels _
  | .takeError _ | .cancel _ | .cancelled | .reconnect _ | .runHooks | .ephemerals ..
  | .hooked => isTrue trivial

/-! ## Counting goroutines -/

theorem serving_goesOn_some {g : Goroutine} (hg : g ∈ w.goroutines) (stage : WatchStage) (wn : ℕ) :
    (w.goesOn g (some stage)).serving wn = w.serving wn := by
  have h := countP_goesOn hg (some stage) fun g => decide (g.wn = wn)
  simp only [Option.map_some, Option.toList_some, List.countP_cons, List.countP_nil] at h
  exact Nat.add_right_cancel h

theorem serving_goesOn_none {g : Goroutine} (hg : g ∈ w.goroutines) (wn : ℕ) :
    (w.goesOn g none).serving wn + (if g.wn = wn then 1 else 0) = w.serving wn := by
  have h := countP_goesOn hg none fun g => decide (g.wn = wn)
  simp only [Option.map_none, Option.toList_none, List.countP_cons, List.countP_nil,
    decide_eq_true_eq, Nat.zero_add, Nat.add_zero] at h
  exact h

theorem serving_goesOn_le {g : Goroutine} (hg : g ∈ w.goroutines) (next : Option WatchStage)
    (wn : ℕ) : (w.goesOn g next).serving wn ≤ w.serving wn := by
  cases next with
  | some stage => exact (serving_goesOn_some hg stage wn).le
  | none =>
    have h := serving_goesOn_none hg wn
    omega

theorem serving_goesOn_of_ne {g : Goroutine} (hg : g ∈ w.goroutines) (next : Option WatchStage)
    {wn : ℕ} (hwn : g.wn ≠ wn) : (w.goesOn g next).serving wn = w.serving wn := by
  cases next with
  | some stage => exact serving_goesOn_some hg stage wn
  | none =>
    have h := serving_goesOn_none hg wn
    rwa [if_neg hwn] at h

theorem serving_cons (g : Goroutine) (wn : ℕ) :
    serving { w with goroutines := g :: w.goroutines } wn =
      w.serving wn + if g.wn = wn then 1 else 0 := by
  simp only [serving, List.countP_cons, decide_eq_true_eq]

/-- A number that has not been given has no goroutines. -/
theorem serving_made (h : w.Sound) : w.serving w.made = 0 := by
  rw [serving, List.countP_eq_zero]
  intro g hg heq
  have hlt := h.served g hg
  rw [of_decide_eq_true heq] at hlt
  exact lt_irrefl _ hlt

theorem serving_eq (w : Watcher) (wn : ℕ) :
    w.serving wn = (w.goroutines.filter fun g => g.wn = wn).length := List.countP_eq_length_filter

theorem eq_of_serving_le {wn : ℕ} (hone : w.serving wn ≤ 1) {x y : Goroutine}
    (hx : x ∈ w.goroutines) (hy : y ∈ w.goroutines) (hxwn : x.wn = wn) (hywn : y.wn = wn) :
    x = y := by
  have hx' : x ∈ w.goroutines.filter fun g => g.wn = wn := by simp [hx, hxwn]
  have hy' : y ∈ w.goroutines.filter fun g => g.wn = wn := by simp [hy, hywn]
  rw [serving_eq] at hone
  rcases hf : w.goroutines.filter fun g => g.wn = wn with _ | ⟨z, _ | ⟨z', l⟩⟩
  · rw [hf] at hx'
    cases hx'
  · rw [hf] at hx' hy'
    rw [List.mem_singleton.mp hx', List.mem_singleton.mp hy']
  · rw [hf] at hone
    simp at hone

/-! ## Goroutines and the run loop

Where `run` stands decides for which watched nodes there is a goroutine: for all at its select,
for those it has not come to in `cancelWatches`, and for those it has come to in `runHooks`. -/

/-- Each watched node has at most one goroutine, and the stage of `run` says which have one. -/
structure Paired (w : Watcher) : Prop where
  one : ∀ wn, w.serving wn ≤ 1
  serves : w.run ≠ .done → ∀ wn, w.Watches wn → w.serving wn = if w.run.serves wn then 1 else 0
  /-- before `runHooks` starts the first watch, all are to be started -/
  fresh : ∀ rest, w.run = .hooks [] rest → ∀ wn, w.Watches wn → wn ∈ rest

namespace Paired

theorem new : Watcher.new.Paired where
  one := fun _ => Nat.zero_le _
  serves := fun _ _ ⟨_, hnode⟩ => by cases hnode
  fresh := fun _ hrun => by cases hrun

variable (h : w.Paired)
include h

/-- What it is not about. -/
theorem idle {conn : ℕ} {errs panicked : Bool} {removed : Finset ℕ}
    {updatesCloses disconnectedCloses : ℕ → ℕ} {deliveries : List (ℕ × ℕ)} :
    Paired { w with
      conn := conn, errs := errs, removed := removed, updatesCloses := updatesCloses
      disconnectedCloses := disconnectedCloses, deliveries := deliveries, panicked := panicked } :=
  ⟨h.one, h.serves, h.fresh⟩

/-- A goroutine goes on, or ends that serves a node which is not watched. -/
theorem goes {g : Goroutine} (hg : g ∈ w.goroutines) {next : Option WatchStage}
    (hnext : next = none → ¬ w.Watches g.wn) : (w.goesOn g next).Paired := by
  refine ⟨fun wn => (serving_goesOn_le hg next wn).trans (h.one wn), fun hdone wn hwn => ?_,
    h.fresh⟩
  have hsame : (w.goesOn g next).serving wn = w.serving wn := by
    cases next with
    | some stage => exact serving_goesOn_some hg stage wn
    | none =>
      refine serving_goesOn_of_ne hg none ?_
      rintro rfl
      exact hnext rfl hwn
  rw [hsame]
  exact h.serves hdone wn hwn

/-- `run` goes on, and nothing has to change. -/
theorem setRun {r q : RunStage} (hrun : w.run = r) (hdone : r ≠ .done)
    (hsame : q ≠ .done → ∀ wn, w.Watches wn → q.serves wn = r.serves wn)
    (hfresh : ∀ rest, q = .hooks [] rest → ∀ wn, w.Watches wn → wn ∈ rest) :
    Paired { w with run := q } := by
  refine ⟨h.one, fun hr wn hwn => ?_, hfresh⟩
  rw [hsame hr wn hwn, ← hrun]
  exact h.serves (hrun ▸ hdone) wn hwn

/-- The same nodes are served, and no watch is about to be started. -/
theorem setRun_of_serves {r q : RunStage} (hrun : w.run = r) (hdone : r ≠ .done)
    (hserves : q.serves = r.serves) (hhooks : ∀ rest, q ≠ .hooks [] rest) :
    Paired { w with run := q } := by
  apply h.setRun hrun hdone
  · intro _ wn _
    rw [hserves]
  · intro rest hq
    exact absurd hq (hhooks rest)

/-- A new watched node, with a goroutine, while `run` is at its select. -/
theorem watchChildren (hsound : w.Sound) (hrun : w.run = .select ∨ w.run = .done) (node : Bytes)
    (stage : WatchStage) :
    Paired { w with
      watchedNodes := w.watchedNodes.insert node w.made
      made := w.made + 1
      goroutines := ⟨w.made, stage⟩ :: w.goroutines } := by
  have hserving : ∀ wn, serving { w with
      watchedNodes := w.watchedNodes.insert node w.made
      made := w.made + 1
      goroutines := ⟨w.made, stage⟩ :: w.goroutines } wn =
      w.serving wn + if w.made = wn then 1 else 0 := fun wn => serving_cons ⟨w.made, stage⟩ wn
  refine ⟨fun wn => ?_, fun hdone wn hwn => ?_, fun rest hr => ?_⟩
  · rw [hserving]
    split
    · subst_vars
      rw [serving_made hsound]
    · exact h.one wn
  · have hselect : w.run = .select := hrun.resolve_right hdone
    rw [hserving, show (if w.run.serves wn then 1 else 0) = 1 by rw [hselect]; rfl]
    obtain ⟨node', hnode⟩ := hwn
    dsimp only at hnode
    by_cases heq : node' = node
    · subst heq
      rw [AList.lookup_insert] at hnode
      obtain rfl := Option.some.inj hnode
      rw [serving_made hsound, if_pos rfl]
    · rw [AList.lookup_insert_ne heq] at hnode
      have hlt := (hsound.watched wn ⟨node', hnode⟩).1
      have hone := h.serves (by rw [hselect]; simp) wn ⟨node', hnode⟩
      rw [hone, hselect, if_neg hlt.ne']
      rfl
  · obtain hrun | hrun := hrun
    all_goals
      rw [show w.run = _ from hr] at hrun
      cases hrun

/-- A node that is not watched any more keeps its goroutine until that has seen it. -/
theorem remove (node : Bytes) (removed : Finset ℕ) :
    Paired { w with watchedNodes := w.watchedNodes.erase node, removed := removed } := by
  have hwatches : ∀ wn, Watches { w with
      watchedNodes := w.watchedNodes.erase node, removed := removed } wn → w.Watches wn :=
    fun wn ⟨node', hnode⟩ => ⟨node', (AList.lookup_erase_eq_some hnode).2⟩
  exact ⟨h.one, fun hdone wn hwn => h.serves hdone wn (hwatches wn hwn),
    fun rest hr wn hwn => h.fresh rest hr wn (hwatches wn hwn)⟩

/-- `cancelWatches` gets rid of a value, and a goroutine ends. -/
theorem cancel (hsound : w.Sound) {g : Goroutine} (hg : g ∈ w.goroutines) {rest : List ℕ}
    {final : Bool} (hrun : w.run = .cancelling (g.wn :: rest) final) :
    Paired { w.goesOn g none with run := .cancelling rest final } := by
  have hnodup : g.wn ∉ rest := by
    have hrest := hsound.rest.1
    rw [hrun] at hrest
    exact (List.nodup_cons.mp hrest).1
  refine ⟨fun wn => (serving_goesOn_le hg none wn).trans (h.one wn), fun _ wn hwn => ?_,
    fun rest' hr => by cases hr⟩
  have hserves := h.serves (by rw [hrun]; simp) wn hwn
  have hnone := serving_goesOn_none hg wn
  change (w.goesOn g none).serving wn = if rest.contains wn then 1 else 0
  by_cases heq : g.wn = wn
  · subst heq
    have hnot : rest.contains g.wn = false := by simpa using hnodup
    have hle := h.one g.wn
    rw [if_pos rfl] at hnone
    rw [hnot, if_neg (by simp)]
    omega
  · rw [if_neg heq, Nat.add_zero] at hnone
    rw [hnone, hserves, hrun]
    simp [RunStage.serves, Ne.symm heq]

/-- `runHooks` starts a watch. -/
theorem hook (hsound : w.Sound) {wn : ℕ} {started rest : List ℕ}
    (hrun : w.run = .hooks started (wn :: rest)) (stage : WatchStage) :
    Paired { w with
      goroutines := ⟨wn, stage⟩ :: w.goroutines, run := .hooks (wn :: started) rest } := by
  obtain ⟨hnodup, hwatches⟩ := hsound.rest
  rw [hrun] at hnodup hwatches
  have hzero : w.serving wn = 0 := by
    have hserves := h.serves (by rw [hrun]; simp) wn (hwatches wn (List.mem_cons_self ..))
    rw [hserves, hrun]
    simp [RunStage.serves]
  have hserving : ∀ wn', serving { w with
      goroutines := ⟨wn, stage⟩ :: w.goroutines, run := .hooks (wn :: started) rest } wn' =
      w.serving wn' + if wn = wn' then 1 else 0 := fun wn' => serving_cons ⟨wn, stage⟩ wn'
  refine ⟨fun wn' => ?_, fun _ wn' hwn' => ?_, fun rest' hr => by cases hr⟩
  · rw [hserving]
    split
    · subst_vars
      rw [hzero]
    · exact h.one wn'
  · rw [hserving]
    change _ = if !rest.contains wn' then 1 else 0
    by_cases heq : wn = wn'
    · subst heq
      have hnot : rest.contains wn = false := by simpa using (List.nodup_cons.mp hnodup).1
      rw [hzero, if_pos rfl, hnot]
      rfl
    · rw [if_neg heq, Nat.add_zero, h.serves (by rw [hrun]; simp) wn' hwn', hrun]
      simp [RunStage.serves, Ne.symm heq]

/-- **One event.** -/
theorem moves (hsound : w.Sound) (hin : w.InOrder e) (hs : Moves w e w') : w'.Paired := by
  cases hs with
  | watchChildren hrun => exact (h.watchChildren hsound hin _ _).idle
  | removeNone => exact h
  | remove hrun hnode => exact h.remove _ _
  | error => exact h.idle
  | deliver hg => exact (h.goes hg (by simp)).idle
  | panics => exact h.idle
  | event hg => exact h.goes hg (by simp)
  | badEvent hg => exact (h.goes hg (by simp)).idle
  | reread hg => exact h.goes hg (by simp)
  | rereadFails hg => exact (h.goes hg (by simp)).idle
  | canceled hg hstage hremoved =>
    exact h.goes hg fun _ hwatches => (hsound.watched _ hwatches).2 hremoved
  | closeChannels hg hstage =>
    have hremoved := hsound.closing _ hg hstage
    exact (h.goes hg fun _ hwatches => (hsound.watched _ hwatches).2 hremoved).idle
  | @takeError order hrun =>
    have hset := h.setRun (q := .cancelling (w.watched order) false) hrun (by simp)
      (fun _ wn hwn => by simpa [RunStage.serves] using (mem_watched order).mpr hwn)
      (fun _ hr => by cases hr)
    exact hset.idle
  | @shutdown order hrun =>
    obtain hrun | hrun := hrun
    · exact h.setRun hrun (by simp)
        (fun _ wn hwn => by simpa [RunStage.serves] using (mem_watched order).mpr hwn)
        (fun _ hr => by cases hr)
    · -- nothing is watched
      refine h.setRun hrun (by simp) (fun _ wn ⟨node, hnode⟩ => ?_) (fun _ hr => by cases hr)
      have hmem : node ∈ w.watchedNodes.keys := AList.lookup_isSome.mp (hnode ▸ rfl)
      rw [hin hrun] at hmem
      cases hmem
  | cancel hrun hg => exact h.cancel hsound hg hrun
  | @cancelled final hrun =>
    cases final with
    | true => exact h.setRun hrun (by simp) (fun hr => absurd rfl hr) (fun _ hr => by cases hr)
    | false => exact h.setRun_of_serves hrun (by simp) rfl (by simp)
  | refused => exact h
  | broken hrun => exact h.idle
  | reconnected hrun =>
    exact (h.setRun_of_serves (q := .connected) hrun (by simp) rfl (by simp)).idle
  | runHooks hrun => exact h.setRun_of_serves hrun (by simp) rfl (by simp)
  | @ephemerals order hrun =>
    refine h.setRun hrun (by simp) (fun _ wn hwn => ?_) (fun rest hr wn hwn => ?_)
    · simpa [RunStage.serves] using (mem_watched order).mpr hwn
    · obtain rfl : w.watched order = rest := by simpa using hr
      exact (mem_watched order).mpr hwn
  | ephemeralsFail hrun => exact h.setRun_of_serves hrun (by simp) rfl (by simp)
  | hook hrun => exact h.hook hsound hrun _
  | @hookFails wn started rest hrun =>
    have hstarted : started = [] := by
      have hnil := hin rfl
      rwa [hrun] at hnil
    subst hstarted
    refine h.setRun hrun (by simp) (fun _ wn' hwn' => ?_) (fun _ hr => by cases hr)
    have hmem : (wn :: rest).contains wn' = true := by simpa using h.fresh _ hrun wn' hwn'
    change false = !(wn :: rest).contains wn'
    rw [hmem]
    rfl
  | hooked hrun => exact h.setRun_of_serves hrun (by simp) rfl (by simp)

end Paired

/-! ## Lists and connections

A list is known by the connection it was read on, and these are numbered. With one goroutine for
a watched node, what it offers was read after all that was delivered before. -/

/-- What a goroutine offers is not older than what its watched node has delivered. -/
structure Ordered (w : Watcher) : Prop where
  offers : ∀ g ∈ w.goroutines, ∀ conn, g.stage = .offer conn →
    conn ≤ w.conn ∧ ∀ p ∈ w.deliveries, p.1 = g.wn → p.2 ≤ conn
  past : ∀ p ∈ w.deliveries, p.2 ≤ w.conn
  order : w.deliveries.Pairwise fun later earlier => later.1 = earlier.1 → earlier.2 ≤ later.2

namespace Ordered

theorem new : Watcher.new.Ordered where
  offers := fun _ hg => by cases hg
  past := fun _ hp => by cases hp
  order := List.Pairwise.nil

variable (h : w.Ordered)
include h

/-- What it is not about. -/
theorem idle {errs panicked : Bool} {watchedNodes : AList fun _ : Bytes => ℕ} {made : ℕ}
    {run : RunStage} {removed : Finset ℕ} {updatesCloses disconnectedCloses : ℕ → ℕ} :
    Ordered { w with
      errs := errs, watchedNodes := watchedNodes, made := made, run := run, removed := removed
      updatesCloses := updatesCloses, disconnectedCloses := disconnectedCloses
      panicked := panicked } :=
  ⟨h.offers, h.past, h.order⟩

/-- A new connection. -/
theorem reconnect : Ordered { w with conn := w.conn + 1 } where
  offers := fun g hg conn hstage => by
    obtain ⟨hle, hlast⟩ := h.offers g hg conn hstage
    exact ⟨Nat.le_succ_of_le hle, hlast⟩
  past := fun p hp => Nat.le_succ_of_le (h.past p hp)
  order := h.order

/-- A list that is read now is not older than any. -/
theorem start {g : Goroutine} (hg : ∀ conn, g.stage = .offer conn → conn = w.conn) :
    Ordered { w with goroutines := g :: w.goroutines } where
  offers := by
    refine List.forall_mem_cons.mpr ⟨fun conn hstage => ?_, h.offers⟩
    obtain rfl := hg conn hstage
    exact ⟨le_rfl, fun p hp _ => h.past p hp⟩
  past := h.past
  order := h.order

/-- A list that a goroutine goes on to offer has just been read. -/
theorem goes (g : Goroutine) {next : Option WatchStage}
    (hnext : ∀ conn, next = some (.offer conn) → conn = w.conn) : (w.goesOn g next).Ordered := by
  refine ⟨fun x hx conn hstage => ?_, h.past, h.order⟩
  obtain hx | ⟨stage, rfl, rfl⟩ := mem_goesOn hx
  · exact h.offers x hx conn hstage
  · obtain rfl := hnext conn (congrArg some hstage)
    exact ⟨le_rfl, fun p hp _ => h.past p hp⟩

/-- A list is delivered by the only goroutine of its watched node. -/
theorem deliver (hpaired : w.Paired) {wn conn : ℕ} (hg : ⟨wn, .offer conn⟩ ∈ w.goroutines) :
    Ordered { w.goesOn ⟨wn, .offer conn⟩ (some .await) with
      deliveries := (wn, conn) :: w.deliveries } := by
  obtain ⟨hconn, hlast⟩ := h.offers _ hg conn rfl
  refine ⟨fun x hx conn' hstage => ?_, List.forall_mem_cons.mpr ⟨hconn, h.past⟩,
    List.pairwise_cons.mpr ⟨fun p hp heq => hlast p hp heq.symm, h.order⟩⟩
  have hold : x ∈ w.goroutines := by
    obtain hx | ⟨stage, hnext, rfl⟩ := mem_goesOn hx
    · exact hx
    · obtain rfl := Option.some.inj hnext
      cases hstage
  have hother : wn ≠ x.wn := by
    intro heq
    have hone : (w.goesOn ⟨wn, .offer conn⟩ (some .await)).serving wn ≤ 1 :=
      (serving_goesOn_some hg .await wn).le.trans (hpaired.one wn)
    obtain rfl : (⟨wn, .await⟩ : Goroutine) = x :=
      eq_of_serving_le hone (List.mem_cons_self ..) hx rfl heq.symm
    cases hstage
  obtain ⟨hle, hpast⟩ := h.offers x hold conn' hstage
  exact ⟨hle, List.forall_mem_cons.mpr ⟨fun heq => absurd heq hother, hpast⟩⟩

/-- Only the goroutine of a watched node delivers its lists. -/
theorem moves (hpaired : w.Paired) (hs : Moves w e w') : w'.Ordered := by
  cases hs with
  | @watchChildren node ok hrun =>
    have hstart := h.start (g := ⟨w.made, if ok then .offer w.conn else .placeholder⟩) (by
      cases ok <;> simp)
    exact hstart.idle
  | removeNone => exact h
  | remove hrun hnode => exact h.idle
  | error => exact h.idle
  | deliver hg => exact h.deliver hpaired hg
  | panics => exact h.idle
  | @event g hg => exact h.goes g (by simp)
  | @badEvent g hg => exact (h.goes g (by simp)).idle
  | @reread g hg => exact h.goes g (by simp)
  | @rereadFails g hg => exact (h.goes g (by simp)).idle
  | @canceled g hg hstage hremoved =>
    refine h.goes g fun conn hclosed => ?_
    cases hs : g.stage with
    | _ =>
      rw [hs] at hclosed
      cases hclosed
  | @closeChannels g hg => exact (h.goes g (by simp)).idle
  | takeError hrun => exact h.idle
  | shutdown hrun => exact h.idle
  | @cancel g rest final hrun hg => exact (h.goes g (by simp)).idle
  | cancelled hrun => exact h.idle
  | refused => exact h
  | broken hrun => exact h.reconnect
  | reconnected hrun => exact h.reconnect.idle
  | runHooks hrun => exact h.idle
  | ephemerals hrun => exact h.idle
  | ephemeralsFail hrun => exact h.idle
  | @hook wn started rest hrun =>
    have hstart := h.start (g := ⟨wn, .offer w.conn⟩) (by simp)
    exact hstart.idle
  | hookFails hrun => exact h.idle
  | hooked hrun => exact h.idle

end Ordered

/-- By induction on the run, both at once: the order of lists needs the one goroutine. -/
theorem paired_of_reachable (h : (watcherMachine.restrict InOrder).Reachable w) :
    w.Paired ∧ w.Ordered := by
  refine h.invariant (P := fun w => w.Paired ∧ w.Ordered) (fun s hs => ?_) ?_
  · rw [show s = new from hs]
    exact ⟨.new, .new⟩
  · rintro s e s' hreach ⟨hpaired, hordered⟩ ⟨hin, hs⟩
    have hsound := sound_of_reachable hreach.of_restrict
    have hmoves := moves_of_step hs
    exact ⟨hpaired.moves hsound hin hmoves, hordered.moves hpaired hmoves⟩

end Watcher

/-- **One watcher for each watched node.** In every run in which `runHooks` does not fail once it
has started a watch, and in which `watchChildren` is not called and the watcher not shut down
between `cancelWatches` and the end of `runHooks`: a watched node never has two goroutines; when
`cancelWatches` sends on a `cancel`, exactly one goroutine is there that will take the value; and no
watched node delivers a list that was read on an older connection than the one before. -/
theorem one_watcher {w : Watcher} (h : (watcherMachine.restrict Watcher.InOrder).Reachable w) :
    (∀ wn, w.serving wn ≤ 1) ∧
      (∀ wn rest final, w.run = .cancelling (wn :: rest) final →
        ∃ g, w.goroutines.filter (fun g => g.wn = wn) = [g] ∧ g.stage ≠ .closing) ∧
      w.deliveries.Pairwise fun later earlier => later.1 = earlier.1 → earlier.2 ≤ later.2 := by
  obtain ⟨hpaired, hordered⟩ := Watcher.paired_of_reachable h
  have hsound := Watcher.sound_of_reachable h.of_restrict
  refine ⟨hpaired.one, fun wn rest final hrun => ?_, hordered.order⟩
  have hwatches : w.Watches wn := by
    have hrest := hsound.rest.2
    rw [hrun] at hrest
    exact hrest wn (List.mem_cons_self ..)
  have hserving : w.serving wn = 1 := by
    rw [hpaired.serves (by rw [hrun]; simp) wn hwatches, hrun]
    simp [RunStage.serves]
  rw [Watcher.serving_eq] at hserving
  obtain ⟨g, hg⟩ := List.length_eq_one_iff.mp hserving
  refine ⟨g, hg, fun hclosing => ?_⟩
  have hmem : g ∈ w.goroutines ∧ g.wn = wn := by
    have hmem : g ∈ w.goroutines.filter fun g => g.wn = wn := hg ▸ List.mem_singleton_self g
    simpa using hmem
  -- its channels would only be closed after `removeWatch`
  have hremoved := hsound.closing g hmem.1 hclosing
  rw [hmem.2] at hremoved
  exact (hsound.watched wn hwatches).2 hremoved

/-- A znode is watched over a reconnect, and then another error comes. -/
def reconnectsOnce : List WatcherEvent :=
  [.watchChildren [112] true, .deliver ⟨0, .offer 0⟩, .error, .takeError (.stored _),
    .cancel ⟨0, .await⟩, .cancelled, .reconnect .ok, .runHooks, .ephemerals true (.stored _),
    .hook true, .hooked, .deliver ⟨0, .offer 1⟩, .error, .takeError (.stored _)]

/-- One goroutine takes the next value, and two lists were delivered in their order. -/
theorem one_watcher_reconnectsOnce :
    ∃ w, (watcherMachine.restrict Watcher.InOrder).Reachable w ∧
      w.deliveries = [(0, 1), (0, 0)] ∧
      ∃ g, w.goroutines.filter (fun g => g.wn = 0) = [g] ∧ g.stage ≠ .closing :=
  have hreach : (watcherMachine.restrict Watcher.InOrder).Reachable _ :=
    .runGuarded (.start rfl) reconnectsOnce rfl
  ⟨_, hreach, rfl, (one_watcher hreach).2.1 0 [] false rfl⟩

/-- `runHooks` starts the first of two watches, fails at the second, and starts both after another
reconnect. -/
def hooksFail : List WatcherEvent :=
  [.watchChildren [112] true, .watchChildren [113] true, .error, .takeError (.stored _),
    .cancel ⟨1, .offer 0⟩, .cancel ⟨0, .offer 0⟩, .cancelled, .reconnect .ok, .runHooks,
    .ephemerals true (.stored _), .hook true, .hook false, .reconnect .ok, .runHooks,
    .ephemerals true (.stored _), .hook true, .hook true, .hooked, .deliver ⟨1, .offer 2⟩,
    .deliver ⟨1, .offer 1⟩]

/-- **Two goroutines for one watched node**: the list that the older one has read on the second
connection is delivered after the one from the third. -/
theorem hooksFail_old_list_last :
    ∃ w, watcherMachine.Reachable w ∧ w.serving 1 = 2 ∧ w.deliveries = [(1, 1), (1, 2)] :=
  ⟨_, .run (.start rfl) hooksFail rfl, by decide, rfl⟩

end Sequins
