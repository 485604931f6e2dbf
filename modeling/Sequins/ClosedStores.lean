import Sequins.CloseOnce
import Mathlib.Data.List.TakeWhile

/-!
# Closing the block stores

`version.close` closes a channel and returns. The block store is closed later, by a goroutine that
waits for `buildLock` until the build has ended (`StoresNode.closeStore`). Up to then the version may
be handed out again, if it is still in the multiplexer.

* What `removeVersion` closes is out of the multiplexer and drained, and stays so
  (`DB.closed_unused`).
* What `db.close` closes stays in the multiplexer, and nobody is asked whether it is in use.

So the store of a version may be closed under a request when its db is dropped
(`dropped_db_closes_used`). It is not, as long as `db.close` finds no version in use and none of
those that it closes is handed out from then on (`StoresNode.Spares`); and any event that is not
like this can be followed by the close of a store in use (`stores_closed_unused`).

Builds are not part of the model, so the goroutine may get `buildLock` at any time.
-/

namespace Sequins

/-! ## The machine

`nodeMachine` with one more event, in which the goroutine of a closed version gets its lock and
closes the block store. For each store that was closed the history has how many references to its
version were out at that time. -/

/-- One close of a block store. -/
structure StoreClose where
  /-- the address of the db -/
  db : ℕ
  /-- the version -/
  version : VersionRef
  /-- how many references to it were unreleased -/
  unreleased : ℕ
  deriving DecidableEq, Repr

/-- A node with its block stores. -/
structure StoresNode where
  /-- the node -/
  node : Node
  /-- history: the closes of block stores, latest first -/
  closed : List StoreClose

/-- What can happen. -/
inductive StoresEvent where
  /-- an event of the node -/
  | node (e : NodeEvent)
  /-- the goroutine of `version.close` has got `buildLock` -/
  | closeStore (i : ℕ) (v : VersionRef)

namespace StoresNode

def new : StoresNode := ⟨.new, []⟩

/-- The goroutine that a call of `version.close` started closes the block store. -/
def closeStore (s : StoresNode) (i : ℕ) (v : VersionRef) : Option StoresNode :=
  match s.node.heap[i]? with
  | none => none
  | some d =>
    if v ∈ d.cancelled ∧ ∀ c ∈ s.closed, ¬ (c.db = i ∧ c.version = v) then
      some { s with closed := ⟨i, v, d.unreleased v⟩ :: s.closed }
    else
      none

def step (peers : Bool) (s : StoresNode) : StoresEvent → Option StoresNode
  | .node e => (s.node.step peers e).map fun n => { s with node := n }
  | .closeStore i v => if ∀ d ∈ s.node.heap, d.panic = none then s.closeStore i v else none

/-- No block store was closed while somebody had a reference to its version, and nobody has a
reference to a version whose store is closed. -/
def Unused (s : StoresNode) : Prop :=
  ∀ c ∈ s.closed, c.unreleased = 0 ∧ ∀ d ∈ s.node.heap[c.db]?, d.unreleased c.version = 0

end StoresNode

/-- Every run of a node, with the closes of its block stores. -/
def storesMachine (peers : Bool) : Machine StoresNode StoresEvent :=
  .ofStep .new (StoresNode.step peers)

/-! ## The condition

What `db.close` closes must not be in use when it takes its list, nor be handed out later. -/

namespace DB

/-- What `db.close` is going to close if it goes on now. It panics at a version that
`removeVersion` has closed in the meantime. -/
def doomed (d : DB) : List VersionRef := d.toClose.takeWhile fun v => decide (v ∉ d.cancelled)

/-- What `db.close` has closed or is going to. -/
def condemned (d : DB) : List VersionRef :=
  (d.closes.filter Close.byDB).map Close.version ++ d.doomed

/-- The versions in use that an event leaves to `db.close`. -/
def endangers (d : DB) : DBEvent → List VersionRef
  | .close order => (d.mux.getAll order).filter fun v => decide (0 < d.unreleased v)
  | e => (d.handsOut e).toList.filter fun v => d.condemned.contains v

end DB

/-- The event leaves no version in use to `db.close`. -/
def StoresNode.Spares (s : StoresNode) : StoresEvent → Prop
  | .node (.db i e) => ∀ d ∈ s.node.heap[i]?, d.endangers e = []
  | .node (.refreshAllNext _ order) =>
    ∀ i ∈ s.node.toClose, ∀ d ∈ s.node.heap[i]?, d.endangers (.close order) = []
  | _ => True

instance (s : StoresNode) : DecidablePred s.Spares
  | .node (.db i e) => inferInstanceAs (Decidable (∀ d ∈ s.node.heap[i]?, d.endangers e = []))
  | .node (.refreshAllNext _ order) =>
    inferInstanceAs (Decidable
      (∀ i ∈ s.node.toClose, ∀ d ∈ s.node.heap[i]?, d.endangers (.close order) = []))
  | .node .refreshAll | .node (.listDBs _) | .closeStore _ _ => .isTrue trivial

namespace DB

variable {d d' : DB} {e : DBEvent} {peers : Bool} {v w : VersionRef}

/-! ## What is closed -/

/-- Versions are closed by calls of `version.close`. -/
structure Recorded (d : DB) : Prop where
  /-- what is closed was closed by a call -/
  cancelled : ∀ v ∈ d.cancelled, ∃ c ∈ d.closes, c.version = v
  /-- and the other way round -/
  closes : ∀ c ∈ d.closes, c.version ∈ d.cancelled
  /-- `db.close` calls it once for each version -/
  toClose : d.toClose.Nodup

/-- What `getAll` returns are different versions. -/
theorem nodup_getAll {m : Mux} (h : m.Known) (order : IterOrder (Σ _ : Bytes, Entry)) :
    (m.getAll order).Nodup := by
  have hmem : ∀ x ∈ order.arrange m.versions.entries, m.versions.lookup x.1 = some x.2 :=
    fun x hx => AList.mem_entries_iff_lookup.mp (order.mem_arrange.mp hx)
  refine List.Nodup.map_on (fun x hx y hy hxy => ?_)
    ((order.perm _).nodup_iff.mpr m.versions.nodupKeys.nodup)
  have hname : x.1 = y.1 := by
    rw [← h.name x.1 x.2 (hmem x hx), ← h.name y.1 y.2 (hmem y hy), hxy]
  have hentry := hmem y hy
  rw [← hname, hmem x hx] at hentry
  exact Sigma.ext hname (heq_of_eq (Option.some.inj hentry))

/-- One more call, and one more version that is closed. -/
theorem Recorded.closeVersion (h : d.Recorded) (v : VersionRef) (byDB : Bool) :
    (∀ w ∈ (d.closeVersion v byDB).cancelled, ∃ c ∈ (d.closeVersion v byDB).closes, c.version = w) ∧
      ∀ c ∈ (d.closeVersion v byDB).closes, c.version ∈ (d.closeVersion v byDB).cancelled := by
  rw [DB.closeVersion]
  split
  · exact ⟨h.cancelled, h.closes⟩
  · refine ⟨fun w hw => ?_, fun c hc => ?_⟩
    · obtain rfl | hw := Finset.mem_insert.mp hw
      · exact ⟨_, List.mem_cons_self, rfl⟩
      · obtain ⟨c, hc, rfl⟩ := h.cancelled w hw
        exact ⟨c, List.mem_cons_of_mem _ hc, rfl⟩
    · obtain rfl | hc := List.mem_cons.mp hc
      · exact Finset.mem_insert_self _ _
      · exact Finset.mem_insert_of_mem (h.closes c hc)

/-- Only the holders of `refreshLock` and `cleanupLock` call `version.close`. -/
theorem Recorded.act (h : d.Recorded) (hpanic : d.panic = none) (hknown : d.mux.Known)
    (hs : d.act peers e = some d') : d'.Recorded := by
  obtain ⟨cancelled, closes, toClose, -⟩ | ⟨order, rfl, -, rfl⟩ | ⟨v, vs, -, hr, rfl⟩ |
    ⟨v, hc, rfl⟩ := (handover_act hpanic hknown hs).shuts
  · refine ⟨?_, ?_, toClose ▸ h.toClose⟩
    · rw [cancelled, closes]
      exact h.cancelled
    · rw [cancelled, closes]
      exact h.closes
  · exact ⟨h.cancelled, h.closes, nodup_getAll hknown order⟩
  · have hnodup := h.toClose
    rw [DB.toClose, hr] at hnodup
    exact ⟨(h.closeVersion v true).1, (h.closeVersion v true).2, hnodup.of_cons⟩
  · refine ⟨(h.closeVersion v false).1, (h.closeVersion v false).2, ?_⟩
    rw [closeVersion_eq]
    exact h.toClose

theorem recorded_of_reachable (h : (dbMachine peers).Reachable d) : d.Recorded := by
  refine h.invariant (fun s hs => ?_) fun s e s' hr hrecorded hs => ?_
  · obtain rfl : s = .new := hs
    exact ⟨fun _ hv => (by cases hv), fun _ hc => (by cases hc), List.nodup_nil⟩
  · change DB.step peers s e = some s' at hs
    rw [DB.step] at hs
    split at hs
    · exact hrecorded.act ‹_› (sound_of_reachable hr).known hs
    · cases hs

/-- What was closed stays closed. -/
theorem cancelled_subset_act (hpanic : d.panic = none) (hknown : d.mux.Known)
    (hs : d.act peers e = some d') : d.cancelled ⊆ d'.cancelled := by
  have hclose : ∀ v byDB, d.cancelled ⊆ (d.closeVersion v byDB).cancelled := by
    intro v byDB
    rw [DB.closeVersion]
    split
    · exact Finset.Subset.refl _
    · exact Finset.subset_insert _ _
  obtain ⟨cancelled, -⟩ | ⟨order, rfl, -, rfl⟩ | ⟨v, vs, -, hr, rfl⟩ | ⟨v, hc, rfl⟩ :=
    (handover_act hpanic hknown hs).shuts
  · rw [cancelled]
  · exact Finset.Subset.refl _
  · exact hclose v true
  · exact hclose v false

/-- A version in the multiplexer of a db that was not closed is open. -/
theorem Unclosed.not_cancelled (h : d.Unclosed) (hreach : (dbMachine peers).Reachable d)
    (hv : d.mux.Has v) : v ∉ d.cancelled := by
  intro hclosed
  obtain ⟨c, hc, rfl⟩ := (recorded_of_reachable hreach).cancelled v hclosed
  exact (retired_of_reachable hreach c hc (h.2 c hc)).gone hv

/-- Another version is closed: `db.close` will not get further than to it. -/
theorem takeWhile_insert (vs : List VersionRef) (closed : Finset VersionRef) (w : VersionRef) :
    (vs.takeWhile fun v => decide (v ∉ insert w closed)) =
      (vs.takeWhile fun v => decide (v ∉ closed)).takeWhile fun v => decide (v ≠ w) := by
  rw [List.takeWhile_takeWhile]
  congr
  funext v
  simp [not_or]

/-! ## As long as the condition is kept

What `removeVersion` closed is drained anyway. For what `db.close` closed, or is about to, the
condition says at each event that it is not in use: not when the list is taken, and not handed
out later. A release only makes the count smaller. -/

/-- What `db.close` has closed, or is going to, is not in use. -/
structure Spared (d : DB) : Prop where
  /-- what it has closed -/
  closes : ∀ c ∈ d.closes, c.byDB = true → d.unreleased c.version = 0
  /-- what it is going to close -/
  doomed : d.panic = none → ∀ v ∈ d.doomed, d.unreleased v = 0

theorem mem_condemned :
    v ∈ d.condemned ↔ (∃ c ∈ d.closes, c.byDB = true ∧ c.version = v) ∨ v ∈ d.doomed := by
  simp only [condemned, List.mem_append, List.mem_map, List.mem_filter, and_assoc]

/-- Nothing that `db.close` closes is handed out. -/
theorem not_mem_condemned_of_endangers (h : d.endangers e = []) (hv : d.handsOut e = some v) :
    v ∉ d.condemned := by
  intro hc
  have hmem : v ∈ (d.handsOut e).toList.filter fun v => d.condemned.contains v := by
    rw [hv, List.mem_filter]
    exact ⟨List.mem_singleton_self v, List.contains_iff_mem.mpr hc⟩
  cases e with
  | close order => cases hv
  | _ =>
    have hnil : (d.handsOut _).toList.filter _ = [] := h
    rw [hnil] at hmem
    cases hmem

/-- What is condemned stays out of use. -/
theorem Spared.unreleased_act (h : d.Spared) (hpanic : d.panic = none)
    (hspares : d.endangers e = []) (hs : d.act peers e = some d') (hv : v ∈ d.condemned) :
    d'.unreleased v = 0 := by
  have hbefore : d.unreleased v = 0 := by
    obtain ⟨c, hc, hby, rfl⟩ | hv := mem_condemned.mp hv
    · exact h.closes c hc hby
    · exact h.doomed hpanic v hv
  have hcount : (d.handsOut e).toList.count v = 0 := by
    refine List.count_eq_zero.mpr fun hmem => ?_
    exact not_mem_condemned_of_endangers hspares (Option.mem_toList.mp hmem) hv
  have hle := unreleased_act_le hs v
  omega

/-- One event: what it adds to the condemned is not in use. -/
theorem Spared.act (h : d.Spared) (hpanic : d.panic = none) (hknown : d.mux.Known)
    (hspares : d.endangers e = []) (hs : d.act peers e = some d') : d'.Spared := by
  have hcloses : ∀ c ∈ d.closes, c.byDB = true → d'.unreleased c.version = 0 := fun c hc hby =>
    h.unreleased_act hpanic hspares hs (mem_condemned.mpr (.inl ⟨c, hc, hby, rfl⟩))
  have hdoomed : ∀ v ∈ d.doomed, d'.unreleased v = 0 := fun v hv =>
    h.unreleased_act hpanic hspares hs (mem_condemned.mpr (.inr hv))
  obtain ⟨cancelled, closes, toClose, -⟩ | ⟨order, rfl, -, hnext⟩ | ⟨v, vs, -, hr, hnext⟩ |
    ⟨v, hc, hnext⟩ := (handover_act hpanic hknown hs).shuts
  · refine ⟨closes ▸ hcloses, fun _ => ?_⟩
    rw [DB.doomed, toClose, cancelled]
    exact hdoomed
  · -- `db.close` takes its list
    refine ⟨?_, fun _ v hv => ?_⟩
    · rw [hnext] at hcloses ⊢
      exact hcloses
    · have hall : v ∈ d.mux.getAll order := by
        rw [hnext] at hv
        exact List.takeWhile_subset _ hv
      have hzero : ¬ 0 < d.unreleased v := by
        intro hpos
        have hmem : v ∈ d.endangers (.close order) :=
          List.mem_filter.mpr ⟨hall, decide_eq_true hpos⟩
        rw [hspares] at hmem
        cases hmem
      have hle := unreleased_act_le hs v
      have hnone : (d.handsOut (.close order)).toList.count v = 0 := rfl
      omega
  · -- `db.close` closes a version
    by_cases hopen : v ∈ d.cancelled
    · rw [closeVersion, if_pos hopen] at hnext
      refine ⟨?_, fun hnone => ?_⟩
      · rw [hnext] at hcloses ⊢
        exact hcloses
      · rw [hnext] at hnone
        cases hnone
    · have hd : d.doomed = v :: vs.takeWhile fun v => decide (v ∉ d.cancelled) := by
        rw [DB.doomed, DB.toClose, hr]
        exact List.takeWhile_cons_of_pos (decide_eq_true hopen)
      rw [hd] at hdoomed
      rw [closeVersion, if_neg hopen] at hnext
      subst hnext
      refine ⟨List.forall_mem_cons.mpr ⟨fun _ => hdoomed v List.mem_cons_self, hcloses⟩,
        fun _ w hw => hdoomed w (List.mem_cons_of_mem _ ?_)⟩
      have hrest : w ∈ vs.takeWhile fun w => decide (w ∉ insert v d.cancelled) := hw
      rw [takeWhile_insert] at hrest
      exact List.takeWhile_subset _ hrest
  · -- `removeVersion` closes a version
    rw [closeVersion] at hnext
    split at hnext
    · subst hnext
      exact ⟨hcloses, fun hnone => by cases hnone⟩
    · subst hnext
      refine ⟨List.forall_mem_cons.mpr ⟨fun hby => (by cases hby), hcloses⟩,
        fun _ w hw => hdoomed w ?_⟩
      have hrest : w ∈ d.toClose.takeWhile fun w => decide (w ∉ insert v d.cancelled) := hw
      rw [takeWhile_insert] at hrest
      exact List.takeWhile_subset _ hrest

/-- Whatever is closed is not in use. -/
theorem Spared.unreleased_of_cancelled (h : d.Spared) (hreach : (dbMachine peers).Reachable d)
    (hv : v ∈ d.cancelled) : d.unreleased v = 0 := by
  obtain ⟨c, hc, rfl⟩ := (recorded_of_reachable hreach).cancelled v hv
  cases hby : c.byDB with
  | true => exact h.closes c hc hby
  | false => exact closed_unused hreach hc hby

end DB

namespace StoresNode

variable {peers : Bool} {s s' : StoresNode}

/-- An event of the node closes no store. -/
theorem step_node {e : NodeEvent} (hs : s.step peers (.node e) = some s') :
    s.node.step peers e = some s'.node ∧ s'.closed = s.closed := by
  obtain ⟨n, hn, rfl⟩ := Option.map_eq_some_iff.mp hs
  exact ⟨hn, rfl⟩

/-- The node makes a run of its own, whatever the stores do. -/
theorem reachable_node {guard : StoresNode → StoresEvent → Prop}
    (h : ((storesMachine peers).restrict guard).Reachable s) :
    (nodeMachine peers).Reachable s.node := by
  refine h.invariant (P := fun s => (nodeMachine peers).Reachable s.node) (fun s hs => ?_)
    fun s e s' _ hn hs => ?_
  · obtain rfl : s = .new := hs
    exact .start rfl
  · obtain ⟨-, hs⟩ := hs
    change s.step peers e = some s' at hs
    cases e with
    | node e => exact .step hn (step_node hs).1
    | closeStore i v =>
      rw [StoresNode.step] at hs
      split_ifs at hs
      rw [closeStore] at hs
      split at hs
      · cases hs
      · split_ifs at hs
        obtain rfl := Option.some.inj hs
        exact hn

/-- What holds as long as the condition is kept. -/
structure Ok (s : StoresNode) : Prop where
  /-- what `db.close` closes is not in use -/
  heap : s.node.AllDBs DB.Spared
  /-- block stores are closed of versions that were closed -/
  closed : ∀ c ∈ s.closed,
    c.unreleased = 0 ∧ ∃ d, s.node.heap[c.db]? = some d ∧ c.version ∈ d.cancelled

/-- The condition, for the db that an event of the node concerns. -/
theorem Spares.endangers {e : NodeEvent} {i : ℕ} {ev : DBEvent} {d : DB} (h : s.Spares (.node e))
    (hc : s.node.Concerns e i ev) (hd : s.node.heap[i]? = some d) : d.endangers ev = [] := by
  obtain ⟨rfl, -⟩ | ⟨dbOrder, order, rfl, rfl, hi⟩ := hc
  · exact h d hd
  · exact h i hi d hd

/-- An event of the node, seen by the db it concerns. -/
theorem Ok.node {e : NodeEvent} (h : s.Ok) (hreach : s.node.AllDBs (dbMachine peers).Reachable)
    (hspares : s.Spares (.node e)) {n : Node} (hs : s.node.act peers e = some n) :
    ({ s with node := n } : StoresNode).Ok := by
  refine ⟨fun d' hd' => ?_, fun c hc => ?_⟩
  · obtain ⟨i, hi⟩ := List.getElem?_of_mem hd'
    obtain heap | ⟨-, after⟩ | ⟨d, d₁, ev, before, after, panic, act, event⟩ :=
      Node.heapStep_act (i := i) hs
    · exact h.heap d' (List.mem_of_getElem? (heap ▸ hi))
    · obtain rfl := Option.some.inj (hi.symm.trans after)
      exact ⟨fun _ hc => (by cases hc), fun _ _ hv => by cases hv⟩
    · obtain rfl := Option.some.inj (hi.symm.trans after)
      have hd := List.mem_of_getElem? before
      exact (h.heap d hd).act panic (DB.sound_of_reachable (hreach d hd)).known
        (hspares.endangers event before) act
  · obtain ⟨hzero, d, hd, hv⟩ := h.closed c hc
    refine ⟨hzero, ?_⟩
    obtain heap | ⟨before, -⟩ | ⟨d₁, d', ev, before, after, panic, act, -⟩ :=
      Node.heapStep_act (i := c.db) hs
    · exact ⟨d, heap.trans hd, hv⟩
    · cases before.symm.trans hd
    · obtain rfl := Option.some.inj (before.symm.trans hd)
      have hknown := (DB.sound_of_reachable (hreach d₁ (List.mem_of_getElem? before))).known
      exact ⟨d', after, DB.cancelled_subset_act panic hknown act hv⟩

/-- The goroutine finds its version closed, and so not in use. -/
theorem Ok.closeStore {i : ℕ} {v : VersionRef} (h : s.Ok)
    (hreach : s.node.AllDBs (dbMachine peers).Reachable) (hs : s.closeStore i v = some s') :
    s'.Ok := by
  rw [StoresNode.closeStore] at hs
  split at hs
  · cases hs
  · rename_i d hd
    split_ifs at hs with hclosable
    obtain rfl := Option.some.inj hs
    have hmem := List.mem_of_getElem? hd
    refine ⟨h.heap, List.forall_mem_cons.mpr ⟨⟨?_, d, hd, hclosable.1⟩, h.closed⟩⟩
    exact (h.heap d hmem).unreleased_of_cancelled (hreach d hmem) hclosable.1

theorem ok_of_reachable (h : ((storesMachine peers).restrict Spares).Reachable s) : s.Ok := by
  refine h.invariant (fun s hs => ?_) fun s e s' hreach hok hs => ?_
  · obtain rfl : s = .new := hs
    exact ⟨fun _ hd => (by cases hd), fun _ hc => by cases hc⟩
  · have hdbs := Node.reachable_db (reachable_node hreach)
    obtain ⟨hspares, hs⟩ := hs
    change s.step peers e = some s' at hs
    cases e with
    | node e =>
      obtain ⟨n, hn, rfl⟩ := Option.map_eq_some_iff.mp hs
      rw [Node.step] at hn
      split at hn
      · exact hok.node hdbs hspares hn
      · cases hn
    | closeStore i v =>
      rw [StoresNode.step] at hs
      split_ifs at hs
      exact hok.closeStore hdbs hs

/-- **No store was closed in use, and no closed one is in use now.** -/
theorem Ok.unused (h : s.Ok) (hreach : s.node.AllDBs (dbMachine peers).Reachable) : s.Unused := by
  intro c hc
  obtain ⟨hzero, d, hd, hv⟩ := h.closed c hc
  refine ⟨hzero, fun d' hd' => ?_⟩
  obtain rfl := Option.some.inj (hd.symm.trans hd')
  have hmem := List.mem_of_getElem? hd
  exact (h.heap d hmem).unreleased_of_cancelled (hreach d hmem) hv

end StoresNode

/-! ## Once it is broken

Then `db.close` can go on up to the version in use, and the goroutine of `version.close` can close
its block store. -/

namespace DB

variable {d d' : DB} {e : DBEvent} {peers : Bool} {v : VersionRef}

/-- What an event does that hands out a version. -/
theorem act_of_handsOut (hs : d.act peers e = some d') (hv : d.handsOut e = some v) :
    d'.panic = d.panic ∧ d'.cancelled = d.cancelled ∧ d'.toClose = d.toClose ∧
      0 < d'.unreleased v := by
  have hpos : ∀ d₁ : DB, v ∈ d₁.references → 0 < d₁.unreleased v := fun d₁ h =>
    List.count_pos_iff.mpr h
  cases acts_of_act hs with
  | getCurrent =>
    have hcurrent : d.mux.getCurrent.2 = some v := hv
    refine ⟨rfl, rfl, rfl, hpos _ ?_⟩
    simp [references, hcurrent]
  | getVersion name =>
    have hversion : (d.mux.getVersion name).2 = some v := hv
    refine ⟨rfl, rfl, rfl, hpos _ ?_⟩
    simp [references, hversion]
  | refresh hnone =>
    have hcurrent : d.mux.getCurrent.2 = some v := hv
    refine ⟨rfl, rfl, ?_, hpos _ ?_⟩
    · rw [DB.toClose, DB.toClose, hnone]
      rfl
    · simp [references, hcurrent, RefreshStage.held]
  | upgrade hcall hnone =>
    have hcurrent : d.mux.getCurrent.2 = some v := hv
    refine ⟨rfl, rfl, rfl, hpos _ ?_⟩
    simp [references, hcurrent, UpgradeStage.held]
  | refresherNext hs =>
    rw [handsOut] at hv
    split at hv
    · rename_i latest hr
      rw [refresherNext, hr] at hs
      obtain rfl := Option.some.inj hs
      refine ⟨rfl, rfl, ?_, hpos _ ?_⟩
      · rw [DB.toClose, DB.toClose, hr]
        rfl
      · simp [references, hv, RefreshStage.held]
    · cases hv
  | cleanerNext hs =>
    rw [handsOut] at hv
    split at hv
    · rename_i dir dirs hc
      rw [cleanerNext, hc] at hs
      obtain rfl := Option.some.inj hs
      refine ⟨rfl, rfl, rfl, hpos _ ?_⟩
      simp [references, hv, CleanStage.held]
    · cases hv
  | release | partitionsReady | ready | wake | close | listVersions | newVersion | upgraderNext
  | remove | cleanup => cases hv

end DB

/-- What an event of a node does to the db it concerns. -/
theorem Node.act_concerns {peers : Bool} {n n' : Node} {e : NodeEvent} {i : ℕ} {ev : DBEvent}
    {d : DB} (hc : n.Concerns e i ev) (hd : n.heap[i]? = some d) (hs : n.act peers e = some n') :
    ∃ d', d.act peers ev = some d' ∧ n'.heap = n.heap.set i d' := by
  have honDB : ∀ n₁, n.onDB peers i ev = some n₁ →
      ∃ d', d.act peers ev = some d' ∧ n₁.heap = n.heap.set i d' := by
    intro n₁ hn₁
    obtain ⟨d₁, d', hd₁, -, hact, rfl⟩ := onDB_cases hn₁
    obtain rfl := Option.some.inj (hd.symm.trans hd₁)
    exact ⟨d', hact, rfl⟩
  obtain ⟨rfl, -⟩ | ⟨dbOrder, order, rfl, rfl, hi⟩ := hc
  · rw [Node.act] at hs
    split at hs
    · split_ifs at hs
      exact honDB n' hs
    · split_ifs at hs
      obtain ⟨n₁, hn₁, rfl⟩ := Option.map_eq_some_iff.mp hs
      exact honDB n₁ hn₁
    · cases hs
    · exact honDB n' hs
  · rw [toClose] at hi
    split at hi
    · rename_i hr
      obtain rfl := Option.some.inj hi
      rw [Node.act, Node.refreshAllNext, hr] at hs
      obtain ⟨n₁, hn₁, rfl⟩ := Option.map_eq_some_iff.mp hs
      exact honDB n₁ hn₁
    · cases hi

namespace StoresNode

variable {peers : Bool} {s s' : StoresNode} {i : ℕ} {d : DB} {v : VersionRef}

/-- A store in use may be closed, or is. -/
def Endangered (peers : Bool) (s : StoresNode) : Prop :=
  ∃ es s', Machine.runEvents (StoresNode.step peers) s es = some s' ∧ ¬ s'.Unused

/-- It does not matter how many events lead there. -/
theorem Endangered.of_step {e : StoresEvent} (hs : s.step peers e = some s')
    (h : s'.Endangered peers) : s.Endangered peers := by
  obtain ⟨es, s₁, hrun, hused⟩ := h
  refine ⟨e :: es, s₁, ?_, hused⟩
  rw [Machine.runEvents, hs]
  exact hrun

/-- A version in use is closed. -/
theorem endangered_of_cancelled (hpanic : ∀ d ∈ s.node.heap, d.panic = none)
    (hd : s.node.heap[i]? = some d) (hv : v ∈ d.cancelled) (hused : 0 < d.unreleased v) :
    s.Endangered peers := by
  by_cases hclosed : ∀ c ∈ s.closed, ¬ (c.db = i ∧ c.version = v)
  · have hs : s.step peers (.closeStore i v) =
        some { s with closed := ⟨i, v, d.unreleased v⟩ :: s.closed } := by
      rw [StoresNode.step, if_pos hpanic, closeStore, hd]
      exact if_pos ⟨hv, hclosed⟩
    refine .of_step hs ⟨[], _, rfl, fun hunused => ?_⟩
    exact hused.ne' (hunused _ List.mem_cons_self).1
  · push Not at hclosed
    obtain ⟨c, hc, rfl, rfl⟩ := hclosed
    exact ⟨[], s, rfl, fun hunused => hused.ne' ((hunused c hc).2 d hd)⟩

theorem panic_eq_none_of_mem_set {heap : List DB} (hpanic : ∀ d ∈ heap, d.panic = none)
    (hpanic' : d.panic = none) : ∀ d₁ ∈ heap.set i d, d₁.panic = none := by
  intro d₁ hd₁
  obtain hd₁ | rfl := List.mem_or_eq_of_mem_set hd₁
  · exact hpanic d₁ hd₁
  · exact hpanic'

/-- `db.close` closes the next version of its list, which is open. -/
theorem exists_act_close (peers : Bool) {w : VersionRef} {vs : List VersionRef}
    (hr : d.refresher = some (.close (w :: vs))) (hopen : w ∉ d.cancelled) (v : VersionRef) :
    ∃ d', d.act peers .refresherNext = some d' ∧ d'.cancelled = insert w d.cancelled ∧
      d'.panic = d.panic ∧ d'.refresher = some (.close vs) ∧ d'.unreleased v = d.unreleased v := by
  refine ⟨{ d.closeVersion w true with refresher := some (.close vs) }, ?_, ?_, ?_, rfl, ?_⟩
  · rw [DB.act, DB.refresherNext, hr]
  · rw [DB.closeVersion, if_neg hopen]
  · rw [DB.closeVersion, if_neg hopen]
  · rw [DB.closeVersion, if_neg hopen, DB.unreleased_eq, DB.unreleased_refresher hr]
    rfl

/-- `db.close` goes on, up to a version in use. -/
theorem endangered_of_toClose {vs : List VersionRef} (hpanic : ∀ d ∈ s.node.heap, d.panic = none)
    (hd : s.node.heap[i]? = some d) (hr : d.refresher = some (.close vs)) (hnodup : vs.Nodup)
    (hv : v ∈ vs.takeWhile fun v => decide (v ∉ d.cancelled)) (hused : 0 < d.unreleased v) :
    s.Endangered peers := by
  induction vs generalizing s d with
  | nil => cases hv
  | cons w vs ih =>
    have hopen : w ∉ d.cancelled := by
      by_contra hclosed
      rw [List.takeWhile_cons_of_neg (by simpa using hclosed)] at hv
      cases hv
    have hcons : ((w :: vs).takeWhile fun v => decide (v ∉ d.cancelled)) =
        w :: vs.takeWhile fun v => decide (v ∉ d.cancelled) :=
      List.takeWhile_cons_of_pos (decide_eq_true hopen)
    rw [hcons] at hv
    obtain ⟨hlt, -⟩ := List.getElem?_eq_some_iff.mp hd
    have hnone := hpanic d (List.mem_of_getElem? hd)
    obtain ⟨d', hd', hcancelled, hpanic', hr', hu⟩ :=
      exists_act_close peers hr hopen v
    have hs : s.step peers (.node (.db i .refresherNext)) =
        some ⟨{ s.node with heap := s.node.heap.set i d' }, s.closed⟩ := by
      rw [StoresNode.step, Node.step, if_pos hpanic, Node.act]
      change (s.node.onDB peers i .refresherNext).map _ = _
      rw [Node.onDB, hd]
      change ((d.step peers .refresherNext).map _).map _ = _
      rw [DB.step, if_pos hnone, hd']
      rfl
    have hset : (s.node.heap.set i d')[i]? = some d' := List.getElem?_set_self hlt
    have hpanics : ∀ d₁ ∈ s.node.heap.set i d', d₁.panic = none :=
      panic_eq_none_of_mem_set hpanic (hpanic'.trans hnone)
    refine .of_step hs ?_
    rw [← hu] at hused
    obtain rfl | hv := List.mem_cons.mp hv
    · refine endangered_of_cancelled hpanics hset ?_ hused
      rw [hcancelled]
      exact Finset.mem_insert_self _ _
    · refine ih hpanics hset hr' hnodup.of_cons ?_ hused
      -- the version that was closed does not come again
      have hother : ∀ x ∈ vs.takeWhile (fun v => decide (v ∉ d.cancelled)), decide (x ≠ w) = true := by
        intro x hx
        refine decide_eq_true ?_
        rintro rfl
        exact (List.nodup_cons.mp hnodup).1 (List.takeWhile_subset _ hx)
      rw [hcancelled, DB.takeWhile_insert, List.takeWhile_eq_self_iff.mpr hother]
      exact hv

/-- What breaks the condition is an event of one db. -/
theorem exists_of_not_spares {e : StoresEvent} (h : ¬ s.Spares e) (hs : s.step peers e = some s') :
    ∃ ne i ev d v, e = .node ne ∧ s.node.Concerns ne i ev ∧ s.node.heap[i]? = some d ∧
      v ∈ d.endangers ev := by
  match e, h, hs with
  | .node (.db i ev), h, hs =>
    rw [Spares] at h
    push Not at h
    obtain ⟨d, hd, hne⟩ := h
    obtain ⟨v, hv⟩ := List.exists_mem_of_ne_nil _ hne
    refine ⟨_, i, ev, d, v, rfl, .inl ⟨rfl, fun horigin => ?_⟩, hd, hv⟩
    obtain ⟨n, hn, -⟩ := Option.map_eq_some_iff.mp hs
    rw [Node.step, Node.act, horigin] at hn
    simp at hn
  | .node (.refreshAllNext dbOrder order), h, hs =>
    rw [Spares] at h
    push Not at h
    obtain ⟨i, hi, d, hd, hne⟩ := h
    obtain ⟨v, hv⟩ := List.exists_mem_of_ne_nil _ hne
    exact ⟨_, i, _, d, v, rfl, .inr ⟨dbOrder, order, rfl, rfl, hi⟩, hd, hv⟩
  | .node .refreshAll, h, _ | .node (.listDBs _), h, _ | .closeStore _ _, h, _ =>
    exact absurd trivial h

/-- An event leaves a version in use to `db.close`. -/
theorem endangered_of_not_spares (hreach : (nodeMachine peers).Reachable s.node) {e : StoresEvent}
    (h : ¬ s.Spares e) (hs : s.step peers e = some s') : s'.Endangered peers := by
  obtain ⟨ne, i, ev, d, v, rfl, hconcerns, hd, hv⟩ := exists_of_not_spares h hs
  obtain ⟨hstep, -⟩ := step_node hs
  rw [Node.step] at hstep
  split_ifs at hstep with hpanic
  have hreachd := Node.reachable_db hreach d (List.mem_of_getElem? hd)
  have hnone := hpanic d (List.mem_of_getElem? hd)
  have hrecorded := DB.recorded_of_reachable hreachd
  obtain ⟨d', hact, hheap⟩ := Node.act_concerns hconcerns hd hstep
  obtain ⟨hlt, -⟩ := List.getElem?_eq_some_iff.mp hd
  have hd' : s'.node.heap[i]? = some d' := by rw [hheap, List.getElem?_set_self hlt]
  have hpanics : d'.panic = none → ∀ d₁ ∈ s'.node.heap, d₁.panic = none :=
    fun hpanic' => hheap ▸ panic_eq_none_of_mem_set hpanic hpanic'
  by_cases hclose : ∃ order, ev = .close order
  · obtain ⟨order, rfl⟩ := hclose
    obtain ⟨hall, hused⟩ := List.mem_filter.mp hv
    have hused := of_decide_eq_true hused
    have hunclosed : d.Unclosed := by
      obtain ⟨-, horigin⟩ | ⟨_, _, -, -, hi⟩ := hconcerns
      · exact absurd rfl horigin
      · exact (Node.orderly_of_reachable hreach).unclosed hi hd
    have hknown := (DB.sound_of_reachable hreachd).known
    have hopen : ∀ w ∈ d.mux.getAll order, decide (w ∉ d.cancelled) = true := fun w hw =>
      decide_eq_true (hunclosed.not_cancelled hreachd (hknown.has_of_mem_getAll hw))
    obtain ⟨hrefresher, hact⟩ := Option.ite_none_right_eq_some.mp hact
    obtain rfl := Option.some.inj hact
    refine endangered_of_toClose (hpanics hnone) hd' rfl (DB.nodup_getAll hknown order) (v := v) ?_ ?_
    · rw [List.takeWhile_eq_self_iff.mpr hopen]
      exact hall
    · rwa [DB.unreleased_setRefresher (by rw [hrefresher]; rfl) rfl]
  · have hout : v ∈ (d.handsOut ev).toList.filter fun v => d.condemned.contains v := by
      cases ev with
      | close order => exact absurd ⟨order, rfl⟩ hclose
      | _ => exact hv
    obtain ⟨hout, hcondemned⟩ := List.mem_filter.mp hout
    obtain ⟨hpanic', hcancelled, htoClose, hused⟩ :=
      DB.act_of_handsOut hact (Option.mem_toList.mp hout)
    obtain ⟨c, hc, -, rfl⟩ | hdoomed := DB.mem_condemned.mp (List.contains_iff_mem.mp hcondemned)
    · refine endangered_of_cancelled (hpanics (hpanic'.trans hnone)) hd' ?_ hused
      rw [hcancelled]
      exact hrecorded.closes c hc
    · have hnodup := hrecorded.toClose
      rw [← htoClose] at hnodup
      rw [DB.doomed, ← htoClose, ← hcancelled] at hdoomed
      rw [DB.toClose] at hdoomed hnodup
      rcases hr : d'.refresher with _ | r
      · rw [hr] at hdoomed
        cases hdoomed
      · cases r with
        | close vs =>
          rw [hr] at hdoomed hnodup
          exact endangered_of_toClose (hpanics (hpanic'.trans hnone)) hd' hr hnodup hdoomed hused
        | _ =>
          rw [hr] at hdoomed
          cases hdoomed

end StoresNode

/-- **No use after close, exactly as far as `db.close` allows.** As long as no event leaves a
version in use to `db.close`, no block store is closed while it is in use, and nobody has a
reference to one that is closed. And once an event does, the run can go on to where one of the two
happens. -/
theorem stores_closed_unused {peers : Bool} {s : StoresNode}
    (h : ((storesMachine peers).restrict StoresNode.Spares).Reachable s) :
    s.Unused ∧ ∀ e s', ¬ s.Spares e → (storesMachine peers).step s e s' →
      ∃ es s'', Machine.runEvents (StoresNode.step peers) s' es = some s'' ∧ ¬ s''.Unused := by
  have hreach := StoresNode.reachable_node h
  exact ⟨(StoresNode.ok_of_reachable h).unused (Node.reachable_db hreach),
    fun e s' hnot hs => StoresNode.endangered_of_not_spares hreach hnot hs⟩

/-- A request uses version `1`, and then the node refreshes to version `2` and removes version `1`. -/
def usesAndRefreshes : List NodeEvent :=
  [.db 0 .getCurrent, .db 0 (.release ⟨0, [49]⟩), .refreshAll, .listDBs (some [[97]]),
    .refreshAllNext (.stored _) (.stored _), .refreshAllNext (.stored _) (.stored _),
    .refreshAllNext (.stored _) (.stored _)] ++
  ([.refresh, .refresherNext, .listVersions (some [[50]]), .refresherNext,
    .refresherNext] : List DBEvent).map (.db 0) ++ (switchesTo ⟨1, [50]⟩).map (.db 0) ++
  ([.remove (⟨0, [49]⟩, true), .cleanerNext, .cleanerNext, .cleanerNext,
    .cleanerNext] : List DBEvent).map (.db 0)

/-- A request uses version `2`, and then the db is dropped. -/
def usesAndDrops : List NodeEvent :=
  [.db 0 (.getVersion [50]), .db 0 (.release ⟨1, [50]⟩)] ++ dropsDB

/-- Both block stores are closed when nobody uses them. -/
def dropsIdle : List StoresEvent :=
  (comesUp ++ usesAndRefreshes).map .node ++ [.closeStore 0 ⟨0, [49]⟩] ++ usesAndDrops.map .node ++
    [.closeStore 0 ⟨1, [50]⟩]

/-- A request that comes now gets a version whose store is closed. -/
theorem stores_closed_unused_dropsIdle :
    ∃ s s', ((storesMachine false).restrict StoresNode.Spares).Reachable s ∧
      s.closed = [⟨0, ⟨1, [50]⟩, 0⟩, ⟨0, ⟨0, [49]⟩, 0⟩] ∧ s.Unused ∧
      s.step false (.node (.db 0 .getCurrent)) = some s' ∧
      ∃ es s'', Machine.runEvents (StoresNode.step false) s' es = some s'' ∧ ¬ s''.Unused := by
  have hreach : ((storesMachine false).restrict StoresNode.Spares).Reachable _ :=
    .runGuarded (.start rfl) dropsIdle rfl
  obtain ⟨hunused, hbroken⟩ := stores_closed_unused hreach
  exact ⟨_, _, hreach, rfl, hunused, rfl, hbroken (.node (.db 0 .getCurrent)) _ (by decide) rfl⟩

/-- A request has version `1` when its db is dropped. -/
def dropsUsed : List StoresEvent :=
  (comesUp ++ NodeEvent.db 0 .getCurrent :: dropsDB).map .node ++ [.closeStore 0 ⟨0, [49]⟩]

/-- A request has the db when it is dropped, and asks for the version before the block store is
closed. -/
def dropsAsked : List StoresEvent :=
  (comesUp ++ dropsDB).map .node ++ [.node (.db 0 .getCurrent), .closeStore 0 ⟨0, [49]⟩]

/-- Each part of the condition is needed. -/
theorem dropped_db_closes_used : ∃ s s', (storesMachine false).Reachable s ∧
    (storesMachine false).Reachable s' ∧
    Machine.runEvents (StoresNode.step false) .new dropsUsed = some s ∧
    Machine.runEvents (StoresNode.step false) .new dropsAsked = some s' ∧
    s.closed = [⟨0, ⟨0, [49]⟩, 1⟩] ∧ s'.closed = [⟨0, ⟨0, [49]⟩, 1⟩] :=
  ⟨_, _, .run (.start rfl) dropsUsed rfl, .run (.start rfl) dropsAsked rfl, rfl, rfl, rfl, rfl⟩

end Sequins
