import Sequins.Handover
import Sequins.Node
import Sequins.Readiness

/-!
# Only complete versions become current

A version has two channels: `partitions.ready`, closed once every partition is held by some node,
and `ready`, which a goroutine of `newVersion` closes after it, or when the version is canceled.
`upgrade` waits for the second one and cannot tell why it was closed.

For `dbMachine` it is arbitrary when the last missing partition of a version arrives.
`ShardedNode` puts the partitions of every version beside a node, so that builds and lists of
children make it happen, and keeps for each version whether it was complete at some moment
(`Tracked`).

A version that `removeVersion` canceled is older than the current one, and `upgrade` turns it away.
One that `db.close` canceled may be newer, and then becomes current without its partitions
(`dropsIncomplete_upgrades`). As long as `db.close` only closes versions that were complete, or are
older than the current one, `mux.upgrade` is only executed for versions that were complete
(`upgrades_complete`).
-/

namespace Sequins

instance (m : Mux) (v : VersionRef) : Decidable (m.Outdated v) :=
  inferInstanceAs (Decidable (∃ e ∈ m.currentVersion, v.name < e.version.name))

/-! ## The partitions of one version

`Partitions` counts what is missing and closes a channel when the count comes to zero. What is
wanted of a version is `Complete`, which says nothing of counters; the two agree because the
books are `Settled` after every update. -/

/-- Every partition is local or remote. -/
def Partitions.Complete (p : Partitions) : Prop :=
  ∀ i < p.numPartitions, (i : ℤ) ∈ p.localPartitions ∨ p.remotePartitions i ≠ []

instance (p : Partitions) : Decidable p.Complete :=
  inferInstanceAs (Decidable (∀ i < p.numPartitions, _ ∨ _))

/-- `vs.partitions`, with some history. -/
structure Tracked where
  /-- the partitions -/
  partitions : Partitions
  /-- history: they were complete at some moment -/
  covered : Bool

/-- One more update. -/
def Tracked.run (t : Tracked) (call : PartitionsCall) : Option Tracked :=
  (call.run t.partitions).map fun p => ⟨p, t.covered || decide p.Complete⟩

/-- `watchPartitions`, and the updates until `newVersion` looks at `partitions.ready`: the
partitions that the manifest has, and lists of children that arrive meanwhile. -/
def track (address : Option Address) (numPartitions : ℕ) (selected : Finset ℤ)
    (nodes : List Advert) (calls : List PartitionsCall) : Option Tracked :=
  (Partitions.watchChildren address numPartitions selected (nodes.map Advert.node)).bind fun p =>
    calls.foldlM Tracked.run ⟨p, decide p.Complete⟩

/-- The books are right, and the channel is closed if the version was complete. -/
structure Tracked.Ok (t : Tracked) : Prop where
  /-- the partitions come from some history -/
  reflects : ∃ address n chosen loaded nodes, t.partitions.Reflects address n chosen loaded nodes
  /-- `partitions.ready` -/
  ready : t.partitions.readyClosed = true ↔ t.covered = true

/-- The count is zero exactly if nothing is missing. -/
theorem Partitions.Settled.complete_iff {p : Partitions} (h : p.Settled) :
    p.numMissing = 0 ↔ p.Complete := by
  rw [h.numMissing, List.length_eq_zero_iff, missingPartitions, List.filter_eq_nil_iff]
  constructor
  · intro hnone i hi
    have := hnone i (List.mem_range.mpr hi)
    simp only [Bool.and_eq_true, decide_eq_true_eq, List.isEmpty_iff, not_and] at this
    by_cases hlocal : (i : ℤ) ∈ p.localPartitions
    · exact .inl hlocal
    · exact .inr (this hlocal)
  · intro hcomplete i hi
    simp only [Bool.and_eq_true, decide_eq_true_eq, List.isEmpty_iff, not_and]
    intro hlocal
    exact (hcomplete i (List.mem_range.mp hi)).resolve_left hlocal

/-- One more update: the channel is closed when the history says so, and is never opened again. -/
theorem Tracked.Ok.run {t t' : Tracked} (h : t.Ok) {call : PartitionsCall}
    (hrun : t.run call = some t') : t'.Ok ∧ (t.covered = true → t'.covered = true) := by
  obtain ⟨address, n, chosen, loaded, nodes, hreflects⟩ := h.reflects
  obtain ⟨p', hp', hreflects', hready⟩ := hreflects.run call
  rw [Tracked.run, hp', Option.map_some] at hrun
  obtain rfl := Option.some.inj hrun
  refine ⟨⟨⟨_, _, _, _, _, hreflects'⟩, ?_⟩, fun hcovered => ?_⟩
  · rw [hready, hreflects'.settled.complete_iff, h.ready, Bool.or_eq_true, decide_eq_true_iff]
  · rw [hcovered, Bool.true_or]

theorem Tracked.ok_foldlM {t t' : Tracked} (h : t.Ok) (calls : List PartitionsCall)
    (hrun : calls.foldlM Tracked.run t = some t') : t'.Ok := by
  induction calls generalizing t with
  | nil =>
    obtain rfl := Option.some.inj hrun
    exact h
  | cons call calls ih =>
    rw [List.foldlM_cons] at hrun
    obtain ⟨t₁, ht₁, hrun⟩ := Option.bind_eq_some_iff.mp hrun
    exact ih (h.run ht₁).1 hrun

theorem ok_track {address : Option Address} {n : ℕ} {selected : Finset ℤ} {nodes : List Advert}
    {calls : List PartitionsCall} {t : Tracked}
    (h : track address n selected nodes calls = some t) : t.Ok := by
  obtain ⟨p, hp, hreflects, hready⟩ := Partitions.reflects_watchChildren address n selected nodes
  rw [track, hp, Option.bind_some] at h
  refine Tracked.ok_foldlM ⟨⟨_, _, _, _, _, hreflects⟩, ?_⟩ calls h
  rw [hready, hreflects.settled.complete_iff, decide_eq_true_iff]

/-! ## The machine -/

/-- A node with the partitions of its versions. -/
structure ShardedNode where
  /-- the node -/
  node : Node
  /-- the partitions of the versions of each db -/
  versions : ℕ × VersionRef → Option Tracked

/-- What can happen. -/
inductive ShardedEvent where
  /-- an event of the node -/
  | node (e : NodeEvent)
  /-- `newVersion` returns a version -/
  | newVersion (i numPartitions : ℕ) (selected : Finset ℤ) (nodes : List Advert)
      (calls : List PartitionsCall)
  /-- partitions of a version are built, or a list of children arrives -/
  | update (i : ℕ) (v : VersionRef) (call : PartitionsCall)

/-- The db in which the holder of `refreshLock` goes on. -/
def ShardedEvent.refresherNext : ShardedEvent → Option ℕ
  | .node (.db i .refresherNext) => some i
  | _ => none

/-- The event is one that partitions cause. -/
def NodeEvent.completes : NodeEvent → Bool
  | .db _ e => e.completes
  | _ => false

namespace ShardedNode

def new : ShardedNode := ⟨.new, fun _ => none⟩

def act (address : Option Address) (s : ShardedNode) : ShardedEvent → Option ShardedNode
  | .node e =>
    if e.completes then none
    else (s.node.act address.isSome e).map fun n => { s with node := n }
  | .newVersion i numPartitions selected nodes calls =>
    (track address numPartitions selected nodes calls).bind fun t =>
      (s.node.act address.isSome (.db i (.newVersion (some t.partitions.readyClosed)))).bind fun n =>
        (n.heap[i]?.bind fun d => d.created.head?).map fun v =>
          ⟨n, Function.update s.versions (i, v) (some t)⟩
  | .update i v call =>
    (s.versions (i, v)).bind fun t => (t.run call).bind fun t' =>
      -- `close(p.ready)`
      (if t'.partitions.readyClosed ∧ ¬ t.partitions.readyClosed then
          s.node.act address.isSome (.db i (.partitionsReady v))
        else
          some s.node).map fun n => ⟨n, Function.update s.versions (i, v) (some t')⟩

/-- A panic in any db ends the process. -/
def step (address : Option Address) (s : ShardedNode) (e : ShardedEvent) : Option ShardedNode :=
  if ∀ d ∈ s.node.heap, d.panic = none then s.act address e else none

end ShardedNode

/-- Every run of a node, with its address or without sharding. -/
def shardedMachine (address : Option Address) : Machine ShardedNode ShardedEvent :=
  .ofStep .new (ShardedNode.step address)

/-! ## Why a version is upgraded to

A call of `upgrade` comes from a `ready` that was closed. That was so because the version was
complete, or because it was canceled; and if `removeVersion` canceled it, it is older than the
current one, and `upgrade` will find that out. `db.close` is the one that has to be watched. -/

namespace DB

variable {d d' : DB} {e : DBEvent}

/-- What is going to become current was complete, or is turned away. -/
structure Vouched (d : DB) : Prop where
  /-- the versions whose `ready` is closed -/
  ready : ∀ v ∈ d.ready, v ∈ d.partitionsReady ∨ d.mux.Outdated v
  /-- those whose `cancel` is closed -/
  cancelled : ∀ v ∈ d.cancelled, v ∈ d.partitionsReady ∨ d.mux.Outdated v
  /-- what `removeVersion` is going to close -/
  removed : ∀ v ∈ d.removed, d.mux.Outdated v
  /-- the calls of `upgrade` -/
  callers : ∀ v ∈ d.callers, v ∈ d.partitionsReady ∨ d.mux.Outdated v

theorem vouched_new : new.Vouched where
  ready := fun _ hv => by cases hv
  cancelled := fun _ hv => by cases hv
  removed := fun _ hv => by cases hv
  callers := fun _ hv => by cases hv

/-- One event, by what it hands from one goroutine to the next. -/
theorem Vouched.handover (h : d.Vouched) (hsound : d.Sound) (hsound' : d'.Sound)
    (hhand : Handover e d d') (hclose : e = .refresherNext →
      ∀ v ∈ d.toClose.head?, v ∈ d.partitionsReady ∨ d.mux.Outdated v) : d'.Vouched := by
  have hkeep : ∀ v, v ∈ d.partitionsReady ∨ d.mux.Outdated v →
      v ∈ d'.partitionsReady ∨ d'.mux.Outdated v := fun v hv =>
    hv.imp (fun hready => hhand.complete hready) (hhand.outdated hsound hsound')
  refine ⟨fun v hv => ?_, fun v hv => ?_, fun v hv => ?_, fun v hv => ?_⟩
  · obtain hv | hv | hv := hhand.ready v hv
    · exact hkeep v (h.ready v hv)
    · exact hkeep v (h.cancelled v hv)
    · exact .inl hv
  · have hclosed : ∀ w byDB, v ∈ (d.closeVersion w byDB).cancelled → v ∈ d.cancelled ∨ v = w := by
      intro w byDB hmem
      rw [closeVersion] at hmem
      split at hmem
      · exact .inl hmem
      · exact (Finset.mem_insert.mp hmem).symm
    apply hkeep
    obtain ⟨cancelled, -, -, -⟩ | ⟨order, -, -, rfl⟩ | ⟨w, ws, hevent, hr, rfl⟩ | ⟨w, hc, rfl⟩ :=
      hhand.shuts
    · exact h.cancelled v (cancelled ▸ hv)
    · exact h.cancelled v hv
    · obtain hv | rfl := hclosed w true hv
      · exact h.cancelled v hv
      · refine hclose hevent v ?_
        rw [toClose, hr]
        rfl
    · obtain hv | rfl := hclosed w false hv
      · exact h.cancelled v hv
      · refine .inr (h.removed v ?_)
        rw [DB.removed, hc]
        exact List.mem_singleton_self _
  · apply hhand.outdated hsound hsound'
    obtain hv | hv := hhand.removed v hv
    · exact h.removed v hv
    · exact hsound.removing hv
  · apply hkeep
    obtain hv | hv := hhand.callers v hv
    · exact h.callers v hv
    · exact h.ready v hv

end DB

/-! ## The invariant -/

namespace ShardedNode

variable {address : Option Address} {s s' : ShardedNode} {e : ShardedEvent}

/-- The node and the partitions of its versions agree. -/
structure Recorded (s : ShardedNode) : Prop where
  /-- the partitions of the versions are in order -/
  tracked : ∀ i v t, s.versions (i, v) = some t →
    t.Ok ∧ ∃ d, s.node.heap[i]? = some d ∧ v ∈ d.created
  /-- the node knows for which of them `partitions.ready` is closed -/
  ready : ∀ (i : ℕ) (d : DB), s.node.heap[i]? = some d → ∀ v, v ∈ d.partitionsReady ↔
    ∃ t, s.versions (i, v) = some t ∧ t.partitions.readyClosed = true

/-- What holds of a node as long as `db.close` closes no version too early. -/
structure Ok (s : ShardedNode) : Prop extends s.Recorded where
  /-- no db upgrades to a version that was not complete -/
  vouched : ∀ (i : ℕ) (d : DB), s.node.heap[i]? = some d → d.Vouched

/-- A db is told about its versions by the events of their partitions. -/
theorem onDB_of_act {n n' : Node} {peers : Bool} {i : ℕ} {ev : DBEvent} (hev : ev.completes = true)
    (hs : n.act peers (.db i ev) = some n') : n.onDB peers i ev = some n' := by
  cases ev with
  | partitionsReady v => exact hs
  | newVersion complete => exact hs
  | _ => cases hev

/-- The node moves by an event of its own. -/
theorem act_node (hs : s.act address e = some s') :
    s'.node = s.node ∨ ∃ ev, s.node.act address.isSome ev = some s'.node ∧
      (e = .node ev ∨ ev.completes = true) := by
  cases e with
  | node ev =>
    rw [act] at hs
    split at hs
    · cases hs
    · obtain ⟨n, hn, rfl⟩ := Option.map_eq_some_iff.mp hs
      exact .inr ⟨ev, hn, .inl rfl⟩
  | newVersion i numPartitions selected nodes calls =>
    obtain ⟨t, -, hs⟩ := Option.bind_eq_some_iff.mp hs
    obtain ⟨n, hn, hs⟩ := Option.bind_eq_some_iff.mp hs
    obtain ⟨v, -, rfl⟩ := Option.map_eq_some_iff.mp hs
    exact .inr ⟨_, hn, .inr rfl⟩
  | update i v call =>
    obtain ⟨t, -, hs⟩ := Option.bind_eq_some_iff.mp hs
    obtain ⟨t', -, hs⟩ := Option.bind_eq_some_iff.mp hs
    obtain ⟨n, hn, rfl⟩ := Option.map_eq_some_iff.mp hs
    split at hn
    · exact .inr ⟨_, hn, .inr rfl⟩
    · exact .inl (Option.some.inj hn).symm

/-- When `db.close` closes a version, that version was complete at some moment, or the current
version has a greater name. -/
def ClosesComplete (s : ShardedNode) (e : ShardedEvent) : Prop :=
  ∀ i ∈ e.refresherNext, ∀ d ∈ s.node.heap[i]?, ∀ v ∈ d.toClose.head?,
    (∃ t ∈ s.versions (i, v), t.covered = true) ∨ d.mux.Outdated v

instance (s : ShardedNode) : DecidablePred s.ClosesComplete := fun e =>
  inferInstanceAs
    (Decidable (∀ i ∈ e.refresherNext, ∀ d ∈ s.node.heap[i]?, ∀ v ∈ d.toClose.head?, _))

/-! ## One event -/

/-- A version is ready in its db only if its partitions say so. -/
theorem Ok.vouched_act (h : s.Ok) (hreach : s.node.AllDBs (dbMachine address.isSome).Reachable)
    (hguard : s.ClosesComplete e) (hs : s.act address e = some s') {i : ℕ} {d' : DB}
    (hd' : s'.node.heap[i]? = some d') : d'.Vouched := by
  obtain hsame | ⟨ev, hact, hev⟩ := act_node hs
  · exact h.vouched i d' (hsame ▸ hd')
  obtain heap | ⟨-, after⟩ | ⟨d, d₁, ev', before, after, panic, act, event⟩ :=
    Node.heapStep_act (i := i) hact
  · exact h.vouched i d' (heap ▸ hd')
  · obtain rfl := Option.some.inj (hd'.symm.trans after)
    exact DB.vouched_new
  · obtain rfl := Option.some.inj (hd'.symm.trans after)
    have hd := hreach d (List.mem_of_getElem? before)
    have hsound := DB.sound_of_reachable hd
    have hsound' := DB.sound_of_reachable (hd.step ((if_pos panic).trans act))
    have hhand := DB.handover_act panic hsound.known act
    refine (h.vouched i d before).handover hsound hsound' hhand ?_
    rintro rfl v hv
    -- only an event of the node lets `db.close` go on
    obtain ⟨rfl, -⟩ | ⟨_, _, -, hclose, -⟩ := event
    · obtain rfl : e = _ := hev.resolve_right (by simp [NodeEvent.completes, DBEvent.completes])
      refine (hguard i rfl d before v hv).imp (fun hcovered => ?_) id
      obtain ⟨t, ht, hcovered⟩ := hcovered
      exact (h.ready i d before v).mpr ⟨t, ht, (h.tracked i v t ht).1.ready.mpr hcovered⟩
    · cases hclose

/-- An event of the node that has nothing to do with partitions. -/
theorem Recorded.node_act (h : s.Recorded)
    (hreach : s.node.AllDBs (dbMachine address.isSome).Reachable)
    {ev : NodeEvent} (hev : ev.completes = false) {n : Node}
    (hs : s.node.act address.isSome ev = some n) : Recorded ⟨n, s.versions⟩ := by
  refine ⟨?_, ?_⟩
  · intro i v t ht
    obtain ⟨hok, d, hd, hv⟩ := h.tracked i v t ht
    refine ⟨hok, ?_⟩
    obtain heap | ⟨before, -⟩ | ⟨d₁, d', ev', before, after, panic, act, -⟩ :=
      Node.heapStep_act (i := i) hs
    · exact ⟨d, heap.trans hd, hv⟩
    · cases before.symm.trans hd
    · obtain rfl := Option.some.inj (before.symm.trans hd)
      have hsound := DB.sound_of_reachable (hreach d₁ (List.mem_of_getElem? before))
      exact ⟨d', after, (DB.handover_act panic hsound.known act).created.subset hv⟩
  · intro i d' hd' v
    obtain heap | ⟨before, after⟩ | ⟨d, d₁, ev', before, after, panic, act, event⟩ :=
      Node.heapStep_act (i := i) hs
    · exact h.ready i d' (heap ▸ hd') v
    · -- there are no versions of a db that was not there
      obtain rfl := Option.some.inj (hd'.symm.trans after)
      constructor
      · intro hv
        cases hv
      · rintro ⟨t, ht, -⟩
        obtain ⟨-, d, hd, -⟩ := h.tracked i v t ht
        cases before.symm.trans hd
    · obtain rfl := Option.some.inj (hd'.symm.trans after)
      have hsound := DB.sound_of_reachable (hreach d (List.mem_of_getElem? before))
      have hplain : ev'.completes = false := by
        obtain ⟨rfl, -⟩ | ⟨_, _, -, rfl, -⟩ := event
        · exact hev
        · rfl
      rw [(DB.handover_act panic hsound.known act).incomplete hplain]
      exact h.ready i d before v

/-- The partitions of one version change, and its db with them. -/
theorem Recorded.update (h : s.Recorded) {n : Node} {i : ℕ} {d d' : DB} {v : VersionRef} {t : Tracked}
    (hd : s.node.heap[i]? = some d) (hn : n.heap = s.node.heap.set i d') (ht : t.Ok)
    (hcreated : d.created <:+ d'.created) (hv : v ∈ d'.created)
    (hself : v ∈ d'.partitionsReady ↔ t.partitions.readyClosed = true)
    (hother : ∀ w, w ≠ v → (w ∈ d'.partitionsReady ↔ w ∈ d.partitionsReady)) :
    Recorded ⟨n, Function.update s.versions (i, v) (some t)⟩ := by
  have hlt : i < s.node.heap.length := (List.getElem?_eq_some_iff.mp hd).1
  have hi : n.heap[i]? = some d' := by rw [hn, List.getElem?_set_self hlt]
  have hj : ∀ j, j ≠ i → n.heap[j]? = s.node.heap[j]? := fun j hji => by
    rw [hn, List.getElem?_set_ne (Ne.symm hji)]
  refine ⟨fun j w t' ht' => ?_, fun j dj hdj w => ?_⟩
  · dsimp only at ht' ⊢
    by_cases hjw : (j, w) = (i, v)
    · obtain ⟨rfl, rfl⟩ := Prod.mk.inj hjw
      rw [Function.update_self] at ht'
      obtain rfl := Option.some.inj ht'
      exact ⟨ht, d', hi, hv⟩
    · rw [Function.update_of_ne hjw] at ht'
      obtain ⟨hok, dj, hdj, hw⟩ := h.tracked j w t' ht'
      by_cases hji : j = i
      · subst hji
        obtain rfl := Option.some.inj (hd.symm.trans hdj)
        exact ⟨hok, d', hi, hcreated.subset hw⟩
      · exact ⟨hok, dj, (hj j hji).trans hdj, hw⟩
  · dsimp only at hdj ⊢
    by_cases hjw : (j, w) = (i, v)
    · obtain ⟨rfl, rfl⟩ := Prod.mk.inj hjw
      obtain rfl := Option.some.inj (hi.symm.trans hdj)
      rw [Function.update_self, hself]
      simp
    · rw [Function.update_of_ne hjw]
      by_cases hji : j = i
      · subst hji
        obtain rfl := Option.some.inj (hi.symm.trans hdj)
        rw [hother w fun hw => hjw (by rw [hw])]
        exact h.ready j d hd w
      · exact h.ready j dj ((hj j hji).symm.trans hdj) w

/-- The history of a version begins. -/
theorem Recorded.newVersion (h : s.Recorded)
    (hreach : s.node.AllDBs (dbMachine address.isSome).Reachable)
    {i : ℕ} {t : Tracked} (ht : t.Ok) {n : Node}
    (hs : s.node.act address.isSome (.db i (.newVersion (some t.partitions.readyClosed))) = some n)
    {d' : DB} (hd' : n.heap[i]? = some d') {v : VersionRef} (hv : d'.created.head? = some v) :
    Recorded ⟨n, Function.update s.versions (i, v) (some t)⟩ := by
  obtain ⟨d, d₁, hd, -, hact, rfl⟩ := Node.onDB_cases (onDB_of_act rfl hs)
  obtain ⟨hlt, -⟩ := List.getElem?_eq_some_iff.mp hd
  rw [List.getElem?_set_self hlt] at hd'
  obtain rfl := Option.some.inj hd'
  obtain ⟨name, caller, rfl⟩ := DB.onNewVersion_some hact
  obtain rfl : (⟨d.created.length, name⟩ : VersionRef) = v := Option.some.inj hv
  have hsound := DB.sound_of_reachable (hreach d (List.mem_of_getElem? hd))
  -- the address is new, so nothing is known of the version
  have hnew : (⟨d.created.length, name⟩ : VersionRef) ∉ d.partitionsReady := by
    intro hmem
    obtain ⟨t', ht', -⟩ := (h.ready i d hd _).mp hmem
    obtain ⟨-, d₁, hd₁, hcreated⟩ := h.tracked i _ t' ht'
    obtain rfl := Option.some.inj (hd.symm.trans hd₁)
    exact absurd (hsound.created _ hcreated) (lt_irrefl _)
  refine h.update hd rfl ht (List.suffix_cons _ _) List.mem_cons_self ?_ fun w hw => ?_
  · rw [DB.createVersion]
    cases t.partitions.readyClosed with
    | true => simp
    | false => simpa using hnew
  · rw [DB.createVersion]
    cases t.partitions.readyClosed with
    | true => simp [hw]
    | false => simp

/-- The history of a version goes on. -/
theorem Recorded.run (h : s.Recorded) {i : ℕ} {v : VersionRef} {t t' : Tracked}
    {call : PartitionsCall} {n : Node} (ht : s.versions (i, v) = some t) (ht' : t.run call = some t')
    (hs : (if t'.partitions.readyClosed ∧ ¬ t.partitions.readyClosed then
        s.node.act address.isSome (.db i (.partitionsReady v))
      else
        some s.node) = some n) :
    Recorded ⟨n, Function.update s.versions (i, v) (some t')⟩ := by
  obtain ⟨hok, d, hd, hv⟩ := h.tracked i v t ht
  obtain ⟨hok', hcovered⟩ := hok.run ht'
  split at hs
  · -- `close(p.ready)` is executed
    obtain ⟨d₁, d', hd₁, -, hact, rfl⟩ := Node.onDB_cases (onDB_of_act rfl hs)
    obtain rfl := Option.some.inj (hd.symm.trans hd₁)
    rw [DB.act, if_pos hv] at hact
    obtain rfl := Option.some.inj hact
    refine h.update hd rfl hok' List.suffix_rfl hv ?_ fun w hw => ?_
    · simp [‹t'.partitions.readyClosed = true ∧ ¬ t.partitions.readyClosed = true›.1]
    · simp [hw]
  · obtain rfl := Option.some.inj hs
    have hkept : t'.partitions.readyClosed = true ↔ t.partitions.readyClosed = true := by
      constructor
      · intro hclosed
        by_contra hopen
        exact ‹¬ (t'.partitions.readyClosed = true ∧ ¬ t.partitions.readyClosed = true)›
          ⟨hclosed, hopen⟩
      · intro hclosed
        exact hok'.ready.mpr (hcovered (hok.ready.mp hclosed))
    obtain ⟨hlt, hget⟩ := List.getElem?_eq_some_iff.mp hd
    refine h.update hd ?_ hok' List.suffix_rfl hv ?_ fun w _ => Iff.rfl
    · rw [← hget, List.set_getElem_self]
    · rw [h.ready i d hd v, hkept]
      simp [ht]

/-- **One event keeps the invariant.** -/
theorem Ok.act (h : s.Ok) (hreach : s.node.AllDBs (dbMachine address.isSome).Reachable)
    (hguard : s.ClosesComplete e) (hs : s.act address e = some s') : s'.Ok := by
  have hvouched : ∀ (i : ℕ) (d : DB), s'.node.heap[i]? = some d → d.Vouched := fun _ _ hd =>
    h.vouched_act hreach hguard hs hd
  cases e with
  | node ev =>
    rw [ShardedNode.act] at hs
    split at hs
    · cases hs
    · obtain ⟨n, hn, rfl⟩ := Option.map_eq_some_iff.mp hs
      exact ⟨h.node_act hreach (by simpa using ‹¬ ev.completes = true›) hn, hvouched⟩
  | newVersion i numPartitions selected nodes calls =>
    obtain ⟨t, ht, hs⟩ := Option.bind_eq_some_iff.mp hs
    obtain ⟨n, hn, hs⟩ := Option.bind_eq_some_iff.mp hs
    obtain ⟨v, hv, rfl⟩ := Option.map_eq_some_iff.mp hs
    obtain ⟨d', hd', hv⟩ := Option.bind_eq_some_iff.mp hv
    exact ⟨h.newVersion hreach (ok_track ht) hn hd' hv, hvouched⟩
  | update i v call =>
    obtain ⟨t, ht, hs⟩ := Option.bind_eq_some_iff.mp hs
    obtain ⟨t', ht', hs⟩ := Option.bind_eq_some_iff.mp hs
    obtain ⟨n, hn, rfl⟩ := Option.map_eq_some_iff.mp hs
    exact ⟨h.run ht ht' hn, hvouched⟩

/-- A run of a node with its partitions is a run of the node. -/
theorem reachable_node (h : (shardedMachine address).Reachable s) :
    (nodeMachine address.isSome).Reachable s.node := by
  refine Machine.Reachable.invariant (P := fun s => (nodeMachine address.isSome).Reachable s.node)
    (fun s hs => ?_) (fun s e s' _ hnode hs => ?_) h
  · obtain rfl : s = .new := hs
    exact .start rfl
  · change ShardedNode.step address s e = some s' at hs
    rw [ShardedNode.step] at hs
    split at hs
    · obtain hsame | ⟨ev, hact, -⟩ := act_node hs
      · rwa [hsame]
      · exact .step hnode ((if_pos ‹_›).trans hact)
    · cases hs

end ShardedNode

end Sequins
