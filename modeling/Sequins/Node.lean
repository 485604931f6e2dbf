import Sequins.InUse

/-!
# A node

`sequins.go`: the dbs of a node, and `refreshAll`, which makes new dbs, refreshes those it has
and closes those that the backend no longer lists. A node is a machine whose events are the
events of its dbs, as far as somebody may cause them, and the steps of `refreshAll`:

* requests reach a db once it was in the map, also after it was taken out;
* `refresh` of a db is called by the goroutines that `refreshAll` starts;
* `close` of a db is called by `refreshAll` itself.

So every db of a node runs as `dbMachine` says (`Node.reachable_db`), and what is known of the runs
of a db holds of the dbs of a node. What an event of the node does to one of them is `HeapStep`.
-/

namespace Sequins

/-! ## The machine

A db that is dropped stays in the heap, since requests and goroutines may still know it. The map
`dbs` is the only way for new requests to get there. -/

/-- Where `refreshAll` stands. -/
inductive RefreshAllStage where
  /-- before `ListDBs` -/
  | list
  /-- in the loop over the names, with the new map and the dbs being backfilled -/
  | add (names : List Bytes) (newDBs : AList fun _ : Bytes => ℕ) (backfills : List ℕ)
  /-- in the loop over the old map, with the dbs still to be removed -/
  | close (dropped : List ℕ)
  /-- in `close` of a db -/
  | closing (i : ℕ) (dropped : List ℕ)

/-- A node. -/
structure Node where
  /-- `dbs`, by address -/
  dbs : AList fun _ : Bytes => ℕ
  /-- the db objects -/
  heap : List DB
  /-- those that were in `dbs` at some time, so that requests may have them -/
  published : List ℕ
  /-- goroutines of `refreshAll` that are going to call `refresh` -/
  refreshes : List ℕ
  /-- the holder of the node's `refreshLock` -/
  refresher : Option RefreshAllStage

/-- Who causes an event of a db. -/
inductive Origin where
  /-- a request -/
  | request
  /-- a caller of `refresh` -/
  | refresh
  /-- a caller of `close` -/
  | close
  /-- the db's own goroutines, or its environment -/
  | db
  deriving DecidableEq, Repr

def DBEvent.origin : DBEvent → Origin
  | .getCurrent => .request
  | .getVersion _ => .request
  | .release _ => .request
  | .refresh => .refresh
  | .close _ => .close
  | _ => .db

/-- What can happen to a node. -/
inductive NodeEvent where
  /-- something happens to a db -/
  | db (i : ℕ) (e : DBEvent)
  /-- `refreshAll` is called -/
  | refreshAll
  /-- `ListDBs` returns, or fails -/
  | listDBs (names : Option (List Bytes))
  /-- `refreshAll` goes on -/
  | refreshAllNext (dbOrder : IterOrder (Σ _ : Bytes, ℕ))
      (order : IterOrder (Σ _ : Bytes, Entry))

/-- `close` is running. -/
def DB.closing (d : DB) : Bool :=
  match d.refresher with
  | some (.close _) => true
  | _ => false

namespace Node

def new : Node := ⟨∅, [], [], [], none⟩

/-- An event of a db. -/
def onDB (peers : Bool) (n : Node) (i : ℕ) (e : DBEvent) : Option Node :=
  match n.heap[i]? with
  | none => none
  | some d => (d.step peers e).map fun d' => { n with heap := n.heap.set i d' }

/-- The dbs of the old map whose names the new one does not have. -/
def dropped (old newDBs : AList fun _ : Bytes => ℕ) (order : IterOrder (Σ _ : Bytes, ℕ)) :
    List ℕ :=
  (order.arrange old.entries).filterMap fun e =>
    if newDBs.lookup e.1 = none then some e.2 else none

def refreshAllNext (peers : Bool) (n : Node) (dbOrder : IterOrder (Σ _ : Bytes, ℕ))
    (order : IterOrder (Σ _ : Bytes, Entry)) : Option Node :=
  match n.refresher with
  | some (.add (name :: names) newDBs backfills) =>
    match n.dbs.lookup name with
    | none =>
      some { n with
        heap := n.heap ++ [.new]
        refresher := some (.add names (newDBs.insert name n.heap.length)
          (n.heap.length :: backfills)) }
    | some i =>
      some { n with
        refreshes := i :: n.refreshes
        refresher := some (.add names (newDBs.insert name i) backfills) }
  | some (.add [] newDBs backfills) =>
    -- nobody else has these dbs, so their `refreshLock` is free once they are backfilled
    if ∀ i ∈ backfills, ∀ d ∈ n.heap[i]?, d.refresher = none then
      some { n with
        dbs := newDBs
        published := newDBs.entries.map Sigma.snd ++ n.published
        refresher := some (.close (dropped n.dbs newDBs dbOrder)) }
    else
      none
  | some (.close []) => some { n with refresher := none }
  | some (.close (i :: rest)) =>
    (n.onDB peers i (.close order)).map fun n' => { n' with refresher := some (.closing i rest) }
  | some (.closing i rest) =>
    if ∀ d ∈ n.heap[i]?, d.closing = false then
      some { n with refresher := some (.close rest) }
    else
      none
  | _ => none

def act (peers : Bool) (n : Node) : NodeEvent → Option Node
  | .db i e =>
    match e.origin with
    | .request => if i ∈ n.published then n.onDB peers i e else none
    | .refresh =>
      if i ∈ n.refreshes then
        (n.onDB peers i e).map fun n' => { n' with refreshes := n'.refreshes.erase i }
      else
        none
    | .close => none
    | .db => n.onDB peers i e
  | .refreshAll =>
    match n.refresher with
    | none => some { n with refresher := some .list }
    | some _ => none
  | .listDBs names =>
    match n.refresher, names with
    | some .list, none => some { n with refresher := none }
    | some .list, some names => some { n with refresher := some (.add names ∅ []) }
    | _, _ => none
  | .refreshAllNext dbOrder order => n.refreshAllNext peers dbOrder order

/-- A panic in any db ends the process. -/
def step (peers : Bool) (n : Node) (e : NodeEvent) : Option Node :=
  if ∀ d ∈ n.heap, d.panic = none then n.act peers e else none

end Node

/-- Every run of a node. -/
def nodeMachine (peers : Bool) : Machine Node NodeEvent := .ofStep .new (Node.step peers)

/-! ## Its dbs -/

namespace Node

variable {peers : Bool} {n n' : Node}

/-- What holds of every db of a node. -/
def AllDBs (P : DB → Prop) (n : Node) : Prop := ∀ d ∈ n.heap, P d

/-- An event of a db, as the node has it: the db moves, and nothing else. -/
theorem onDB_cases {i : ℕ} {e : DBEvent} (hs : n.onDB peers i e = some n') :
    ∃ d d', n.heap[i]? = some d ∧ d.panic = none ∧ d.act peers e = some d' ∧
      n' = { n with heap := n.heap.set i d' } := by
  rw [onDB] at hs
  rcases hd : n.heap[i]? with _ | d
  · rw [hd] at hs
    cases hs
  · rw [hd] at hs
    obtain ⟨d', hstep, rfl⟩ := Option.map_eq_some_iff.mp hs
    rw [DB.step] at hstep
    split at hstep
    · exact ⟨d, d', rfl, ‹_›, hstep, rfl⟩
    · cases hstep

/-- The db whose `close` is called next. -/
def toClose (n : Node) : Option ℕ :=
  match n.refresher with
  | some (.close (i :: _)) => some i
  | _ => none

/-- An event of a node is an event of the db at an address, or calls its `close`. -/
def Concerns (n : Node) (e : NodeEvent) (i : ℕ) (ev : DBEvent) : Prop :=
  e = .db i ev ∧ ev.origin ≠ .close ∨
    ∃ dbOrder order, e = .refreshAllNext dbOrder order ∧ ev = .close order ∧ n.toClose = some i

/-- What an event of a node does to the db at an address. -/
inductive HeapStep (peers : Bool) (n n' : Node) (e : NodeEvent) (i : ℕ) : Prop where
  /-- nothing -/
  | same (heap : n'.heap[i]? = n.heap[i]?)
  /-- it is made -/
  | made (before : n.heap[i]? = none) (after : n'.heap[i]? = some .new)
  /-- it has an event of its own, or is closed -/
  | moved (d d' : DB) (ev : DBEvent) (before : n.heap[i]? = some d) (after : n'.heap[i]? = some d')
      (panic : d.panic = none) (act : d.act peers ev = some d') (event : n.Concerns e i ev)

/-- What else happens to the node does not matter to a db. -/
theorem HeapStep.of_heap_eq {n₁ : Node} {e : NodeEvent} {i : ℕ} (h : HeapStep peers n n₁ e i)
    (hheap : n'.heap = n₁.heap) : HeapStep peers n n' e i := by
  obtain heap | ⟨before, after⟩ | ⟨d, d', ev, before, after, panic, act, event⟩ := h
  · exact .same (hheap ▸ heap)
  · exact .made before (hheap ▸ after)
  · exact .moved d d' ev before (hheap ▸ after) panic act event

/-- An event of one db leaves the others where they are. -/
theorem heapStep_onDB {i j : ℕ} {e : NodeEvent} {ev : DBEvent} (hs : n.onDB peers j ev = some n')
    (hev : n.Concerns e j ev) : HeapStep peers n n' e i := by
  obtain ⟨d, d', hd, hpanic, hact, rfl⟩ := onDB_cases hs
  by_cases hij : j = i
  · subst hij
    obtain ⟨hlt, -⟩ := List.getElem?_eq_some_iff.mp hd
    exact .moved d d' ev hd (List.getElem?_set_self hlt) hpanic hact hev
  · exact .same (List.getElem?_set_ne hij)

/-- `refreshAll` makes dbs, calls `close`, or touches none. -/
theorem heapStep_refreshAllNext {i : ℕ} {dbOrder : IterOrder (Σ _ : Bytes, ℕ)}
    {order : IterOrder (Σ _ : Bytes, Entry)}
    (hs : n.refreshAllNext peers dbOrder order = some n') :
    HeapStep peers n n' (.refreshAllNext dbOrder order) i := by
  rcases hr : n.refresher with _ | r
  · simp [Node.refreshAllNext, hr] at hs
  cases r with
  | list => simp [Node.refreshAllNext, hr] at hs
  | add names newDBs backfills =>
    cases names with
    | nil =>
      simp only [Node.refreshAllNext, hr] at hs
      split_ifs at hs
      obtain rfl := Option.some.inj hs
      exact .same rfl
    | cons name names =>
      simp only [Node.refreshAllNext, hr] at hs
      rcases hi : n.dbs.lookup name with _ | j
      · rw [hi] at hs
        obtain rfl := Option.some.inj hs
        rcases Nat.lt_trichotomy i n.heap.length with hlt | rfl | hgt
        · exact .same (List.getElem?_append_left hlt)
        · exact .made (List.getElem?_eq_none (le_refl _)) List.getElem?_concat_length
        · refine .same ?_
          rw [List.getElem?_eq_none, List.getElem?_eq_none hgt.le]
          rw [List.length_append]
          exact hgt
      · rw [hi] at hs
        obtain rfl := Option.some.inj hs
        exact .same rfl
  | close rest =>
    cases rest with
    | nil =>
      simp only [Node.refreshAllNext, hr] at hs
      obtain rfl := Option.some.inj hs
      exact .same rfl
    | cons j rest =>
      simp only [Node.refreshAllNext, hr] at hs
      obtain ⟨n₁, hn₁, rfl⟩ := Option.map_eq_some_iff.mp hs
      refine (heapStep_onDB hn₁ (.inr ⟨dbOrder, order, rfl, rfl, ?_⟩)).of_heap_eq rfl
      rw [toClose, hr]
  | closing j rest =>
    simp only [Node.refreshAllNext, hr] at hs
    split_ifs at hs
    obtain rfl := Option.some.inj hs
    exact .same rfl

/-- **What an event of a node does to its dbs.** -/
theorem heapStep_act {i : ℕ} {e : NodeEvent} (hs : n.act peers e = some n') :
    HeapStep peers n n' e i := by
  cases e with
  | db j ev =>
    rw [Node.act] at hs
    split at hs
    · split at hs
      · exact heapStep_onDB hs (.inl ⟨rfl, by simp [*]⟩)
      · cases hs
    · split at hs
      · obtain ⟨n₁, hn₁, rfl⟩ := Option.map_eq_some_iff.mp hs
        exact (heapStep_onDB hn₁ (.inl ⟨rfl, by simp [*]⟩)).of_heap_eq rfl
      · cases hs
    · cases hs
    · exact heapStep_onDB hs (.inl ⟨rfl, by simp [*]⟩)
  | refreshAll =>
    rw [Node.act] at hs
    split at hs
    · obtain rfl := Option.some.inj hs
      exact .same rfl
    · cases hs
  | listDBs names =>
    simp only [Node.act] at hs
    split at hs
    · obtain rfl := Option.some.inj hs
      exact .same rfl
    · obtain rfl := Option.some.inj hs
      exact .same rfl
    · cases hs
  | refreshAllNext dbOrder order => exact heapStep_refreshAllNext hs

/-- Every db of a node runs as a db does. -/
theorem reachable_db (h : (nodeMachine peers).Reachable n) :
    n.AllDBs (dbMachine peers).Reachable := by
  refine h.invariant (fun _ hs => hs ▸ fun _ hd => by cases hd) fun s e s' _ hdbs hs => ?_
  change Node.step peers s e = some s' at hs
  rw [Node.step] at hs
  split at hs
  · intro d' hd'
    obtain ⟨i, hi⟩ := List.getElem?_of_mem hd'
    obtain heap | ⟨-, after⟩ | ⟨d, d₁, ev, before, after, panic, act, -⟩ := heapStep_act (i := i) hs
    · exact hdbs d' (List.mem_of_getElem? (heap ▸ hi))
    · obtain rfl := Option.some.inj (hi.symm.trans after)
      exact .start rfl
    · obtain rfl := Option.some.inj (hi.symm.trans after)
      exact .step (hdbs d (List.mem_of_getElem? before)) ((if_pos panic).trans act)
  · cases hs

end Node

/-- A node comes up with version `1` of db `a`. -/
def comesUp : List NodeEvent :=
  [.refreshAll, .listDBs (some [[97]]), .refreshAllNext (.stored _) (.stored _),
    .db 0 (.listVersions (some [[49]]))] ++ (switchesTo ⟨0, [49]⟩).map (.db 0) ++
    [.db 0 .refresherNext, .refreshAllNext (.stored _) (.stored _),
      .refreshAllNext (.stored _) (.stored _)]

/-- The backend no longer lists the db. -/
def dropsDB : List NodeEvent :=
  [.refreshAll, .listDBs (some []), .refreshAllNext (.stored _) (.stored _),
    .refreshAllNext (.stored _) (.stored _), .db 0 .refresherNext]

end Sequins
