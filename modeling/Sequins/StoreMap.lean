import Sequins.BlockStore

/-!
# A block store is a map

What a `BlockStore` is for, stated without blocks, partitions or files: it is a list of
batches of records. A batch collects the Adds since the last `Save`, `Revert` or
reopening; `Save` keeps it, the other two drop it. A lookup answers from the earliest
kept batch that has the key, with the last value the batch Added for it
(`Batches.find`).

`Represents` is the representation invariant that ties a store and its directory to
such a list, and each operation preserves it (`Represents.add`, `.save`, `.revert`,
`.reopen`). Two facts carry it. The log of a partition holds exactly the records of
the batch with that normal partition, so the blocks of one partition, in order, are
the batches cut down to it. And a key is only ever stored under its *normal*
partition, so the scan of the alternate one never finds it.
-/

namespace Sequins

/-! ## The abstract store -/

/-- The batches of a store: those that ended in a `Save`, oldest first, and the current
one. -/
structure Batches where
  /-- the batches that were saved -/
  saved : List Log
  /-- the records Added since -/
  pending : Log

/-- The last value of the earliest saved batch that has the key. -/
def Batches.find (b : Batches) (key : Bytes) : Option Bytes :=
  b.saved.findSome? fun batch => batch.seek key

/-- The operations on a store. The environment picks the iteration order of a
`Save`. -/
inductive StoreOp where
  /-- `Add` -/
  | add (key value : Bytes)
  /-- `Save` -/
  | save (order : IterOrder (Σ _ : ℤ, BlockWriter)) (selected : Finset ℤ)
  /-- `Revert` -/
  | revert
  /-- `NewFromManifest` on the same directory -/
  | reopen

/-- What an operation does to the batches. -/
def Batches.step (b : Batches) : StoreOp → Batches
  | .add key value => { b with pending := b.pending ++ [(key, value)] }
  | .save _ _ => ⟨b.saved ++ [b.pending], []⟩
  | .revert => { b with pending := [] }
  | .reopen => { b with pending := [] }

/-! ## Runs of the store -/

/-- One operation with all input and output succeeding. -/
def StoreState.run (s : StoreState) : StoreOp → Except StoreError StoreState
  | .add key value =>
    match s.add .ok key value with
    | (s, none) => .ok s
    | (_, some err) => .error err
  | .save order selected =>
    match s.save ⟨order, fun _ => .ok, .ok⟩ selected with
    | (s, none) => .ok s
    | (_, some err) => .error err
  | .revert => .ok s.revert
  | .reopen =>
    match newFromManifest s.disk with
    | .ok (store, _) => .ok ⟨store, s.disk⟩
    | .error err => .error err

/-- A sequence of operations. -/
def StoreState.runAll (s : StoreState) : List StoreOp → Except StoreError StoreState
  | [] => .ok s
  | op :: ops =>
    match s.run op with
    | .ok s => s.runAll ops
    | .error err => .error err

/-- The store is only reopened after some `Save`. -/
def ReopensSaved (ops : List StoreOp) : Prop :=
  ∀ before after, ops = before ++ .reopen :: after →
    ∃ order selected, StoreOp.save order selected ∈ before

/-! ## The representation invariant

The blocks of a partition, in the order in which they were registered, are the saved batches cut
down to the partition, without those that have nothing for it. The writers are the same for the
pending batch. -/

/-- The records of a log with a given normal partition. -/
def part (n p : ℤ) (log : Log) : Log := log.filter fun e => decide ((keyPartition e.1 n).1 = p)

/-- A store and its directory represent a list of batches. -/
structure Represents (n : ℤ) (s : StoreState) (b : Batches) : Prop where
  /-- store and directory fit together -/
  sound : s.Sound
  /-- the store hashes to `n` partitions -/
  numPartitions : s.store.numPartitions = n
  /-- the blocks of a partition are the saved batches cut down to it -/
  blocks : ∀ p, (s.store.blockMap p).map Block.reader =
    (b.saved.map (part n p)).filter fun log => !log.isEmpty
  /-- the bounds of finished blocks are right -/
  bounded : ∀ blk ∈ s.store.blocks, blk.WellBounded
  /-- a partition without writer has no pending record -/
  noWriter : ∀ p, s.store.newBlocks.lookup p = none → part n p b.pending = []
  /-- a writer's log is the pending batch cut down to its partition -/
  writer : ∀ p bw, s.store.newBlocks.lookup p = some bw →
    s.disk.logs bw.name = some (part n p b.pending) ∧ bw.Describes (part n p b.pending) ∧
      part n p b.pending ≠ []
  /-- after a `Save` the manifest is that of the finished blocks -/
  manifest : b.saved ≠ [] → ∃ selected,
    s.disk.manifest = .whole (StoreState.saveManifest s.store selected)

theorem represents_init (n : ℤ) (compression : Compression) (blockSize : ℤ) :
    Represents n (StoreState.init n compression blockSize) ⟨[], []⟩ where
  sound := StoreState.sound_init n compression blockSize
  numPartitions := rfl
  blocks := fun _ => rfl
  bounded := fun _ hb => absurd hb List.not_mem_nil
  noWriter := fun _ _ => rfl
  writer := fun p bw h => by simp [StoreState.init, newBlockStore] at h
  manifest := fun h => absurd rfl h

/-! ### Add -/

theorem part_append_self {n : ℤ} (log : Log) (key value : Bytes) :
    part n (keyPartition key n).1 (log ++ [(key, value)]) =
      part n (keyPartition key n).1 log ++ [(key, value)] := by
  simp [part]

theorem part_append_ne {n p : ℤ} (log : Log) {key : Bytes} (value : Bytes)
    (h : (keyPartition key n).1 ≠ p) : part n p (log ++ [(key, value)]) = part n p log := by
  simp [part, h]

/-- When nothing fails, `Add` puts the record in the log of its partition's writer. -/
theorem StoreState.add_ok (s : StoreState) (key value : Bytes) :
    ∃ s₁ bw, s.writerFor .ok (keyPartition key s.store.numPartitions).1 = .ok (s₁, bw) ∧
      s.add .ok key value =
        (⟨{ s₁.store with newBlocks :=
              s₁.store.newBlocks.insert (keyPartition key s.store.numPartitions).1 (bw.add key) },
          s₁.disk.put bw.name key value⟩, none) := by
  rcases hw : s.writerFor .ok (keyPartition key s.store.numPartitions).1 with err | ⟨s₁, bw⟩
  · rw [StoreState.writerFor] at hw
    split at hw
    · cases hw
    · simp [AddOutcome.ok] at hw
  · refine ⟨s₁, bw, rfl, ?_⟩
    simp only [StoreState.add, hw]
    rfl

/-- Registering the writer of a partition represents the same batches, but for the new
writer's empty log. -/
theorem Represents.writerFor {n : ℤ} {s s₁ : StoreState} {b : Batches} {bw : BlockWriter} {p : ℤ}
    (h : Represents n s b) (hw : s.writerFor .ok p = .ok (s₁, bw)) :
    s₁.store = { s.store with newBlocks := s₁.store.newBlocks } ∧
    s₁.disk.manifest = s.disk.manifest ∧
    s₁.disk.logs bw.name = some (part n p b.pending) ∧ bw.Describes (part n p b.pending) ∧
    ∀ q, q ≠ p → s₁.store.newBlocks.lookup q = s.store.newBlocks.lookup q ∧
      ∀ w, s.store.newBlocks.lookup q = some w → s₁.disk.logs w.name = s.disk.logs w.name := by
  rcases StoreState.writerFor_eq_ok hw with ⟨hlook, rfl⟩ | ⟨hlook, rfl, rfl⟩
  · obtain ⟨hlog, hdesc, -⟩ := h.writer p bw hlook
    exact ⟨rfl, rfl, hlog, hdesc, fun q _ => ⟨rfl, fun _ _ => rfl⟩⟩
  · rw [h.noWriter p hlook]
    refine ⟨rfl, rfl, by simp [Disk.create], BlockWriter.describes_newBlock .., fun q hq => ?_⟩
    refine ⟨AList.lookup_insert_ne hq, fun w hwq => ?_⟩
    have hname : w.name ≠ (newBlock p s.disk.nextId).name := fun heq => by
      have hp := (h.sound.writer q w hwq).2
      rw [heq] at hp
      exact hq hp.symm
    exact Function.update_of_ne hname _ _

/-- **`Add` extends the pending batch.** -/
theorem Represents.add {n : ℤ} {s : StoreState} {b : Batches} (h : Represents n s b)
    (key value : Bytes) :
    ∃ s', s.add .ok key value = (s', none) ∧ Represents n s' (b.step (.add key value)) := by
  obtain ⟨s₁, bw, hw, hadd⟩ := s.add_ok key value
  have hsound := h.sound.add .ok key value
  rw [hadd] at hsound
  rw [h.numPartitions] at hw hadd hsound
  refine ⟨_, hadd, ?_⟩
  obtain ⟨hstore, hman, hlog, hdesc, hother⟩ := h.writerFor hw
  refine ⟨hsound, ?_, ?_, ?_, ?_, ?_, ?_⟩
  · rw [hstore]
    exact h.numPartitions
  · rw [hstore]
    exact h.blocks
  · rw [hstore]
    exact h.bounded
  · intro p hlook
    by_cases hp : p = (keyPartition key n).1
    · subst hp
      simp at hlook
    · rw [AList.lookup_insert_ne hp, (hother p hp).1] at hlook
      rw [Batches.step, part_append_ne _ _ (Ne.symm hp)]
      exact h.noWriter p hlook
  · intro p bw' hlook
    by_cases hp : p = (keyPartition key n).1
    · -- the partition of the key: its log grows by the record
      subst hp
      rw [AList.lookup_insert] at hlook
      obtain rfl := Option.some.inj hlook
      rw [Batches.step, part_append_self]
      refine ⟨?_, hdesc.add key value, by simp⟩
      simp [Disk.put, hlog]
    · rw [AList.lookup_insert_ne hp, (hother p hp).1] at hlook
      rw [Batches.step, part_append_ne _ _ (Ne.symm hp)]
      obtain ⟨hlog', hdesc', hne'⟩ := h.writer p bw' hlook
      refine ⟨?_, hdesc', hne'⟩
      have hname : bw'.name ≠ bw.name := fun heq => by
        have hp' := (h.sound.writer p bw' hlook).2
        have hp'' := ((h.sound.writerFor hw).1.writer _ bw (h.sound.writerFor hw).2).2
        rw [heq, hp''] at hp'
        exact hp hp'.symm
      rw [Disk.put]
      dsimp only
      rw [Function.update_of_ne hname, (hother p hp).2 bw' hlook, hlog']
  · intro hne
    obtain ⟨selected, hm⟩ := h.manifest hne
    refine ⟨selected, ?_⟩
    change s₁.disk.manifest = _
    rw [hman, hm, hstore]
    rfl

/-! ### Save -/

/-- When nothing fails, every writer becomes a block and the manifest is written. -/
theorem StoreState.Sound.save_ok {s : StoreState} (hs : s.Sound)
    (order : IterOrder (Σ _ : ℤ, BlockWriter)) (selected : Finset ℤ) :
    (s.save ⟨order, fun _ => .ok, .ok⟩ selected).2 = none := by
  obtain ⟨-, herr⟩ := hs.saveBlocks ⟨order, fun _ => .ok, .ok⟩
  have hall : ∀ e ∈ s.flushed ⟨order, fun _ => .ok, .ok⟩, saves (fun _ => .ok) s.disk e = true := by
    intro e he
    simp [saves, hs.writerOnDisk e.1 e.2 (StoreState.mem_flushed.mp he)]
  have hnone := herr.mpr hall
  rw [StoreState.save, ← StoreState.flushed]
  rcases hrun : Sequins.saveBlocks (fun _ => .ok) s.disk
    (s.flushed ⟨order, fun _ => .ok, .ok⟩) s.store with ⟨store, err⟩
  rw [hrun] at hnone
  obtain rfl : err = none := hnone
  rfl

/-- A writer becomes the block of the pending batch cut down to its partition. -/
theorem Represents.savedBlock {n : ℤ} {s : StoreState} {b : Batches} (h : Represents n s b)
    {p : ℤ} {bw : BlockWriter} (hlook : s.store.newBlocks.lookup p = some bw) :
    savedBlock s.disk ⟨p, bw⟩ = bw.toBlock (part n p b.pending) := by
  simp [Sequins.savedBlock, (h.writer p bw hlook).1]

/-- The blocks a `Save` registers for one partition: the pending batch cut down to it, if
it has such records. -/
theorem Represents.flushed_readers {n : ℤ} {s : StoreState} {b : Batches} (h : Represents n s b)
    (env : SaveEnv) (p : ℤ) :
    (((s.flushed env).map (Sequins.savedBlock s.disk)).filter fun blk =>
        decide (blk.partition = p)).map Block.reader =
      [part n p b.pending].filter fun log => !log.isEmpty := by
  -- whatever the order, the writer under `p` is the only one of its partition
  have hfilter : (s.flushed env).filter
      ((fun blk => decide (blk.partition = p)) ∘ Sequins.savedBlock s.disk) =
      (s.store.newBlocks.lookup p).toList.map (Sigma.mk p) := by
    rw [← AList.filter_arrange_key env.order]
    refine List.filter_congr fun e he => ?_
    rw [← (h.sound.writer e.1 e.2 (StoreState.mem_flushed.mp he)).1]
    rfl
  rw [List.filter_map, hfilter]
  rcases hlook : s.store.newBlocks.lookup p with _ | bw
  · simp [h.noWriter p hlook]
  · have hne := (h.writer p bw hlook).2.2
    simp [h.savedBlock hlook, BlockWriter.toBlock, hne]

/-- **`Save` keeps the pending batch.** -/
theorem Represents.save {n : ℤ} {s : StoreState} {b : Batches} (h : Represents n s b)
    (order : IterOrder (Σ _ : ℤ, BlockWriter)) (selected : Finset ℤ) :
    ∃ s', s.save ⟨order, fun _ => .ok, .ok⟩ selected = (s', none) ∧
      Represents n s' (b.step (.save order selected)) := by
  have hnone := h.sound.save_ok order selected
  have hsound := h.sound.save hnone
  obtain ⟨-, heq⟩ := h.sound.save_eq_none hnone
  have hmanifest := h.sound.save_manifest hnone
  rcases hsave : s.save ⟨order, fun _ => .ok, .ok⟩ selected with ⟨s', err⟩
  rw [hsave] at hnone hsound heq hmanifest
  obtain rfl : err = none := hnone
  refine ⟨s', rfl, ?_⟩
  change s' = _ at heq
  have hblocks : s'.store.blocks = s.store.blocks ++
      (s.flushed ⟨order, fun _ => .ok, .ok⟩).map (Sequins.savedBlock s.disk) := by
    rw [heq]
    simp
  have hnew : s'.store.newBlocks = ∅ := by rw [heq]
  refine ⟨hsound, ?_, fun p => ?_, fun blk hblk => ?_, fun p _ => rfl, fun p bw hlook => ?_,
    fun _ => ⟨selected, hmanifest⟩⟩
  · rw [heq]
    simpa using h.numPartitions
  · rw [hsound.indexed p, hblocks, List.filter_append, ← h.sound.indexed p, List.map_append,
      h.blocks p, h.flushed_readers, ← List.filter_append, Batches.step, List.map_append,
      List.map_singleton]
  · rw [hblocks, List.mem_append] at hblk
    rcases hblk with hblk | hblk
    · exact h.bounded blk hblk
    · obtain ⟨⟨p, bw⟩, he, rfl⟩ := List.mem_map.mp hblk
      have hlook := StoreState.mem_flushed.mp he
      rw [h.savedBlock hlook]
      exact (h.writer p bw hlook).2.1.wellBounded
  · simp [hnew] at hlook

/-! ### Revert and reopening -/

/-- **`Revert` drops the pending batch.** -/
theorem Represents.revert {n : ℤ} {s : StoreState} {b : Batches} (h : Represents n s b) :
    Represents n s.revert (b.step .revert) where
  sound := h.sound.revert
  numPartitions := h.numPartitions
  blocks := h.blocks
  bounded := h.bounded
  noWriter := fun _ _ => rfl
  writer := fun p bw hlook => by simp [StoreState.revert] at hlook
  manifest := h.manifest

/-- **Reopening drops the pending batch**: the logs of the writers stay on disk, but no
manifest names them. -/
theorem Represents.reopen {n : ℤ} {s : StoreState} {b : Batches} (h : Represents n s b)
    (hsaved : b.saved ≠ []) :
    ∃ s', s.run .reopen = .ok s' ∧ Represents n s' (b.step .reopen) := by
  obtain ⟨selected, hm⟩ := h.manifest hsaved
  obtain ⟨st, m, hopen, hblocks, hmap, hnew, hnum, -⟩ :=
    StoreState.newFromManifest_of_onDisk h.sound.indexed h.sound.onDisk hm
  refine ⟨⟨st, s.disk⟩, by rw [StoreState.run, hopen], ?_⟩
  refine ⟨h.sound.reopened hblocks hmap hnew, ?_, ?_, ?_, fun _ _ => rfl, ?_,
    fun _ => ⟨selected, ?_⟩⟩
  · rw [hnum]
    exact h.numPartitions
  · rw [hmap]
    exact h.blocks
  · rw [hblocks]
    exact h.bounded
  · intro p bw hlook
    simp [hnew] at hlook
  · rw [hm, StoreState.saveManifest, StoreState.saveManifest, hblocks, hnum]

/-! ## Lookups

What `Get` answers in a state that represents some batches. Only the saved ones
matter, so neither the pending batch nor the order in which blocks were flushed
shows. -/

/-- The answer of a lookup. A key both of whose partitions are empty is told apart from
a key that is merely absent. -/
def Batches.answer (n : ℤ) (b : Batches) (key : Bytes) : Except StoreError (Option Record) :=
  if ∀ batch ∈ b.saved, part n (keyPartition key n).1 batch = [] ∧
      part n (keyPartition key n).2 batch = [] then
    .error .partitionNotFound
  else
    .ok ((b.find key).map fun value => ⟨value.length, value⟩)

/-- A partition has no block if no batch has a record for it. -/
theorem Represents.blockMap_isEmpty {n : ℤ} {s : StoreState} {b : Batches} (h : Represents n s b)
    (p : ℤ) : (s.store.blockMap p).isEmpty ↔ ∀ batch ∈ b.saved, part n p batch = [] := by
  rw [List.isEmpty_iff, ← List.map_eq_nil_iff, h.blocks p, List.filter_eq_nil_iff]
  simp

/-- Empty blocks would not be found in anyway. -/
theorem findSome?_filter_nonempty {β : Type} (f : Log → Option β) (hf : f [] = none)
    (logs : List Log) :
    (logs.filter fun log => !log.isEmpty).findSome? f = logs.findSome? f := by
  induction logs with
  | nil => rfl
  | cons log logs ih =>
    rcases log with _ | ⟨e, log⟩
    · simp [hf, ih]
    · simp [List.findSome?_cons, ih]

/-- A key is found in the part of the batch that is its own. -/
theorem seek_part (n : ℤ) (key : Bytes) (log : Log) :
    (part n (keyPartition key n).1 log).seek key = log.seek key :=
  Log.seek_filter (p := fun k => decide ((keyPartition k n).1 = (keyPartition key n).1))
    (decide_eq_true rfl)

/-- Under another partition than its normal one a key is not stored. -/
theorem seek_part_of_ne {n p : ℤ} {key : Bytes} (h : p ≠ (keyPartition key n).1) (log : Log) :
    (part n p log).seek key = none := by
  rw [Log.seek_eq_none_iff]
  intro e he hk
  rw [part, List.mem_filter, decide_eq_true_eq] at he
  rw [← hk] at h
  exact h he.2.symm

/-- One of the two scans of `Get`: on the key's normal partition it is the lookup in
the batches, on any other it finds nothing. -/
theorem Represents.scan {n : ℤ} {s : StoreState} {b : Batches} (h : Represents n s b)
    (key : Bytes) (p : ℤ) :
    (s.store.blockMap p).findSome? (fun blk => blk.get key) =
      if p = (keyPartition key n).1 then (b.find key).map fun value => ⟨value.length, value⟩
      else none := by
  have hmem : ∀ blk ∈ s.store.blockMap p, blk.get key = blk.get' key := by
    intro blk hblk
    rw [h.sound.indexed p] at hblk
    exact Block.get_eq_seek (h.bounded blk (List.mem_filter.mp hblk).1) key
  have hreaders : (s.store.blockMap p).findSome? (fun blk => blk.get key) =
      b.saved.findSome? fun batch =>
        ((part n p batch).seek key).map fun value => (⟨value.length, value⟩ : Record) := by
    calc (s.store.blockMap p).findSome? (fun blk => blk.get key)
        = ((s.store.blockMap p).map fun blk => blk.get key).findSome? id := by
          rw [List.findSome?_map]
          rfl
      _ = ((s.store.blockMap p).map fun blk => blk.get' key).findSome? id := by
          rw [List.map_congr_left hmem]
      _ = ((s.store.blockMap p).map Block.reader).findSome? fun log =>
            (log.seek key).map fun value => (⟨value.length, value⟩ : Record) := by
          rw [List.findSome?_map, List.findSome?_map]
          rfl
      _ = _ := by
          rw [h.blocks p, findSome?_filter_nonempty _ rfl, List.findSome?_map]
          rfl
  rw [hreaders]
  split_ifs with hp
  · subst hp
    simp only [seek_part]
    rw [Batches.find, List.map_findSome?]
    rfl
  · simp [seek_part_of_ne hp]

/-- **`Get` is the lookup in the batches.** -/
theorem Represents.get {n : ℤ} {s : StoreState} {b : Batches} (h : Represents n s b) (key : Bytes) :
    s.store.get key = b.answer n key := by
  have hempty : ((s.store.blockMap (keyPartition key n).1).isEmpty ∧
        (s.store.blockMap (keyPartition key n).2).isEmpty) ↔
      ∀ batch ∈ b.saved, part n (keyPartition key n).1 batch = [] ∧
        part n (keyPartition key n).2 batch = [] := by
    rw [h.blockMap_isEmpty, h.blockMap_isEmpty, forall₂_and]
  simp only [BlockStore.get, h.numPartitions, h.scan, if_true, Batches.answer, hempty]
  split_ifs with hnone halt
  · rfl
  · rcases b.find key with _ | value <;> simp
  · rcases b.find key with _ | value <;> simp

/-! ## Whole runs

By induction on the operations. An operation never fails here, except that a store cannot be
reopened before its first `Save`. -/

/-- The batches after a sequence of operations on a new store. -/
def batchesOf (ops : List StoreOp) : Batches := ops.foldl Batches.step ⟨[], []⟩

/-- The operation without the order the environment picked. -/
def StoreOp.forgetOrder : StoreOp → StoreOp
  | .save _ selected => .save (IterOrder.stored _) selected
  | op => op

theorem Batches.step_forgetOrder (b : Batches) (op : StoreOp) :
    b.step op.forgetOrder = b.step op := by
  cases op <;> rfl

/-- The order in which blocks are flushed does not show in the batches. -/
theorem batchesOf_forgetOrder (ops : List StoreOp) :
    batchesOf (ops.map StoreOp.forgetOrder) = batchesOf ops := by
  rw [batchesOf, List.foldl_map, batchesOf]
  simp only [Batches.step_forgetOrder]

theorem Batches.saved_step (b : Batches) (op : StoreOp) (h : b.saved ≠ []) :
    (b.step op).saved ≠ [] := by
  cases op with
  | save order selected => simp [Batches.step]
  | _ => exact h

/-- One step of a run: each operation succeeds and does to the store what it does to the
batches. -/
theorem Represents.run {n : ℤ} {s : StoreState} {b : Batches} (h : Represents n s b) (op : StoreOp)
    (hop : op = .reopen → b.saved ≠ []) :
    ∃ s', s.run op = .ok s' ∧ Represents n s' (b.step op) := by
  cases op with
  | add key value =>
    obtain ⟨s', hadd, hs'⟩ := h.add key value
    exact ⟨s', by rw [StoreState.run, hadd], hs'⟩
  | save order selected =>
    obtain ⟨s', hsave, hs'⟩ := h.save order selected
    exact ⟨s', by rw [StoreState.run, hsave], hs'⟩
  | revert => exact ⟨s.revert, rfl, h.revert⟩
  | reopen => exact h.reopen (hop rfl)

/-- The run, by induction on the operations: a reopening is preceded by a `Save` in what
was run before or in what is still to come. -/
theorem Represents.runAll {n : ℤ} {s : StoreState} {b : Batches} (h : Represents n s b)
    (ops : List StoreOp)
    (hops : ∀ before after, ops = before ++ .reopen :: after →
      b.saved ≠ [] ∨ ∃ order selected, StoreOp.save order selected ∈ before) :
    ∃ s', s.runAll ops = .ok s' ∧ Represents n s' (ops.foldl Batches.step b) := by
  induction ops generalizing s b with
  | nil => exact ⟨s, rfl, h⟩
  | cons op ops ih =>
    obtain ⟨s₁, hrun, hs₁⟩ := h.run op fun hop => by
      subst hop
      simpa using hops [] ops rfl
    rw [StoreState.runAll, hrun]
    refine ih hs₁ fun before after hsplit => ?_
    rcases hops (op :: before) after (by rw [hsplit, List.cons_append]) with hb | ⟨order, sel, hmem⟩
    · exact .inl (b.saved_step op hb)
    · rcases List.mem_cons.mp hmem with rfl | hmem
      · exact .inl (by simp [Batches.step])
      · exact .inr ⟨order, sel, hmem⟩

/-- **Every run represents its batches.** -/
theorem runAll_represents (n : ℤ) (compression : Compression) (blockSize : ℤ) {ops : List StoreOp}
    (h : ReopensSaved ops) :
    ∃ s, (StoreState.init n compression blockSize).runAll ops = .ok s ∧
      Represents n s (batchesOf ops) :=
  (represents_init n compression blockSize).runAll ops
    fun before after hsplit => .inr (h before after hsplit)

theorem saved_batchesOf {ops : List StoreOp}
    (h : ∃ order selected, StoreOp.save order selected ∈ ops) : (batchesOf ops).saved ≠ [] := by
  obtain ⟨order, selected, hmem⟩ := h
  obtain ⟨before, after, rfl⟩ := List.append_of_mem hmem
  rw [batchesOf, List.foldl_append, List.foldl_cons]
  have hstart : ((before.foldl Batches.step ⟨[], []⟩).step (.save order selected)).saved ≠ [] := by
    simp [Batches.step]
  induction after using List.reverseRecOn with
  | nil => exact hstart
  | append_singleton after op ih =>
    rw [List.foldl_append]
    exact Batches.saved_step _ op (ih (by simp))

theorem ReopensSaved.of_forgetOrder {ops ops' : List StoreOp} (h : ReopensSaved ops)
    (hsame : ops'.map StoreOp.forgetOrder = ops.map StoreOp.forgetOrder) : ReopensSaved ops' := by
  rintro before' after' rfl
  rw [List.map_append, List.map_cons] at hsame
  obtain ⟨before, rest, rfl, hbefore, hrest⟩ := List.map_eq_append_iff.mp hsame.symm
  obtain ⟨op, after, rfl, hop, -⟩ := List.map_eq_cons_iff.mp hrest
  obtain rfl : op = .reopen := by cases op <;> simp_all [StoreOp.forgetOrder]
  obtain ⟨order, selected, hmem⟩ := h before after rfl
  have hmem' := List.mem_map_of_mem (f := StoreOp.forgetOrder) hmem
  rw [hbefore] at hmem'
  obtain ⟨op', hop', heq⟩ := List.mem_map.mp hmem'
  cases op' with
  | save order' selected' => exact ⟨order', selected', hop'⟩
  | _ => simp [StoreOp.forgetOrder] at heq

/-- **A block store is a map over whole runs.** Every sequence of operations on a new
store that reopens it only after some `Save` succeeds, and then a lookup yields the last
value the earliest saved batch with the key Added for it, and no record if there is no such
batch. Reopening the store changes no answer, nor does the order in which the blocks were
flushed. -/
theorem store_is_map (n : ℤ) (compression : Compression) (blockSize : ℤ) (ops : List StoreOp)
    (h : ReopensSaved ops) :
    ∃ s, (StoreState.init n compression blockSize).runAll ops = .ok s ∧
      (∀ key,
        (∀ value, (batchesOf ops).find key = some value →
          s.store.get key = .ok (some ⟨value.length, value⟩)) ∧
        ((batchesOf ops).find key = none →
          s.store.get key = .ok none ∨ s.store.get key = .error .partitionNotFound)) ∧
      ((∃ order selected, StoreOp.save order selected ∈ ops) →
        ∃ s', s.run .reopen = .ok s' ∧ ∀ key, s'.store.get key = s.store.get key) ∧
      ∀ ops', ops'.map StoreOp.forgetOrder = ops.map StoreOp.forgetOrder →
        ∃ s', (StoreState.init n compression blockSize).runAll ops' = .ok s' ∧
          ∀ key, s'.store.get key = s.store.get key := by
  obtain ⟨s, hrun, hs⟩ := runAll_represents n compression blockSize h
  refine ⟨s, hrun, fun key => ⟨fun value hfind => ?_, fun hfind => ?_⟩, fun hsave => ?_,
    fun ops' hsame => ?_⟩
  · -- the batch with the value is no empty one on the key's normal partition
    have hne : ¬ ∀ batch ∈ (batchesOf ops).saved, part n (keyPartition key n).1 batch = [] ∧
        part n (keyPartition key n).2 batch = [] := by
      intro hall
      obtain ⟨batch, hmem, hseek⟩ := List.exists_of_findSome?_eq_some hfind
      rw [← seek_part n key, (hall batch hmem).1] at hseek
      simp at hseek
    rw [hs.get, Batches.answer, if_neg hne, hfind]
    rfl
  · rw [hs.get, Batches.answer, hfind]
    split_ifs
    · exact .inr rfl
    · exact .inl rfl
  · obtain ⟨s', hreopen, hs'⟩ := hs.reopen (saved_batchesOf hsave)
    exact ⟨s', hreopen, fun key => by rw [hs'.get, hs.get]; rfl⟩
  · obtain ⟨s', hrun', hs'⟩ := runAll_represents n compression blockSize (h.of_forgetOrder hsame)
    refine ⟨s', hrun', fun key => ?_⟩
    rw [hs'.get, hs.get, ← batchesOf_forgetOrder ops', hsame, batchesOf_forgetOrder]

/-- Two batches with the same key: the first wins, with its last value, also after the
store is opened again. -/
theorem store_is_map_two_batches :
    ∃ s, (StoreState.init 2 .snappy 4096).runAll
        [.add [98] [1], .add [98] [2], .save (IterOrder.stored _) {0, 1}, .add [98] [3],
          .save (IterOrder.stored _) {0, 1}, .add [98] [4], .reopen] = .ok s ∧
      s.store.get [98] = .ok (some ⟨1, [2]⟩) := by
  obtain ⟨s, hrun, hget, -, -⟩ := store_is_map 2 .snappy 4096
    [.add [98] [1], .add [98] [2], .save (IterOrder.stored _) {0, 1}, .add [98] [3],
      .save (IterOrder.stored _) {0, 1}, .add [98] [4], .reopen] (by
        intro before after hsplit
        rcases before with _ | ⟨_, _ | ⟨_, _ | ⟨op, before⟩⟩⟩
        · simp at hsplit
        · simp at hsplit
        · simp at hsplit
        · simp only [List.cons_append, List.cons.injEq] at hsplit
          obtain ⟨-, -, rfl, -⟩ := hsplit
          exact ⟨IterOrder.stored _, {0, 1}, by simp⟩)
  exact ⟨s, hrun, (hget [98]).1 [2] rfl⟩

end Sequins
