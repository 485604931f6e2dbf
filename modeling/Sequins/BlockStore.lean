import Sequins.Block
import Sequins.GoMap
import Mathlib.Data.Finset.Basic
import Mathlib.Data.List.TakeWhile

/-!
# The block store

`blocks/block_store.go` and `blocks/manifest.go`, over an explicit disk. A store keeps
the finished blocks twice, as the list `blocks` and by partition in `blockMap`, and the
ones being written in `newBlocks`. `Save` moves the latter to the former, one block at
a time and in the random order of a map, and then writes the manifest;
`NewFromManifest` reads it all back.

Every call that can fail takes its outcome from the environment (`AddOutcome`, `SaveOutcome`,
`SaveEnv`), and every operation returns the state it leaves behind also when it
fails: this is where the interesting states come from.

`StoreState.Sound` is what holds between operations whatever the outcomes were. The
exceptions are the states after a failed `Save`, which is the point of the module on
failed builds.
-/

namespace Sequins

/-! ## The manifest

A manifest is either there as a whole or not to be used: `readManifest` fails on one that a crash
has cut short, and on one of another version of the format. -/

/-- `Compression`: the two constants of the source and the empty string. -/
inductive Compression where
  /-- `""` -/
  | empty
  /-- `"snappy"` -/
  | snappy
  /-- `"none"` -/
  | none
  deriving DecidableEq, Repr

/-- The manifest, as `encoding/json` writes it and reads it back. The list of selected
partitions is kept as the set it is; `none` is JSON's `null`. -/
structure Manifest where
  /-- `version` -/
  version : ℕ
  /-- `blocks` -/
  blocks : List BlockManifest
  /-- `num_partitions` -/
  numPartitions : ℤ
  /-- `selected_partitions` -/
  selectedPartitions : Option (Finset ℤ)
  /-- `compression` -/
  compression : Compression
  /-- `block_size` -/
  blockSize : ℤ
  deriving DecidableEq

def manifestVersion : ℕ := 3

/-- The file `.manifest`: absent, cut short by a failed write, or whole. -/
inductive ManifestFile where
  /-- there is none -/
  | missing
  /-- created, and then not written to its end -/
  | corrupt
  /-- a manifest -/
  | whole (m : Manifest)

/-- The directory of a store. -/
structure Disk where
  /-- the log files, by name -/
  logs : BlockName → Option Log
  /-- the file `.manifest` -/
  manifest : ManifestFile
  /-- the next uuid -/
  nextId : ℕ

/-- An empty directory. -/
def Disk.empty : Disk := ⟨fun _ => none, .missing, 0⟩

/-- `CreateLogWriter`: an empty log under a name with the next uuid. -/
def Disk.create (disk : Disk) (name : BlockName) : Disk :=
  { disk with
    logs := Function.update disk.logs name (some [])
    nextId := disk.nextId + 1 }

/-- `Put`: one more record at the end of a log. -/
def Disk.put (disk : Disk) (name : BlockName) (key value : Bytes) : Disk :=
  { disk with
    logs := Function.update disk.logs name
      ((disk.logs name).map fun log => log ++ [(key, value)]) }

/-- The errors of the package. -/
inductive StoreError where
  /-- `ErrNoManifest` -/
  | noManifest
  /-- `ErrWrongVersion` -/
  | wrongVersion
  /-- the manifest is not JSON -/
  | badManifest
  /-- `ErrPartitionNotFound` -/
  | partitionNotFound
  /-- `initializing block` -/
  | initializingBlock (name : BlockName)
  /-- `opening block` -/
  | openingBlock (name : BlockName)
  /-- `Put` failed -/
  | put
  /-- `WriteHashFile` failed -/
  | writeHashFile
  /-- closing the log failed -/
  | closeLog
  /-- `os.Create` on the manifest failed -/
  | createManifest
  /-- writing the manifest failed -/
  | writeManifest
  deriving DecidableEq, Repr

/-- `readManifest`, with the defaults it fills in for older manifests. -/
def readManifest (disk : Disk) : Except StoreError Manifest :=
  match disk.manifest with
  | .missing => .error .noManifest
  | .corrupt => .error .badManifest
  | .whole m =>
    if m.version ≠ manifestVersion then
      .error .wrongVersion
    else
      let m := if m.compression = .empty then { m with compression := .snappy } else m
      match m.selectedPartitions with
      | none =>
        .ok { m with
          selectedPartitions := some ((List.range m.numPartitions.toNat).map Int.ofNat).toFinset }
      | some _ => .ok m

/-! ## The store -/

/-- `BlockStore`. A key absent from `blockMap` is the empty list: the source only ever
appends to its entries, so a nil slice is an absent one. -/
structure BlockStore where
  /-- how new logs are compressed -/
  compression : Compression
  /-- the block size of new logs -/
  blockSize : ℤ
  /-- the number of partitions keys are hashed to -/
  numPartitions : ℤ
  /-- the blocks being written, by partition -/
  newBlocks : AList fun _ : ℤ => BlockWriter
  /-- the finished blocks -/
  blocks : List Block
  /-- the finished blocks, by partition -/
  blockMap : ℤ → List Block

/-- `New`. -/
def newBlockStore (numPartitions : ℤ) (compression : Compression) (blockSize : ℤ) : BlockStore where
  compression := compression
  blockSize := blockSize
  numPartitions := numPartitions
  newBlocks := ∅
  blocks := []
  blockMap := fun _ => []

/-- The two appends by which a finished block is registered. -/
def BlockStore.register (st : BlockStore) (partition : ℤ) (b : Block) : BlockStore :=
  { st with
    blocks := st.blocks ++ [b]
    blockMap := Function.update st.blockMap partition (st.blockMap partition ++ [b]) }

/-- `loadBlock`. -/
def loadBlock (disk : Disk) (m : BlockManifest) : Except StoreError Block :=
  match disk.logs m.name with
  | none => .error (.openingBlock m.name)
  | some log => .ok (m.toBlock log)

/-- The loop of `NewFromManifest`. -/
def loadBlocks (disk : Disk) : List BlockManifest → BlockStore → Except StoreError BlockStore
  | [], st => .ok st
  | m :: ms, st =>
    match loadBlock disk m with
    | .error err => .error err
    | .ok b => loadBlocks disk ms (st.register m.partition b)

/-- `NewFromManifest`. -/
def newFromManifest (disk : Disk) : Except StoreError (BlockStore × Manifest) :=
  match readManifest disk with
  | .error err => .error err
  | .ok m =>
    match loadBlocks disk m.blocks (newBlockStore m.numPartitions m.compression m.blockSize) with
    | .error err => .error err
    | .ok st => .ok (st, m)

/-- `Get`. -/
def BlockStore.get (st : BlockStore) (key : Bytes) : Except StoreError (Option Record) :=
  let (partition, alternatePartition) := keyPartition key st.numPartitions
  if (st.blockMap partition).isEmpty ∧ (st.blockMap alternatePartition).isEmpty then
    .error .partitionNotFound
  else
    match (st.blockMap partition).findSome? fun b => b.get key with
    | some r => .ok (some r)
    | none =>
      if alternatePartition ≠ partition then
        .ok ((st.blockMap alternatePartition).findSome? fun b => b.get key)
      else
        .ok none

/-! ## Operations on store and disk

What fails is the environment's choice, one outcome for each call of a library. The order in
which `Save` flushes the blocks is its choice, too, since the source ranges over a map. -/

/-- A store together with its directory. -/
structure StoreState where
  /-- the store -/
  store : BlockStore
  /-- its directory -/
  disk : Disk

/-- The outcomes of the calls `Add` may make. -/
structure AddOutcome where
  /-- `CreateLogWriter` succeeds -/
  create : Bool
  /-- `Put` succeeds -/
  put : Bool
  deriving DecidableEq, Repr

/-- Nothing fails. -/
def AddOutcome.ok : AddOutcome := ⟨true, true⟩

/-- The outcome of the three calls of a block's `save`. -/
inductive SaveOutcome where
  /-- nothing fails -/
  | ok
  /-- `WriteHashFile` fails -/
  | hashFileFails
  /-- `Close` fails -/
  | closeFails
  /-- `sparkey.Open` fails -/
  | openFails
  deriving DecidableEq, Repr

/-- The outcome of `writeManifest`. -/
inductive ManifestOutcome where
  /-- nothing fails -/
  | ok
  /-- `os.Create` fails -/
  | createFails
  /-- `Write` fails; the file was truncated before -/
  | writeFails
  deriving DecidableEq, Repr

/-- What the environment decides about a `Save`: the iteration order over `newBlocks`,
and the outcomes. -/
structure SaveEnv where
  /-- the order in which the blocks are flushed -/
  order : IterOrder (Σ _ : ℤ, BlockWriter)
  /-- the outcome of each block's `save` -/
  block : BlockName → SaveOutcome
  /-- the outcome of `writeManifest` -/
  manifest : ManifestOutcome

/-- `blockWriter.save`: the log is closed, indexed and reopened. -/
def BlockWriter.save (bw : BlockWriter) (io : SaveOutcome) (disk : Disk) : Except StoreError Block :=
  match io with
  | .hashFileFails => .error .writeHashFile
  | .closeFails => .error .closeLog
  | .openFails => .error (.openingBlock bw.name)
  | .ok =>
    match disk.logs bw.name with
    | none => .error (.openingBlock bw.name)
    | some log => .ok (bw.toBlock log)

/-- The flush loop of `Save`: it stops at the first block that fails, with the blocks
before it registered. -/
def saveBlocks (io : BlockName → SaveOutcome) (disk : Disk) :
    List (Σ _ : ℤ, BlockWriter) → BlockStore → BlockStore × Option StoreError
  | [], st => (st, none)
  | ⟨partition, bw⟩ :: rest, st =>
    match bw.save (io bw.name) disk with
    | .error err => (st, some err)
    | .ok b => saveBlocks io disk rest (st.register partition b)

namespace StoreState

/-- The writer of a partition: the one in `newBlocks`, or a new one, registered. -/
def writerFor (s : StoreState) (io : AddOutcome) (partition : ℤ) :
    Except StoreError (StoreState × BlockWriter) :=
  match s.store.newBlocks.lookup partition with
  | some block => .ok (s, block)
  | none =>
    let block := newBlock partition s.disk.nextId
    if io.create then
      .ok (⟨{ s.store with newBlocks := s.store.newBlocks.insert partition block },
        s.disk.create block.name⟩, block)
    else
      .error (.initializingBlock block.name)

/-- `Add`. -/
def add (s : StoreState) (io : AddOutcome) (key value : Bytes) : StoreState × Option StoreError :=
  let partition := (keyPartition key s.store.numPartitions).1
  match s.writerFor io partition with
  | .error err => (s, some err)
  | .ok (s, block) =>
    let store := { s.store with newBlocks := s.store.newBlocks.insert partition (block.add key) }
    if io.put then
      (⟨store, s.disk.put block.name key value⟩, none)
    else
      (⟨store, s.disk⟩, some .put)

/-- The manifest `Save` writes. The literal of the source names neither the compression
nor the block size. -/
def saveManifest (st : BlockStore) (selectedPartitions : Finset ℤ) : Manifest where
  version := manifestVersion
  blocks := st.blocks.map Block.manifest
  numPartitions := st.numPartitions
  selectedPartitions := some selectedPartitions
  compression := .empty
  blockSize := 0

/-- `Save`. -/
def save (s : StoreState) (env : SaveEnv) (selectedPartitions : Finset ℤ) :
    StoreState × Option StoreError :=
  match saveBlocks env.block s.disk (env.order.arrange s.store.newBlocks.entries) s.store with
  | (store, some err) => (⟨store, s.disk⟩, some err)
  | (store, none) =>
    let store := { store with newBlocks := ∅ }
    match env.manifest with
    | .createFails => (⟨store, s.disk⟩, some .createManifest)
    | .writeFails => (⟨store, { s.disk with manifest := .corrupt }⟩, some .writeManifest)
    | .ok =>
      (⟨store, { s.disk with manifest := .whole (saveManifest store selectedPartitions) }⟩, none)

/-- `Revert`: the logs still being written are deleted. -/
def revert (s : StoreState) : StoreState where
  store := { s.store with newBlocks := ∅ }
  disk := { s.disk with
    logs := s.store.newBlocks.entries.foldl
      (fun logs e => Function.update logs e.2.name none) s.disk.logs }

end StoreState

/-! ## What the two loops do

The loop of `Save` and that of `NewFromManifest` register blocks one by one, in the list and in
the map. Both are described by `registerAll`; they differ in which blocks there are, and in where
they stop. -/

/-- The finished blocks are registered under their own partition. -/
def BlockStore.Indexed (st : BlockStore) : Prop :=
  ∀ p, st.blockMap p = st.blocks.filter fun b => decide (b.partition = p)

theorem BlockStore.Indexed.register {st : BlockStore} (h : st.Indexed) (b : Block) :
    (st.register b.partition b).Indexed := by
  intro p
  by_cases hp : b.partition = p
  · subst hp
    simp [BlockStore.register, h b.partition]
  · simp [BlockStore.register, h p, hp, Ne.symm hp]

/-- Registering a list of blocks, each under its own partition. -/
def BlockStore.registerAll (st : BlockStore) (bs : List Block) : BlockStore :=
  bs.foldl (fun st b => st.register b.partition b) st

theorem BlockStore.Indexed.registerAll {st : BlockStore} (h : st.Indexed) (bs : List Block) :
    (st.registerAll bs).Indexed := by
  induction bs generalizing st with
  | nil => exact h
  | cons b bs ih => exact ih (h.register b)

/-- Registering only appends to the list and the map. -/
theorem BlockStore.registerAll_eq (st : BlockStore) (bs : List Block) :
    st.registerAll bs = { st with
      blocks := st.blocks ++ bs
      blockMap := (st.registerAll bs).blockMap } := by
  induction bs generalizing st with
  | nil => simp [BlockStore.registerAll]
  | cons b bs ih =>
    have h := ih (st.register b.partition b)
    rw [BlockStore.registerAll, List.foldl_cons]
    rw [BlockStore.registerAll] at h
    rw [h]
    simp [BlockStore.register]

@[simp] theorem BlockStore.registerAll_blocks (st : BlockStore) (bs : List Block) :
    (st.registerAll bs).blocks = st.blocks ++ bs := by rw [BlockStore.registerAll_eq]

@[simp] theorem BlockStore.registerAll_newBlocks (st : BlockStore) (bs : List Block) :
    (st.registerAll bs).newBlocks = st.newBlocks := by rw [BlockStore.registerAll_eq]

@[simp] theorem BlockStore.registerAll_numPartitions (st : BlockStore) (bs : List Block) :
    (st.registerAll bs).numPartitions = st.numPartitions := by rw [BlockStore.registerAll_eq]

/-- The block a writer becomes when its `save` succeeds. -/
def savedBlock (disk : Disk) (e : Σ _ : ℤ, BlockWriter) : Block :=
  e.2.toBlock ((disk.logs e.2.name).getD [])

/-- The `save` of a writer succeeds: its outcome is good and its log is there. -/
def saves (io : BlockName → SaveOutcome) (disk : Disk) (e : Σ _ : ℤ, BlockWriter) : Bool :=
  decide (io e.2.name = .ok) && (disk.logs e.2.name).isSome

theorem BlockWriter.save_of_saves {io : BlockName → SaveOutcome} {disk : Disk}
    {e : Σ _ : ℤ, BlockWriter} (h : saves io disk e = true) :
    e.2.save (io e.2.name) disk = .ok (savedBlock disk e) := by
  simp only [saves, Bool.and_eq_true, decide_eq_true_eq] at h
  obtain ⟨log, hlog⟩ := Option.isSome_iff_exists.mp h.2
  simp [BlockWriter.save, savedBlock, h.1, hlog]

theorem BlockWriter.save_of_not_saves {io : BlockName → SaveOutcome} {disk : Disk}
    {e : Σ _ : ℤ, BlockWriter} (h : saves io disk e = false) :
    ∃ err, e.2.save (io e.2.name) disk = .error err := by
  rcases hio : io e.2.name with _ | _ | _ | _
  · have hlog : disk.logs e.2.name = none := by simpa [saves, hio] using h
    exact ⟨.openingBlock e.2.name, by simp [BlockWriter.save, hlog]⟩
  · exact ⟨.writeHashFile, rfl⟩
  · exact ⟨.closeLog, rfl⟩
  · exact ⟨.openingBlock e.2.name, rfl⟩

/-- The flush loop registers the blocks up to the first failure, and fails exactly if
there is one. -/
theorem saveBlocks_spec (io : BlockName → SaveOutcome) (disk : Disk) (l : List (Σ _ : ℤ, BlockWriter))
    (hl : ∀ e ∈ l, e.2.partition = e.1) (st : BlockStore) :
    (saveBlocks io disk l st).1 =
        st.registerAll ((l.takeWhile (saves io disk)).map (savedBlock disk)) ∧
      ((saveBlocks io disk l st).2 = none ↔ ∀ e ∈ l, saves io disk e = true) := by
  induction l generalizing st with
  | nil => exact ⟨rfl, by simp [saveBlocks]⟩
  | cons e l ih =>
    obtain ⟨partition, bw⟩ := e
    rcases hsave : saves io disk ⟨partition, bw⟩ with _ | _
    · obtain ⟨err, herr⟩ := BlockWriter.save_of_not_saves hsave
      constructor
      · simp [saveBlocks, herr, hsave, BlockStore.registerAll]
      · simp [saveBlocks, herr, hsave]
    · have hok := BlockWriter.save_of_saves hsave
      have hpart : bw.partition = partition := hl _ (List.mem_cons_self ..)
      obtain ⟨ihst, iherr⟩ := ih (fun e he => hl e (List.mem_cons_of_mem _ he))
        (st.register partition (savedBlock disk ⟨partition, bw⟩))
      constructor
      · rw [saveBlocks]
        simp only [hok]
        rw [ihst, List.takeWhile_cons_of_pos hsave, List.map_cons, BlockStore.registerAll,
          BlockStore.registerAll, List.foldl_cons]
        subst hpart
        rfl
      · rw [saveBlocks]
        simp only [hok]
        rw [iherr]
        simp [hsave]

/-- The loading loop registers every block whose log is there. -/
theorem loadBlocks_manifest {disk : Disk} (bs : List Block)
    (h : ∀ b ∈ bs, disk.logs b.name = some b.reader) (st : BlockStore) :
    loadBlocks disk (bs.map Block.manifest) st = .ok (st.registerAll bs) := by
  induction bs generalizing st with
  | nil => rfl
  | cons b bs ih =>
    have hload : loadBlock disk b.manifest = .ok b := by
      have hlog : disk.logs b.manifest.name = some b.reader := h b (List.mem_cons_self ..)
      rw [loadBlock, hlog]
      rfl
    rw [List.map_cons, loadBlocks, hload]
    exact ih (fun b hb => h b (List.mem_cons_of_mem _ hb)) _

/-! ## Soundness

What holds of a store and its directory between operations. -/

/-- A store and its directory fit together. -/
structure StoreState.Sound (s : StoreState) : Prop where
  /-- the two registers of finished blocks agree -/
  indexed : s.store.Indexed
  /-- every finished block has its log file, with the contents it reads -/
  onDisk : ∀ b ∈ s.store.blocks, s.disk.logs b.name = some b.reader
  /-- no file carries a uuid that was not handed out -/
  fresh : ∀ name : BlockName, s.disk.nextId ≤ name.id → s.disk.logs name = none
  /-- a writer sits under its own partition, in `newBlocks` and in its name -/
  writer : ∀ p bw, s.store.newBlocks.lookup p = some bw → bw.partition = p ∧ bw.name.partition = p
  /-- a writer has its log file -/
  writerOnDisk : ∀ p bw, s.store.newBlocks.lookup p = some bw → (s.disk.logs bw.name).isSome
  /-- a writer's log is no finished block's -/
  disjoint : ∀ p bw, s.store.newBlocks.lookup p = some bw → ∀ b ∈ s.store.blocks, b.name ≠ bw.name

namespace StoreState

/-- A new store in an empty directory. -/
def init (numPartitions : ℤ) (compression : Compression) (blockSize : ℤ) : StoreState :=
  ⟨newBlockStore numPartitions compression blockSize, .empty⟩

/-- Nothing is finished, nothing is being written, and there is no log. -/
theorem sound_init (numPartitions : ℤ) (compression : Compression) (blockSize : ℤ) :
    (init numPartitions compression blockSize).Sound where
  indexed := fun _ => rfl
  onDisk := fun _ hb => absurd hb List.not_mem_nil
  fresh := fun _ _ => rfl
  writer := fun p bw h => by simp [init, newBlockStore] at h
  writerOnDisk := fun p bw h => by simp [init, newBlockStore] at h
  disjoint := fun p bw h => by simp [init, newBlockStore] at h

/-- The writer of a partition: what it is, and what registering it does. Either it was
there, or it is new under a name no file has. -/
theorem writerFor_eq_ok {s s' : StoreState} {io : AddOutcome} {p : ℤ} {bw : BlockWriter}
    (h : s.writerFor io p = .ok (s', bw)) :
    (s.store.newBlocks.lookup p = some bw ∧ s' = s) ∨
    (s.store.newBlocks.lookup p = none ∧ bw = newBlock p s.disk.nextId ∧
      s' = ⟨{ s.store with newBlocks := s.store.newBlocks.insert p bw },
        s.disk.create bw.name⟩) := by
  rw [writerFor] at h
  rcases hlook : s.store.newBlocks.lookup p with _ | bw'
  · rw [hlook] at h
    simp only at h
    split at h
    · obtain ⟨rfl, rfl⟩ := Prod.mk.inj (Except.ok.inj h)
      exact .inr ⟨rfl, rfl, rfl⟩
    · cases h
  · rw [hlook] at h
    obtain ⟨rfl, rfl⟩ := Prod.mk.inj (Except.ok.inj h)
    exact .inl ⟨rfl, rfl⟩

/-- Registering a writer keeps the state sound. -/
theorem Sound.writerFor {s s' : StoreState} {io : AddOutcome} {p : ℤ} {bw : BlockWriter}
    (hs : s.Sound) (h : s.writerFor io p = .ok (s', bw)) :
    s'.Sound ∧ s'.store.newBlocks.lookup p = some bw := by
  rcases writerFor_eq_ok h with ⟨hlook, rfl⟩ | ⟨hlook, rfl, rfl⟩
  · exact ⟨hs, hlook⟩
  · refine ⟨?_, AList.lookup_insert ..⟩
    -- the new name is on no file yet, so nothing that exists is touched
    have hnew : s.disk.logs ⟨p, s.disk.nextId⟩ = none := hs.fresh _ (le_refl _)
    have hblock : ∀ b ∈ s.store.blocks, b.name ≠ ⟨p, s.disk.nextId⟩ := by
      intro b hb heq
      have := hs.onDisk b hb
      rw [heq, hnew] at this
      cases this
    have hlookup : ∀ q bw, (s.store.newBlocks.insert p (newBlock p s.disk.nextId)).lookup q = some bw →
        (q = p ∧ bw = newBlock p s.disk.nextId) ∨ s.store.newBlocks.lookup q = some bw := by
      intro q bw hq
      by_cases hqp : q = p
      · subst hqp
        rw [AList.lookup_insert] at hq
        exact .inl ⟨rfl, (Option.some.inj hq).symm⟩
      · rw [AList.lookup_insert_ne hqp] at hq
        exact .inr hq
    refine ⟨hs.indexed, ?_, ?_, ?_, ?_, ?_⟩
    · intro b hb
      rw [← hs.onDisk b hb]
      exact Function.update_of_ne (hblock b hb) _ _
    · intro name hid
      have hne : name ≠ ⟨p, s.disk.nextId⟩ := by
        rintro rfl
        exact absurd hid (Nat.not_succ_le_self _)
      rw [← hs.fresh name (Nat.le_of_succ_le hid)]
      exact Function.update_of_ne hne _ _
    · intro q bw hq
      rcases hlookup q bw hq with ⟨rfl, rfl⟩ | hq
      · exact ⟨rfl, rfl⟩
      · exact hs.writer q bw hq
    · intro q bw hq
      rcases hlookup q bw hq with ⟨rfl, rfl⟩ | hq
      · simp [newBlock, Disk.create]
      · have hsome := hs.writerOnDisk q bw hq
        simp only [newBlock, Disk.create, Function.update_apply]
        split
        · rfl
        · exact hsome
    · intro q bw hq b hb
      rcases hlookup q bw hq with ⟨rfl, rfl⟩ | hq
      · exact hblock b hb
      · exact hs.disjoint q bw hq b hb

/-- Writing on behalf of a registered writer keeps the state sound. -/
theorem Sound.write {s : StoreState} (hs : s.Sound) {p : ℤ} {bw bw' : BlockWriter}
    (hlook : s.store.newBlocks.lookup p = some bw) (hpart : bw'.partition = bw.partition)
    (hname : bw'.name = bw.name) (log : Log) :
    (⟨{ s.store with newBlocks := s.store.newBlocks.insert p bw' },
      { s.disk with logs := Function.update s.disk.logs bw.name (some log) }⟩ : StoreState).Sound := by
  have hlookup : ∀ q w, (s.store.newBlocks.insert p bw').lookup q = some w →
      ∃ w', s.store.newBlocks.lookup q = some w' ∧ w.partition = w'.partition ∧ w.name = w'.name := by
    intro q w hq
    by_cases hqp : q = p
    · subst hqp
      rw [AList.lookup_insert] at hq
      obtain rfl := Option.some.inj hq
      exact ⟨bw, hlook, hpart, hname⟩
    · rw [AList.lookup_insert_ne hqp] at hq
      exact ⟨w, hq, rfl, rfl⟩
  refine ⟨hs.indexed, ?_, ?_, ?_, ?_, ?_⟩
  · intro b hb
    rw [← hs.onDisk b hb]
    exact Function.update_of_ne (hs.disjoint p bw hlook b hb) _ _
  · intro name hid
    have hne : name ≠ bw.name := by
      rintro rfl
      have := hs.writerOnDisk p bw hlook
      rw [hs.fresh bw.name hid] at this
      cases this
    rw [← hs.fresh name hid]
    exact Function.update_of_ne hne _ _
  · intro q w hq
    obtain ⟨w', hw', hwp, hwn⟩ := hlookup q w hq
    rw [hwp, hwn]
    exact hs.writer q w' hw'
  · intro q w hq
    obtain ⟨w', hw', -, hwn⟩ := hlookup q w hq
    have hsome := hs.writerOnDisk q w' hw'
    rw [hwn]
    simp only [Function.update_apply]
    split
    · rfl
    · exact hsome
  · intro q w hq b hb
    obtain ⟨w', hw', -, hwn⟩ := hlookup q w hq
    rw [hwn]
    exact hs.disjoint q w' hw' b hb

/-- Everything `add` can do: fail before or at the Put, or put the record in the log of
the partition's writer. -/
theorem add_cases (s : StoreState) (io : AddOutcome) (key value : Bytes) :
    (∃ err, s.add io key value = (s, some err)) ∨
    ∃ s₁ bw, s.writerFor io (keyPartition key s.store.numPartitions).1 = .ok (s₁, bw) ∧
      (s.add io key value =
          (⟨{ s₁.store with newBlocks :=
                s₁.store.newBlocks.insert (keyPartition key s.store.numPartitions).1 (bw.add key) },
            s₁.disk⟩, some .put) ∨
        s.add io key value =
          (⟨{ s₁.store with newBlocks :=
                s₁.store.newBlocks.insert (keyPartition key s.store.numPartitions).1 (bw.add key) },
            s₁.disk.put bw.name key value⟩, none)) := by
  rcases hw : s.writerFor io (keyPartition key s.store.numPartitions).1 with err | ⟨s₁, bw⟩
  · exact .inl ⟨err, by simp [add, hw]⟩
  · refine .inr ⟨s₁, bw, rfl, ?_⟩
    rcases hput : io.put with _ | _
    · exact .inl (by simp [add, hw, hput])
    · exact .inr (by simp [add, hw, hput])

/-- **`Add` keeps the state sound**, whatever fails. -/
theorem Sound.add {s : StoreState} (hs : s.Sound) (io : AddOutcome) (key value : Bytes) :
    (s.add io key value).1.Sound := by
  rcases add_cases s io key value with ⟨err, h⟩ | ⟨s₁, bw, hw, h | h⟩
  · rw [h]
    exact hs
  · obtain ⟨hs₁, hlook⟩ := hs.writerFor hw
    obtain ⟨log, hlog⟩ := Option.isSome_iff_exists.mp (hs₁.writerOnDisk _ bw hlook)
    have hwrite := hs₁.write hlook (bw.add_partition key) (bw.add_name key) log
    rw [← hlog, Function.update_eq_self] at hwrite
    rw [h]
    exact hwrite
  · obtain ⟨hs₁, hlook⟩ := hs.writerFor hw
    obtain ⟨log, hlog⟩ := Option.isSome_iff_exists.mp (hs₁.writerOnDisk _ bw hlook)
    rw [h, Disk.put, hlog]
    exact hs₁.write hlook (bw.add_partition key) (bw.add_name key) (log ++ [(key, value)])

/-- `Add` leaves the finished blocks alone. -/
theorem add_store (s : StoreState) (io : AddOutcome) (key value : Bytes) :
    (s.add io key value).1.store =
      { s.store with newBlocks := (s.add io key value).1.store.newBlocks } := by
  rcases add_cases s io key value with ⟨err, h⟩ | ⟨s₁, bw, hw, h | h⟩
  · rw [h]
  · rw [h]
    rcases writerFor_eq_ok hw with ⟨-, rfl⟩ | ⟨-, -, rfl⟩ <;> rfl
  · rw [h]
    rcases writerFor_eq_ok hw with ⟨-, rfl⟩ | ⟨-, -, rfl⟩ <;> rfl

/-- `Add` leaves the manifest alone. -/
theorem add_manifest (s : StoreState) (io : AddOutcome) (key value : Bytes) :
    (s.add io key value).1.disk.manifest = s.disk.manifest := by
  rcases add_cases s io key value with ⟨err, h⟩ | ⟨s₁, bw, hw, h | h⟩
  · rw [h]
  · rw [h]
    rcases writerFor_eq_ok hw with ⟨-, rfl⟩ | ⟨-, -, rfl⟩ <;> rfl
  · rw [h]
    rcases writerFor_eq_ok hw with ⟨-, rfl⟩ | ⟨-, -, rfl⟩ <;> rfl

/-- Deleting the logs of some writers. -/
theorem foldl_delete (l : List (Σ _ : ℤ, BlockWriter)) (logs : BlockName → Option Log)
    (name : BlockName) :
    (l.foldl (fun logs e => Function.update logs e.2.name none) logs : BlockName → Option Log) name =
      if ∃ e ∈ l, e.2.name = name then none else logs name := by
  induction l generalizing logs with
  | nil => simp
  | cons e l ih =>
    rw [List.foldl_cons, ih]
    by_cases hl : ∃ e ∈ l, e.2.name = name
    · rw [if_pos hl, if_pos (by obtain ⟨e', he', hn⟩ := hl; exact ⟨e', List.mem_cons_of_mem _ he', hn⟩)]
    · rw [if_neg hl]
      by_cases he : e.2.name = name
      · rw [if_pos ⟨e, List.mem_cons_self .., he⟩, ← he, Function.update_self]
      · rw [Function.update_of_ne (Ne.symm he), if_neg]
        rintro ⟨e', he', hn⟩
        rcases List.mem_cons.mp he' with rfl | he'
        · exact he hn
        · exact hl ⟨e', he', hn⟩

/-- `Revert` deletes no finished block's log. -/
theorem Sound.revert_logs {s : StoreState} (hs : s.Sound) {b : Block} (hb : b ∈ s.store.blocks) :
    s.revert.disk.logs b.name = s.disk.logs b.name := by
  rw [revert]
  dsimp only
  rw [foldl_delete, if_neg]
  rintro ⟨⟨p, bw⟩, he, hn⟩
  exact hs.disjoint p bw (AList.mem_entries_iff_lookup.mp he) b hb hn.symm

/-- **`Revert` keeps the state sound.** -/
theorem Sound.revert {s : StoreState} (hs : s.Sound) : s.revert.Sound where
  indexed := hs.indexed
  onDisk := fun b hb => by
    rw [hs.revert_logs hb]
    exact hs.onDisk b hb
  fresh := fun name hid => by
    rw [StoreState.revert]
    dsimp only
    rw [foldl_delete]
    split
    · rfl
    · exact hs.fresh name hid
  writer := fun p bw h => by simp [StoreState.revert] at h
  writerOnDisk := fun p bw h => by simp [StoreState.revert] at h
  disjoint := fun p bw h => by simp [StoreState.revert] at h

/-! ### `Save`

The blocks that are flushed are the writers up to the first one that fails, in the order of this
call. They stay registered if a later one fails, or if the manifest cannot be written: the source
does not take them back. -/

/-- The writers in the order a `Save` flushes them. -/
def flushed (s : StoreState) (env : SaveEnv) : List (Σ _ : ℤ, BlockWriter) :=
  env.order.arrange s.store.newBlocks.entries

/-- The blocks a `Save` registers: those before the first failure. -/
def savedBlocks (s : StoreState) (env : SaveEnv) : List Block :=
  ((s.flushed env).takeWhile (saves env.block s.disk)).map (savedBlock s.disk)

/-- Every writer comes up once, in whatever order. -/
theorem mem_flushed {s : StoreState} {env : SaveEnv} {p : ℤ} {bw : BlockWriter} :
    ⟨p, bw⟩ ∈ s.flushed env ↔ s.store.newBlocks.lookup p = some bw := by
  rw [flushed, IterOrder.mem_arrange, AList.mem_entries_iff_lookup]

/-- The flush loop on a sound state. -/
theorem Sound.saveBlocks {s : StoreState} (hs : s.Sound) (env : SaveEnv) :
    (saveBlocks env.block s.disk (s.flushed env) s.store).1 =
        s.store.registerAll (s.savedBlocks env) ∧
      ((saveBlocks env.block s.disk (s.flushed env) s.store).2 = none ↔
        ∀ e ∈ s.flushed env, saves env.block s.disk e = true) :=
  saveBlocks_spec _ _ _ (fun e he => (hs.writer e.1 e.2 (mem_flushed.mp he)).1) _

/-- However a `Save` ends, the finished blocks are the old ones and those it
registered. -/
theorem Sound.save_blocks {s : StoreState} (hs : s.Sound) (env : SaveEnv) (selected : Finset ℤ) :
    (s.save env selected).1.store.blocks = s.store.blocks ++ s.savedBlocks env := by
  have hst := (hs.saveBlocks env).1
  rw [save, ← flushed]
  rcases hrun : Sequins.saveBlocks env.block s.disk (s.flushed env) s.store with ⟨store, err⟩
  rw [hrun] at hst
  obtain rfl : store = _ := hst
  rcases err with _ | err
  · rcases env.manifest with _ | _ | _ <;> simp
  · simp

/-- What a successful `Save` leaves behind. -/
theorem Sound.save_eq_none {s : StoreState} (hs : s.Sound) {env : SaveEnv} {selected : Finset ℤ}
    (h : (s.save env selected).2 = none) :
    (∀ e ∈ s.flushed env, saves env.block s.disk e = true) ∧
    (s.save env selected).1 =
      ⟨{ s.store.registerAll ((s.flushed env).map (savedBlock s.disk)) with newBlocks := ∅ },
        { s.disk with manifest := .whole (saveManifest
          { s.store.registerAll ((s.flushed env).map (savedBlock s.disk)) with newBlocks := ∅ }
          selected) }⟩ := by
  obtain ⟨hst, herr⟩ := hs.saveBlocks env
  rw [save, ← flushed] at h ⊢
  rcases hrun : Sequins.saveBlocks env.block s.disk (s.flushed env) s.store with ⟨store, err⟩
  rw [hrun] at h hst herr
  obtain rfl : store = _ := hst
  rcases err with _ | err
  · have hall := herr.mp rfl
    have hsaved : s.savedBlocks env = (s.flushed env).map (savedBlock s.disk) := by
      rw [savedBlocks, List.takeWhile_eq_self_iff.mpr hall]
    rcases hm : env.manifest with _ | _ | _
    · exact ⟨hall, by rw [hsaved]⟩
    · simp [hm] at h
    · simp [hm] at h
  · simp at h

/-- A writer whose `save` succeeds becomes a block that reads its log. -/
theorem savedBlock_onDisk {io : BlockName → SaveOutcome} {disk : Disk} {e : Σ _ : ℤ, BlockWriter}
    (h : saves io disk e = true) :
    disk.logs (savedBlock disk e).name = some (savedBlock disk e).reader := by
  simp only [saves, Bool.and_eq_true] at h
  obtain ⟨log, hlog⟩ := Option.isSome_iff_exists.mp h.2
  simp [savedBlock, BlockWriter.toBlock, hlog]

/-- **A successful `Save` keeps the state sound.** -/
theorem Sound.save {s : StoreState} (hs : s.Sound) {env : SaveEnv} {selected : Finset ℤ}
    (h : (s.save env selected).2 = none) : (s.save env selected).1.Sound := by
  obtain ⟨hall, heq⟩ := hs.save_eq_none h
  rw [heq]
  refine ⟨hs.indexed.registerAll _, ?_, hs.fresh, ?_, ?_, ?_⟩
  · intro b hb
    rw [BlockStore.registerAll_blocks, List.mem_append] at hb
    rcases hb with hb | hb
    · exact hs.onDisk b hb
    · obtain ⟨e, he, rfl⟩ := List.mem_map.mp hb
      exact savedBlock_onDisk (hall e he)
  · intro p bw hlook
    simp at hlook
  · intro p bw hlook
    simp at hlook
  · intro p bw hlook
    simp at hlook

/-- After a successful `Save` the manifest lists the finished blocks. -/
theorem Sound.save_manifest {s : StoreState} (hs : s.Sound) {env : SaveEnv} {selected : Finset ℤ}
    (h : (s.save env selected).2 = none) :
    (s.save env selected).1.disk.manifest =
      .whole (saveManifest (s.save env selected).1.store selected) := by
  obtain ⟨-, heq⟩ := hs.save_eq_none h
  rw [heq]

/-- Neither the manifest nor forgetting the writers matters to soundness. -/
theorem Sound.forget {s : StoreState} (hs : s.Sound) (m : ManifestFile) :
    (⟨{ s.store with newBlocks := ∅ }, { s.disk with manifest := m }⟩ : StoreState).Sound where
  indexed := hs.indexed
  onDisk := hs.onDisk
  fresh := hs.fresh
  writer := fun p bw hlook => by simp at hlook
  writerOnDisk := fun p bw hlook => by simp at hlook
  disjoint := fun p bw hlook => by simp at hlook

/-- A failed `Save` that flushed no block: it stopped at the first one, with nothing
done, or there was none and the manifest failed. -/
theorem Sound.save_of_savedBlocks_eq_nil {s : StoreState} (hs : s.Sound) {env : SaveEnv}
    {selected : Finset ℤ} (hnil : s.savedBlocks env = []) (hfail : (s.save env selected).2 ≠ none) :
    (s.save env selected).1 = s ∨
      ∃ m, (m = s.disk.manifest ∨ m = .corrupt) ∧
        (s.save env selected).1 =
          ⟨{ s.store with newBlocks := ∅ }, { s.disk with manifest := m }⟩ := by
  obtain ⟨hst, -⟩ := hs.saveBlocks env
  rw [hnil] at hst
  rw [StoreState.save, ← flushed] at hfail ⊢
  rcases hrun : Sequins.saveBlocks env.block s.disk (s.flushed env) s.store with ⟨store, err⟩
  rw [hrun] at hst hfail
  obtain rfl : store = s.store := hst
  rcases err with _ | err
  · rcases hm : env.manifest with _ | _ | _
    · simp [hm] at hfail
    · exact .inr ⟨s.disk.manifest, .inl rfl, rfl⟩
    · exact .inr ⟨.corrupt, .inr rfl, rfl⟩
  · exact .inl rfl

/-! ### `NewFromManifest` -/

/-- A store with the same finished blocks and no writers fits the same directory. -/
theorem Sound.reopened {s : StoreState} (hs : s.Sound) {st : BlockStore}
    (hblocks : st.blocks = s.store.blocks) (hmap : st.blockMap = s.store.blockMap)
    (hnew : st.newBlocks = ∅) : (⟨st, s.disk⟩ : StoreState).Sound where
  indexed := fun p => by
    rw [hmap, hblocks]
    exact hs.indexed p
  onDisk := by
    rw [hblocks]
    exact hs.onDisk
  fresh := hs.fresh
  writer := fun p bw hlook => by simp [hnew] at hlook
  writerOnDisk := fun p bw hlook => by simp [hnew] at hlook
  disjoint := fun p bw hlook => by simp [hnew] at hlook

/-- **A store can be opened again** from a manifest that lists its blocks, if their logs
are there: the same blocks, and the same map. -/
theorem newFromManifest_of_onDisk {s : StoreState} {selected : Finset ℤ} (hindexed : s.store.Indexed)
    (hdisk : ∀ b ∈ s.store.blocks, s.disk.logs b.name = some b.reader)
    (hmanifest : s.disk.manifest = .whole (saveManifest s.store selected)) :
    ∃ st m, newFromManifest s.disk = .ok (st, m) ∧ st.blocks = s.store.blocks ∧
      st.blockMap = s.store.blockMap ∧ st.newBlocks = ∅ ∧
      st.numPartitions = s.store.numPartitions ∧ m.selectedPartitions = some selected := by
  have hread : readManifest s.disk =
      .ok { saveManifest s.store selected with compression := .snappy } := by
    rw [readManifest, hmanifest]
    rfl
  have hload := loadBlocks_manifest s.store.blocks hdisk
    (newBlockStore s.store.numPartitions .snappy 0)
  have hempty : (newBlockStore s.store.numPartitions .snappy 0).Indexed := fun _ => rfl
  refine ⟨(newBlockStore s.store.numPartitions .snappy 0).registerAll s.store.blocks,
    { saveManifest s.store selected with compression := .snappy }, ?_, ?_, ?_, ?_, ?_, rfl⟩
  · rw [newFromManifest, hread]
    simp only [saveManifest, hload]
  · simp [newBlockStore]
  · funext p
    rw [hempty.registerAll _ p, hindexed p]
    simp [newBlockStore]
  · simp [newBlockStore]
  · simp [newBlockStore]

end StoreState

end Sequins
