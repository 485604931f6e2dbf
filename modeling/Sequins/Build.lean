import Sequins.Ingest
import Sequins.StoreMap
import Sequins.Partitions

/-!
# Building a version

`build.go` above the record loop: `addFile`, `addFiles` and `build`, with the block
store of the modules before as their store. What the backend delivers and which calls
fail is the environment's choice: a `SourceFile` is what one attempt sees of a file.

A build that fails calls `Revert`. This undoes the attempt when the failure came
before any block was flushed. `Save` registers its blocks one by one and forgets the
writers only at the end, so a failure in the middle leaves registered blocks behind,
whose logs `Revert` then deletes. `failed_attempt_restores_iff` says that this is the
only way a failed attempt leaves a trace.
-/

namespace Sequins

/-! ## The files

An attempt can fail at a file when that is opened, at its header, and in the record loop, by the
reader or by `Add`; and it is canceled between two files. `addFile` gives up without an error on
a file that it finds to belong to a partition that is not wanted. -/

/-- What can end the reading of a file. -/
inductive ReadError where
  /-- `reader.Err` after the last `Scan` -/
  | reader
  /-- `unwrapKeyValue` recovered from a panic -/
  | unwrap
  /-- `Add` failed -/
  | add (err : StoreError)
  deriving DecidableEq, Repr

/-- The errors of `addFiles`. -/
inductive BuildError where
  /-- `errCanceled` -/
  | canceled
  /-- `reading %s: %s`, from the backend's `Open` -/
  | opening (disp : Bytes)
  /-- `reading header from %s: %s` -/
  | readingHeader (disp : Bytes)
  /-- `reading %s: %s`, from `addFileKeys` -/
  | reading (disp : Bytes) (err : ReadError)
  /-- the error of `Save` -/
  | save (err : StoreError)
  deriving DecidableEq, Repr

/-- A file as one attempt sees it. -/
structure SourceFile where
  /-- `DisplayPath` -/
  disp : Bytes
  /-- the version was canceled before this file -/
  canceled : Bool
  /-- `Open` succeeds -/
  opens : Bool
  /-- `ReadHeader` succeeds -/
  header : Bool
  /-- what `Scan` and `unwrapKeyValue` deliver, with the outcomes of the `Add` of each
  record -/
  records : List (Except ReadError (Bytes × (Bytes × AddOutcome)))
  /-- `reader.Err` -/
  readerErr : Option ReadError

/-- A file of which nothing fails. -/
def SourceFile.ok (disp : Bytes) (records : List (Bytes × Bytes)) : SourceFile where
  disp := disp
  canceled := false
  opens := true
  header := true
  records := records.map fun r => .ok (r.1, (r.2, .ok))
  readerErr := none

/-- `Add` as the record loop calls it. -/
def addRecord (s : StoreState) (key : Bytes) (value : Bytes × AddOutcome) :
    StoreState × Option ReadError :=
  ((s.add value.2 key value.1).1, (s.add value.2 key value.1).2.map .add)

/-- `addFile`. Giving up on a file of another partition is no error. -/
def addFile (numPartitions : ℤ) (partitions : Finset ℤ) (file : SourceFile) (s : StoreState) :
    StoreState × Option BuildError :=
  if ¬ file.opens then
    (s, some (.opening file.disp))
  else if ¬ file.header then
    (s, some (.readingHeader file.disp))
  else
    let run := addFileKeys addRecord numPartitions partitions file.readerErr file.records .start s
    match run.err with
    | none => (run.store, none)
    | some .wrongPartition => (run.store, none)
    | some (.failed err) => (run.store, some (.reading file.disp err))

/-- The loop of `addFiles`. -/
def addEachFile (numPartitions : ℤ) (partitions : Finset ℤ) :
    List SourceFile → StoreState → StoreState × Option BuildError
  | [], s => (s, none)
  | file :: files, s =>
    if file.canceled then
      (s, some .canceled)
    else
      match addFile numPartitions partitions file s with
      | (s, some err) => (s, some err)
      | (s, none) => addEachFile numPartitions partitions files s

/-- One attempt at building: what it is asked to load, and what the environment does. -/
structure Attempt where
  /-- the partitions to load -/
  partitions : Finset ℤ
  /-- `vs.partitions.selected` -/
  selected : Finset ℤ
  /-- the files -/
  files : List SourceFile
  /-- the outcomes in `Save` -/
  env : SaveEnv

/-- `addFiles`. A version without files is not saved. -/
def addFiles (a : Attempt) (s : StoreState) : StoreState × Option BuildError :=
  if a.files.isEmpty then
    (s, none)
  else
    match addEachFile a.files.length a.partitions a.files s with
    | (s, some err) => (s, some err)
    | (s, none) => ((s.save a.env a.selected).1, (s.save a.env a.selected).2.map .save)

/-- What `build` does to the block store: `addFiles`, and `Revert` if that failed. -/
def StoreState.attempt (s : StoreState) (a : Attempt) : StoreState × Option BuildError :=
  match addFiles a s with
  | (s, some err) => (s.revert, some err)
  | (s, none) => (s, none)

/-! ## The version -/

/-- `versionState`. -/
inductive VersionState where
  /-- `AVAILABLE` -/
  | available
  /-- `REMOVING` -/
  | removing
  /-- `BUILDING` -/
  | building
  /-- `ERROR` -/
  | error
  deriving DecidableEq, Repr

/-- The part of `version` that building and serving use. -/
structure Version where
  /-- `name` -/
  name : Bytes
  /-- `created`, in seconds -/
  created : ℕ
  /-- the number of files -/
  numPartitions : ℕ
  /-- `partitions` -/
  partitions : Partitions
  /-- `blockStore`, with the directory it lives in -/
  blockStore : StoreState
  /-- `state` -/
  state : VersionState
  /-- `built` -/
  built : Bool

/-- `setState`, of the state alone: an error is final. -/
def VersionState.set (old new : VersionState) : VersionState := if old ≠ .error then new else old

/-- `setState`. -/
def Version.setState (v : Version) (state : VersionState) : Version :=
  { v with state := v.state.set state }

/-- What the environment decides about a call of `build`. -/
structure BuildEnv where
  /-- `MkdirAll` succeeds -/
  mkdir : Bool
  /-- the files, as this build sees them -/
  files : List SourceFile
  /-- the outcomes in `Save` -/
  save : SaveEnv

/-- `build`, past its locks. -/
def Version.build (v : Version) (env : BuildEnv) : Version :=
  if v.built then
    v
  else
    let partitions := v.partitions.needed
    if partitions = ∅ then
      { v with built := true }
    else if ¬ env.mkdir then
      v.setState .error
    else
      match v.blockStore.attempt ⟨partitions, v.partitions.selected, env.files, env.save⟩ with
      | (s, some .canceled) => { v with blockStore := s }
      | (s, some _) => { v.setState .error with blockStore := s }
      | (s, none) =>
        { v with
          blockStore := s
          partitions := v.partitions.updateLocalPartitions partitions
          built := true }

/-- `initBlockStore`: what the manifest describes, or else a new store in the same
directory; and the partitions to be taken over as local. -/
def initBlockStore (disk : Disk) (numPartitions : ℤ) (compression : Compression) (blockSize : ℤ) :
    StoreState × Option (Finset ℤ) :=
  match newFromManifest disk with
  | .ok (store, manifest) => (⟨store, disk⟩, manifest.selectedPartitions)
  | .error _ => (⟨newBlockStore numPartitions compression blockSize, disk⟩, none)

/-- The end of `newVersion`: a version over whatever its directory already holds. -/
def newVersion (name : Bytes) (created numPartitions : ℕ) (partitions : Partitions) (disk : Disk)
    (compression : Compression) (blockSize : ℤ) : Version where
  name := name
  created := created
  numPartitions := numPartitions
  partitions :=
    match (initBlockStore disk numPartitions compression blockSize).2 with
    | none => partitions
    | some loaded => partitions.updateLocalPartitions loaded
  blockStore := (initBlockStore disk numPartitions compression blockSize).1
  state := .building
  built := false

/-- A build does not change who the node is. -/
theorem Version.build_peers (v : Version) (env : BuildEnv) :
    (v.build env).partitions.peers = v.partitions.peers := by
  rw [Version.build]
  split
  · rfl
  · dsimp only
    split
    · rfl
    · split
      · rfl
      · split
        · rfl
        · rfl
        · exact Partitions.updateLocalPartitions_peers ..

/-! ## What the loops leave alone

Until `Save`, an attempt only writes to logs of its own. -/

/-- From `s` to `s'` only writers and their logs were added. -/
structure StoreState.Wrote (s s' : StoreState) : Prop where
  /-- the store still fits its directory -/
  sound : s'.Sound
  /-- nothing but the writers changed -/
  store : s'.store = { s.store with newBlocks := s'.store.newBlocks }
  /-- the manifest was not touched -/
  manifest : s'.disk.manifest = s.disk.manifest

namespace StoreState.Wrote

variable {s s' : StoreState}

theorem refl (hs : s.Sound) : s.Wrote s := ⟨hs, rfl, rfl⟩

/-- A record goes to the log of a writer, whether the Put succeeds or not. -/
theorem addRecord (h : s.Wrote s') (key : Bytes) (value : Bytes × AddOutcome) :
    s.Wrote (addRecord s' key value).1 where
  sound := h.sound.add value.2 key value.1
  store := by
    rw [Sequins.addRecord, StoreState.add_store, h.store]
  manifest := by
    rw [Sequins.addRecord, StoreState.add_manifest]
    exact h.manifest

/-- By the rule for the record loop: it is the only thing in `addFile` that has to do with the
store. -/
theorem addFile (h : s.Wrote s') (n : ℤ) (partitions : Finset ℤ) (file : SourceFile) :
    s.Wrote (addFile n partitions file s').1 := by
  have hrun := addFileKeys_preserves (P := s.Wrote) (fun _ key value h => h.addRecord key value)
    n partitions file.readerErr file.records .start h
  rw [Sequins.addFile]
  split
  · exact h
  · split
    · exact h
    · dsimp only
      split <;> exact hrun

/-- By induction on the files. The loop stops at the first error, with what it has written. -/
theorem addEachFile (h : s.Wrote s') (n : ℤ) (partitions : Finset ℤ) (files : List SourceFile) :
    s.Wrote (addEachFile n partitions files s').1 := by
  induction files generalizing s' with
  | nil => exact h
  | cons file files ih =>
    have hfile := h.addFile n partitions file
    rw [Sequins.addEachFile]
    split
    · exact h
    · rcases hrun : Sequins.addFile n partitions file s' with ⟨s₁, _ | err⟩
      · rw [hrun] at hfile
        exact ih hfile
      · rw [hrun] at hfile
        exact hfile

end StoreState.Wrote

/-! ## Between attempts

A store is `Clean` when nobody is writing to it. That is so at first, after an attempt that
succeeded, and after one that was undone, but not if `Save` failed with some blocks flushed: then
the manifest, if there is one, does not list what the store has. -/

/-- A store between attempts: no writers, and a manifest, if there is one to be read, that
describes the finished blocks. -/
structure StoreState.Clean (s : StoreState) : Prop where
  /-- the store fits its directory -/
  sound : s.Sound
  /-- nothing is being written -/
  newBlocks : s.store.newBlocks = ∅
  /-- the manifest is up to date -/
  manifest : ∀ m, s.disk.manifest = .whole m →
    ∃ selected, m = StoreState.saveManifest s.store selected

theorem StoreState.clean_init (n : ℤ) (compression : Compression) (blockSize : ℤ) :
    (StoreState.init n compression blockSize).Clean where
  sound := StoreState.sound_init n compression blockSize
  newBlocks := rfl
  manifest := fun _ hm => by cases hm

/-- `Revert` undoes what was written since a clean state. -/
theorem StoreState.Wrote.revert {s s' : StoreState} (hs : s.Clean) (h : s.Wrote s') :
    s'.revert.Clean ∧ s'.revert.store = s.store := by
  have hstore : s'.revert.store = s.store := by
    rw [StoreState.revert, h.store, ← hs.newBlocks]
  refine ⟨⟨h.sound.revert, rfl, fun m hm => ?_⟩, hstore⟩
  rw [hstore]
  exact hs.manifest m (h.manifest ▸ hm)

/-- A `Save` that succeeds leaves a clean state, from which the store can be opened
again. -/
theorem StoreState.Sound.save_clean {s : StoreState} (hs : s.Sound) {env : SaveEnv}
    {selected : Finset ℤ} (h : (s.save env selected).2 = none) :
    (s.save env selected).1.Clean where
  sound := hs.save h
  newBlocks := by rw [(hs.save_eq_none h).2]
  manifest := fun m hm => by
    rw [hs.save_manifest h] at hm
    exact ⟨selected, (ManifestFile.whole.inj hm).symm⟩

/-- No block was flushed: the attempt failed before `Save`, or in `Save` at the first block
in its order, or `Save` had no block to flush. -/
def StoreState.FailsUnflushed (s : StoreState) (a : Attempt) : Prop :=
  match addEachFile a.files.length a.partitions a.files s with
  | (_, some _) => True
  | (s', none) => s'.savedBlocks a.env = []

/-- The ways an attempt can end: without files; before `Save`; in `Save`. -/
theorem StoreState.attempt_cases (s : StoreState) (a : Attempt) :
    (a.files = [] ∧ s.attempt a = (s, none)) ∨
    (a.files ≠ [] ∧ ∃ s' err, addEachFile a.files.length a.partitions a.files s = (s', some err) ∧
      s.attempt a = (s'.revert, some err)) ∨
    (a.files ≠ [] ∧ ∃ s', addEachFile a.files.length a.partitions a.files s = (s', none) ∧
      (((s'.save a.env a.selected).2 = none ∧
          s.attempt a = ((s'.save a.env a.selected).1, none)) ∨
        ∃ err, (s'.save a.env a.selected).2 = some err ∧
          s.attempt a = ((s'.save a.env a.selected).1.revert, some (.save err)))) := by
  rcases hf : a.files with _ | ⟨file, files⟩
  · exact .inl ⟨rfl, by simp [StoreState.attempt, addFiles, hf]⟩
  · rcases hrun : addEachFile (file :: files).length a.partitions (file :: files) s with ⟨s', _ | err⟩
    · refine .inr (.inr ⟨List.cons_ne_nil _ _, s', rfl, ?_⟩)
      rcases hsave : (s'.save a.env a.selected).2 with _ | err
      · exact .inl ⟨rfl, by simp only [StoreState.attempt, addFiles, hf, hrun, hsave]; rfl⟩
      · exact .inr ⟨err, rfl, by simp only [StoreState.attempt, addFiles, hf, hrun, hsave]; rfl⟩
    · exact .inr (.inl ⟨List.cons_ne_nil _ _, s', err, rfl,
        by simp only [StoreState.attempt, addFiles, hf, hrun]; rfl⟩)

/-- Up to `Save` an attempt only writes. -/
theorem StoreState.Clean.wrote {s s' : StoreState} (hs : s.Clean) {a : Attempt}
    {err : Option BuildError}
    (hrun : addEachFile a.files.length a.partitions a.files s = (s', err)) : s.Wrote s' := by
  have hwrote := (StoreState.Wrote.refl hs.sound).addEachFile a.files.length a.partitions a.files
  rwa [hrun] at hwrote

/-- An attempt that succeeds keeps the store clean. -/
theorem StoreState.Clean.attempt {s s' : StoreState} (hs : s.Clean) {a : Attempt}
    (h : s.attempt a = (s', none)) : s'.Clean := by
  rcases s.attempt_cases a with ⟨-, heq⟩ | ⟨-, s₁, err, -, heq⟩ |
    ⟨-, s₁, hrun, ⟨hsave, heq⟩ | ⟨err, -, heq⟩⟩
  · obtain ⟨rfl, -⟩ := Prod.mk.inj (heq.symm.trans h)
    exact hs
  · cases (Prod.mk.inj (heq.symm.trans h)).2
  · obtain ⟨rfl, -⟩ := Prod.mk.inj (heq.symm.trans h)
    exact (hs.wrote hrun).sound.save_clean hsave
  · cases (Prod.mk.inj (heq.symm.trans h)).2

/-- An attempt that fails before a block is flushed is undone. -/
theorem StoreState.Clean.failed_attempt {s s' : StoreState} (hs : s.Clean) {a : Attempt}
    {err : BuildError} (h : s.attempt a = (s', some err)) (hun : s.FailsUnflushed a) :
    s'.Clean ∧ s'.store = s.store := by
  rw [StoreState.FailsUnflushed] at hun
  rcases s.attempt_cases a with ⟨-, heq⟩ | ⟨-, s₁, err', hrun, heq⟩ |
    ⟨-, s₁, hrun, ⟨-, heq⟩ | ⟨err', hsave, heq⟩⟩
  · cases (Prod.mk.inj (heq.symm.trans h)).2
  · obtain ⟨rfl, -⟩ := Prod.mk.inj (heq.symm.trans h)
    exact (hs.wrote hrun).revert hs
  · cases (Prod.mk.inj (heq.symm.trans h)).2
  · obtain ⟨rfl, -⟩ := Prod.mk.inj (heq.symm.trans h)
    rw [hrun] at hun
    have hwrote := hs.wrote hrun
    have hfail : (s₁.save a.env a.selected).2 ≠ none := by simp [hsave]
    rcases hwrote.sound.save_of_savedBlocks_eq_nil hun hfail with hsame | ⟨m, hm, heq'⟩
    · -- the first block failed: nothing happened
      rw [hsame]
      exact hwrote.revert hs
    · -- nothing to flush: at worst the manifest is gone
      rw [heq']
      have hstore : ({ s₁.store with newBlocks := ∅ } : BlockStore) = s.store := by
        rw [hwrote.store, ← hs.newBlocks]
      refine ⟨⟨(hwrote.sound.forget m).revert, rfl, fun m' hm' => ?_⟩, hstore⟩
      change m = .whole m' at hm'
      rcases hm with rfl | rfl
      · obtain ⟨selected, rfl⟩ := hs.manifest m' (hwrote.manifest ▸ hm')
        exact ⟨selected, by rw [← hstore]; rfl⟩
      · cases hm'

/-- Opening the directory anew keeps the store clean. -/
theorem StoreState.Clean.initBlockStore {s : StoreState} (hs : s.Clean) (n : ℤ)
    (compression : Compression) (blockSize : ℤ) :
    (initBlockStore s.disk n compression blockSize).1.Clean := by
  rcases hopen : newFromManifest s.disk with err | ⟨st, m⟩
  · -- a new store over the old files
    simp only [Sequins.initBlockStore, hopen]
    refine ⟨⟨fun _ => rfl, fun b hb => absurd hb List.not_mem_nil, hs.sound.fresh, ?_, ?_, ?_⟩,
      rfl, fun m hm => ?_⟩
    · intro p bw hlook
      simp [newBlockStore] at hlook
    · intro p bw hlook
      simp [newBlockStore] at hlook
    · intro p bw hlook
      simp [newBlockStore] at hlook
    · -- a manifest that can be read would have been opened
      obtain ⟨selected, rfl⟩ := hs.manifest m hm
      obtain ⟨st, m, hok, -⟩ :=
        StoreState.newFromManifest_of_onDisk hs.sound.indexed hs.sound.onDisk hm
      rw [hopen] at hok
      cases hok
  · simp only [Sequins.initBlockStore, hopen]
    obtain ⟨m', hm'⟩ : ∃ m', s.disk.manifest = .whole m' := by
      rcases hman : s.disk.manifest with _ | _ | m'
      · simp [newFromManifest, readManifest, hman] at hopen
      · simp [newFromManifest, readManifest, hman] at hopen
      · exact ⟨m', rfl⟩
    obtain ⟨selected, rfl⟩ := hs.manifest m' hm'
    obtain ⟨st', m'', hok, hblocks, hmap, hnew, hnum, -⟩ :=
      StoreState.newFromManifest_of_onDisk hs.sound.indexed hs.sound.onDisk hm'
    rw [hopen] at hok
    obtain ⟨rfl, rfl⟩ := Prod.mk.inj (Except.ok.inj hok)
    exact ⟨hs.sound.reopened hblocks hmap hnew, hnew,
      fun m hm => ⟨selected, by
        rw [hm'] at hm
        rw [← ManifestFile.whole.inj hm, StoreState.saveManifest, StoreState.saveManifest, hblocks,
          hnum]⟩⟩

/-! ## Failed builds

What a failed attempt should leave behind, and when it does. -/

/-- The store is as it was before the attempt, and the next attempt that succeeds leaves a
directory that can be opened. -/
structure Restored (s s' : StoreState) : Prop where
  /-- the finished blocks -/
  blocks : s'.store.blocks = s.store.blocks
  /-- the finished blocks by partition -/
  blockMap : s'.store.blockMap = s.store.blockMap
  /-- the blocks being written -/
  newBlocks : s'.store.newBlocks = s.store.newBlocks
  /-- every finished block has its log file -/
  onDisk : ∀ b ∈ s'.store.blocks, (s'.disk.logs b.name).isSome
  /-- a later successful build can be opened from its manifest -/
  reopens : ∀ a : Attempt, a.files ≠ [] → (s'.attempt a).2 = none →
    ∃ st m, newFromManifest (s'.attempt a).1.disk = .ok (st, m) ∧
      st.blocks = (s'.attempt a).1.store.blocks

/-- After a build that saved, the directory can be opened. -/
theorem StoreState.Clean.attempt_reopens {s : StoreState} (hs : s.Clean) {a : Attempt}
    (hfiles : a.files ≠ []) (h : (s.attempt a).2 = none) :
    ∃ st m, newFromManifest (s.attempt a).1.disk = .ok (st, m) ∧
      st.blocks = (s.attempt a).1.store.blocks := by
  rcases s.attempt_cases a with ⟨hnil, -⟩ | ⟨-, s₁, err, -, heq⟩ |
    ⟨-, s₁, hrun, ⟨hsave, heq⟩ | ⟨err, -, heq⟩⟩
  · exact absurd hnil hfiles
  · rw [heq] at h
    cases h
  · have hwrote := hs.wrote hrun
    have hsound := hwrote.sound.save hsave
    obtain ⟨st, m, hopen, hblocks, -⟩ := StoreState.newFromManifest_of_onDisk hsound.indexed
      hsound.onDisk (hwrote.sound.save_manifest hsave)
    rw [heq]
    exact ⟨st, m, hopen, hblocks⟩
  · rw [heq] at h
    cases h

/-- However an attempt ends, the finished blocks are the old ones and the flushed ones. -/
theorem StoreState.Clean.attempt_blocks {s s' : StoreState} (hs : s.Clean) {a : Attempt}
    {err : BuildError} (h : s.attempt a = (s', some err))
    (hblocks : s'.store.blocks = s.store.blocks) : s.FailsUnflushed a := by
  rw [StoreState.FailsUnflushed]
  rcases s.attempt_cases a with ⟨-, heq⟩ | ⟨-, s₁, err', hrun, -⟩ |
    ⟨-, s₁, hrun, ⟨-, heq⟩ | ⟨err', -, heq⟩⟩
  · cases (Prod.mk.inj (heq.symm.trans h)).2
  · rw [hrun]
    trivial
  · cases (Prod.mk.inj (heq.symm.trans h)).2
  · obtain ⟨rfl, -⟩ := Prod.mk.inj (heq.symm.trans h)
    have hwrote := hs.wrote hrun
    rw [hrun]
    have hsaved := hwrote.sound.save_blocks a.env a.selected
    change (s₁.save a.env a.selected).1.store.blocks = _ at hblocks
    rw [hblocks, hwrote.store] at hsaved
    exact List.append_right_eq_self.mp hsaved.symm

/-- The states between the builds of a version: a new store, and on from there by builds
that succeed, builds that fail with no block flushed, and restarts. -/
inductive Reached : StoreState → Prop where
  /-- `New` in an empty directory -/
  | new (n : ℤ) (compression : Compression) (blockSize : ℤ) :
    Reached (StoreState.init n compression blockSize)
  /-- a build succeeds -/
  | built {s s' : StoreState} {a : Attempt} : Reached s → s.attempt a = (s', none) → Reached s'
  /-- a build fails with no block flushed -/
  | failed {s s' : StoreState} {a : Attempt} {err : BuildError} : Reached s →
    s.attempt a = (s', some err) → s.FailsUnflushed a → Reached s'
  /-- the process is restarted -/
  | restarted {s : StoreState} (n : ℤ) (compression : Compression) (blockSize : ℤ) : Reached s →
    Reached (initBlockStore s.disk n compression blockSize).1

theorem Reached.clean {s : StoreState} (h : Reached s) : s.Clean := by
  induction h with
  | new n compression blockSize => exact StoreState.clean_init n compression blockSize
  | built _ hrun ih => exact ih.attempt hrun
  | failed _ hrun hun ih => exact (ih.failed_attempt hrun hun).1
  | restarted n compression blockSize _ ih => exact ih.initBlockStore n compression blockSize

/-- **A failed build leaves the block store as it was exactly if no block had been
flushed.** -/
theorem failed_attempt_restores_iff {s s' : StoreState} (hs : Reached s) {a : Attempt}
    {err : BuildError} (h : s.attempt a = (s', some err)) :
    Restored s s' ↔ s.FailsUnflushed a := by
  constructor
  · intro hr
    exact hs.clean.attempt_blocks h hr.blocks
  · intro hun
    obtain ⟨hclean, hstore⟩ := hs.clean.failed_attempt h hun
    refine ⟨by rw [hstore], by rw [hstore], by rw [hstore], fun b hb => ?_, fun a' => ?_⟩
    · rw [hclean.sound.onDisk b hb]
      rfl
    · exact hclean.attempt_reopens

/-- A build of two records in two partitions, of which only `0` is wanted. -/
def firstBuild : Attempt where
  partitions := {0}
  selected := {0}
  files := [.ok [] [([98], [1]), ([97], [2])], .ok [] []]
  env := ⟨IterOrder.stored _, fun _ => .ok, .ok⟩

/-- A build for partition `1` that has Added its record when the second file cannot be opened. -/
def unopened : Attempt where
  partitions := {1}
  selected := {0, 1}
  files := [.ok [] [([98], [1]), ([97], [2])], ⟨[], false, false, true, [], none⟩]
  env := ⟨IterOrder.stored _, fun _ => .ok, .ok⟩

/-- The store as the first build has saved it. -/
def savedOnce : StoreState := ((StoreState.init 2 .snappy 4096).attempt firstBuild).1

/-- The second file cannot be opened, when the record of the first one is in a log already. -/
theorem failed_attempt_restores_unopened :
    savedOnce.store.blocks.map Block.name = [⟨0, 0⟩] ∧
      (savedOnce.attempt unopened).2 = some (.opening []) ∧
      Restored savedOnce (savedOnce.attempt unopened).1 := by
  have hbuilt : (StoreState.init 2 .snappy 4096).attempt firstBuild = (savedOnce, none) := rfl
  have hfails : savedOnce.attempt unopened =
      ((savedOnce.attempt unopened).1, some (.opening [])) := rfl
  exact ⟨rfl, rfl, (failed_attempt_restores_iff (.built (.new 2 .snappy 4096) hbuilt) hfails).mpr
    trivial⟩

/-- A build of two records in two partitions, in which the log of partition `0` cannot be
closed. -/
def halfFlushed : Attempt where
  partitions := {0, 1}
  selected := {0, 1}
  files := [.ok [] [([98], [1]), ([97], [2])], .ok [] []]
  env := ⟨IterOrder.stored _, fun name => if name.partition = 0 then .closeFails else .ok, .ok⟩

/-- The same build with nothing failing. -/
def retried : Attempt := { halfFlushed with env := ⟨IterOrder.stored _, fun _ => .ok, .ok⟩ }

/-- **A `Save` that fails half-way is not undone.** The block of partition `1` stays
registered while `Revert` deletes its log, and the retry writes a manifest that cannot be
opened. -/
theorem halfFlushed_not_restored :
    ¬ Restored (StoreState.init 2 .snappy 4096) ((StoreState.init 2 .snappy 4096).attempt halfFlushed).1 ∧
    ((StoreState.init 2 .snappy 4096).attempt halfFlushed).2 = some (.save .closeLog) ∧
    ((StoreState.init 2 .snappy 4096).attempt halfFlushed).1.store.blocks.map Block.name = [⟨1, 1⟩] ∧
    ((StoreState.init 2 .snappy 4096).attempt halfFlushed).1.disk.logs ⟨1, 1⟩ = none ∧
    (((StoreState.init 2 .snappy 4096).attempt halfFlushed).1.attempt retried).2 = none ∧
    newFromManifest (((StoreState.init 2 .snappy 4096).attempt halfFlushed).1.attempt retried).1.disk =
      .error (.openingBlock ⟨1, 1⟩) := by
  have hnames : ((StoreState.init 2 .snappy 4096).attempt halfFlushed).1.store.blocks.map Block.name =
      [⟨1, 1⟩] := by rfl
  refine ⟨fun h => ?_, by rfl, hnames, by rfl, by rfl, by rfl⟩
  rw [h.blocks] at hnames
  cases hnames

end Sequins
