import Sequins.Build
import Mathlib.Data.Finset.Lattice.Lemmas

/-!
# Restarts

What `newVersion` makes of a directory that is already there. Two things are taken over from the
manifest without a look at anything else: the number of partitions, and the set of partitions
that are local.

* The files of the version as they are listed now also give a number of partitions, which is
  used for everything but the block store. The two agree exactly if the manifest says so
  (`one_partition_count_iff`).
* The set in the manifest is the selection of the last build, and not what the blocks hold. Over
  a sequence of restarts with changing selections the two agree exactly if no build drops a
  partition that is there (`coverage_survives_iff`).
-/

namespace Sequins

/-! ## What a manifest is good for -/

/-- A manifest that `NewFromManifest` can load. -/
structure Disk.Loadable (disk : Disk) (m : Manifest) : Prop where
  /-- it is on disk -/
  manifest : disk.manifest = .whole m
  /-- of the current version -/
  version : m.version = manifestVersion
  /-- the logs of its blocks are there -/
  logs : ∀ b ∈ m.blocks, (disk.logs b.name).isSome

theorem loadBlocks_eq_ok {disk : Disk} {ms : List BlockManifest} {st st' : BlockStore}
    (h : loadBlocks disk ms st = .ok st') :
    (∀ m ∈ ms, (disk.logs m.name).isSome) ∧ st'.numPartitions = st.numPartitions := by
  induction ms generalizing st with
  | nil =>
    obtain rfl := Except.ok.inj h
    exact ⟨by simp, rfl⟩
  | cons m ms ih =>
    rw [loadBlocks, loadBlock] at h
    rcases hlog : disk.logs m.name with _ | log
    · rw [hlog] at h
      cases h
    · rw [hlog] at h
      obtain ⟨hlogs, hnum⟩ := ih h
      exact ⟨List.forall_mem_cons.mpr ⟨by simp [hlog], hlogs⟩, hnum⟩

theorem loadBlocks_of_logs {disk : Disk} {ms : List BlockManifest}
    (h : ∀ m ∈ ms, (disk.logs m.name).isSome) (st : BlockStore) :
    ∃ st', loadBlocks disk ms st = .ok st' := by
  induction ms generalizing st with
  | nil => exact ⟨st, rfl⟩
  | cons m ms ih =>
    obtain ⟨hm, hms⟩ := List.forall_mem_cons.mp h
    obtain ⟨log, hlog⟩ := Option.isSome_iff_exists.mp hm
    obtain ⟨st', hst'⟩ := ih hms (st.register m.partition (m.toBlock log))
    exact ⟨st', by rw [loadBlocks, loadBlock, hlog]; exact hst'⟩

/-- The defaults of `readManifest` do not touch what counts here. -/
theorem readManifest_of_version {disk : Disk} {m : Manifest} (hm : disk.manifest = .whole m)
    (hversion : m.version = manifestVersion) :
    ∃ m', readManifest disk = .ok m' ∧ m'.blocks = m.blocks ∧
      m'.numPartitions = m.numPartitions := by
  rw [readManifest, hm]
  dsimp only
  rw [if_neg (not_not.mpr hversion)]
  split_ifs
  · rcases m.selectedPartitions with _ | selected <;> simp
  · rcases m.selectedPartitions with _ | selected <;> simp

theorem readManifest_eq_ok {disk : Disk} {m' : Manifest} (h : readManifest disk = .ok m') :
    ∃ m, disk.manifest = .whole m ∧ m.version = manifestVersion ∧ m'.blocks = m.blocks ∧
      m'.numPartitions = m.numPartitions := by
  rcases hm : disk.manifest with _ | _ | m
  · simp [readManifest, hm] at h
  · simp [readManifest, hm] at h
  · by_cases hversion : m.version = manifestVersion
    · obtain ⟨m'', hread, hsame⟩ := readManifest_of_version hm hversion
      obtain rfl := Except.ok.inj (h.symm.trans hread)
      exact ⟨m, rfl, hversion, hsame⟩
    · simp [readManifest, hm, hversion] at h

/-- A manifest that can be loaded gives the block store its number of partitions. -/
theorem Disk.Loadable.newFromManifest {disk : Disk} {m : Manifest} (h : disk.Loadable m) :
    ∃ st m', newFromManifest disk = .ok (st, m') ∧ st.numPartitions = m.numPartitions := by
  obtain ⟨m', hread, hblocks, hnum⟩ := readManifest_of_version h.manifest h.version
  obtain ⟨st, hload⟩ := loadBlocks_of_logs (hblocks ▸ h.logs)
    (newBlockStore m'.numPartitions m'.compression m'.blockSize)
  refine ⟨st, m', by rw [Sequins.newFromManifest, hread]; simp only [hload], ?_⟩
  exact (loadBlocks_eq_ok hload).2.trans hnum

/-- Nothing else is loaded. -/
theorem loadable_of_newFromManifest {disk : Disk} {st : BlockStore} {m' : Manifest}
    (h : newFromManifest disk = .ok (st, m')) : ∃ m, disk.Loadable m := by
  rcases hread : readManifest disk with err | m''
  · simp [newFromManifest, hread] at h
  · obtain ⟨m, hm, hversion, hblocks, -⟩ := readManifest_eq_ok hread
    rcases hload : loadBlocks disk m''.blocks
      (newBlockStore m''.numPartitions m''.compression m''.blockSize) with err | st'
    · simp [newFromManifest, hread, hload] at h
    · exact ⟨m, hm, hversion, hblocks ▸ (loadBlocks_eq_ok hload).1⟩

/-! ## The number of partitions -/

/-- One number of partitions is used for everything. -/
structure Version.OneCount (v : Version) (disk : Disk) : Prop where
  /-- for placing and finding records, and for routing requests and filtering records -/
  store : v.blockStore.store.numPartitions = v.numPartitions
  /-- for selecting partitions -/
  partitions : v.partitions.numPartitions = v.numPartitions
  /-- what is local was built with that number -/
  localPartitions : ∀ m, disk.manifest = .whole m → ∀ p ∈ v.partitions.localPartitions,
    m.numPartitions = v.numPartitions

/-- **One partition count per version**, exactly if the manifest that is loaded, if any, says as
many as there are files. -/
theorem one_partition_count_iff (name : Bytes) (created : ℕ) (files : List Bytes)
    (peers : Option Address) (selected : Finset ℤ) (remote : ℤ → List Address) (disk : Disk)
    (compression : Compression) (blockSize : ℤ) {v : Version}
    (hv : v = newVersion name created files.length
      (.watchPartitions peers files.length selected remote) disk compression blockSize) :
    (v.numPartitions = files.length ∧ v.OneCount disk) ↔
      ∀ m, disk.Loadable m → m.numPartitions = files.length := by
  have hpartitions : v.partitions.numPartitions = files.length := by
    rw [hv, newVersion]
    dsimp only
    split
    · rw [Partitions.watchPartitions, Partitions.updateMissing_eq]
    · rw [Partitions.updateLocalPartitions, Partitions.updateMissing_eq, Partitions.watchPartitions,
        Partitions.updateMissing_eq]
  have hnum : v.numPartitions = files.length := by rw [hv, newVersion]
  constructor
  · rintro ⟨-, hone⟩ m hm
    obtain ⟨st, m', hopen, hst⟩ := hm.newFromManifest
    have hstore := hone.store
    rw [hnum, hv, newVersion] at hstore
    simp only [initBlockStore, hopen] at hstore
    exact hst.symm.trans hstore
  · intro hall
    refine ⟨hnum, ?_, hpartitions.trans hnum.symm, fun m hm p hp => ?_⟩
    · rw [hnum, hv, newVersion]
      rcases hopen : newFromManifest disk with err | ⟨st, m'⟩
      · simp only [initBlockStore, hopen, newBlockStore]
      · obtain ⟨m, hm⟩ := loadable_of_newFromManifest hopen
        obtain ⟨st', m'', hopen', hst'⟩ := hm.newFromManifest
        obtain ⟨rfl, -⟩ := Prod.mk.inj (Except.ok.inj (hopen.symm.trans hopen'))
        simp only [initBlockStore, hopen]
        exact hst'.trans (hall m hm)
    · rcases hopen : newFromManifest disk with err | ⟨st, m'⟩
      · -- without a manifest nothing is local
        rw [hv, newVersion] at hp
        simp [initBlockStore, hopen] at hp
      · obtain ⟨m₁, hm₁⟩ := loadable_of_newFromManifest hopen
        obtain rfl := ManifestFile.whole.inj (hm.symm.trans hm₁.manifest)
        exact (hall m hm₁).trans (congrArg _ hnum.symm)

/-- A version of two files, built and saved, and now there is a third. -/
def twoFiles : Disk :=
  ((StoreState.init 2 .snappy 0).save ⟨.stored _, fun _ => .ok, .ok⟩ {0, 1}).1.disk

theorem one_partition_count_unchanged :
    (newVersion [49] 0 2 (.watchPartitions none 2 {0, 1} fun _ => []) twoFiles .snappy 0).OneCount
      twoFiles := by
  refine ((one_partition_count_iff [49] 0 [[97], [98]] none {0, 1} (fun _ => []) twoFiles .snappy 0
    rfl).mpr ?_).2
  rintro m ⟨hm, -, -⟩
  obtain rfl := ManifestFile.whole.inj hm
  rfl

/-- The records are looked up among two partitions, and requests routed among three. -/
theorem thirdFile_two_counts :
    ∃ v, v = newVersion [49] 0 3 (.watchPartitions none 3 {0, 1, 2} fun _ => []) twoFiles .snappy 0 ∧
      v.blockStore.store.numPartitions = 2 ∧ v.numPartitions = 3 ∧
      v.partitions.localPartitions = {0, 1} := by
  exact ⟨_, rfl, rfl, rfl, by decide⟩

/-! ## The local partitions

A start takes over as local what the manifest says was selected. If its own selection asks for
more, it builds that, and the manifest it writes says its own selection: whatever was local
before and is not selected now stays on disk, and is forgotten by the next start. -/

/-- A node's configuration for a version that does not change. -/
structure Setup where
  /-- the name of the version -/
  name : Bytes
  /-- the address of this node -/
  peers : Option Address
  /-- the number of files -/
  numPartitions : ℕ
  /-- `Storage.Compression` -/
  compression : Compression
  /-- `Storage.BlockSize` -/
  blockSize : ℤ

/-- A start of the node: what the ring selects, what the others have, and how the build goes. -/
structure Start where
  /-- `selected` -/
  selected : Finset ℤ
  /-- when -/
  created : ℕ
  /-- the first list of remote partitions -/
  remote : ℤ → List Address
  /-- the build -/
  env : BuildEnv

namespace Setup

/-- `newVersion`. -/
def version (c : Setup) (disk : Disk) (start : Start) : Version :=
  newVersion c.name start.created c.numPartitions
    (.watchPartitions c.peers c.numPartitions start.selected start.remote) disk c.compression
    c.blockSize

/-- The directory after some runs, and the partitions that were built in them. -/
def run (c : Setup) (starts : List Start) : Disk × Finset ℤ :=
  starts.foldl (fun s start =>
    (((c.version s.1 start).build start.env).blockStore.disk,
      s.2 ∪ (c.version s.1 start).partitions.needed)) (.empty, ∅)

/-- The version at a start after some runs. -/
def restarted (c : Setup) (before : List Start) (start : Start) : Version :=
  c.version (c.run before).1 start

/-- Every start selects partitions of the version, and its build, over all the files, completes. -/
def Completes (c : Setup) (starts : List Start) : Prop :=
  ∀ before start after, starts = before ++ start :: after →
    (∀ i : ℤ, i ∈ start.selected → 0 ≤ i ∧ i < c.numPartitions) ∧
    start.env.files.length = c.numPartitions ∧
    ((c.restarted before start).build start.env).built = true

end Setup

/-- Everything that was ever selected. -/
def selectedBy (starts : List Start) : Finset ℤ := starts.foldl (fun all start => all ∪ start.selected) ∅

theorem selectedBy_snoc (starts : List Start) (start : Start) :
    selectedBy (starts ++ [start]) = selectedBy starts ∪ start.selected := by
  rw [selectedBy, List.foldl_append]
  rfl

theorem Setup.run_snoc (c : Setup) (starts : List Start) (start : Start) :
    c.run (starts ++ [start]) =
      (((c.restarted starts start).build start.env).blockStore.disk,
        (c.run starts).2 ∪ (c.restarted starts start).partitions.needed) := by
  rw [Setup.run, List.foldl_append]
  rfl

/-- A directory from which a restart takes over `marked` as local. -/
structure Disk.Marks (disk : Disk) (marked : Finset ℤ) : Prop where
  /-- it is that of a store between builds -/
  clean : ∃ store : BlockStore, (⟨store, disk⟩ : StoreState).Clean ∧
    ((disk.manifest = .missing ∧ marked = ∅) ∨
      disk.manifest = .whole (StoreState.saveManifest store marked))

theorem Disk.marks_empty : Disk.empty.Marks ∅ where
  clean := ⟨newBlockStore 0 .empty 0, StoreState.clean_init 0 .empty 0, .inl ⟨rfl, rfl⟩⟩

/-- What a start finds. -/
theorem Disk.Marks.version {disk : Disk} {marked : Finset ℤ} (h : disk.Marks marked) (c : Setup)
    (start : Start) :
    (c.version disk start).blockStore.Clean ∧ (c.version disk start).blockStore.disk = disk ∧
      (c.version disk start).partitions.localPartitions = marked ∧
      (c.version disk start).partitions.selected = start.selected := by
  obtain ⟨store, hclean, hmanifest⟩ := h.clean
  have hstore := hclean.initBlockStore c.numPartitions c.compression c.blockSize
  rcases hmanifest with ⟨hmissing, rfl⟩ | hwhole
  · have hopen : newFromManifest disk = .error .noManifest := by
      simp [newFromManifest, readManifest, hmissing]
    refine ⟨hstore, ?_, ?_, ?_⟩ <;> simp [Setup.version, newVersion, initBlockStore, hopen]
  · obtain ⟨st, m, hopen, -, -, -, -, hselected⟩ :=
      StoreState.newFromManifest_of_onDisk hclean.sound.indexed hclean.sound.onDisk hwhole
    refine ⟨hstore, ?_, ?_, ?_⟩
    · simp [Setup.version, newVersion, initBlockStore, hopen]
    · simp [Setup.version, newVersion, initBlockStore, hopen, hselected]
    · simp [Setup.version, newVersion, initBlockStore, hopen, hselected,
        Partitions.updateLocalPartitions_selected]

/-- A build that completes and is not over at once has saved. -/
theorem StoreState.Clean.attempt_saved {s s' : StoreState} (hs : s.Clean) {a : Attempt}
    (hfiles : a.files ≠ []) (h : s.attempt a = (s', none)) :
    s'.disk.manifest = .whole (StoreState.saveManifest s'.store a.selected) := by
  rcases s.attempt_cases a with ⟨hnil, -⟩ | ⟨-, s₁, err, -, heq⟩ |
    ⟨-, s₁, hrun, ⟨hsave, heq⟩ | ⟨err, -, heq⟩⟩
  · exact absurd hnil hfiles
  · cases (Prod.mk.inj (heq.symm.trans h)).2
  · obtain ⟨rfl, -⟩ := Prod.mk.inj (heq.symm.trans h)
    exact (hs.wrote hrun).sound.save_manifest hsave
  · cases (Prod.mk.inj (heq.symm.trans h)).2

/-- The ways `build` can complete. -/
theorem Version.build_completes {v : Version} {env : BuildEnv} (hv : v.built = false)
    (h : (v.build env).built = true) :
    (v.partitions.needed = ∅ ∧ (v.build env).blockStore = v.blockStore) ∨
    (v.partitions.needed ≠ ∅ ∧ v.blockStore.attempt ⟨v.partitions.needed, v.partitions.selected,
      env.files, env.save⟩ = ((v.build env).blockStore, none)) := by
  have herror : (v.setState .error).built = false := hv
  rw [Version.build, if_neg (by simp [hv])] at h ⊢
  by_cases hneeded : v.partitions.needed = ∅
  · exact .inl ⟨hneeded, by simp [hneeded]⟩
  · refine .inr ⟨hneeded, ?_⟩
    rcases hmkdir : env.mkdir with _ | _
    · simp [hneeded, hmkdir, herror] at h
    · rcases hrun : v.blockStore.attempt ⟨v.partitions.needed, v.partitions.selected, env.files,
        env.save⟩ with ⟨s, _ | err⟩
      · simp [hneeded, hrun]
      · cases err <;> simp [hneeded, hmkdir, hrun, hv, herror] at h

/-- What a run leaves for the next one: its own selection, if it had anything to build. -/
theorem Disk.Marks.build {disk : Disk} {marked : Finset ℤ} (h : disk.Marks marked) (c : Setup)
    (start : Start) (hselected : ∀ i : ℤ, i ∈ start.selected → 0 ≤ i ∧ i < c.numPartitions)
    (hfiles : start.env.files.length = c.numPartitions)
    (hbuilt : ((c.version disk start).build start.env).built = true) :
    ((c.version disk start).build start.env).blockStore.disk.Marks
      (if start.selected ⊆ marked then marked else start.selected) := by
  obtain ⟨hclean, hdisk, hlocal, hsel⟩ := h.version c start
  have hneeded : (c.version disk start).partitions.needed = ∅ ↔ start.selected ⊆ marked := by
    rw [Partitions.needed, hlocal, hsel, Finset.filter_eq_empty_iff]
    simp only [not_not]
    rfl
  rcases Version.build_completes rfl hbuilt with ⟨hnone, hstore⟩ | ⟨hsome, hrun⟩
  · rw [if_pos (hneeded.mp hnone), hstore, hdisk]
    exact h
  · rw [if_neg (fun hsub => hsome (hneeded.mpr hsub))]
    -- there is a partition to build, hence a file
    have hne : start.env.files ≠ [] := by
      intro hnil
      obtain ⟨i, hi⟩ := Finset.nonempty_iff_ne_empty.mpr hsome
      rw [Partitions.needed, hsel] at hi
      have hbound := hselected i (Finset.mem_filter.mp hi).1
      rw [hnil, List.length_nil] at hfiles
      omega
    have hsaved := hclean.attempt_saved hne hrun
    rw [hsel] at hsaved
    exact ⟨_, hclean.attempt hrun, .inr hsaved⟩

/-! Over a sequence of runs -/

/-- What the next start takes over as local: the selection of the last run that built anything. -/
def markedBy (starts : List Start) : Finset ℤ :=
  starts.foldl (fun marked start => if start.selected ⊆ marked then marked else start.selected) ∅

theorem markedBy_snoc (starts : List Start) (start : Start) :
    markedBy (starts ++ [start]) =
      if start.selected ⊆ markedBy starts then markedBy starts else start.selected := by
  rw [markedBy, List.foldl_append]
  rfl

theorem Setup.Completes.of_snoc {c : Setup} {starts : List Start} {start : Start}
    (h : c.Completes (starts ++ [start])) : c.Completes starts := by
  rintro before st after rfl
  exact h before st (after ++ [start]) (by simp)

/-- By induction on the starts: the directory marks what the last build had selected. -/
theorem Setup.Completes.marks {c : Setup} {starts : List Start} (h : c.Completes starts) :
    (c.run starts).1.Marks (markedBy starts) := by
  induction starts using List.reverseRecOn with
  | nil => exact Disk.marks_empty
  | append_singleton starts start ih =>
    obtain ⟨hselected, hfiles, hbuilt⟩ := h starts start [] rfl
    rw [c.run_snoc, markedBy_snoc]
    exact (ih h.of_snoc).build c start hselected hfiles hbuilt

/-- Nothing is marked that was not selected. -/
theorem markedBy_subset (starts : List Start) : markedBy starts ⊆ selectedBy starts := by
  induction starts using List.reverseRecOn with
  | nil => exact Finset.Subset.refl _
  | append_singleton starts start ih =>
    rw [markedBy_snoc, selectedBy_snoc]
    split
    · exact ih.trans Finset.subset_union_left
    · exact Finset.subset_union_right

/-- What was built is everything that was ever selected. -/
theorem Setup.Completes.built {c : Setup} {starts : List Start} (h : c.Completes starts) :
    (c.run starts).2 = selectedBy starts := by
  induction starts using List.reverseRecOn with
  | nil => rfl
  | append_singleton starts start ih =>
    obtain ⟨-, -, hlocal, hsel⟩ := h.of_snoc.marks.version c start
    rw [c.run_snoc, selectedBy_snoc, ih h.of_snoc, Setup.restarted, Partitions.needed, hlocal, hsel]
    ext i
    simp only [Finset.mem_union, Finset.mem_filter]
    constructor
    · rintro (hi | ⟨hi, -⟩)
      · exact .inl hi
      · exact .inr hi
    · rintro (hi | hi)
      · exact .inl hi
      · by_cases hmarked : i ∈ markedBy starts
        · exact .inl (markedBy_subset starts hmarked)
        · exact .inr ⟨hi, hmarked⟩

/-- The marks cover everything as long as each run is content with what is there, or selects all
of it again. -/
theorem markedBy_eq_selectedBy_iff (starts : List Start) :
    (∀ before start after, starts = before ++ start :: after →
      markedBy before = selectedBy before) ↔
    ∀ before start next after, starts = before ++ start :: next :: after →
      start.selected ⊆ selectedBy before ∨ selectedBy before ⊆ start.selected := by
  constructor
  · intro hall before start next after heq
    have hbefore := hall before start (next :: after) heq
    have hnext := hall (before ++ [start]) next after (by rw [heq]; simp)
    rw [markedBy_snoc, selectedBy_snoc, hbefore] at hnext
    split_ifs at hnext with hsub
    · exact .inl hsub
    · exact .inr (Finset.union_eq_right.mp hnext.symm)
  · intro hall before
    induction before using List.reverseRecOn with
    | nil => exact fun _ _ _ => rfl
    | append_singleton before start ih =>
      intro next after heq
      have heq' : starts = before ++ start :: next :: after := by rw [heq]; simp
      rw [markedBy_snoc, selectedBy_snoc, ih start (next :: after) heq']
      rcases hall before start next after heq' with hsub | hsup
      · rw [if_pos hsub, Finset.union_eq_left.mpr hsub]
      · rw [Finset.union_eq_right.mpr hsup]
        split_ifs with hsub
        · exact hsup.antisymm hsub
        · rfl

/-- **Local coverage survives restarts**, exactly if no run that is followed by another both
builds a partition and leaves out one that is there. Then no partition is built twice. -/
theorem coverage_survives_iff (c : Setup) {starts : List Start} (h : c.Completes starts) :
    (∀ before start after, starts = before ++ start :: after →
      (c.restarted before start).partitions.localPartitions = (c.run before).2 ∧
      Disjoint (c.restarted before start).partitions.needed (c.run before).2) ↔
    ∀ before start next after, starts = before ++ start :: next :: after →
      start.selected ⊆ selectedBy before ∨ selectedBy before ⊆ start.selected := by
  have hcompletes : ∀ before start after, starts = before ++ start :: after →
      c.Completes before := by
    rintro before start after rfl before' st after' rfl
    exact h before' st (after' ++ start :: after) (by simp)
  rw [← markedBy_eq_selectedBy_iff]
  refine forall_congr' fun before => forall_congr' fun start => forall_congr' fun after =>
    forall_congr' fun heq => ?_
  have hbefore := hcompletes before start after heq
  obtain ⟨-, -, hlocal, -⟩ := hbefore.marks.version c start
  rw [hbefore.built, Setup.restarted, Partitions.needed, hlocal]
  refine ⟨fun hboth => hboth.1, fun hmarked => ⟨hmarked, ?_⟩⟩
  rw [hmarked, Finset.disjoint_left]
  exact fun i hi => (Finset.mem_filter.mp hi).2

theorem Setup.Completes.snoc {c : Setup} {starts : List Start} {start : Start}
    (h : c.Completes starts)
    (hselected : ∀ i : ℤ, i ∈ start.selected → 0 ≤ i ∧ i < c.numPartitions)
    (hfiles : start.env.files.length = c.numPartitions)
    (hbuilt : ((c.restarted starts start).build start.env).built = true) :
    c.Completes (starts ++ [start]) := by
  intro before st after heq
  induction after using List.reverseRecOn with
  | nil =>
    obtain ⟨rfl, hst⟩ := List.append_inj' heq rfl
    obtain rfl := List.cons.inj hst |>.1
    exact ⟨hselected, hfiles, hbuilt⟩
  | append_singleton after last =>
    rw [← List.cons_append, ← List.append_assoc] at heq
    obtain ⟨rfl, -⟩ := List.append_inj' heq rfl
    exact h before st after rfl

/-- A version of two files, one of them with a record of each partition. -/
def twoPartitions : Setup := ⟨[49], none, 2, .snappy, 0⟩

/-- A start with a selection, and a build in which nothing fails. -/
def selects (selected : Finset ℤ) : Start where
  selected := selected
  created := 0
  remote := fun _ => []
  env := ⟨true, [.ok [120] [([97], [1]), ([98], [2])], .ok [121] []],
    ⟨.stored _, fun _ => .ok, .ok⟩⟩

theorem completes_nil (c : Setup) : c.Completes [] := by
  intro before _ _ h
  simp at h

/-- A node that gets another partition and keeps the one it has. -/
theorem coverage_survives_growing :
    twoPartitions.Completes ([selects {0}] ++ [selects {0, 1}]) ∧
      (twoPartitions.restarted [selects {0}] (selects {0, 1})).partitions.localPartitions =
        (twoPartitions.run [selects {0}]).2 := by
  have hcompletes : twoPartitions.Completes ([selects {0}] ++ [selects {0, 1}]) :=
    ((completes_nil _).snoc (by decide) rfl (by decide)).snoc (by decide) rfl (by decide)
  refine ⟨hcompletes, ((coverage_survives_iff twoPartitions hcompletes).mpr ?_ [selects {0}]
    (selects {0, 1}) [] rfl).1⟩
  intro before start next after heq
  -- only the first run is followed by another
  have hlen := congrArg List.length heq
  simp only [List.length_append, List.length_cons, List.length_nil] at hlen
  obtain rfl : before = [] := List.length_eq_zero_iff.mp (by omega)
  exact .inr (Finset.empty_subset _)

/-- A node that loses its partition to another node and later gets it back: the second build
forgets the first partition, and the third loads its records again. -/
theorem reselected_builds_twice :
    ∃ before, before = [selects {0}] ++ [selects {1}] ∧ twoPartitions.Completes before ∧
      (twoPartitions.run before).2 = {0, 1} ∧
      (twoPartitions.restarted before (selects {0})).partitions.localPartitions = {1} ∧
      (((twoPartitions.restarted before (selects {0})).build (selects {0}).env).blockStore.store.blockMap
        0).map Block.count = [1, 1] :=
  ⟨_, rfl, ((completes_nil _).snoc (by decide) rfl (by decide)).snoc (by decide) rfl (by decide),
    by decide, by decide, by decide⟩

end Sequins
