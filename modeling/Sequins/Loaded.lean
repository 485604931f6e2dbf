import Sequins.Build

/-!
# What a build loads

A build in which nothing fails, followed all the way from the files to the answers of
the block store. The records that end up in the store are those `addFileKeys` Adds
(`loaded`): of a file the node abandons none, of any other file the ones placed in a
selected partition. `Get` then answers by that list alone (`lookupIn`), before and
after a restart.

Two notions of a partition being local meet here. `partitions.have` goes by what was
selected, whereas `Get` goes by whether there is a block, and there is a block only if
there was a record.
-/

namespace Sequins

/-- The files of a version: the display path and the records of each. -/
abbrev Contents : Type := List (Bytes × Log)

/-- The records of one file that a node Adds. -/
def loadedFrom (n : ℤ) (selected : Finset ℤ) (records : Log) : Log :=
  if Abandons n selected (records.map Prod.fst) then [] else placedIn n selected .start records

/-- The records of all files that a node Adds. -/
def loaded (n : ℤ) (selected : Finset ℤ) (contents : Contents) : Log :=
  contents.flatMap fun file => loadedFrom n selected file.2

/-- Some record of a log has a normal partition that a lookup of the key tries. -/
def Holds (n : ℤ) (log : Log) (key : Bytes) : Prop :=
  ∃ e ∈ log, (keyPartition e.1 n).1 = (keyPartition key n).1 ∨
    (keyPartition e.1 n).1 = (keyPartition key n).2

instance (n : ℤ) (log : Log) (key : Bytes) : Decidable (Holds n log key) :=
  inferInstanceAs (Decidable (∃ e ∈ log, _))

/-- The answer of a store into which one log was loaded. -/
def lookupIn (n : ℤ) (log : Log) (key : Bytes) : Except StoreError (Option Record) :=
  if Holds n log key then
    .ok ((log.seek key).map fun value => ⟨value.length, value⟩)
  else
    .error .partitionNotFound

/-- Everything succeeds. -/
def BuildEnv.ok (contents : Contents) (order : IterOrder (Σ _ : ℤ, BlockWriter)) : BuildEnv where
  mkdir := true
  files := contents.map fun file => .ok file.1 file.2
  save := ⟨order, fun _ => .ok, .ok⟩

/-! ## Through the loops

With nothing failing, the loops of a build Add a list of records, one after the other. What they
leave in the store is then said by `Represents`, by induction on that list. -/

/-- `Add` with nothing failing. -/
def addOk (s : StoreState) (key value : Bytes) : StoreState × Option ReadError :=
  addRecord s key (value, .ok)

theorem addOk_eq_none (s : StoreState) (key value : Bytes) : (addOk s key value).2 = none := by
  obtain ⟨s₁, bw, -, hadd⟩ := s.add_ok key value
  rw [addOk, addRecord, hadd]
  rfl

/-- A file is read without error, whether or not it is given up on. -/
theorem addFile_ok {n : ℤ} (hn : 1 ≤ n) (selected : Finset ℤ) (disp : Bytes) (records : Log)
    (s : StoreState) :
    addFile n selected (.ok disp records) s =
      (addAll addOk s (loadedFrom n selected records), none) := by
  obtain ⟨hstore, herr⟩ := addFileKeys_map addRecord (fun value => (value, AddOutcome.ok)) n selected
    none records .start s
  rw [loadedFrom]
  split_ifs with hab
  · cases records with
    | nil => exact absurd hab id
    | cons r records =>
      obtain ⟨-, unread, -, -, hrun⟩ := @addFileKeys_of_abandons _ _ _ addOk _ hn _ _ _ hab s
      replace hstore := hstore.trans (congrArg _ hrun)
      replace herr := herr.trans (congrArg _ hrun)
      simp only [addFile, SourceFile.ok, hstore, herr, not_true_eq_false, if_false]
      rfl
  · have hrun := addFileKeys_of_not_abandons addOk_eq_none hn hab s
    replace hstore := hstore.trans (congrArg _ hrun)
    replace herr := herr.trans (congrArg _ hrun)
    simp only [addFile, SourceFile.ok, hstore, herr, not_true_eq_false, if_false]

theorem addAll_append (s : StoreState) (l₁ l₂ : Log) :
    addAll addOk s (l₁ ++ l₂) = addAll addOk (addAll addOk s l₁) l₂ := by
  rw [addAll, List.foldl_append]
  rfl

/-- By induction on the files, each of which is read without error. -/
theorem addEachFile_ok {n : ℤ} (hn : 1 ≤ n) (selected : Finset ℤ) (contents : Contents)
    (s : StoreState) :
    addEachFile n selected (contents.map fun file => .ok file.1 file.2) s =
      (addAll addOk s (loaded n selected contents), none) := by
  induction contents generalizing s with
  | nil => rfl
  | cons file contents ih =>
    rw [List.map_cons, addEachFile, addFile_ok hn]
    simp only [SourceFile.ok, Bool.false_eq_true, if_false]
    rw [loaded, List.flatMap_cons, addAll_append]
    exact ih _

/-- Adding a list of records extends the pending batch by it. -/
theorem Represents.addAll {n : ℤ} {s : StoreState} {b : Batches} (h : Represents n s b)
    (records : Log) :
    Represents n (addAll addOk s records) { b with pending := b.pending ++ records } := by
  induction records generalizing s b with
  | nil => simpa [Sequins.addAll] using h
  | cons r records ih =>
    obtain ⟨s', hadd, hs'⟩ := h.add r.1 r.2
    have hstep : (addOk s r.1 r.2).1 = s' := by rw [addOk, addRecord, hadd]
    have hrest := ih hs'
    rw [← hstep, Batches.step, List.append_assoc] at hrest
    exact hrest

/-! ## The loaded version -/

/-- One saved batch is looked up by itself. -/
theorem Batches.answer_singleton (n : ℤ) (log : Log) (key : Bytes) :
    (⟨[log], []⟩ : Batches).answer n key = lookupIn n log key := by
  have hholds : (∀ batch ∈ [log], part n (keyPartition key n).1 batch = [] ∧
      part n (keyPartition key n).2 batch = []) ↔ ¬ Holds n log key := by
    simp only [List.mem_singleton, forall_eq, part, List.filter_eq_nil_iff, decide_eq_true_eq, Holds]
    constructor
    · rintro ⟨hp, ha⟩ ⟨e, he, h | h⟩
      · exact hp e he h
      · exact ha e he h
    · intro h
      exact ⟨fun e he hp => h ⟨e, he, .inl hp⟩, fun e he ha => h ⟨e, he, .inr ha⟩⟩
  have hfind : (⟨[log], []⟩ : Batches).find key = log.seek key := by
    rw [Batches.find, List.findSome?_singleton]
  rw [Batches.answer, lookupIn, hfind]
  by_cases h : Holds n log key
  · rw [if_neg (fun hall => hholds.mp hall h), if_pos h]
  · rw [if_pos (hholds.mpr h), if_neg h]

/-- A version whose store answers for the records of a log, and which counts some
partitions as local. -/
structure Version.Loaded (v : Version) (n : ℕ) (selected : Finset ℤ) (log : Log) : Prop where
  /-- the number of files -/
  numPartitions : v.numPartitions = n
  /-- what `have` goes by -/
  localPartitions : v.partitions.localPartitions = selected
  /-- what `Get` goes by -/
  get : ∀ key, v.blockStore.store.get key = lookupIn n log key

/-- Without a selected partition nothing is loaded. -/
theorem loaded_empty (n : ℤ) (contents : Contents) : loaded n ∅ contents = [] := by
  rw [loaded, List.flatMap_eq_nil_iff]
  intro file _
  rw [loadedFrom]
  split
  · rfl
  · simp [placedIn]

section Fresh

variable (name : Bytes) (created : ℕ) (partitions : Partitions) (compression : Compression)
  (blockSize : ℤ) (contents : Contents) (order : IterOrder (Σ _ : ℤ, BlockWriter))

/-- A version built from nothing, with nothing failing. -/
def builtVersion : Version :=
  (newVersion name created contents.length partitions .empty compression blockSize).build
    (.ok contents order)

/-- In an empty directory a version starts without blocks. -/
theorem newVersion_empty (n : ℕ) :
    newVersion name created n partitions .empty compression blockSize =
      ⟨name, created, n, partitions, .init n compression blockSize, .building, false⟩ := rfl

variable {partitions contents}

/-- A build with something to load represents the one batch of what it loaded. -/
theorem builtVersion_eq (hlocal : partitions.localPartitions = ∅)
    (hselected : partitions.selected ≠ ∅) (hfiles : contents ≠ []) :
    ∃ s, Represents contents.length s
        ⟨[loaded contents.length partitions.selected contents], []⟩ ∧
      s.disk.manifest = .whole (StoreState.saveManifest s.store partitions.selected) ∧
      builtVersion name created partitions compression blockSize contents order =
        ⟨name, created, contents.length, partitions.updateLocalPartitions partitions.selected, s,
          .building, true⟩ := by
  have hn : (1 : ℤ) ≤ contents.length := by
    have := List.length_pos_iff.mpr hfiles
    omega
  have hneeded : partitions.needed = partitions.selected := by
    simp [Partitions.needed, hlocal]
  -- the Adds, and then the Save
  have hadds := (represents_init contents.length compression blockSize).addAll
    (loaded contents.length partitions.selected contents)
  obtain ⟨s, hsave, hs⟩ := hadds.save order partitions.selected
  have hmanifest : s.disk.manifest = .whole (StoreState.saveManifest s.store partitions.selected) := by
    have hm := hadds.sound.save_manifest (hadds.sound.save_ok order partitions.selected)
    rw [hsave] at hm
    exact hm
  refine ⟨s, hs, hmanifest, ?_⟩
  have hattempt : (StoreState.init contents.length compression blockSize).attempt
      ⟨partitions.selected, partitions.selected, contents.map fun file => .ok file.1 file.2,
        ⟨order, fun _ => .ok, .ok⟩⟩ = (s, none) := by
    have hne : (contents.map fun file => SourceFile.ok file.1 file.2).isEmpty = false := by
      simpa using hfiles
    simp only [StoreState.attempt, addFiles, hne, List.length_map, addEachFile_ok hn, hsave]
    rfl
  rw [builtVersion, newVersion_empty, Version.build]
  simp only [BuildEnv.ok, hneeded, hattempt, hselected]
  rfl

/-- Without a selected partition a build does nothing. -/
theorem builtVersion_of_empty (hselected : partitions.selected = ∅) :
    builtVersion name created partitions compression blockSize contents order =
      ⟨name, created, contents.length, partitions, .init contents.length compression blockSize,
        .building, true⟩ := by
  have hneeded : partitions.needed = ∅ := by simp [Partitions.needed, hselected]
  rw [builtVersion, newVersion_empty, Version.build]
  simp only [hneeded, Bool.false_eq_true, if_false, if_true]

/-- A new store answers for no records. -/
theorem init_get (n : ℤ) (key : Bytes) :
    (StoreState.init n compression blockSize).store.get key = lookupIn n [] key := by
  rw [(represents_init n compression blockSize).get key, ← Batches.answer_singleton]
  simp [Batches.answer, part]

/-- **A build answers for what it loaded.** -/
theorem builtVersion_loaded (hlocal : partitions.localPartitions = ∅) (hfiles : contents ≠ []) :
    (builtVersion name created partitions compression blockSize contents order).Loaded
      contents.length partitions.selected
      (loaded contents.length partitions.selected contents) := by
  by_cases hselected : partitions.selected = ∅
  · rw [builtVersion_of_empty name created compression blockSize order hselected, hselected,
      loaded_empty]
    exact ⟨rfl, hlocal, init_get compression blockSize _⟩
  · obtain ⟨s, hs, -, heq⟩ :=
      builtVersion_eq name created compression blockSize order hlocal hselected hfiles
    rw [heq]
    refine ⟨rfl, by simp [hlocal], fun key => ?_⟩
    rw [← Batches.answer_singleton]
    exact hs.get key

/-- **So does the version a restart finds on disk**, whatever the hash ring selects for it
now. -/
theorem restarted_loaded (hlocal : partitions.localPartitions = ∅) (hfiles : contents ≠ [])
    {partitions' : Partitions} (hlocal' : partitions'.localPartitions = ∅) :
    (newVersion name created contents.length partitions'
      (builtVersion name created partitions compression blockSize contents order).blockStore.disk
      compression blockSize).Loaded contents.length partitions.selected
      (loaded contents.length partitions.selected contents) := by
  by_cases hselected : partitions.selected = ∅
  · -- the directory is still empty
    rw [builtVersion_of_empty name created compression blockSize order hselected, hselected,
      loaded_empty]
    exact ⟨rfl, hlocal', init_get compression blockSize _⟩
  · obtain ⟨s, hs, hmanifest, heq⟩ :=
      builtVersion_eq name created compression blockSize order hlocal hselected hfiles
    obtain ⟨st, m, hopen, hblocks, hmap, hnew, hnum, hsel⟩ :=
      StoreState.newFromManifest_of_onDisk hs.sound.indexed hs.sound.onDisk hmanifest
    have hinit : initBlockStore s.disk contents.length compression blockSize =
        (⟨st, s.disk⟩, some partitions.selected) := by
      simp only [initBlockStore, hopen, hsel]
    rw [heq, newVersion]
    simp only [hinit]
    refine ⟨rfl, by simp [hlocal'], fun key => ?_⟩
    rw [← Batches.answer_singleton, ← hs.get key]
    simp only [BlockStore.get, hmap, hnum]

end Fresh

end Sequins
