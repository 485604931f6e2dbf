import Sequins.BlockStore

/-!
# The manifest round trip

What `NewFromManifest` makes of what `Save` wrote, for a store that has seen any sequence of
`Add` and `Save` calls, failed ones included. Writer and reader meet at `StoreState.Filed`: the
two registers of finished blocks agree, and every finished block has its log. That is enough for
the blocks, their map and the selected partitions to come back.

The literal in `Save` leaves out the compression and the block size, and the reader fills in
`snappy` and zero for what is not there. So a store comes back as it was only if these are what
it was made with (`manifest_round_trip_iff`).
-/

namespace Sequins

/-- A call on a store. -/
inductive WriteCall where
  /-- `Add` -/
  | add (io : AddOutcome) (key value : Bytes)
  /-- `Save` -/
  | save (env : SaveEnv) (selected : Finset ℤ)

namespace StoreState

/-- The state after a call, whether or not it failed. -/
def afterCall (s : StoreState) : WriteCall → StoreState
  | .add io key value => (s.add io key value).1
  | .save env selected => (s.save env selected).1

/-- A store made by `New` with these arguments, whose finished blocks can be found again. -/
structure Filed (n : ℤ) (c : Compression) (size : ℤ) (s : StoreState) : Prop where
  /-- what it was made with -/
  params : s.store.numPartitions = n ∧ s.store.compression = c ∧ s.store.blockSize = size
  /-- the two registers of finished blocks agree -/
  indexed : s.store.Indexed
  /-- every finished block has its log -/
  logs : ∀ b ∈ s.store.blocks, (s.disk.logs b.name).isSome
  /-- a writer sits under its own partition -/
  writer : ∀ p bw, s.store.newBlocks.lookup p = some bw → bw.partition = p

variable {n : ℤ} {c : Compression} {size : ℤ} {s : StoreState}

theorem filed_new (n : ℤ) (c : Compression) (size : ℤ) (disk : Disk) :
    (⟨newBlockStore n c size, disk⟩ : StoreState).Filed n c size where
  params := ⟨rfl, rfl, rfl⟩
  indexed := fun _ => rfl
  logs := fun _ hb => absurd hb List.not_mem_nil
  writer := fun p bw h => by simp [newBlockStore] at h

/-! ## The calls

Neither `Add` nor `Save` deletes a log, and `Save` registers what it has flushed in the list and
in the map at once. That is all `Filed` needs, so it does not matter which calls fail. -/

theorem isSome_update_log {logs : BlockName → Option Log} {name name' : BlockName} {log : Log}
    (h : (logs name).isSome) : (Function.update logs name' (some log) name).isSome := by
  by_cases hname : name = name'
  · rw [hname, Function.update_self]
    rfl
  · rwa [Function.update_of_ne hname]

theorem isSome_put {disk : Disk} {name name' : BlockName} {key value : Bytes}
    (h : (disk.logs name).isSome) : ((disk.put name' key value).logs name).isSome := by
  rw [Disk.put]
  by_cases hname : name = name'
  · subst hname
    simpa using h
  · simpa [Function.update_of_ne hname] using h

theorem Filed.writerFor (h : s.Filed n c size) {io : AddOutcome} {p : ℤ} {s₁ : StoreState}
    {bw : BlockWriter} (hw : s.writerFor io p = .ok (s₁, bw)) :
    s₁.Filed n c size ∧ bw.partition = p := by
  rcases writerFor_eq_ok hw with ⟨hlook, rfl⟩ | ⟨-, rfl, rfl⟩
  · exact ⟨h, h.writer p bw hlook⟩
  · refine ⟨{ h with logs := fun b hb => isSome_update_log (h.logs b hb), writer := ?_ }, rfl⟩
    intro q w hq
    rcases AList.lookup_insert_eq_some hq with ⟨rfl, rfl⟩ | ⟨-, hq⟩
    · rfl
    · exact h.writer q w hq

/-- `Add` has no part in what is finished. -/
theorem Filed.add (h : s.Filed n c size) (io : AddOutcome) (key value : Bytes) :
    (s.add io key value).1.Filed n c size := by
  have hinsert : ∀ {s₁ : StoreState} {bw : BlockWriter} {p : ℤ} {disk : Disk},
      s₁.Filed n c size → bw.partition = p → (∀ name, (s₁.disk.logs name).isSome →
        (disk.logs name).isSome) →
      (⟨{ s₁.store with newBlocks := s₁.store.newBlocks.insert p (bw.add key) }, disk⟩ :
        StoreState).Filed n c size := by
    intro s₁ bw p disk h₁ hbw hdisk
    refine { h₁ with logs := fun b hb => hdisk _ (h₁.logs b hb), writer := ?_ }
    intro q w hq
    rcases AList.lookup_insert_eq_some hq with ⟨rfl, rfl⟩ | ⟨-, hq⟩
    · exact hbw
    · exact h₁.writer q w hq
  rcases add_cases s io key value with ⟨err, hadd⟩ | ⟨s₁, bw, hw, hadd | hadd⟩
  · rw [hadd]
    exact h
  · obtain ⟨h₁, hbw⟩ := h.writerFor hw
    rw [hadd]
    exact hinsert h₁ hbw fun _ hlog => hlog
  · obtain ⟨h₁, hbw⟩ := h.writerFor hw
    rw [hadd]
    exact hinsert h₁ hbw fun _ hlog => isSome_put hlog

/-- However a `Save` ends, the blocks it registered have their logs. -/
theorem Filed.save (h : s.Filed n c size) (env : SaveEnv) (selected : Finset ℤ) :
    (s.save env selected).1.Filed n c size := by
  have hstore := (saveBlocks_spec env.block s.disk (s.flushed env)
    (fun e he => h.writer e.1 e.2 (mem_flushed.mp he)) s.store).1
  have hfiled : (⟨s.store.registerAll (s.savedBlocks env), s.disk⟩ : StoreState).Filed n c size := by
    refine ⟨?_, h.indexed.registerAll _, fun b hb => ?_, ?_⟩
    · rw [BlockStore.registerAll_eq]
      exact h.params
    · rw [BlockStore.registerAll_blocks, List.mem_append] at hb
      rcases hb with hb | hb
      · exact h.logs b hb
      · obtain ⟨e, he, rfl⟩ := List.mem_map.mp hb
        rw [savedBlock_onDisk (List.mem_takeWhile_imp he)]
        rfl
    · rw [BlockStore.registerAll_newBlocks]
      exact h.writer
  rw [StoreState.save, ← flushed]
  rcases hrun : Sequins.saveBlocks env.block s.disk (s.flushed env) s.store with ⟨store, err⟩
  rw [hrun] at hstore
  obtain rfl : store = s.store.registerAll (s.savedBlocks env) := hstore
  rcases err with _ | err
  · have hempty : ∀ m, (⟨{ s.store.registerAll (s.savedBlocks env) with newBlocks := ∅ },
        { s.disk with manifest := m }⟩ : StoreState).Filed n c size := fun m =>
      { hfiled with writer := fun p bw hlook => by simp at hlook }
    rcases env.manifest with _ | _ | _
    · exact hempty _
    · exact hempty _
    · exact hempty _
  · exact hfiled

theorem Filed.run (h : s.Filed n c size) (ops : List WriteCall) :
    (ops.foldl StoreState.afterCall s).Filed n c size := by
  induction ops generalizing s with
  | nil => exact h
  | cons op ops ih =>
    cases op with
    | add io key value => exact ih (h.add io key value)
    | save env selected => exact ih (h.save env selected)

/-- A `Save` that succeeds leaves its manifest. -/
theorem manifest_save (env : SaveEnv) (selected : Finset ℤ) (h : (s.save env selected).2 = none) :
    (s.save env selected).1.disk.manifest =
      .whole (saveManifest (s.save env selected).1.store selected) := by
  rw [StoreState.save] at h ⊢
  rcases hrun : Sequins.saveBlocks env.block s.disk (env.order.arrange s.store.newBlocks.entries)
    s.store with ⟨store, _ | err⟩
  · rw [hrun] at h
    rcases hm : env.manifest with _ | _ | _
    · rfl
    · simp [hm] at h
    · simp [hm] at h
  · simp [hrun] at h

/-- Later `Add` calls leave it, and the finished blocks, alone. -/
theorem run_adds (adds : List (AddOutcome × Bytes × Bytes)) (s : StoreState) :
    (adds.foldl (fun s a => (s.add a.1 a.2.1 a.2.2).1) s).disk.manifest = s.disk.manifest ∧
      (adds.foldl (fun s a => (s.add a.1 a.2.1 a.2.2).1) s).store = { s.store with
        newBlocks := (adds.foldl (fun s a => (s.add a.1 a.2.1 a.2.2).1) s).store.newBlocks } := by
  induction adds generalizing s with
  | nil => exact ⟨rfl, rfl⟩
  | cons a adds ih =>
    obtain ⟨hmanifest, hstore⟩ := ih (s.add a.1 a.2.1 a.2.2).1
    rw [List.foldl_cons]
    refine ⟨hmanifest.trans (add_manifest ..), ?_⟩
    rw [hstore, add_store]

/-! ## Reading it back -/

/-- A finished block over the log that is on disk now. -/
def reread (disk : Disk) (b : Block) : Block := { b with reader := (disk.logs b.name).getD [] }

theorem map_manifest_reread (disk : Disk) (bs : List Block) :
    (bs.map (reread disk)).map Block.manifest = bs.map Block.manifest := by
  rw [List.map_map]
  rfl

theorem filter_reread (disk : Disk) (bs : List Block) (p : ℤ) :
    (bs.map (reread disk)).filter (fun b => decide (b.partition = p)) =
      (bs.filter fun b => decide (b.partition = p)).map (reread disk) := by
  rw [List.filter_map]
  rfl

/-- **What comes back** from the manifest of a filed store: its blocks, map and selection, and
the defaults for the rest. -/
theorem Filed.newFromManifest (h : s.Filed n c size) {st : BlockStore} {selected : Finset ℤ}
    (hmanifest : s.disk.manifest = .whole (saveManifest st selected))
    (hblocks : st.blocks = s.store.blocks) (hnum : st.numPartitions = n) :
    ∃ st' m, newFromManifest s.disk = .ok (st', m) ∧ st'.numPartitions = n ∧
      st'.compression = .snappy ∧ st'.blockSize = 0 ∧
      st'.blocks.map Block.manifest = s.store.blocks.map Block.manifest ∧
      (∀ p, (st'.blockMap p).map Block.manifest = (s.store.blockMap p).map Block.manifest) ∧
      m.selectedPartitions = some selected := by
  have hread : readManifest s.disk =
      .ok { saveManifest st selected with compression := .snappy } := by
    rw [readManifest, hmanifest]
    rfl
  have hdisk : ∀ b ∈ s.store.blocks.map (reread s.disk), s.disk.logs b.name = some b.reader := by
    intro b' hb'
    obtain ⟨b, hb, rfl⟩ := List.mem_map.mp hb'
    obtain ⟨log, hlog⟩ := Option.isSome_iff_exists.mp (h.logs b hb)
    simp [reread, hlog]
  have hload := loadBlocks_manifest _ hdisk (newBlockStore n .snappy 0)
  rw [map_manifest_reread] at hload
  have hempty : (newBlockStore n .snappy 0).Indexed := fun _ => rfl
  refine ⟨(newBlockStore n .snappy 0).registerAll (s.store.blocks.map (reread s.disk)),
    { saveManifest st selected with compression := .snappy }, ?_, ?_, ?_, ?_, ?_, fun p => ?_, rfl⟩
  · rw [Sequins.newFromManifest, hread]
    simp only [saveManifest, hblocks, hnum, hload]
  · simp [newBlockStore]
  · rw [BlockStore.registerAll_eq]
    rfl
  · rw [BlockStore.registerAll_eq]
    rfl
  · rw [BlockStore.registerAll_blocks, ← map_manifest_reread s.disk s.store.blocks]
    rfl
  · rw [hempty.registerAll _ p, BlockStore.registerAll_blocks, h.indexed p]
    simp only [newBlockStore, List.nil_append]
    rw [filter_reread, map_manifest_reread]

end StoreState

/-- The store and the manifest that `NewFromManifest` returns are what was saved. -/
structure RoundTrips (s : StoreState) (selected : Finset ℤ) (st : BlockStore) (m : Manifest) :
    Prop where
  /-- the number of partitions -/
  numPartitions : st.numPartitions = s.store.numPartitions
  /-- the compression -/
  compression : st.compression = s.store.compression
  /-- the block size -/
  blockSize : st.blockSize = s.store.blockSize
  /-- the blocks, in order -/
  blocks : st.blocks.map Block.manifest = s.store.blocks.map Block.manifest
  /-- the blocks by partition -/
  blockMap : ∀ p, (st.blockMap p).map Block.manifest = (s.store.blockMap p).map Block.manifest
  /-- the selected partitions -/
  selectedPartitions : m.selectedPartitions = some selected

/-- **The manifest round trip.** A store made by `New`, after any `Add` and `Save` calls of which
the last `Save` succeeded, comes back exactly if it was made with the values that the reader
fills in: `snappy`, and a block size of zero. -/
theorem manifest_round_trip_iff (disk : Disk) (n : ℤ) (compression : Compression) (blockSize : ℤ)
    (ops : List WriteCall) (env : SaveEnv) (selected : Finset ℤ) {saved : StoreState}
    (hsave : (ops.foldl StoreState.afterCall ⟨newBlockStore n compression blockSize, disk⟩).save env
      selected = (saved, none)) (adds : List (AddOutcome × Bytes × Bytes)) {s : StoreState}
    (hs : s = adds.foldl (fun s a => (s.add a.1 a.2.1 a.2.2).1) saved) :
    (∃ st m, newFromManifest s.disk = .ok (st, m) ∧ RoundTrips s selected st m) ↔
      compression = .snappy ∧ blockSize = 0 := by
  have hfiled := (StoreState.filed_new n compression blockSize disk).run ops
  have hsaved := hfiled.save env selected
  have hmanifest := StoreState.manifest_save env selected (congrArg Prod.snd hsave)
  rw [hsave] at hsaved hmanifest
  dsimp only at hsaved hmanifest
  obtain ⟨hkept, hstore⟩ := StoreState.run_adds adds saved
  have hall : s.Filed n compression blockSize := by
    have hadds := hsaved.run (adds.map fun a => .add a.1 a.2.1 a.2.2)
    rw [List.foldl_map] at hadds
    exact hs ▸ hadds
  rw [← hs] at hkept hstore
  obtain ⟨st, m, hopen, hnum, hc, hsize, hblocks, hmap, hselected⟩ :=
    hall.newFromManifest (hkept.trans hmanifest) (by rw [hstore]) hsaved.params.1
  obtain ⟨hnum', hc', hsize'⟩ := hall.params
  constructor
  · rintro ⟨st', m', hopen', htrip⟩
    rw [hopen] at hopen'
    obtain ⟨rfl, rfl⟩ := Prod.mk.inj (Except.ok.inj hopen')
    exact ⟨by rw [← hc', ← htrip.compression, hc], by rw [← hsize', ← htrip.blockSize, hsize]⟩
  · rintro ⟨rfl, rfl⟩
    exact ⟨st, m, hopen, hnum.trans hnum'.symm, hc.trans hc'.symm, hsize.trans hsize'.symm, hblocks,
      hmap, hselected⟩

/-- An empty key is added and saved. -/
theorem manifest_round_trip_snappy :
    ∃ saved : StoreState, saved.store.blocks.map Block.minKey = [some []] ∧
      ∃ st m, newFromManifest saved.disk = .ok (st, m) ∧ RoundTrips saved {0} st m :=
  ⟨_, rfl, (manifest_round_trip_iff .empty 1 .snappy 0 [.add .ok [] [7]]
    ⟨.stored _, fun _ => .ok, .ok⟩ {0} rfl [] rfl).mpr ⟨rfl, rfl⟩⟩

/-- A store without compression, saved at once: it comes back as a compressed one, and without its
block size. -/
theorem uncompressed_not_restored :
    ∃ saved : StoreState, (StoreState.init 1 .none 4096).save ⟨.stored _, fun _ => .ok, .ok⟩ {0} =
        (saved, none) ∧
      (∃ st m, newFromManifest saved.disk = .ok (st, m) ∧ st.compression = .snappy ∧
        st.blockSize = 0) ∧
      ¬ ∃ st m, newFromManifest saved.disk = .ok (st, m) ∧ RoundTrips saved {0} st m := by
  refine ⟨_, rfl, ⟨_, _, rfl, rfl, rfl⟩, ?_⟩
  rintro ⟨st, m, hopen, htrip⟩
  obtain ⟨rfl, rfl⟩ := Prod.mk.inj (Except.ok.inj hopen)
  cases htrip.compression

end Sequins
