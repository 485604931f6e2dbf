import Sequins.Loaded
import Sequins.Proxy

/-!
# Serving a key

`serve.go`: a version answers a request from its own block store if it has one of the
key's two partitions, and otherwise proxies it, first to the peers of the normal
partition and, if these say the key is absent, to the peers of the alternate one.

A version that counts a partition as local still answers `500` for its absent keys when
no record of the files landed in that partition, because the block store tells a
partition without blocks from an empty one. `absent_key_not_found_iff` is the exact
condition.
-/

namespace Sequins

/-! ## The handlers -/

/-- A response with nothing but a status. -/
def statusOnly (status : ℕ) : Response := ⟨status, none, none, none, none, []⟩

/-- `serveError`. -/
def serveError : Response := statusOnly 500

/-- What the environment decides about a proxied request: how the peers are shuffled, and
in which order things happen, for the normal partition and for the alternate one. -/
structure ProxyChoices where
  /-- `shuffle` of the peers -/
  shuffle : IterOrder Address
  /-- the order of events -/
  ticks : List Tick
  /-- `shuffle` of the alternate peers -/
  alternateShuffle : IterOrder Address
  /-- the order of events at the alternate peers -/
  alternateTicks : List Tick

namespace Version

/-- `serveNotFound`. -/
def serveNotFound (v : Version) : Response := { statusOnly 404 with version := some v.name }

/-- `serveLocal`. -/
def serveLocal (v : Version) : Option Record → Response
  | none => v.serveNotFound
  | some record =>
    ⟨200, some v.name, none, some record.valueLen, some v.created, record.value⟩

/-- The end of `serveProxied`: an error, or the response of the peer. -/
def forward (v : Version) (peers : List Address) : ProxyResult → Response
  | .noAvailablePeers => statusOnly 502
  | .proxyTimeout => statusOnly 504
  | .requestCanceled => serveError
  | .response resp index =>
    ⟨resp.status, resp.version, peers[index]?, resp.contentLength, some v.created, resp.body⟩

/-- `serveProxied`, undisturbed. -/
def serveProxied (v : Version) (answer : Address → Response) (c : ProxyChoices)
    (partition alternatePartition : ℤ) : Option Response :=
  let peers := c.shuffle.arrange (v.partitions.getPeers partition)
  if peers.isEmpty then
    some (statusOnly 502)
  else
    match proxy answer peers c.ticks with
    | none => none
    | some (.response resp index) =>
      if resp.status = 404 ∧ alternatePartition ≠ partition then
        let alternatePeers := c.alternateShuffle.arrange (v.partitions.getPeers alternatePartition)
        (proxy answer alternatePeers c.alternateTicks).map (v.forward alternatePeers)
      else
        some (v.forward peers (.response resp index))
    | some res => some (v.forward peers res)

/-- `serveKey`. The request carries the value of its `proxy` parameter; `proxied` is what
`serveProxied` does for it. -/
def serveKey (v : Version) (proxyParam : Bytes) (proxied : ℤ → ℤ → Option Response) (key : Bytes) :
    Option Response :=
  if v.numPartitions = 0 then
    some v.serveNotFound
  else
    let (partition, alternatePartition) := keyPartition key v.numPartitions
    if v.partitions.hasLocal partition ∨ v.partitions.hasLocal alternatePartition then
      match v.blockStore.store.get key with
      | .error _ => some serveError
      | .ok record => some (v.serveLocal record)
    else if proxyParam = [] then
      proxied partition alternatePartition
    else
      some serveError

end Version

/-! ## Local answers -/

/-- A loaded version that has one of the key's partitions answers by what it loaded. -/
theorem Version.Loaded.serveKey_local {v : Version} {n : ℕ} {selected : Finset ℤ} {log : Log}
    (h : v.Loaded n selected log) (hn : n ≠ 0) (proxyParam : Bytes)
    (proxied : ℤ → ℤ → Option Response) {key : Bytes}
    (hlocal : (keyPartition key n).1 ∈ selected ∨ (keyPartition key n).2 ∈ selected) :
    v.serveKey proxyParam proxied key =
      if Holds n log key then
        some (v.serveLocal ((log.seek key).map fun value => ⟨value.length, value⟩))
      else
        some serveError := by
  have hhave : v.partitions.hasLocal (keyPartition key n).1 = true ∨
      v.partitions.hasLocal (keyPartition key n).2 = true := by
    simpa [Partitions.hasLocal, h.localPartitions] using hlocal
  simp only [Version.serveKey, h.numPartitions, hn, if_false, hhave, if_true, h.get, lookupIn]
  by_cases hholds : Holds n log key
  · simp only [hholds, if_true]
  · simp only [hholds, if_false]

/-- A loaded version that has neither of the key's partitions passes the request on, or
refuses it if it was passed on to it. -/
theorem Version.Loaded.serveKey_remote {v : Version} {n : ℕ} {selected : Finset ℤ} {log : Log}
    (h : v.Loaded n selected log) (hn : n ≠ 0) (proxyParam : Bytes)
    (proxied : ℤ → ℤ → Option Response) {key : Bytes}
    (hremote : ¬ ((keyPartition key n).1 ∈ selected ∨ (keyPartition key n).2 ∈ selected)) :
    v.serveKey proxyParam proxied key =
      if proxyParam = [] then proxied (keyPartition key n).1 (keyPartition key n).2
      else some serveError := by
  have hhave : ¬ (v.partitions.hasLocal (keyPartition key n).1 = true ∨
      v.partitions.hasLocal (keyPartition key n).2 = true) := by
    simpa [Partitions.hasLocal, h.localPartitions] using hremote
  simp only [Version.serveKey, h.numPartitions, hn, if_false, hhave]

/-! ## Absent keys

The block store gives an error for a key if it has no block for either of its partitions. A node
that has selected a partition into which no record falls has no block for it, so what should be a
`404` is a `500`. -/

/-- What is loaded comes from the files. -/
theorem mem_loaded {n : ℤ} {selected : Finset ℤ} {contents : Contents} {r : Bytes × Bytes}
    (h : r ∈ loaded n selected contents) : ∃ file ∈ contents, r ∈ file.2 := by
  obtain ⟨file, hfile, hr⟩ := List.mem_flatMap.mp h
  refine ⟨file, hfile, ?_⟩
  rw [loadedFrom] at hr
  split at hr
  · exact absurd hr List.not_mem_nil
  · obtain ⟨x, hx, rfl⟩ := List.mem_map.mp hr
    exact (List.of_mem_zip (List.mem_filter.mp hx).1).1

theorem seek_loaded_of_absent (n : ℤ) (selected : Finset ℤ) {contents : Contents} {key : Bytes}
    (habsent : ∀ file ∈ contents, ∀ r ∈ file.2, r.1 ≠ key) :
    (loaded n selected contents).seek key = none := by
  rw [Log.seek_eq_none_iff]
  intro r hr
  obtain ⟨file, hfile, hr⟩ := mem_loaded hr
  exact habsent file hfile r hr

/-- An absent key at a loaded version: not found if the version holds any record in one of
the key's partitions, and an error otherwise. -/
theorem Version.Loaded.absent {v : Version} {n : ℕ} {selected : Finset ℤ} {log : Log}
    (h : v.Loaded n selected log) (hn : n ≠ 0) (proxyParam : Bytes)
    (proxied : ℤ → ℤ → Option Response) {key : Bytes} (habsent : log.seek key = none) :
    (v.partitions.hasLocal (keyPartition key n).1 = true →
      (v.serveKey proxyParam proxied key = some v.serveNotFound ↔ Holds n log key)) ∧
    (v.blockStore.store.get key = .ok none ↔ Holds n log key) := by
  constructor
  · intro hhave
    have hlocal : (keyPartition key n).1 ∈ selected := by
      simpa [Partitions.hasLocal, h.localPartitions] using hhave
    rw [h.serveKey_local hn proxyParam proxied (.inl hlocal), habsent]
    by_cases hholds : Holds n log key
    · simp [hholds, Version.serveLocal]
    · simp [hholds, Version.serveNotFound, serveError, statusOnly]
  · rw [h.get, lookupIn, habsent]
    by_cases hholds : Holds n log key
    · simp [hholds]
    · simp [hholds]

/-- **Absent keys are `404` exactly where a record was loaded.** A version built from any
files, and the one a restart makes of its directory, answers `404` for a key of a local
partition that is in no file exactly if some record was loaded whose normal partition is one
of the key's two. Likewise `Get` returns nil, and not `ErrPartitionNotFound`, for a key with
a selected partition. -/
theorem absent_key_not_found_iff (name : Bytes) (created : ℕ) (compression : Compression)
    (blockSize : ℤ) (order : IterOrder (Σ _ : ℤ, BlockWriter)) {partitions partitions' : Partitions}
    (hlocal : partitions.localPartitions = ∅) (hlocal' : partitions'.localPartitions = ∅)
    {contents : Contents} (hfiles : contents ≠ []) {key : Bytes}
    (habsent : ∀ file ∈ contents, ∀ r ∈ file.2, r.1 ≠ key) (proxyParam : Bytes)
    (proxied : ℤ → ℤ → Option Response) :
    ∀ v ∈ [builtVersion name created partitions compression blockSize contents order,
        newVersion name created contents.length partitions'
          (builtVersion name created partitions compression blockSize contents order).blockStore.disk
          compression blockSize],
      (v.partitions.hasLocal (keyPartition key contents.length).1 = true →
        (v.serveKey proxyParam proxied key = some v.serveNotFound ↔
          Holds contents.length (loaded contents.length partitions.selected contents) key)) ∧
      (((keyPartition key contents.length).1 ∈ partitions.selected ∨
            (keyPartition key contents.length).2 ∈ partitions.selected →
          v.blockStore.store.get key = .ok none) ↔
        ((keyPartition key contents.length).1 ∈ partitions.selected ∨
            (keyPartition key contents.length).2 ∈ partitions.selected →
          Holds contents.length (loaded contents.length partitions.selected contents) key)) := by
  have hn : contents.length ≠ 0 := fun h => hfiles (List.length_eq_zero_iff.mp h)
  have hseek := seek_loaded_of_absent contents.length partitions.selected habsent
  intro v hv
  have hloaded : v.Loaded contents.length partitions.selected
      (loaded contents.length partitions.selected contents) := by
    rcases List.mem_pair.mp hv with rfl | rfl
    · exact builtVersion_loaded name created compression blockSize order hlocal hfiles
    · exact restarted_loaded name created compression blockSize order hlocal hfiles hlocal'
  obtain ⟨hserve, hget⟩ := hloaded.absent hn proxyParam proxied hseek
  exact ⟨hserve, by rw [hget]⟩

/-- The partitions of a node that is alone. -/
def alone (n : ℕ) (selected : Finset ℤ) : Partitions :=
  .watchPartitions none n selected fun _ => []

/-- Three files with records of all three partitions. -/
def threeFiles : Contents :=
  [([], [([98], [1]), ([101], [2])]), ([], [([97], [3]), ([103], [4])]), ([], [([99], [5])])]

/-- A node with two of the three partitions answers `404` for a key of one of them that is in no
file, and so it does after a restart. -/
theorem absent_key_not_found_threeFiles :
    (builtVersion [118] 0 (alone 3 {1, 2}) .snappy 4096 threeFiles (IterOrder.stored _)).serveKey []
        (fun _ _ => none) [100] = some ⟨404, some [118], none, none, none, []⟩ ∧
    (newVersion [118] 0 3 (alone 3 {1}) (builtVersion [118] 0 (alone 3 {1, 2}) .snappy 4096 threeFiles
        (IterOrder.stored _)).blockStore.disk .snappy 4096).serveKey []
        (fun _ _ => none) [100] = some ⟨404, some [118], none, none, none, []⟩ := by
  have habsent : ∀ file ∈ threeFiles, ∀ r ∈ file.2, r.1 ≠ [100] := by decide
  have hlocal : ∀ selected, (alone 3 selected).localPartitions = ∅ := fun _ => rfl
  have hspec := absent_key_not_found_iff [118] 0 .snappy 4096 (IterOrder.stored _) (hlocal {1, 2})
    (hlocal {1}) (List.cons_ne_nil _ _) habsent [] (fun _ _ => none)
  have hholds : Holds 3 (loaded 3 {1, 2} threeFiles) [100] := by decide
  obtain ⟨hbuilt, hrest⟩ := List.forall_mem_cons.mp hspec
  have hrestarted := List.forall_mem_singleton.mp hrest
  exact ⟨(hbuilt.1 (by decide)).mpr hholds, (hrestarted.1 (by decide)).mpr hholds⟩

/-- **A selected partition without records is an error.** Two files, of which only
partition `0` gets a record; the node selected both partitions and has loaded them, but `Get`
reports the partition of the key `a` as missing, and the request fails. -/
theorem sparse_partition_fails :
    (builtVersion [118] 0 (alone 2 {0, 1}) .snappy 4096 [([], [([98], [1])]), ([], [])]
        (IterOrder.stored _)).partitions.hasLocal (keyPartition [97] 2).1 = true ∧
    (builtVersion [118] 0 (alone 2 {0, 1}) .snappy 4096 [([], [([98], [1])]), ([], [])]
        (IterOrder.stored _)).blockStore.store.get [97] = .error .partitionNotFound ∧
    (builtVersion [118] 0 (alone 2 {0, 1}) .snappy 4096 [([], [([98], [1])]), ([], [])]
        (IterOrder.stored _)).serveKey [] (fun _ _ => none) [97] = some serveError :=
  ⟨by decide, by rfl, by rfl⟩

end Sequins
