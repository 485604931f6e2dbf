import Sequins.Partitions
import Mathlib.Data.Finset.Lattice.Lemmas

/-!
# Readiness

What `numMissing`, `ready` and `needed` say after any sequence of updates. The local
partitions only grow, while each list of children replaces what was known of the others, so
a partition may come and go; the channel is closed the first time nothing is missing and
stays closed.

The updates are calls of `updateLocalPartitions` and `updateRemotePartitions`, the latter with
the names other nodes create (`Advert.node`). What they come to is said from their history
alone: what was loaded (`loadedBy`), and the last list of children (`listedBy`).
-/

namespace Sequins

/-! ## Advertised partitions -/

/-- What the name of a partition's znode is formatted from: `%05d@%s`. -/
def partitionName (address : Address) (partition : ℤ) : Bytes :=
  GoString.paddedInt 5 partition ++ 64 :: address

/-- **What is read is what was written.** -/
theorem readNode_partitionName (address : Address) {i : ℕ} (hi : i < 2 ^ 63) :
    Partitions.readNode (partitionName address i) = some ((i : ℤ), address) := by
  rw [Partitions.readNode, partitionName, GoString.paddedInt_natCast,
    GoString.cut_append (GoString.not_mem_padded rfl), Option.map_some, GoString.atoi_padded 5 hi]

/-- A partition that a node advertises. -/
structure Advert where
  /-- its number -/
  partition : ℕ
  /-- the number is an `int` -/
  fits : partition < 2 ^ 63
  /-- the address of the node -/
  host : Address

/-- The name of the znode: the last element of `partitionZKNode`. -/
def Advert.node (a : Advert) : Bytes := partitionName a.host a.partition

/-- Another node than this one has the partition; without sharding there is none. -/
def advertised (peers : Option Address) (nodes : List Advert) (i : ℕ) : Bool :=
  match peers with
  | none => false
  | some address => nodes.any fun a => decide (a.partition = i ∧ a.host ≠ address)

theorem mapM_readNode (nodes : List Advert) :
    (nodes.map Advert.node).mapM Partitions.readNode =
      some (nodes.map fun a => ((a.partition : ℤ), a.host)) := by
  rw [List.mapM_map]
  exact GoString.mapM_of_forall fun a _ => readNode_partitionName a.host a.fits

namespace Partitions

/-- The loop over the children collects, for each partition, the other hosts in the order of
the list. -/
theorem foldl_addRemote (address : Address) (entries : List (ℤ × Address))
    (remote : ℤ → List Address) (i : ℤ) :
    entries.foldl (addRemote address) remote i =
      remote i ++ (entries.filter fun e => decide (e.1 = i ∧ e.2 ≠ address)).map Prod.snd := by
  induction entries generalizing remote with
  | nil => simp
  | cons e entries ih =>
    rw [List.foldl_cons, ih, addRemote]
    by_cases haddr : e.2 = address
    · simp [haddr]
    · by_cases hi : e.1 = i
      · simp [haddr, hi]
      · simp [haddr, hi, Ne.symm hi]

/-! ## One update -/

variable {p : Partitions}

/-- The bookkeeping is up to date. -/
structure Settled (p : Partitions) : Prop where
  /-- `numMissing` counts what nobody has -/
  numMissing : p.numMissing = p.missingPartitions.length
  /-- with nothing missing, the channel is closed -/
  ready : p.numMissing = 0 → p.readyClosed = true
  /-- it was closed at most once, and the flag says whether -/
  readyCloses : p.readyCloses = if p.readyClosed then 1 else 0

/-- `updateMissing` settles the books: the channel is closed if it was, or if nothing is
missing now. -/
theorem settled_updateMissing (h : p.readyCloses = if p.readyClosed then 1 else 0) :
    p.updateMissing.Settled ∧ (p.updateMissing.readyClosed = true ↔
      p.readyClosed = true ∨ p.updateMissing.numMissing = 0) := by
  rw [updateMissing]
  split_ifs with hclose
  · refine ⟨⟨rfl, fun _ => rfl, ?_⟩, ?_⟩
    · simp [h, hclose.2]
    · simp [hclose.1]
  · refine ⟨⟨rfl, fun hzero => ?_, h⟩, ?_⟩
    · by_contra hopen
      exact hclose ⟨hzero, hopen⟩
    · constructor
      · exact .inl
      · rintro (hclosed | hzero)
        · exact hclosed
        · by_contra hopen
          exact hclose ⟨hzero, hopen⟩

/-- Once the books are settled there is nothing to do. -/
theorem Settled.updateMissing (h : p.Settled) : p.updateMissing = p := by
  rw [Partitions.updateMissing, if_neg, ← h.numMissing]
  rintro ⟨hzero, hopen⟩
  exact hopen (h.ready (h.numMissing.trans hzero))

end Partitions

/-! ## Sequences of updates -/

/-- An update. -/
inductive PartitionsCall where
  /-- `updateLocalPartitions` -/
  | updateLocal (loaded : Finset ℤ)
  /-- `updateRemotePartitions` -/
  | updateRemote (nodes : List Advert)

def PartitionsCall.run (p : Partitions) : PartitionsCall → Option Partitions
  | .updateLocal loaded => some (p.updateLocalPartitions loaded)
  | .updateRemote nodes => p.updateRemotePartitions (nodes.map Advert.node)

/-- `watchPartitions`, and the updates after it. -/
def watch (peers : Option Address) (numPartitions : ℕ) (selected : Finset ℤ) (nodes : List Advert)
    (calls : List PartitionsCall) : Option Partitions :=
  (Partitions.watchChildren peers numPartitions selected (nodes.map Advert.node)).bind fun p =>
    calls.foldlM PartitionsCall.run p

/-- The partitions that were loaded. -/
def loadedBy : List PartitionsCall → Finset ℤ
  | [] => ∅
  | .updateLocal loaded :: calls => loaded ∪ loadedBy calls
  | .updateRemote _ :: calls => loadedBy calls

/-- The last list of children. -/
def listedBy : List Advert → List PartitionsCall → List Advert
  | nodes, [] => nodes
  | nodes, .updateLocal _ :: calls => listedBy nodes calls
  | _, .updateRemote nodes :: calls => listedBy nodes calls

theorem loadedBy_append (calls calls' : List PartitionsCall) :
    loadedBy (calls ++ calls') = loadedBy calls ∪ loadedBy calls' := by
  induction calls with
  | nil => simp [loadedBy]
  | cons call calls ih => cases call <;> simp [loadedBy, ih, Finset.union_assoc]

theorem listedBy_append (nodes : List Advert) (calls calls' : List PartitionsCall) :
    listedBy nodes (calls ++ calls') = listedBy (listedBy nodes calls) calls' := by
  induction calls generalizing nodes with
  | nil => rfl
  | cons call calls ih => cases call <;> exact ih _

/-- What a history makes of the partitions. -/
structure Partitions.Reflects (address : Option Address) (n : ℕ) (chosen loaded : Finset ℤ)
    (nodes : List Advert) (p : Partitions) : Prop where
  /-- the books are up to date -/
  settled : p.Settled
  /-- this node -/
  peers : p.peers = address
  /-- how many partitions there are -/
  numPartitions : p.numPartitions = n
  /-- the ones this node should have -/
  selected : p.selected = chosen
  /-- the ones it has -/
  localPartitions : p.localPartitions = loaded
  /-- the ones others have -/
  remotePartitions : ∀ i : ℕ, (p.remotePartitions i).isEmpty = !advertised address nodes i

namespace Partitions

variable {address : Option Address} {n : ℕ} {chosen loaded : Finset ℤ} {nodes : List Advert}
  {p : Partitions}

/-- `updateMissing` keeps everything but the books, and settles those. -/
theorem Reflects.of_updateMissing (hcloses : p.readyCloses = if p.readyClosed then 1 else 0)
    (hpeers : p.peers = address) (hnum : p.numPartitions = n) (hselected : p.selected = chosen)
    (hlocal : p.localPartitions = loaded)
    (hremote : ∀ i : ℕ, (p.remotePartitions i).isEmpty = !advertised address nodes i) :
    p.updateMissing.Reflects address n chosen loaded nodes := by
  have hsettled := (settled_updateMissing hcloses).1
  rw [updateMissing_eq] at hsettled ⊢
  exact ⟨hsettled, hpeers, hnum, hselected, hlocal, hremote⟩

/-- A list of children is read to its end. -/
theorem updateRemotePartitions_nodes {self : Address} (hp : p.peers = some self)
    (nodes : List Advert) :
    ∃ remote, p.updateRemotePartitions (nodes.map Advert.node) =
        some { p with remotePartitions := remote }.updateMissing ∧
      ∀ i : ℕ, (remote i).isEmpty = !advertised (some self) nodes i := by
  refine ⟨_, by rw [updateRemotePartitions, hp]; dsimp only; rw [mapM_readNode]; rfl, fun i => ?_⟩
  rw [foldl_addRemote, List.nil_append, advertised, Bool.eq_iff_iff]
  simp [List.filter_eq_nil_iff]

/-- The start of a history. -/
theorem reflects_watchChildren (address : Option Address) (n : ℕ) (chosen : Finset ℤ)
    (nodes : List Advert) :
    ∃ p, watchChildren address n chosen (nodes.map Advert.node) = some p ∧
      p.Reflects address n chosen ∅ nodes ∧ (p.readyClosed = true ↔ p.numMissing = 0) := by
  cases address with
  | none =>
    refine ⟨_, rfl, .of_updateMissing rfl rfl rfl rfl rfl fun _ => rfl, ?_⟩
    refine (settled_updateMissing rfl).2.trans ?_
    simp
  | some self =>
    obtain ⟨remote, hrun, hremote⟩ := updateRemotePartitions_nodes
      (p := ⟨some self, n, chosen, ∅, fun _ => [], 0, 0, false⟩) rfl nodes
    have hsettled := settled_updateMissing (p := ⟨some self, n, chosen, ∅, remote, 0, 0, false⟩) rfl
    refine ⟨_, ?_, .of_updateMissing rfl rfl rfl rfl rfl hremote, hsettled.2.trans (by simp)⟩
    -- the second `updateMissing` finds nothing to do
    rw [watchChildren, hrun, Option.map_some, hsettled.1.updateMissing]

/-- One more update. -/
theorem Reflects.run (h : p.Reflects address n chosen loaded nodes) (call : PartitionsCall) :
    ∃ p', call.run p = some p' ∧
      p'.Reflects address n chosen (loaded ∪ loadedBy [call]) (listedBy nodes [call]) ∧
      (p'.readyClosed = true ↔ p.readyClosed = true ∨ p'.numMissing = 0) := by
  cases call with
  | updateLocal new =>
    have hsettled := settled_updateMissing
      (p := { p with localPartitions := p.localPartitions ∪ new }) h.settled.readyCloses
    refine ⟨_, rfl, ?_, hsettled.2⟩
    refine .of_updateMissing h.settled.readyCloses h.peers h.numPartitions h.selected ?_
      h.remotePartitions
    simp only [loadedBy, h.localPartitions, Finset.union_empty]
  | updateRemote new =>
    cases address with
    | none =>
      refine ⟨p, by rw [PartitionsCall.run, updateRemotePartitions, h.peers], ?_, ?_⟩
      · exact { h with localPartitions := by simp [loadedBy, h.localPartitions] }
      · exact ⟨.inl, fun hor => hor.elim id h.settled.ready⟩
    | some self =>
      obtain ⟨remote, hrun, hremote⟩ := updateRemotePartitions_nodes h.peers new
      have hsettled := settled_updateMissing
        (p := { p with remotePartitions := remote }) h.settled.readyCloses
      refine ⟨_, hrun, ?_, hsettled.2⟩
      refine .of_updateMissing h.settled.readyCloses h.peers h.numPartitions h.selected ?_ hremote
      simp [loadedBy, h.localPartitions]

/-- The count of the books. -/
theorem Reflects.numMissing_eq (h : p.Reflects address n chosen loaded nodes) :
    p.numMissing = (List.range n).countP fun i : ℕ =>
      decide ((i : ℤ) ∉ loaded) && !advertised address nodes i := by
  rw [h.settled.numMissing, missingPartitions, List.countP_eq_length_filter, h.numPartitions]
  simp only [h.localPartitions, h.remotePartitions]

end Partitions

theorem watch_snoc (address : Option Address) (n : ℕ) (chosen : Finset ℤ) (nodes : List Advert)
    (calls : List PartitionsCall) (call : PartitionsCall) :
    watch address n chosen nodes (calls ++ [call]) =
      (watch address n chosen nodes calls).bind call.run := by
  simp [watch, List.foldlM_append, Option.bind_assoc]

/-- Every history is reflected, and the channel is closed if nothing was missing at some time. -/
theorem reflects_watch (address : Option Address) (n : ℕ) (chosen : Finset ℤ) (nodes : List Advert)
    (calls : List PartitionsCall) :
    ∃ p, watch address n chosen nodes calls = some p ∧
      p.Reflects address n chosen (loadedBy calls) (listedBy nodes calls) ∧
      (p.readyClosed = true ↔ ∃ k ≤ calls.length, ∃ q,
        watch address n chosen nodes (calls.take k) = some q ∧ q.numMissing = 0) := by
  induction calls using List.reverseRecOn with
  | nil =>
    obtain ⟨p, hp, hreflects, hready⟩ := Partitions.reflects_watchChildren address n chosen nodes
    have hwatch : watch address n chosen nodes [] = some p := by rw [watch, hp]; rfl
    refine ⟨p, hwatch, hreflects, hready.trans ⟨fun hzero => ⟨0, le_refl _, p, hwatch, hzero⟩, ?_⟩⟩
    rintro ⟨k, -, q, hq, hzero⟩
    rw [List.take_nil, hwatch] at hq
    obtain rfl := Option.some.inj hq
    exact hzero
  | append_singleton calls call ih =>
    obtain ⟨p, hp, hreflects, hready⟩ := ih
    obtain ⟨p', hrun, hreflects', hready'⟩ := hreflects.run call
    have hwatch : watch address n chosen nodes (calls ++ [call]) = some p' := by
      rw [watch_snoc, hp, Option.bind_some, hrun]
    rw [loadedBy_append, listedBy_append]
    refine ⟨p', hwatch, hreflects', hready'.trans ?_⟩
    rw [hready]
    constructor
    · rintro (⟨k, hk, q, hq, hzero⟩ | hzero)
      · refine ⟨k, by simp; omega, q, ?_, hzero⟩
        rwa [List.take_append_of_le_length hk]
      · exact ⟨_, le_refl _, p', by rwa [List.take_length], hzero⟩
    · rintro ⟨k, hk, q, hq, hzero⟩
      rcases Nat.lt_or_ge calls.length k with hlt | hle
      · -- after the last call
        rw [List.take_of_length_le (by simp; omega), hwatch] at hq
        obtain rfl := Option.some.inj hq
        exact .inr hzero
      · rw [List.take_append_of_le_length hle] at hq
        exact .inl ⟨k, hle, q, hq, hzero⟩

/-- **Readiness bookkeeping.** After any sequence of updates, `numMissing` counts the partitions
that are neither local nor advertised by another host, `ready` is closed exactly if
`numMissing` has been zero after some call, it is closed at most once, and `needed` is what was
selected and is not local. -/
theorem readiness_bookkeeping (address : Option Address) (n : ℕ) (chosen : Finset ℤ)
    (nodes : List Advert) (calls : List PartitionsCall) :
    ∃ p, watch address n chosen nodes calls = some p ∧
      p.localPartitions = loadedBy calls ∧
      (p.numMissing = (List.range n).countP fun i : ℕ =>
        decide ((i : ℤ) ∉ p.localPartitions) && !advertised address (listedBy nodes calls) i) ∧
      (0 < p.readyCloses ↔ ∃ k ≤ calls.length, ∃ q,
        watch address n chosen nodes (calls.take k) = some q ∧ q.numMissing = 0) ∧
      p.readyCloses ≤ 1 ∧
      p.needed = chosen \ p.localPartitions := by
  obtain ⟨p, hp, hreflects, hready⟩ := reflects_watch address n chosen nodes calls
  have hcloses := hreflects.settled.readyCloses
  refine ⟨p, hp, hreflects.localPartitions, ?_, ?_, ?_, ?_⟩
  · rw [hreflects.localPartitions]
    exact hreflects.numMissing_eq
  · rw [← hready, hcloses]
    cases p.readyClosed <;> simp
  · rw [hcloses]
    split <;> omega
  · rw [Partitions.needed, hreflects.selected, Finset.sdiff_eq_filter]

end Sequins
