import Sequins.HashCode

/-!
# Blocks

A block is one sparkey log of records of a single partition (`blocks/block.go`,
`blocks/block_writer.go`, `blocks/record.go`). While it is being written it is a
`BlockWriter`; `save` turns it into a `Block`; `manifest` and `loadBlock` carry it
across a restart.

Sparkey itself is a library: a log file is the list of its Puts, and its hash index
maps each key to the value of the last Put (`Log.seek`). A name `block-%05d-<uuid>.spl`
is kept as the pair it is printed from; `uuid.New` never repeats, which a counter
on the disk stands for.

The least and greatest key of a block are tracked so that lookups can be refused
early. `BlockWriter.Describes` ties them to the log, and `Block.get_eq_seek` says
the filter never changes an answer.
-/

namespace Sequins

/-- A sparkey log: the Puts, oldest first. -/
abbrev Log : Type := List (Bytes × Bytes)

/-- A seek in the hash index of a log finds the value of the last Put of the key. -/
def Log.seek (log : Log) (key : Bytes) : Option Bytes := log.reverse.lookup key

/-- The file name of a block, `block-%05d-<uuid>.spl`. -/
structure BlockName where
  /-- the partition printed into the name -/
  partition : ℤ
  /-- the uuid -/
  id : ℕ
  deriving DecidableEq, Repr

/-- The record a lookup returns: the value, and the length announced for it. -/
structure Record where
  /-- `ValueLen` -/
  valueLen : ℕ
  /-- what the record's reader delivers -/
  value : Bytes
  deriving DecidableEq, Repr

/-! ## Writing a block -/

/-- A block under construction. A nil slice is `none`; an empty key is
`some []`. -/
structure BlockWriter where
  /-- the least key so far, nil before the first -/
  minKey : Option Bytes
  /-- the greatest key so far, nil before the first -/
  maxKey : Option Bytes
  /-- the number of calls of `add` -/
  count : ℕ
  /-- the partition of all keys -/
  partition : ℤ
  /-- the log file -/
  name : BlockName
  /-- the uuid -/
  id : ℕ
  deriving DecidableEq, Repr

/-- The writer `newBlock` returns once the log file is created. -/
def newBlock (partition : ℤ) (uuid : ℕ) : BlockWriter where
  minKey := none
  maxKey := none
  count := 0
  partition := partition
  name := ⟨partition, uuid⟩
  id := uuid

namespace BlockWriter

/-- `add` up to the Put: the count and the bounds. -/
def add (bw : BlockWriter) (key : Bytes) : BlockWriter where
  count := bw.count + 1
  maxKey := match bw.maxKey with
    | none => some key
    | some maxKey => if key > maxKey then some key else some maxKey
  minKey := match bw.minKey with
    | none => some key
    | some minKey => if key < minKey then some key else some minKey
  partition := bw.partition
  name := bw.name
  id := bw.id

@[simp] theorem add_partition (bw : BlockWriter) (key : Bytes) :
    (bw.add key).partition = bw.partition := rfl

@[simp] theorem add_name (bw : BlockWriter) (key : Bytes) : (bw.add key).name = bw.name := rfl

end BlockWriter

/-! ## Reading a block -/

/-- A finished block: what the manifest keeps of it, and the open reader. -/
structure Block where
  /-- `ID` -/
  id : ℕ
  /-- `Name` -/
  name : BlockName
  /-- `Partition` -/
  partition : ℤ
  /-- `Count` -/
  count : ℕ
  /-- the least key -/
  minKey : Option Bytes
  /-- the greatest key -/
  maxKey : Option Bytes
  /-- the log the sparkey reader has open -/
  reader : Log
  deriving DecidableEq, Repr

/-- A block's entry in the manifest. -/
structure BlockManifest where
  /-- `id` -/
  id : ℕ
  /-- `name` -/
  name : BlockName
  /-- `partition` -/
  partition : ℤ
  /-- `count` -/
  count : ℕ
  /-- `min_key` -/
  minKey : Option Bytes
  /-- `max_key` -/
  maxKey : Option Bytes
  deriving DecidableEq, Repr

/-- The block `save` builds from a writer once its log is closed and reopened. -/
def BlockWriter.toBlock (bw : BlockWriter) (reader : Log) : Block where
  id := bw.id
  name := bw.name
  partition := bw.partition
  count := bw.count
  minKey := bw.minKey
  maxKey := bw.maxKey
  reader := reader

namespace Block

/-- The source's lower-case `get`, behind the filter: seek, and wrap what is found. -/
def get' (b : Block) (key : Bytes) : Option Record :=
  (b.reader.seek key).map fun value => ⟨value.length, value⟩

/-- `Get`: keys outside the bounds are refused without a seek. -/
def get (b : Block) (key : Bytes) : Option Record :=
  if ∃ minKey ∈ b.minKey, key < minKey then
    none
  else if ∃ maxKey ∈ b.maxKey, key > maxKey then
    none
  else
    b.get' key

def manifest (b : Block) : BlockManifest where
  id := b.id
  name := b.name
  partition := b.partition
  count := b.count
  minKey := b.minKey
  maxKey := b.maxKey

end Block

/-- The block `loadBlock` builds from a manifest entry and the log it opens. -/
def BlockManifest.toBlock (m : BlockManifest) (reader : Log) : Block where
  id := m.id
  name := m.name
  partition := m.partition
  count := m.count
  minKey := m.minKey
  maxKey := m.maxKey
  reader := reader

/-! ## Seeking

The hash index of a log, which is all that is used of sparkey: the last Put of a key counts, and
Puts of other keys do not matter. -/

namespace Log

@[simp] theorem seek_nil (key : Bytes) : seek [] key = none := rfl

/-- The last Put wins. -/
theorem seek_append (l₁ l₂ : Log) (key : Bytes) :
    seek (l₁ ++ l₂) key = (seek l₂ key).or (seek l₁ key) := by
  rw [seek, List.reverse_append, List.lookup_append, seek, seek]

/-- A key is not found exactly if it was never put. -/
theorem seek_eq_none_iff {log : Log} {key : Bytes} :
    log.seek key = none ↔ ∀ e ∈ log, e.1 ≠ key := by
  simp only [seek, List.lookup_eq_none_iff, List.mem_reverse, bne_iff_ne, ne_eq]
  exact ⟨fun h e he hk => h e he hk.symm, fun h e he hk => h e he hk.symm⟩

/-- What is found was put. -/
theorem mem_of_seek {log : Log} {key value : Bytes} (h : log.seek key = some value) :
    (key, value) ∈ log := by
  obtain ⟨l₁, l₂, hsplit, -⟩ := List.lookup_eq_some_iff.mp h
  have hmem : (key, value) ∈ log.reverse := by rw [hsplit]; simp
  exact List.mem_reverse.mp hmem

/-- Records under other keys do not matter. -/
theorem seek_filter {log : Log} {key : Bytes} {p : Bytes → Bool} (hp : p key = true) :
    seek (log.filter fun e => p e.1) key = log.seek key := by
  induction log with
  | nil => rfl
  | cons e log ih =>
    rw [← List.singleton_append, List.filter_append, seek_append, seek_append, ih]
    by_cases he : e.1 = key
    · subst he
      simp [hp]
    · have hnone : seek [e] key = none := seek_eq_none_iff.mpr (by simpa using he)
      rcases hpe : p e.1 with _ | _
      · simp [hpe, hnone]
      · simp [hpe, hnone]

end Log

/-! ## The bounds describe the log

`Describes` is the invariant of the loop that writes a block, and `WellBounded` is what is left
of it when the block is finished. From there it is order theory: a key outside the bounds of a
list is not in it, so the seek that `Get` saves would have found nothing. -/

/-- The bounds and the count of a writer are those of a log. -/
structure BlockWriter.Describes (bw : BlockWriter) (log : Log) : Prop where
  /-- every Put was counted -/
  count : bw.count = log.length
  /-- the least key -/
  minKey : bw.minKey = (log.map Prod.fst).min?
  /-- the greatest key -/
  maxKey : bw.maxKey = (log.map Prod.fst).max?

/-- A new writer has no bounds, and an empty log has none either. -/
theorem BlockWriter.describes_newBlock (partition : ℤ) (uuid : ℕ) :
    (newBlock partition uuid).Describes [] := ⟨rfl, rfl, rfl⟩

/-- Adding a key keeps the description in step with the Put. -/
theorem BlockWriter.Describes.add {bw : BlockWriter} {log : Log} (h : bw.Describes log)
    (key value : Bytes) : (bw.add key).Describes (log ++ [(key, value)]) where
  count := by simp [BlockWriter.add, h.count]
  minKey := by
    cases log with
    | nil => simp [BlockWriter.add, h.minKey]
    | cons e log =>
      simp only [BlockWriter.add, h.minKey, List.map_cons, List.cons_append, List.min?_cons',
        List.map_append, List.foldl_append, List.map_nil, List.foldl_cons, List.foldl_nil]
      split
      · rw [min_eq_right (le_of_lt ‹_›)]
      · rw [min_eq_left (not_lt.mp ‹_›)]
  maxKey := by
    cases log with
    | nil => simp [BlockWriter.add, h.maxKey]
    | cons e log =>
      simp only [BlockWriter.add, h.maxKey, List.map_cons, List.cons_append, List.max?_cons',
        List.map_append, List.foldl_append, List.map_nil, List.foldl_cons, List.foldl_nil]
      split
      · rw [max_eq_right (le_of_lt ‹_›)]
      · rw [max_eq_left (not_lt.mp ‹_›)]

/-- The bounds of a finished block are those of the log it reads. -/
structure Block.WellBounded (b : Block) : Prop where
  /-- the least key -/
  minKey : b.minKey = (b.reader.map Prod.fst).min?
  /-- the greatest key -/
  maxKey : b.maxKey = (b.reader.map Prod.fst).max?

/-- `save` copies the bounds. -/
theorem BlockWriter.Describes.wellBounded {bw : BlockWriter} {log : Log} (h : bw.Describes log) :
    (bw.toBlock log).WellBounded := ⟨h.minKey, h.maxKey⟩

/-- The filter may be about more keys than there are in the log. -/
theorem Block.get_eq_of_bounds {b : Block} {keys : List Bytes} (hmin : b.minKey = keys.min?)
    (hmax : b.maxKey = keys.max?) (hkeys : ∀ e ∈ b.reader, e.1 ∈ keys) (key : Bytes) :
    b.get key = b.get' key := by
  have hnone : key ∉ keys → b.get' key = none := by
    intro hne
    have hseek : b.reader.seek key = none := by
      rw [Log.seek_eq_none_iff]
      rintro e he rfl
      exact hne (hkeys e he)
    rw [Block.get', hseek, Option.map_none]
  rw [Block.get, hmin, hmax]
  split_ifs with hless hgreater
  · -- below the least key: no Put has it
    obtain ⟨m, hm, hlt⟩ := hless
    refine (hnone fun hmem => ?_).symm
    exact absurd ((List.min?_eq_some_iff.mp hm).2 key hmem) (not_le.mpr hlt)
  · obtain ⟨m, hm, hlt⟩ := hgreater
    refine (hnone fun hmem => ?_).symm
    exact absurd ((List.max?_eq_some_iff.mp hm).2 key hmem) (not_le.mpr hlt)
  · rfl

/-- **The filter never changes an answer.** -/
theorem Block.get_eq_seek {b : Block} (h : b.WellBounded) (key : Bytes) : b.get key = b.get' key :=
  Block.get_eq_of_bounds h.minKey h.maxKey (fun _ he => List.mem_map_of_mem he) key

end Sequins
