import Sequins.HashCode
import Mathlib.Data.Finset.Basic
import Mathlib.Data.List.TakeWhile

/-!
# Ingestion: the record loop of a file

`addFileKeys` (`build.go`) reads the records of one file and Adds those whose
partition the node wants. Interleaved with that is a heuristic: while every
record so far agrees with the partition of the first one, the loop *assumes* the
file is pre-partitioned, moves pathological keys to the assumed partition, and
abandons the file once more than `5000` records confirmed an assumption the node
has no use for.

The loop is modelled over an arbitrary store: `add` is a parameter, as are the
type of values (never looked at) and of errors. Two instances matter. The block
store's own `Add` gives the build; a list of positions gives
`addedPositions`, which says *which* records were Added even when the file
repeats them.

What comes out of the loop is separated in two:

* `placement` — the partition each record is placed in. It is computed from the
  keys alone; the wanted set never enters.
* `Abandons` — whether a node gives the file up, in terms of the keys before the
  first one that breaks the assumption.

Put together: a node that abandons the file Adds nothing (`addFileKeys_of_abandons`), any
other node Adds exactly the records placed in a wanted partition
(`addFileKeys_of_not_abandons`).
-/

namespace Sequins

/-! ## The loop -/

/-- The three local variables of the loop that track whether the file can be
assumed to be of one partition. -/
structure Assumption where
  /-- no record contradicted the assumption yet -/
  canAssumePartition : Bool
  /-- the partition of the first record; `-1` before it -/
  assumedPartition : ℤ
  /-- how many records confirmed it after the first -/
  assumedFor : ℕ
  deriving DecidableEq, Repr

namespace Assumption

/-- The variables before the loop. -/
def start : Assumption := ⟨true, -1, 0⟩

/-- The assumption block of the loop body: the updated variables, and the
partition the record is taken to be in from there on. -/
def place (a : Assumption) (partition alternatePartition : ℤ) : Assumption × ℤ :=
  if a.canAssumePartition then
    if a.assumedPartition = -1 then
      ({ a with assumedPartition := partition }, partition)
    else if partition ≠ a.assumedPartition then
      if alternatePartition = a.assumedPartition then
        (a, alternatePartition)
      else
        ({ a with canAssumePartition := false }, partition)
    else
      ({ a with assumedFor := a.assumedFor + 1 }, partition)
  else
    (a, partition)

/-- `place` at the two partitions of a key. -/
def placeKey (n : ℤ) (a : Assumption) (key : Bytes) : Assumption × ℤ :=
  a.place (keyPartition key n).1 (keyPartition key n).2

end Assumption

/-- The errors `addFileKeys` returns: its own sentinel, or one of the reader's or
the store's. -/
inductive IngestError (ε : Type*) where
  /-- `errWrongPartition` -/
  | wrongPartition
  /-- an error from reading, unwrapping or Adding a record -/
  | failed (err : ε)
  deriving DecidableEq, Repr

/-- What a run of `addFileKeys` leaves behind: the store, the reader (what it has
not read yet), and the returned error, `none` for `nil`. -/
structure FileRun (σ ν ε : Type*) where
  /-- the store after the Adds -/
  store : σ
  /-- the records left unread -/
  unread : List (Except ε (Bytes × ν))
  /-- the returned error -/
  err : Option (IngestError ε)

section Loop

variable {σ ν ε : Type*}

/-- The record loop. The reader is the list of what `Scan` and `unwrapKeyValue`
deliver, followed by `readerErr`, the final `reader.Err()`. `add` returns the
store it leaves behind also when it fails. -/
def addFileKeys (add : σ → Bytes → ν → σ × Option ε) (numPartitions : ℤ)
    (partitions : Finset ℤ) (readerErr : Option ε) :
    List (Except ε (Bytes × ν)) → Assumption → σ → FileRun σ ν ε
  | [], _, s => ⟨s, [], readerErr.map .failed⟩
  | .error err :: rest, _, s => ⟨s, rest, some (.failed err)⟩
  | .ok (key, value) :: rest, a, s =>
    let (a, partition) := a.placeKey numPartitions key
    if partition ∉ partitions then
      -- a confirmed assumption about a partition nobody here wants: skip the rest
      if a.canAssumePartition ∧ a.assumedFor > 5000 then
        ⟨s, rest, some .wrongPartition⟩
      else
        addFileKeys add numPartitions partitions readerErr rest a s
    else
      match add s key value with
      | (s, some err) => ⟨s, rest, some (.failed err)⟩
      | (s, none) => addFileKeys add numPartitions partitions readerErr rest a s

/-- What every `add` preserves, the loop preserves, however it ends. -/
theorem addFileKeys_preserves {add : σ → Bytes → ν → σ × Option ε} {P : σ → Prop}
    (hadd : ∀ s key value, P s → P (add s key value).1) (n : ℤ) (partitions : Finset ℤ)
    (readerErr : Option ε) (records : List (Except ε (Bytes × ν))) (a : Assumption) {s : σ}
    (hs : P s) : P (addFileKeys add n partitions readerErr records a s).store := by
  induction records generalizing a s with
  | nil => exact hs
  | cons r records ih =>
    rcases r with err | ⟨key, value⟩
    · exact hs
    · have hnext := hadd s key value hs
      rw [addFileKeys]
      dsimp only
      split
      · split
        · exact hs
        · exact ih _ hs
      · rcases hrun : add s key value with ⟨s', _ | err⟩
        · rw [hrun] at hnext
          exact ih _ hnext
        · rw [hrun] at hnext
          exact hnext

/-- The loop hands values on without looking at them. -/
theorem addFileKeys_map {ν' : Type*} (add : σ → Bytes → ν → σ × Option ε) (f : ν' → ν) (n : ℤ)
    (partitions : Finset ℤ) (readerErr : Option ε) (records : List (Bytes × ν')) (a : Assumption)
    (s : σ) :
    (addFileKeys add n partitions readerErr (records.map fun r => .ok (r.1, f r.2)) a s).store =
        (addFileKeys (fun s key value => add s key (f value)) n partitions readerErr
          (records.map .ok) a s).store ∧
      (addFileKeys add n partitions readerErr (records.map fun r => .ok (r.1, f r.2)) a s).err =
        (addFileKeys (fun s key value => add s key (f value)) n partitions readerErr
          (records.map .ok) a s).err := by
  induction records generalizing a s with
  | nil => exact ⟨rfl, rfl⟩
  | cons r records ih =>
    rw [List.map_cons, List.map_cons, addFileKeys, addFileKeys]
    dsimp only
    split
    · split
      · exact ⟨rfl, rfl⟩
      · exact ih _ s
    · rcases add s r.1 (f r.2) with ⟨s', _ | err⟩
      · exact ih _ s'
      · exact ⟨rfl, rfl⟩

end Loop

/-! ## Placement

The wanted set is out of the picture here: the assumption evolves with the keys
alone. -/

/-- The partition each key is placed in, from a given assumption on. -/
def placementFrom (n : ℤ) : Assumption → List Bytes → List ℤ
  | _, [] => []
  | a, key :: keys => (a.placeKey n key).2 :: placementFrom n (a.placeKey n key).1 keys

/-- The partition each record of a file is placed in. -/
def placement (n : ℤ) (keys : List Bytes) : List ℤ := placementFrom n .start keys

/-- A key agrees with the assumed partition `p`: one of its two partitions is `p`. -/
def confirms (n p : ℤ) (key : Bytes) : Bool :=
  decide ((keyPartition key n).1 = p ∨ (keyPartition key n).2 = p)

/-- How many keys confirm `p` with their normal partition before the first key that
contradicts it: the value `assumedFor` climbs to. -/
def confirmations (n p : ℤ) (keys : List Bytes) : ℕ :=
  (keys.takeWhile (confirms n p)).countP fun key => decide ((keyPartition key n).1 = p)

/-- A confirming key leaves the confirmations after it to the rest of the file. -/
theorem add_confirmations_of_confirms {n p : ℤ} {key : Bytes} (hk : confirms n p key = true)
    (c : ℕ) (keys : List Bytes) :
    c + confirmations n p (key :: keys) =
      (if (keyPartition key n).1 = p then c + 1 else c) + confirmations n p keys := by
  simp only [confirmations, List.takeWhile_cons, hk, if_true, List.countP_cons, decide_eq_true_eq]
  split <;> omega

/-- A key that contradicts ends the counting. -/
theorem confirmations_of_contradicts {n p : ℤ} {key : Bytes} (hk : confirms n p key = false)
    (keys : List Bytes) : confirmations n p (key :: keys) = 0 := by
  simp [confirmations, hk]

@[simp] theorem length_placementFrom (n : ℤ) (a : Assumption) (keys : List Bytes) :
    (placementFrom n a keys).length = keys.length := by
  induction keys generalizing a with
  | nil => rfl
  | cons key keys ih => simp [placementFrom, ih]

/-! ### One step of the assumption

Three cases: there is no assumption yet, it stands, or it is broken. While it stands, a key may
confirm it with its normal partition or with its alternate one, and only the former is counted. -/

/-- The first key makes the assumption. -/
theorem placeKey_start (n : ℤ) (key : Bytes) :
    Assumption.start.placeKey n key =
      (⟨true, (keyPartition key n).1, 0⟩, (keyPartition key n).1) := rfl

/-- A broken assumption stays broken, and keys go where they belong. -/
theorem placeKey_broken (n p : ℤ) (c : ℕ) (key : Bytes) :
    Assumption.placeKey n ⟨false, p, c⟩ key = (⟨false, p, c⟩, (keyPartition key n).1) := rfl

/-- A key that confirms the assumption is placed in the assumed partition; only a
normal match counts. -/
theorem placeKey_confirms {n p : ℤ} (hp : p ≠ -1) (c : ℕ) {key : Bytes}
    (hk : confirms n p key = true) :
    Assumption.placeKey n ⟨true, p, c⟩ key =
      (⟨true, p, if (keyPartition key n).1 = p then c + 1 else c⟩, p) := by
  simp only [confirms, decide_eq_true_eq] at hk
  simp only [Assumption.placeKey, Assumption.place, if_neg hp, if_true]
  by_cases hnormal : (keyPartition key n).1 = p
  · simp [hnormal]
  · have halt : (keyPartition key n).2 = p := hk.resolve_left hnormal
    simp [hnormal, halt]

/-- A key that contradicts the assumption ends it, and keeps its own partition. -/
theorem placeKey_contradicts {n p : ℤ} (hp : p ≠ -1) (c : ℕ) {key : Bytes}
    (hk : confirms n p key = false) :
    Assumption.placeKey n ⟨true, p, c⟩ key = (⟨false, p, c⟩, (keyPartition key n).1) := by
  simp only [confirms, decide_eq_false_iff_not, not_or] at hk
  simp [Assumption.placeKey, Assumption.place, hp, hk.1, hk.2]

/-! ### Closed forms -/

/-- From a broken assumption on, everything goes to its normal partition. -/
theorem placementFrom_broken (n p : ℤ) (c : ℕ) (keys : List Bytes) :
    placementFrom n ⟨false, p, c⟩ keys = keys.map fun key => (keyPartition key n).1 := by
  induction keys with
  | nil => rfl
  | cons key keys ih => rw [placementFrom, placeKey_broken, ih, List.map_cons]

/-- While the assumption stands, everything goes to the assumed partition; from the
first contradiction on, everything goes to its normal one. -/
theorem placementFrom_assuming {n p : ℤ} (hp : p ≠ -1) (c : ℕ) (keys : List Bytes) :
    placementFrom n ⟨true, p, c⟩ keys =
      List.replicate (keys.takeWhile (confirms n p)).length p ++
        (keys.dropWhile (confirms n p)).map fun key => (keyPartition key n).1 := by
  induction keys generalizing c with
  | nil => rfl
  | cons key keys ih =>
    rcases hk : confirms n p key with _ | _
    · rw [placementFrom, placeKey_contradicts hp c hk, placementFrom_broken]
      simp [hk]
    · rw [placementFrom, placeKey_confirms hp c hk, ih]
      simp [hk, List.replicate_succ]

/-- The number that stands for no assumption is no partition. -/
theorem fst_keyPartition_ne {n : ℤ} (hn : 1 ≤ n) (key : Bytes) : (keyPartition key n).1 ≠ -1 := by
  have h := hadoopPartition_nonneg key hn
  rw [← fst_keyPartition] at h
  omega

/-- The placement of a file, by its first key. -/
theorem placement_cons {n : ℤ} (hn : 1 ≤ n) (key : Bytes) (keys : List Bytes) :
    placement n (key :: keys) =
      (keyPartition key n).1 ::
        (List.replicate (keys.takeWhile (confirms n (keyPartition key n).1)).length
            (keyPartition key n).1 ++
          (keys.dropWhile (confirms n (keyPartition key n).1)).map
            fun key => (keyPartition key n).1) := by
  rw [placement, placementFrom, placeKey_start, placementFrom_assuming (fst_keyPartition_ne hn key)]

/-! ## What a run Adds

From here on reads and Adds succeed (`hadd`): the reader delivers `records`, and
the store accepts them. -/

section Runs

variable {σ ν ε : Type*} {add : σ → Bytes → ν → σ × Option ε}

/-- Adding a list of records, in order. -/
def addAll (add : σ → Bytes → ν → σ × Option ε) (s : σ) (records : List (Bytes × ν)) : σ :=
  records.foldl (fun s r => (add s r.1 r.2).1) s

/-- The records placed in a wanted partition, in file order. -/
def placedIn (n : ℤ) (wanted : Finset ℤ) (a : Assumption) (records : List (Bytes × ν)) :
    List (Bytes × ν) :=
  ((records.zip (placementFrom n a (records.map Prod.fst))).filter
    fun x => decide (x.2 ∈ wanted)).map Prod.fst

/-- A node gives the file up: it does not want the partition of the first record,
and more than `5000` later records confirm that partition before one contradicts
it. -/
def Abandons (n : ℤ) (wanted : Finset ℤ) : List Bytes → Prop
  | [] => False
  | key :: keys =>
    (keyPartition key n).1 ∉ wanted ∧ 5000 < confirmations n (keyPartition key n).1 keys

instance (n : ℤ) (wanted : Finset ℤ) : ∀ keys, Decidable (Abandons n wanted keys)
  | [] => inferInstanceAs (Decidable False)
  | _ :: _ => inferInstanceAs (Decidable (_ ∧ _))

theorem placedIn_cons_mem {n : ℤ} {wanted : Finset ℤ} {a : Assumption} {r : Bytes × ν}
    (h : (a.placeKey n r.1).2 ∈ wanted) (records : List (Bytes × ν)) :
    placedIn n wanted a (r :: records) = r :: placedIn n wanted (a.placeKey n r.1).1 records := by
  simp [placedIn, placementFrom, h]

theorem placedIn_cons_not_mem {n : ℤ} {wanted : Finset ℤ} {a : Assumption} {r : Bytes × ν}
    (h : (a.placeKey n r.1).2 ∉ wanted) (records : List (Bytes × ν)) :
    placedIn n wanted a (r :: records) = placedIn n wanted (a.placeKey n r.1).1 records := by
  simp [placedIn, placementFrom, h]

variable (hadd : ∀ s key value, (add s key value).2 = none)

include hadd in
/-- The loop body on a record placed in a wanted partition. -/
theorem addFileKeys_add {n : ℤ} {wanted : Finset ℤ} {a : Assumption} {r : Bytes × ν}
    (h : (a.placeKey n r.1).2 ∈ wanted) (rest : List (Except ε (Bytes × ν))) (s : σ) :
    addFileKeys add n wanted none (.ok r :: rest) a s =
      addFileKeys add n wanted none rest (a.placeKey n r.1).1 (add s r.1 r.2).1 := by
  have hs : add s r.1 r.2 = ((add s r.1 r.2).1, none) := Prod.ext rfl (hadd ..)
  rw [addFileKeys]
  simp only [h, not_true_eq_false, if_false]
  rw [hs]

/-- The loop body on a record of no interest, without cause to give up. -/
theorem addFileKeys_skip {n : ℤ} {wanted : Finset ℤ} {a : Assumption} {r : Bytes × ν}
    (h : (a.placeKey n r.1).2 ∉ wanted)
    (hgo : ¬ ((a.placeKey n r.1).1.canAssumePartition ∧ (a.placeKey n r.1).1.assumedFor > 5000))
    (rest : List (Except ε (Bytes × ν))) (s : σ) :
    addFileKeys add n wanted none (.ok r :: rest) a s =
      addFileKeys add n wanted none rest (a.placeKey n r.1).1 s := by
  rw [addFileKeys]
  simp only [h, not_false_eq_true, if_true, if_neg hgo]

/-- The loop body giving up. -/
theorem addFileKeys_stop {n : ℤ} {wanted : Finset ℤ} {a : Assumption} {r : Bytes × ν}
    (h : (a.placeKey n r.1).2 ∉ wanted)
    (hstop : (a.placeKey n r.1).1.canAssumePartition ∧ (a.placeKey n r.1).1.assumedFor > 5000)
    (rest : List (Except ε (Bytes × ν))) (s : σ) :
    addFileKeys add n wanted none (.ok r :: rest) a s = ⟨s, rest, some .wrongPartition⟩ := by
  rw [addFileKeys]
  simp only [h, not_false_eq_true, if_true, if_pos hstop]

include hadd in
/-- Once the assumption is broken the rest of the file is read to its end. -/
theorem addFileKeys_broken (n p : ℤ) (c : ℕ) (wanted : Finset ℤ) (records : List (Bytes × ν))
    (s : σ) :
    addFileKeys add n wanted none (records.map .ok) ⟨false, p, c⟩ s =
      ⟨addAll add s (placedIn n wanted ⟨false, p, c⟩ records), [], none⟩ := by
  induction records generalizing s with
  | nil => rfl
  | cons r records ih =>
    rw [List.map_cons]
    by_cases h : (Assumption.placeKey n ⟨false, p, c⟩ r.1).2 ∈ wanted
    · rw [addFileKeys_add hadd h, placeKey_broken, ih, placedIn_cons_mem h, placeKey_broken]
      rfl
    · rw [addFileKeys_skip h (by simp [placeKey_broken]), placeKey_broken, ih,
        placedIn_cons_not_mem h, placeKey_broken]

include hadd in
/-- While the assumption stands and there is no cause to give up: the whole file is
read. -/
theorem addFileKeys_assuming {n p : ℤ} (hp : p ≠ -1) (wanted : Finset ℤ)
    (records : List (Bytes × ν)) :
    ∀ (c : ℕ) (s : σ),
      (p ∈ wanted ∨ c + confirmations n p (records.map Prod.fst) ≤ 5000) →
      addFileKeys add n wanted none (records.map .ok) ⟨true, p, c⟩ s =
        ⟨addAll add s (placedIn n wanted ⟨true, p, c⟩ records), [], none⟩ := by
  induction records with
  | nil => intro c s _; rfl
  | cons r records ih =>
    intro c s hgo
    rw [List.map_cons]
    rcases hk : confirms n p r.1 with _ | _
    · -- contradiction: the record keeps its own partition, and the rest is `broken`
      have hplace := placeKey_contradicts hp c hk
      by_cases h : (Assumption.placeKey n ⟨true, p, c⟩ r.1).2 ∈ wanted
      · rw [addFileKeys_add hadd h, placedIn_cons_mem h, hplace, addFileKeys_broken hadd]
        rfl
      · rw [addFileKeys_skip h (by simp [hplace]), placedIn_cons_not_mem h, hplace,
          addFileKeys_broken hadd]
    · -- confirmation: the record goes to `p`
      have hplace := placeKey_confirms hp c hk
      rw [List.map_cons, add_confirmations_of_confirms hk] at hgo
      by_cases h : (Assumption.placeKey n ⟨true, p, c⟩ r.1).2 ∈ wanted
      · rw [addFileKeys_add hadd h, placedIn_cons_mem h, hplace, ih _ _ hgo]
        rfl
      · have hpw : p ∉ wanted := by rwa [hplace] at h
        have hle := hgo.resolve_left hpw
        rw [addFileKeys_skip h (by simp only [hplace]; omega), placedIn_cons_not_mem h, hplace,
          ih _ _ hgo]

/-- More than `5000` confirmations of an unwanted partition: the run stops inside
the stretch of confirming records, with the store untouched. -/
theorem addFileKeys_gives_up {n p : ℤ} (hp : p ≠ -1) {wanted : Finset ℤ} (hpw : p ∉ wanted)
    (records : List (Bytes × ν)) :
    ∀ (c : ℕ) (s : σ), c ≤ 5000 →
      5000 < c + confirmations n p (records.map Prod.fst) →
      ∃ read unread, records = read ++ unread ∧
        (∀ r ∈ read, confirms n p r.1 = true) ∧
        addFileKeys add n wanted none (records.map .ok) ⟨true, p, c⟩ s =
          ⟨s, unread.map .ok, some .wrongPartition⟩ := by
  induction records with
  | nil =>
    intro c s hc hmany
    exact absurd hmany (by simpa [confirmations] using hc)
  | cons r records ih =>
    intro c s hc hmany
    rcases hk : confirms n p r.1 with _ | _
    · rw [List.map_cons, confirmations_of_contradicts hk] at hmany
      omega
    · have hplace := placeKey_confirms hp c hk
      have h : (Assumption.placeKey n ⟨true, p, c⟩ r.1).2 ∉ wanted := by rwa [hplace]
      rw [List.map_cons, add_confirmations_of_confirms hk] at hmany
      rcases Nat.lt_or_ge 5000 (if (keyPartition r.1 n).1 = p then c + 1 else c) with hstop | hgo
      · refine ⟨[r], records, rfl, by simpa using hk, ?_⟩
        rw [List.map_cons]
        exact addFileKeys_stop h ⟨by rw [hplace], by rw [hplace]; exact hstop⟩ _ s
      · obtain ⟨read, unread, hsplit, hread, hrun⟩ := ih _ s hgo hmany
        refine ⟨r :: read, unread, by rw [hsplit, List.cons_append], ?_, ?_⟩
        · intro x hx
          rcases List.mem_cons.mp hx with rfl | hx
          · exact hk
          · exact hread x hx
        · rw [List.map_cons, addFileKeys_skip h (by simp only [hplace]; omega), hplace]
          exact hrun

include hadd in
/-- **A node that does not abandon the file** reads it to its end and Adds exactly
the records placed in a wanted partition. -/
theorem addFileKeys_of_not_abandons {n : ℤ} (hn : 1 ≤ n) {wanted : Finset ℤ}
    {records : List (Bytes × ν)} (h : ¬ Abandons n wanted (records.map Prod.fst)) (s : σ) :
    addFileKeys add n wanted none (records.map .ok) .start s =
      ⟨addAll add s (placedIn n wanted .start records), [], none⟩ := by
  cases records with
  | nil => rfl
  | cons r records =>
    rw [List.map_cons]
    have hne := fst_keyPartition_ne hn r.1
    by_cases hw : (Assumption.start.placeKey n r.1).2 ∈ wanted
    · rw [addFileKeys_add hadd hw, placedIn_cons_mem hw, placeKey_start,
        addFileKeys_assuming hadd hne wanted records 0 _ (.inl (by rwa [placeKey_start] at hw))]
      rfl
    · have hfew : confirmations n (keyPartition r.1 n).1 (records.map Prod.fst) ≤ 5000 := by
        rw [placeKey_start] at hw
        simpa [Abandons, hw] using h
      rw [addFileKeys_skip hw (by simp [placeKey_start]), placedIn_cons_not_mem hw, placeKey_start,
        addFileKeys_assuming hadd hne wanted records 0 _ (.inr (by omega))]

/-- **A node that abandons the file** Adds nothing of it, and every record it read
agrees with the partition of the first one. -/
theorem addFileKeys_of_abandons {n : ℤ} (hn : 1 ≤ n) {wanted : Finset ℤ}
    {r : Bytes × ν} {records : List (Bytes × ν)}
    (h : Abandons n wanted ((r :: records).map Prod.fst)) (s : σ) :
    ∃ read unread, records = read ++ unread ∧
      (∀ x ∈ read, confirms n (keyPartition r.1 n).1 x.1 = true) ∧
      addFileKeys add n wanted none ((r :: records).map .ok) .start s =
        ⟨s, unread.map .ok, some .wrongPartition⟩ := by
  obtain ⟨hpw, hmany⟩ := h
  have hw : (Assumption.start.placeKey n r.1).2 ∉ wanted := by rwa [placeKey_start]
  obtain ⟨read, unread, hsplit, hread, hrun⟩ :=
    @addFileKeys_gives_up _ _ _ add _ _ (fst_keyPartition_ne hn r.1) _ hpw records 0 s (by omega)
      (by simpa using hmany)
  refine ⟨read, unread, hsplit, hread, ?_⟩
  rw [List.map_cons, addFileKeys_skip hw (by simp [placeKey_start]), placeKey_start]
  exact hrun

end Runs

/-! ## Node-independent placement

A node that gives a file up has Added nothing of it, and one that does not has placed every
record as any other node would. So there is one placement, and nodes differ only in which records
of it they Add. -/

/-- A record is placed in one of its own two partitions. -/
theorem placementFrom_mem (n : ℤ) (a : Assumption) (keys : List Bytes) :
    ∀ x ∈ keys.zip (placementFrom n a keys),
      x.2 = (keyPartition x.1 n).1 ∨ x.2 = (keyPartition x.1 n).2 := by
  induction keys generalizing a with
  | nil => simp
  | cons key keys ih =>
    intro x hx
    rw [placementFrom, List.zip_cons_cons, List.mem_cons] at hx
    rcases hx with rfl | hx
    · simp only [Assumption.placeKey, Assumption.place]
      split_ifs <;> simp
    · exact ih _ x hx

/-- Along records that confirm it, everything is placed in the first partition. -/
theorem take_placement_eq_replicate {n : ℤ} (hn : 1 ≤ n) {key : Bytes} {read : List Bytes}
    (unread : List Bytes) (hread : ∀ k ∈ read, confirms n (keyPartition key n).1 k = true) :
    (placement n (key :: (read ++ unread))).take (read.length + 1) =
      List.replicate (read.length + 1) (keyPartition key n).1 := by
  have htake : (read ++ unread).takeWhile (confirms n (keyPartition key n).1) =
      read ++ unread.takeWhile (confirms n (keyPartition key n).1) :=
    List.takeWhile_append_of_pos hread
  rw [placement_cons hn, htake, List.take_succ_cons, List.take_append_of_le_length (by simp),
    List.take_replicate, List.replicate_succ]
  simp

/-- **Ingestion placement is node-independent.** One placement of the records,
computed from the file alone and always in one of a record's two partitions,
describes `addFileKeys` for every wanted set and every store whose Adds succeed:
it Adds, in file order, exactly the records placed in a wanted partition, unless
it returns `errWrongPartition`; and then it Added nothing, and all it read was
placed in one unwanted partition, that of the first record. -/
theorem exists_placement {ν : Type} (n : ℤ) (hn : 1 ≤ n) (records : List (Bytes × ν)) :
    ∃ assigned : List ℤ, assigned.length = records.length ∧
      (∀ x ∈ records.zip assigned,
        x.2 = (keyPartition x.1.1 n).1 ∨ x.2 = (keyPartition x.1.1 n).2) ∧
      ∀ (σ ε : Type) (add : σ → Bytes → ν → σ × Option ε)
        (_ : ∀ s key value, (add s key value).2 = none) (s : σ) (wanted : Finset ℤ),
        ((addFileKeys add n wanted none (records.map .ok) .start s).err = none ∧
          (addFileKeys add n wanted none (records.map .ok) .start s).store =
            addAll add s (((records.zip assigned).filter
              fun x => decide (x.2 ∈ wanted)).map Prod.fst)) ∨
        ((addFileKeys add n wanted none (records.map .ok) .start s).err =
            some .wrongPartition ∧
          (addFileKeys add n wanted none (records.map .ok) .start s).store = s ∧
          ∃ read unread assumed, records = read ++ unread ∧
            (addFileKeys add n wanted none (records.map .ok) .start s).unread =
              unread.map .ok ∧
            assumed ∉ wanted ∧
            (records.head?.map fun r => (keyPartition r.1 n).1) = some assumed ∧
            assigned.take read.length = List.replicate read.length assumed) := by
  refine ⟨placement n (records.map Prod.fst), by simp [placement], ?_, ?_⟩
  · intro x hx
    have hx' : (x.1.1, x.2) ∈ (records.map Prod.fst).zip (placement n (records.map Prod.fst)) := by
      rw [List.zip_map_left]
      exact List.mem_map.mpr ⟨x, hx, rfl⟩
    exact placementFrom_mem n .start _ _ hx'
  · intro σ ε add hadd s wanted
    by_cases h : Abandons n wanted (records.map Prod.fst)
    · right
      cases records with
      | nil => exact absurd h id
      | cons r records =>
        obtain ⟨read, unread, hsplit, hread, hrun⟩ :=
          @addFileKeys_of_abandons _ _ _ add _ hn _ _ _ h s
        rw [hrun]
        refine ⟨rfl, rfl, r :: read, unread, (keyPartition r.1 n).1, by rw [hsplit]; rfl, rfl,
          h.1, rfl, ?_⟩
        rw [hsplit, List.map_cons, List.map_append, List.length_cons]
        have hread' : ∀ k ∈ read.map Prod.fst, confirms n (keyPartition r.1 n).1 k = true := by
          simpa using hread
        simpa using take_placement_eq_replicate hn (unread.map Prod.fst) hread'
    · left
      rw [addFileKeys_of_not_abandons hadd hn h]
      exact ⟨rfl, rfl⟩

/-- `skiqyzz`, with hash `2147483641`; its partitions out of three are `1` and `2`. -/
def skiqyzz : Bytes := [115, 107, 105, 113, 121, 122, 122]

/-- A store that keeps the records in order. -/
def appendRecord (s : List (Bytes × ℕ)) (key : Bytes) (value : ℕ) :
    List (Bytes × ℕ) × Option Empty :=
  (s ++ [(key, value)], none)

/-- A file whose second key is placed in its alternate partition. -/
def alternateFile : List (Bytes × ℕ) := [([98], 0), (skiqyzz, 1), (zsjpxag, 2)]

/-- A node that wants partition `2` Adds the first two records, by the one placement there is. -/
theorem exists_placement_skiqyzz :
    ∃ assigned : List ℤ, assigned.length = 3 ∧
      (∀ x ∈ alternateFile.zip assigned,
        x.2 = (keyPartition x.1.1 3).1 ∨ x.2 = (keyPartition x.1.1 3).2) ∧
      (addFileKeys appendRecord 3 {2} none (alternateFile.map .ok) .start []).store =
        addAll appendRecord [] (((alternateFile.zip assigned).filter
          fun x => decide (x.2 ∈ ({2} : Finset ℤ))).map Prod.fst) ∧
      (addFileKeys appendRecord 3 {2} none (alternateFile.map .ok) .start []).store =
        [([98], 0), (skiqyzz, 1)] := by
  obtain ⟨assigned, hlen, hmem, hruns⟩ := exists_placement 3 (by decide) alternateFile
  rcases hruns _ _ appendRecord (fun _ _ _ => rfl) [] {2} with ⟨-, hstore⟩ | ⟨herr, -⟩
  · exact ⟨assigned, hlen, hmem, hstore, by decide⟩
  · exact absurd herr (by decide)

/-! ## Positions

The records of a file tagged with their positions, ingested into a list of
positions: which records a node Adds, when the file may hold one record twice. -/

section Positions

variable {ν : Type*}

/-- The records with their positions; the loop never looks at a value. -/
def tagged (records : List (Bytes × ν)) : List (Bytes × ν × ℕ) :=
  records.zipIdx.map fun x => (x.1.1, x.1.2, x.2)

/-- A store that remembers the positions of the records Added to it. -/
def addPosition (s : List ℕ) (_ : Bytes) (v : ν × ℕ) : List ℕ × Option Empty :=
  (s ++ [v.2], none)

/-- The positions of the records a node Adds. -/
def addedPositions (n : ℤ) (wanted : Finset ℤ) (records : List (Bytes × ν)) : List ℕ :=
  (addFileKeys addPosition n wanted none ((tagged records).map .ok) .start []).store

theorem getElem?_tagged (records : List (Bytes × ν)) (i : ℕ) :
    (tagged records)[i]? = records[i]?.map fun r => (r.1, r.2, i) := by
  rw [tagged, List.getElem?_map, List.getElem?_zipIdx, Option.map_map, Nat.zero_add]
  rfl

theorem map_fst_tagged (records : List (Bytes × ν)) :
    (tagged records).map Prod.fst = records.map Prod.fst := by
  apply List.ext_getElem?
  intro i
  rw [List.getElem?_map, getElem?_tagged, List.getElem?_map, Option.map_map]
  rfl

theorem addAll_addPosition (s : List ℕ) (records : List (Bytes × ν × ℕ)) :
    addAll addPosition s records = s ++ records.map fun r => r.2.2 := by
  induction records generalizing s with
  | nil => simp [addAll]
  | cons r records ih =>
    have h := ih (s ++ [r.2.2])
    rw [List.append_assoc] at h
    exact h

/-- The tag at position `i` is `i`: which positions survive a filter by placement. -/
theorem mem_map_placedIn_tagged (n : ℤ) (wanted : Finset ℤ) (records : List (Bytes × ν)) (i : ℕ) :
    i ∈ (placedIn n wanted .start (tagged records)).map (fun r => r.2.2) ↔
      ∃ p ∈ wanted, (placement n (records.map Prod.fst))[i]? = some p := by
  simp only [placedIn, map_fst_tagged, List.mem_map, List.mem_filter, decide_eq_true_eq]
  constructor
  · rintro ⟨r, ⟨⟨r', p⟩, ⟨hmem, hp⟩, rfl⟩, rfl⟩
    obtain ⟨j, hj⟩ := List.mem_iff_getElem?.mp hmem
    obtain ⟨htag, hplace⟩ := List.getElem?_zip_eq_some.mp hj
    rw [getElem?_tagged, Option.map_eq_some_iff] at htag
    obtain ⟨r, -, rfl⟩ := htag
    exact ⟨p, hp, hplace⟩
  · rintro ⟨p, hp, hplace⟩
    have hlt : i < records.length := by
      have := (List.getElem?_eq_some_iff.mp hplace).1
      simpa [placement] using this
    refine ⟨(records[i].1, records[i].2, i), ⟨⟨(records[i].1, records[i].2, i), p⟩,
      ⟨?_, hp⟩, rfl⟩, rfl⟩
    apply List.mem_iff_getElem?.mpr
    refine ⟨i, List.getElem?_zip_eq_some.mpr ⟨?_, hplace⟩⟩
    rw [getElem?_tagged, List.getElem?_eq_getElem hlt]
    rfl

/-- **A record is Added** exactly when the node does not abandon the file and wants
the partition the record is placed in. -/
theorem mem_addedPositions {n : ℤ} (hn : 1 ≤ n) (wanted : Finset ℤ)
    (records : List (Bytes × ν)) (i : ℕ) :
    i ∈ addedPositions n wanted records ↔
      ¬ Abandons n wanted (records.map Prod.fst) ∧
        ∃ p ∈ wanted, (placement n (records.map Prod.fst))[i]? = some p := by
  rw [addedPositions]
  by_cases h : Abandons n wanted ((tagged records).map Prod.fst)
  · -- nothing is Added
    have hstore : (addFileKeys addPosition n wanted none ((tagged records).map .ok) .start
        []).store = [] := by
      cases htag : tagged records with
      | nil => rfl
      | cons r rest =>
        rw [htag] at h
        obtain ⟨-, unread, -, -, hrun⟩ := addFileKeys_of_abandons hn h []
        rw [hrun]
    rw [map_fst_tagged] at h
    simp [hstore, h]
  · rw [addFileKeys_of_not_abandons (fun _ _ _ => rfl) hn h, addAll_addPosition, List.nil_append,
      mem_map_placedIn_tagged]
    rw [map_fst_tagged] at h
    simp [h]

end Positions

/-! ## Pre-partitioned files

On a file that comes out of a Hadoop or a Cascading shuffle the normal partitions
of the keys take at most two values: the file's own, and the one `2 ^ 31` away
from it where the keys of the two danger zones land. Once the assumption is
contradicted, the records of the other value are out of reach for every node that
gave the file up before. -/

/-- All keys share one Hadoop partition. -/
def HadoopPartitioned (n : ℤ) (keys : List Bytes) : Prop :=
  ∃ p, ∀ key ∈ keys, hadoopPartition key n = p

/-- All keys share one Cascading tuple partition. -/
def CascadingPartitioned (n : ℤ) (keys : List Bytes) : Prop :=
  ∃ t, ∀ key ∈ keys, cascadingPartition key n = t

/-- The skip is harmless: at most `5000` records confirm the first partition, or no
record contradicts it, or some node wants both the first partition and that of the
first contradicting record. -/
def SkipSafe (n : ℤ) (nodes : List (Finset ℤ)) : List Bytes → Prop
  | [] => True
  | key :: keys =>
    ∀ other, (keys.dropWhile (confirms n (keyPartition key n).1)).head? = some other →
      5000 < confirmations n (keyPartition key n).1 keys →
      ∃ wanted ∈ nodes, (keyPartition key n).1 ∈ wanted ∧ (keyPartition other n).1 ∈ wanted

/-- A shuffled file has at most two normal partitions. -/
theorem normal_two_valued {n : ℤ} {keys : List Bytes}
    (h : HadoopPartitioned n keys ∨ CascadingPartitioned n keys) :
    ∃ p q, ∀ key ∈ keys, (keyPartition key n).1 = p ∨ (keyPartition key n).1 = q := by
  rcases h with ⟨p, hp⟩ | ⟨t, ht⟩
  · exact ⟨p, p, fun key hkey => .inl (by rw [fst_keyPartition, hp key hkey])⟩
  · refine ⟨(t - 31) % n, ((t - 31) % n + 2 ^ 31) % n, fun key hkey => ?_⟩
    have hfile : cascadingFile key n = (t - 31) % n := by rw [cascadingFile, ht key hkey]
    rw [fst_keyPartition]
    by_cases hreg : Regular (hashCode key).toInt
    · left
      rw [← cascadingFile_of_regular hreg, hfile]
    · right
      rw [hadoopPartition_of_not_regular hreg, hfile]

/-- A value of the placement is the first partition, or the normal partition of a
key from the first contradiction on. -/
theorem mem_placement_cons {n : ℤ} (hn : 1 ≤ n) {key : Bytes} {keys : List Bytes} {p : ℤ}
    (h : p ∈ placement n (key :: keys)) :
    p = (keyPartition key n).1 ∨
      ∃ k ∈ keys.dropWhile (confirms n (keyPartition key n).1), (keyPartition k n).1 = p := by
  rw [placement_cons hn, List.mem_cons, List.mem_append] at h
  rcases h with h | h | h
  · exact .inl h
  · exact .inl (List.eq_of_mem_replicate h)
  · exact .inr (List.mem_map.mp h)

/-- A placement is a partition of the version. -/
theorem placement_range {n : ℤ} (hn : 1 ≤ n) {keys : List Bytes} {p : ℤ}
    (h : p ∈ placement n keys) : 0 ≤ p ∧ p < n := by
  have hrange : ∀ key, 0 ≤ (keyPartition key n).1 ∧ (keyPartition key n).1 < n := by
    intro key
    rw [fst_keyPartition]
    exact ⟨hadoopPartition_nonneg key hn, hadoopPartition_lt key hn⟩
  cases keys with
  | nil => simp [placement, placementFrom] at h
  | cons key keys =>
    rcases mem_placement_cons hn h with rfl | ⟨k, -, rfl⟩
    · exact hrange key
    · exact hrange k

section Skip

variable {ν : Type*} {n : ℤ} {records : List (Bytes × ν)} {nodes : List (Finset ℤ)}

/-- If every record is Added somewhere, the skip was harmless: the node that Added
the first contradicting record did not give the file up, so it wants the first
partition as well. This direction holds for every file. -/
theorem skipSafe_of_added (hn : 1 ≤ n)
    (h : ∀ i < records.length, ∃ wanted ∈ nodes, i ∈ addedPositions n wanted records) :
    SkipSafe n nodes (records.map Prod.fst) := by
  cases hkeys : records.map Prod.fst with
  | nil => trivial
  | cons key keys =>
    intro other hother hmany
    have hmem : (keyPartition other n).1 ∈ placement n (key :: keys) := by
      rw [placement_cons hn]
      refine List.mem_cons_of_mem _ (List.mem_append_right _ (List.mem_map.mpr ⟨other, ?_, rfl⟩))
      exact List.mem_of_mem_head? hother
    obtain ⟨i, hi⟩ := List.mem_iff_getElem?.mp hmem
    have hlt : i < records.length := by
      have := (List.getElem?_eq_some_iff.mp hi).1
      rw [placement, length_placementFrom, ← hkeys] at this
      simpa using this
    obtain ⟨wanted, hw, hadded⟩ := h i hlt
    rw [mem_addedPositions hn, hkeys, hi] at hadded
    obtain ⟨hnot, p, hp, hpeq⟩ := hadded
    obtain rfl := Option.some.inj hpeq
    refine ⟨wanted, hw, ?_, hp⟩
    -- otherwise the node would have abandoned the file
    by_contra hfirst
    exact hnot ⟨hfirst, hmany⟩

/-- If the skip is harmless and the keys have at most two normal partitions, every
record is Added somewhere. -/
theorem added_of_skipSafe (hn : 1 ≤ n)
    (hcover : ∀ p, 0 ≤ p → p < n → ∃ wanted ∈ nodes, p ∈ wanted)
    (htwo : ∃ p q, ∀ key ∈ records.map Prod.fst,
      (keyPartition key n).1 = p ∨ (keyPartition key n).1 = q)
    (hsafe : SkipSafe n nodes (records.map Prod.fst)) :
    ∀ i < records.length, ∃ wanted ∈ nodes, i ∈ addedPositions n wanted records := by
  intro i hi
  have hi' : i < (placement n (records.map Prod.fst)).length := by simpa [placement] using hi
  have hget := List.getElem?_eq_getElem hi'
  have hmem := List.getElem_mem hi'
  generalize (placement n (records.map Prod.fst))[i] = p at hget hmem
  simp only [mem_addedPositions hn, hget, Option.some.injEq]
  obtain ⟨h0, h1⟩ := placement_range hn hmem
  cases hkeys : records.map Prod.fst with
  | nil => rw [hkeys] at hmem; simp [placement, placementFrom] at hmem
  | cons key keys =>
    rw [hkeys] at hmem htwo hsafe
    rcases Nat.lt_or_ge 5000 (confirmations n (keyPartition key n).1 keys) with hmany | hfew
    · rcases mem_placement_cons hn hmem with rfl | ⟨k, hk, rfl⟩
      · -- placed in the first partition: whoever wants it reads on
        obtain ⟨wanted, hw, hp⟩ := hcover _ h0 h1
        exact ⟨wanted, hw, fun hab => hab.1 hp, _, hp, rfl⟩
      · -- placed after a contradiction: its partition is the other value
        obtain ⟨other, hother⟩ :
            ∃ other, (keys.dropWhile (confirms n (keyPartition key n).1)).head? = some other := by
          cases hdrop : keys.dropWhile (confirms n (keyPartition key n).1) with
          | nil => rw [hdrop] at hk; cases hk
          | cons other rest => exact ⟨other, rfl⟩
        obtain ⟨wanted, hw, hfirst, hsecond⟩ := hsafe other hother hmany
        refine ⟨wanted, hw, fun hab => hab.1 hfirst, _, ?_, rfl⟩
        obtain ⟨p, q, hpq⟩ := htwo
        have hkmem : k ∈ key :: keys :=
          List.mem_cons_of_mem _ ((List.dropWhile_sublist _).subset hk)
        have homem : other ∈ key :: keys :=
          List.mem_cons_of_mem _ ((List.dropWhile_sublist _).subset (List.mem_of_mem_head? hother))
        have hne : (keyPartition other n).1 ≠ (keyPartition key n).1 := by
          have hcontra := List.head?_dropWhile_not (confirms n (keyPartition key n).1) keys
          rw [hother] at hcontra
          simp only [confirms, decide_eq_false_iff_not, not_or] at hcontra
          exact hcontra.1
        by_cases hkey : (keyPartition k n).1 = (keyPartition key n).1
        · rwa [hkey]
        · have hk2 := hpq k hkmem
          have ho2 := hpq other homem
          have hf2 := hpq key (List.mem_cons_self ..)
          have : (keyPartition k n).1 = (keyPartition other n).1 := by omega
          rwa [this]
    · -- too few confirmations for anybody to give up
      obtain ⟨wanted, hw, hp⟩ := hcover p h0 h1
      exact ⟨wanted, hw, fun hab => absurd hab.2 (by omega), p, hp, rfl⟩

end Skip

/-- **The skip on pre-partitioned files, exactly.** When the wanted sets cover all
partitions, every record of a shuffled file is Added by some node if and only if
the skip is harmless. -/
theorem shuffled_added_iff {ν : Type} (n : ℤ) (hn : 1 ≤ n) (records : List (Bytes × ν))
    (nodes : List (Finset ℤ)) (hcover : ∀ p, 0 ≤ p → p < n → ∃ wanted ∈ nodes, p ∈ wanted)
    (hshuffled : HadoopPartitioned n (records.map Prod.fst) ∨
      CascadingPartitioned n (records.map Prod.fst)) :
    (∀ i < records.length, ∃ wanted ∈ nodes, i ∈ addedPositions n wanted records) ↔
      SkipSafe n nodes (records.map Prod.fst) :=
  ⟨skipSafe_of_added hn, added_of_skipSafe hn hcover (normal_two_valued hshuffled)⟩

/-- One node for each of three partitions covers them. -/
theorem cover_three : ∀ p : ℤ, 0 ≤ p → p < 3 →
    ∃ wanted ∈ ([{0}, {1}, {2}] : List (Finset ℤ)), p ∈ wanted := by
  intro p h0 h3
  obtain rfl | rfl | rfl : p = 0 ∨ p = 1 ∨ p = 2 := by omega
  all_goals decide

/-- The key `b`, in the file Cascading also puts `zsjpxag` in when there are three. -/
def keyB : Bytes := [98]

/-- Both keys are in one file of a Cascading shuffle, however often the first one is there. -/
theorem cascading_keyB_zsjpxag (m : ℕ) :
    CascadingPartitioned 3 (List.replicate m keyB ++ [zsjpxag]) := by
  refine ⟨0, fun key hkey => ?_⟩
  rcases List.mem_append.mp hkey with hkey | hkey
  · rw [List.eq_of_mem_replicate hkey]
    decide
  · rw [List.mem_singleton.mp hkey]
    decide

/-- A short Cascading file of three nodes loses nothing. -/
theorem shuffled_added_short :
    CascadingPartitioned 3 [keyB, zsjpxag] ∧
      ∀ i < 2, ∃ wanted ∈ ([{0}, {1}, {2}] : List (Finset ℤ)),
        i ∈ addedPositions 3 wanted [(keyB, 'x'), (zsjpxag, 'y')] :=
  ⟨cascading_keyB_zsjpxag 1,
    (shuffled_added_iff 3 (by decide) [(keyB, 'x'), (zsjpxag, 'y')] [{0}, {1}, {2}] cover_three
      (.inr (cascading_keyB_zsjpxag 1))).mpr fun _ _ hmany => absurd hmany (by decide)⟩

/-- The file of `5002` records `b` and, last, one `zsjpxag`. -/
def longFile : List (Bytes × Unit) := List.replicate 5002 (keyB, ()) ++ [(zsjpxag, ())]

theorem confirmations_keyB (m : ℕ) :
    confirmations 3 (keyPartition keyB 3).1 (List.replicate m keyB ++ [zsjpxag]) = m := by
  have hB : confirms 3 (keyPartition keyB 3).1 keyB = true := by decide
  have hz : confirms 3 (keyPartition keyB 3).1 zsjpxag = false := by decide
  rw [confirmations, List.takeWhile_append_of_pos
    (fun k hk => by rw [List.eq_of_mem_replicate hk]; exact hB)]
  simp [hz, List.countP_replicate]

/-- **Lost records.** The long file comes out of a Cascading shuffle into three
files and the three nodes want one partition each. The node that wants the
partition of `zsjpxag` abandons the file before it gets there, and nobody Adds
it. -/
theorem longFile_loses :
    CascadingPartitioned 3 (longFile.map Prod.fst) ∧
    ¬ ∀ i < longFile.length, ∃ wanted ∈ ([{0}, {1}, {2}] : List (Finset ℤ)),
      i ∈ addedPositions 3 wanted longFile := by
  have hkeys : longFile.map Prod.fst = List.replicate 5002 keyB ++ [zsjpxag] := by
    rw [longFile, List.map_append, List.map_replicate]
    rfl
  refine ⟨hkeys ▸ cascading_keyB_zsjpxag 5002, fun hall => ?_⟩
  have hsafe := skipSafe_of_added (by decide) hall
  rw [hkeys, show (5002 : ℕ) = 5001 + 1 from rfl, List.replicate_succ, List.cons_append] at hsafe
  have hdrop : ((List.replicate 5001 keyB ++ [zsjpxag]).dropWhile
      (confirms 3 (keyPartition keyB 3).1)).head? = some zsjpxag := by
    rw [List.dropWhile_append_of_pos
      (fun k hk => by rw [List.eq_of_mem_replicate hk]; decide)]
    decide
  obtain ⟨wanted, hw, hfirst, hother⟩ :=
    hsafe zsjpxag hdrop (by rw [confirmations_keyB]; decide)
  revert wanted
  decide

end Sequins
