import Sequins.GoFilePath
import Sequins.GoURL
import Sequins.HashCode

/-!
# The configuration

`validateConfig`. A source on the local file system must not contain the local store, or the store
would be taken for data. Whether it does is told from the text: `strings.HasPrefix` of the
`filepath.Dir` of the store and the cleaned source. `Dir` takes the last part of the store away,
unless there is a slash after it, so a store that *is* the source goes through; and a source `/data`
is the beginning of a store in `/database`, too. `local_store_refused_iff` has all the cases in
which this is not what it should be (`Misjudged`).
-/

namespace Sequins

open GoPath GoURL

/-! ## The checks -/

/-- The part of `sequinsConfig` that is checked. -/
structure Config where
  /-- `source` -/
  source : Bytes
  /-- `local_store` -/
  localStore : Bytes
  /-- `compression`, of `storage` -/
  compression : Bytes
  /-- `enabled`, of `sharding` -/
  shardingEnabled : Bool
  /-- `replication`, of `sharding` -/
  replication : ℤ
  /-- `allow_local_cluster`, of `test` -/
  allowLocalCluster : Bool
  deriving DecidableEq, Repr

/-- What `validateConfig` finds wrong. -/
inductive ConfigError where
  /-- `local store path must be absolute: %s` -/
  | relativeLocalStore (localStore : Bytes)
  /-- `source must be set` -/
  | noSource
  /-- `parsing source: %s` -/
  | parsingSource
  /-- `local source path is invalid (likely missing a '/'): %s` -/
  | sourceWithHost (source : Bytes)
  /-- `local source path must be absolute: %s` -/
  | relativeSource (source : Bytes)
  /-- `local store can't be within source root: %s` -/
  | withinSource (localStore : Bytes)
  /-- `you can't run sequins with sharding enabled on local paths` -/
  | localCluster
  /-- `unrecognized compression option: %s` -/
  | unknownCompression (compression : Bytes)
  /-- `invalid replication factor: %d` -/
  | invalidReplication (replication : ℤ)
  deriving DecidableEq, Repr

/-- `file` -/
def fileScheme : Bytes := [102, 105, 108, 101]

/-- `SnappyCompression` -/
def snappyCompression : Bytes := [115, 110, 97, 112, 112, 121]

/-- `NoCompression` -/
def noCompression : Bytes := [110, 111, 110, 101]

variable (parseAuthority : Bytes → Option Bytes)

/-- The checks for a source on the local file system. -/
def validateLocalSource (config : Config) (parsed : Location) : Except ConfigError Unit :=
  if parsed.host ≠ [] then
    .error (.sourceWithHost config.source)
  else if ¬ isAbs parsed.path then
    .error (.relativeSource config.source)
  else if clean parsed.path <+: dir config.localStore then
    .error (.withinSource config.localStore)
  else if config.shardingEnabled ∧ ¬ config.allowLocalCluster then
    .error .localCluster
  else
    .ok ()

/-- `validateConfig`. -/
def validateConfig (config : Config) : Except ConfigError Config := do
  if ¬ isAbs config.localStore then
    throw (.relativeLocalStore config.localStore)
  if config.source = [] then
    throw .noSource
  match locate parseAuthority config.source with
  | none => throw .parsingSource
  | some parsed =>
    if parsed.scheme = [] ∨ parsed.scheme = fileScheme then
      validateLocalSource config parsed
    if config.compression ≠ snappyCompression ∧ config.compression ≠ noCompression then
      throw (.unknownCompression config.compression)
    if config.replication ≤ 0 then
      throw (.invalidReplication config.replication)
    return config

/-! ## The local store and the source

The check takes the directory of the store and asks whether its text begins with the source. What
should be asked is whether the parts of the store begin with those of the source. The two are
compared by the last name of the store, since that is what `Dir` takes away. -/

/-- A configuration of a node without peers, with a local source, in which nothing is wrong but
possibly where the local store is. -/
structure Config.LocalSource (config : Config) (parsed : Location) : Prop where
  /-- `local_store` is absolute -/
  localStore : isAbs config.localStore = true
  /-- `source` is read -/
  source : locate parseAuthority config.source = some parsed
  /-- as the path of a file -/
  scheme : parsed.scheme = [] ∨ parsed.scheme = fileScheme
  /-- on this host -/
  host : parsed.host = []
  /-- which is absolute -/
  path : isAbs parsed.path = true
  /-- `enabled` is not set -/
  sharding : config.shardingEnabled = false
  /-- `compression` is known -/
  compression : config.compression = snappyCompression ∨ config.compression = noCompression
  /-- `replication` is positive -/
  replication : 0 < config.replication

instance (config : Config) (parsed : Location) :
    Decidable (config.LocalSource parseAuthority parsed) :=
  decidable_of_iff (isAbs config.localStore = true ∧
      locate parseAuthority config.source = some parsed ∧
      (parsed.scheme = [] ∨ parsed.scheme = fileScheme) ∧ parsed.host = [] ∧
      isAbs parsed.path = true ∧ config.shardingEnabled = false ∧
      (config.compression = snappyCompression ∨ config.compression = noCompression) ∧
      0 < config.replication)
    ⟨fun ⟨h₁, h₂, h₃, h₄, h₅, h₆, h₇, h₈⟩ => ⟨h₁, h₂, h₃, h₄, h₅, h₆, h₇, h₈⟩,
      fun ⟨h₁, h₂, h₃, h₄, h₅, h₆, h₇, h₈⟩ => ⟨h₁, h₂, h₃, h₄, h₅, h₆, h₇, h₈⟩⟩

variable {parseAuthority} in
/-- **What is left of the checks then.** -/
theorem Config.LocalSource.validateConfig_eq {config : Config} {parsed : Location}
    (h : config.LocalSource parseAuthority parsed) :
    validateConfig parseAuthority config =
      if clean parsed.path <+: dir config.localStore then .error (.withinSource config.localStore)
      else .ok config := by
  have hsource : config.source ≠ [] := by
    intro hnil
    have hlocate := h.source
    rw [hnil] at hlocate
    have hpath : parsed.path = [] := by
      rw [← Option.some.inj hlocate]
    have habs := h.path
    rw [hpath] at habs
    cases habs
  have hcompression : ¬ (config.compression ≠ snappyCompression ∧
      config.compression ≠ noCompression) := by
    rw [not_and_or, not_not, not_not]
    exact h.compression
  have hlocal : validateLocalSource config parsed =
      if clean parsed.path <+: dir config.localStore then .error (.withinSource config.localStore)
      else .ok () := by
    rw [validateLocalSource, if_neg (not_not.mpr h.host), if_neg (not_not.mpr h.path), h.sharding]
    rfl
  rw [validateConfig, if_neg (not_not.mpr h.localStore), if_neg hsource, h.source]
  dsimp only
  rw [if_pos h.scheme, if_neg hcompression, if_neg (not_le.mpr h.replication), hlocal]
  split <;> rfl

/-- The stores that are judged wrongly: one that is the source, if it does not end in a slash;
one in a directory whose path begins like that of the source, but is another one; and one that
is given as the directory above the source, by `..` after the source itself. -/
def Misjudged (localStore source : Bytes) : Prop :=
  (Proper (split localStore).2 ∧ clean localStore = clean source) ∨
    (clean source <+: dir localStore ∧ ¬ Below (dir localStore) source) ∨
    ((split localStore).2 = [46, 46] ∧ clean source = dir localStore ∧ dir localStore ≠ [47])

instance (localStore source : Bytes) : Decidable (Misjudged localStore source) :=
  inferInstanceAs (Decidable (_ ∨ _ ∨ _))

section

variable {l s : Bytes} (hl : l.head? = some 47)
include hl

/-! The parts of a store, by its last name: nothing, another part, or `..`. -/

/-- Nothing is there after the last slash, or a dot. -/
theorem parts_of_skipped (hname : (split l).2 = [] ∨ (split l).2 = [46]) :
    parts l = parts (split l).1 := by
  rw [parts_eq hl, pushPart.eq_def, if_pos hname, List.reverse_reverse]

theorem parts_of_proper (hname : Proper (split l).2) :
    parts l = parts (split l).1 ++ [(split l).2] := by
  rw [parts_eq hl, pushPart_of_proper hname, List.reverse_cons, List.reverse_reverse]

theorem parts_of_up (hname : (split l).2 = [46, 46]) :
    parts l = (parts (split l).1).dropLast := by
  rw [parts_eq hl, hname]
  have hsettled := settled_parts (split l).1
  rcases hparts : (parts (split l).1).reverse with _ | ⟨last, rest⟩
  · rw [List.reverse_eq_nil_iff.mp hparts]
    rfl
  · have hlast : last ≠ [46, 46] := (hsettled.proper (hparts ▸ List.mem_cons_self ..)).2.2
    have hpush : pushPart true (last :: rest) [46, 46] = rest := by simp [pushPart, hlast]
    rw [hpush, ← List.reverse_reverse (parts (split l).1), hparts, List.reverse_cons,
      List.dropLast_concat]

/-- A store whose directory is in the source is found out. -/
theorem begins_of_below_dir (h : Below (dir l) s) : clean s <+: dir l := by
  have hdir : (dir l).head? = some 47 := by
    rw [dir, clean_of_rooted (head_split hl)]
    rfl
  exact clean_dir l ▸ h.begins hdir

/-- The directory of a path does not begin with the path. -/
theorem not_begins_of_eq (hname : Proper (split l).2) (heq : clean l = clean s) :
    ¬ clean s <+: dir l := by
  intro hbegins
  have hparts := parts_of_proper hl hname
  have hbelow : Below l (split l).1 := by
    rw [below_iff hl (head_split hl), hparts]
    exact List.prefix_append _ _
  have hdir : dir l <+: clean s := heq ▸ hbelow.begins hl
  have hsame : clean l = clean (split l).1 :=
    heq.trans (hbegins.eq_of_length (Nat.le_antisymm hbegins.length_le hdir.length_le))
  rw [clean_eq_iff hl (head_split hl), hparts] at hsame
  simp at hsame

variable (hs : s.head? = some 47)
include hs

/-- `Dir` of a path has the parts before the last slash. -/
theorem below_dir_iff : Below (dir l) s ↔ parts s <+: parts (split l).1 := by
  rw [← below_iff (head_split hl) hs, Below, clean_dir]
  rfl

/-- A store with a proper last name is in the source, or it is the source. -/
theorem below_iff_of_proper (hname : Proper (split l).2) :
    Below l s ↔ Below (dir l) s ∨ clean l = clean s := by
  rw [below_iff hl hs, below_dir_iff hl hs, clean_eq_iff hl hs, parts_of_proper hl hname,
    List.prefix_concat_iff, or_comm, eq_comm]

/-- A store that ends in `..` is above what `Dir` makes of it. -/
theorem below_iff_of_up (hname : (split l).2 = [46, 46]) :
    Below l s ↔ Below (dir l) s ∧ (clean s = dir l → dir l = [47]) := by
  rw [below_iff hl hs, below_dir_iff hl hs, parts_of_up hl hname, dir,
    clean_eq_iff hs (head_split hl), clean_eq_root_iff (head_split hl)]
  rcases List.eq_nil_or_concat (parts (split l).1) with hnil | ⟨above, last, hparts⟩
  · simp [hnil]
  · rw [hparts, List.concat_eq_append, List.dropLast_concat, List.prefix_concat_iff]
    have hne : parts s <+: above → parts s ≠ above ++ [last] := by
      rintro hle heq
      have := hle.length_le
      simp [heq] at this
    simp only [List.append_eq_nil_iff, List.cons_ne_nil, and_false, imp_false]
    tauto

/-- **What the check of the local store comes to.** -/
theorem begins_iff_below_iff : (clean s <+: dir l ↔ Below l s) ↔ ¬ Misjudged l s := by
  have hbegins := begins_of_below_dir (s := s) hl
  rw [Misjudged]
  by_cases hskipped : (split l).2 = [] ∨ (split l).2 = [46]
  · -- the directory is the store itself
    have hproper : ¬ Proper (split l).2 := fun h => hskipped.elim h.1 h.2.1
    have hup : (split l).2 ≠ [46, 46] := by
      intro h
      simp [h] at hskipped
    have hsame : Below l s ↔ Below (dir l) s := by
      rw [below_dir_iff hl hs, below_iff hl hs, parts_of_skipped hl hskipped]
    rw [hsame]
    grind
  by_cases hup : (split l).2 = [46, 46]
  · -- the directory is below the store
    have hproper : ¬ Proper (split l).2 := fun h => h.2.2 hup
    have hself : clean s = dir l → Below (dir l) s := fun h => .inl ((clean_dir l).trans h.symm)
    rw [below_iff_of_up hl hs hup]
    grind
  · -- the directory is the one the store is in
    have hproper : Proper (split l).2 :=
      ⟨fun h => hskipped (.inl h), fun h => hskipped (.inr h), hup⟩
    have hnot := not_begins_of_eq (s := s) hl hproper
    rw [below_iff_of_proper hl hs hproper]
    grind

end

/-- **The local store is kept out of the source, except where it is misjudged.** A configuration
with a local source, with nothing else wrong, is refused with the store within the source exactly if
the store is the source or lies below it, if and only if the store is not `Misjudged`. -/
theorem local_store_refused_iff (config : Config) (parsed : Location)
    (h : config.LocalSource parseAuthority parsed) :
    (validateConfig parseAuthority config = .error (.withinSource config.localStore) ↔
        Below config.localStore parsed.path) ↔
      ¬ Misjudged config.localStore parsed.path := by
  have herror : validateConfig parseAuthority config = .error (.withinSource config.localStore) ↔
      clean parsed.path <+: dir config.localStore := by
    rw [h.validateConfig_eq]
    split
    · next hbegins => exact iff_of_true rfl hbegins
    · next hbegins => exact iff_of_false (by rintro ⟨⟩) hbegins
  rw [herror]
  exact begins_iff_below_iff (beq_iff_eq.mp h.localStore) (beq_iff_eq.mp h.path)

/-- A configuration with the defaults for the rest. -/
def Config.ofPaths (source localStore : Bytes) : Config where
  source := source
  localStore := localStore
  compression := snappyCompression
  shardingEnabled := false
  replication := 2
  allowLocalCluster := false

/-- The store `/s/t` is refused for the source `/s`. -/
theorem local_store_refused_iff_below :
    validateConfig some (.ofPaths [47, 115] [47, 115, 47, 116]) =
      .error (.withinSource [47, 115, 47, 116]) :=
  ((local_store_refused_iff some (.ofPaths [47, 115] [47, 115, 47, 116]) ⟨[], [], [47, 115]⟩
    (by decide)).mpr (by decide)).mpr (by decide)

/-- The store `/s` is accepted for the source `/s`, and the stores `/st/u` and `/s/..` are
refused. -/
theorem store_is_source_accepted :
    (Below [47, 115] [47, 115] ∧
      validateConfig some (.ofPaths [47, 115] [47, 115]) = .ok (.ofPaths [47, 115] [47, 115])) ∧
    (¬ Below [47, 115, 116, 47, 117] [47, 115] ∧
      validateConfig some (.ofPaths [47, 115] [47, 115, 116, 47, 117]) =
        .error (.withinSource [47, 115, 116, 47, 117])) ∧
    (¬ Below [47, 115, 47, 46, 46] [47, 115] ∧
      validateConfig some (.ofPaths [47, 115] [47, 115, 47, 46, 46]) =
        .error (.withinSource [47, 115, 47, 46, 46])) := by
  decide

end Sequins
