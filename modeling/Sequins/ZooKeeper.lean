import Sequins.GoPath
import Mathlib.Logic.Function.Basic

/-!
# A tree of znodes

What a healthy ZooKeeper session sees of the server: a tree of znodes, each under its path and each
either persistent or tied to the session that created it. `Create` fails in two ways, when the
znode exists and when its parent does not. What several calls have made is a tree that is filled up,
at short paths (`Filled`) or at given ones (`fill`).
-/

namespace ZooKeeper

/-- A znode stays until it is deleted, or goes with the session that created it. -/
inductive Znode where
  | persistent
  | ephemeral (session : ℕ)
  deriving DecidableEq

/-- How `Create` fails. -/
inductive Error where
  | nodeExists
  | noNode
  deriving DecidableEq

/-- The znodes under their paths. -/
abbrev Tree : Type := List UInt8 → Option Znode

/-- A path without its last part. Nothing is left of a child of the root. -/
def parent (p : List UInt8) : List UInt8 := (p.rdropWhile (· ≠ 47)).dropLast

namespace Tree

/-- Whether a path exists. The root, written with its slash or without, always does. -/
def present (t : Tree) (p : List UInt8) : Bool := p == [] || p == [47] || (t p).isSome

/-- `Create`. -/
def create (t : Tree) (p : List UInt8) (z : Znode) : Except Error Tree :=
  if t.present p then
    .error .nodeExists
  else if t.present (parent p) then
    .ok (Function.update t p (some z))
  else
    .error .noNode

/-- `Delete`, which fails without a trace when there is nothing to delete. -/
def delete (t : Tree) (p : List UInt8) : Tree := Function.update t p none

/-- Every path but the root's is a znode of its own. -/
theorem present_eq {t : Tree} {p : List UInt8} (h : 1 < p.length) :
    t.present p = (t p).isSome := by
  have hnil : p ≠ [] := by
    rintro rfl
    simp at h
  have hroot : p ≠ [47] := by
    rintro rfl
    simp at h
  simp [present, hnil, hroot]

theorem create_of_present {t : Tree} {p : List UInt8} (h : t.present p) (z : Znode) :
    t.create p z = .error .nodeExists := if_pos h

theorem create_of_parent {t : Tree} {p : List UInt8} (h : t.present p = false)
    (hparent : t.present (parent p)) (z : Znode) :
    t.create p z = .ok (Function.update t p (some z)) := by
  rw [create, h, if_neg (by simp), if_pos hparent]

theorem create_of_no_parent {t : Tree} {p : List UInt8} (h : t.present p = false)
    (hparent : t.present (parent p) = false) (z : Znode) : t.create p z = .error .noNode := by
  rw [create, h, hparent, if_neg (by simp), if_neg (by simp)]

theorem present_of_nodeExists {t : Tree} {p : List UInt8} {z : Znode}
    (h : t.create p z = .error .nodeExists) : t.present p := by
  rw [create] at h
  split_ifs at h with hpresent
  · exact hpresent
  · cases h

theorem parent_of_noNode {t : Tree} {p : List UInt8} {z : Znode}
    (h : t.create p z = .error .noNode) : t.present (parent p) = false := by
  rw [create] at h
  split_ifs at h with hpresent hparent
  · cases h
  · exact Bool.eq_false_iff.mpr hparent

/-- Nothing was changed but that persistent znodes were added, at paths shorter than `n`. -/
def Filled (n : ℕ) (t t' : Tree) : Prop :=
  ∀ p, t' p = t p ∨ t p = none ∧ t' p = some .persistent ∧ p.length < n

theorem Filled.refl (n : ℕ) (t : Tree) : Filled n t t := fun _ => .inl rfl

/-- What was not short is what it was. -/
theorem Filled.eq_of_le {n : ℕ} {t t' : Tree} (h : Filled n t t') {p : List UInt8}
    (hp : n ≤ p.length) : t' p = t p := by
  obtain heq | ⟨-, -, hlt⟩ := h p
  · exact heq
  · omega

/-- The znodes of a session are the same. -/
theorem Filled.ephemeral_iff {n : ℕ} {t t' : Tree} (h : Filled n t t') (p : List UInt8)
    (session : ℕ) : t' p = some (.ephemeral session) ↔ t p = some (.ephemeral session) := by
  obtain heq | ⟨hnone, hsome, -⟩ := h p
  · rw [heq]
  · rw [hnone, hsome]
    simp

/-- The tree with what is missing of some paths. -/
def fill (t : Tree) (paths : List (List UInt8)) : Tree := fun p =>
  if !t.present p && paths.contains p then some .persistent else t p

theorem fill_nil (t : Tree) : t.fill [] = t := by
  funext p
  simp [fill]

variable {t t' : Tree} {paths : List (List UInt8)} {p : List UInt8}

theorem fill_of_present (h : t.present p) : t.fill paths p = t p := by
  rw [fill, h]
  rfl

/-- Only what is missing is added. -/
theorem fill_of_absent (h : t.present p = false) :
    t.fill paths p = if paths.contains p then some .persistent else t p := by
  rw [fill, h]
  rfl

theorem present_fill : (t.fill paths).present p = (t.present p || paths.contains p) := by
  cases hp : t.present p with
  | true => rw [present, fill_of_present hp, ← present, hp, Bool.true_or]
  | false =>
    obtain ⟨hroot, hnone⟩ := Bool.or_eq_false_iff.mp hp
    rw [present, fill_of_absent hp, hroot, Bool.false_or, Bool.false_or]
    split
    · next hmem => rw [hmem, Option.isSome_some]
    · next hmem => rw [hnone, Bool.eq_false_iff.mpr hmem]

/-- Paths that are there or short only fill a tree up. -/
theorem filled_fill {n : ℕ} (h : ∀ p ∈ paths, t.present p ∨ p.length < n) :
    Filled n t (t.fill paths) := by
  intro p
  cases hp : t.present p with
  | true => exact .inl (fill_of_present hp)
  | false =>
    rw [fill_of_absent hp]
    split
    · next hmem =>
      rcases h p (List.contains_iff_mem.mp hmem) with hp' | hlt
      · cases hp.symm.trans hp'
      · refine .inr ⟨?_, rfl, hlt⟩
        rw [present, Bool.or_eq_false_iff] at hp
        exact Option.isNone_iff_eq_none.mp (Option.isSome_eq_false_iff.mp hp.2)
    · exact .inl rfl

theorem fill_concat_of_present (h : (t.fill paths).present p) :
    t.fill (paths ++ [p]) = t.fill paths := by
  rw [present_fill, Bool.or_eq_true] at h
  funext q
  by_cases hq : q = p
  · subst hq
    obtain hold | hmem := h
    · rw [fill_of_present hold, fill_of_present hold]
    · simp [fill, List.contains_iff_mem.mp hmem]
  · simp [fill, hq]

/-- **One path more.** -/
theorem fill_concat_of_create (h : (t.fill paths).create p .persistent = .ok t') :
    t' = t.fill (paths ++ [p]) := by
  rw [create] at h
  split_ifs at h with hpresent
  obtain rfl := Except.ok.inj h
  rw [present_fill, Bool.not_eq_true, Bool.or_eq_false_iff] at hpresent
  funext q
  by_cases hq : q = p
  · subst hq
    rw [Function.update_self, fill_of_absent hpresent.1]
    simp
  · simp [fill, hq]

end Tree

/-- The parent of a name in a directory. -/
theorem parent_append_slash (dir : List UInt8) {name : List UInt8} (hname : 47 ∉ name) :
    parent (dir ++ 47 :: name) = dir := by
  have hdrop : (dir ++ 47 :: name).rdropWhile (· ≠ 47) = dir ++ [47] :=
    congrArg Prod.fst (GoPath.split_append_slash dir hname)
  rw [parent, hdrop]
  simp

/-- A path, and all that begin with it. -/
def Under (p q : List UInt8) : Prop := q = p ∨ p ++ [47] <+: q

instance (p q : List UInt8) : Decidable (Under p q) := inferInstanceAs (Decidable (_ ∨ _))

theorem Under.refl (p : List UInt8) : Under p p := .inl rfl

theorem under_append (p : List UInt8) (name : List UInt8) : Under p (p ++ 47 :: name) :=
  .inr ⟨name, by simp⟩

theorem Under.trans {p q r : List UInt8} (h : Under p q) (h' : Under q r) : Under p r := by
  obtain rfl | h' := h'
  · exact h
  obtain rfl | h := h
  · exact .inr h'
  · exact .inr (h.trans ((List.prefix_append q [47]).trans h'))

theorem Under.length_le {p q : List UInt8} (h : Under p q) : p.length ≤ q.length := by
  obtain rfl | h := h
  · exact le_refl _
  · exact ((List.prefix_append p [47]).trans h).length_le

/-- What is below a path is below it without its name, or that is the path. -/
theorem Under.of_append {p dir name : List UInt8} (h : Under p (dir ++ 47 :: name))
    (hname : 47 ∉ name) : p = dir ++ 47 :: name ∨ Under p dir := by
  obtain heq | ⟨rest, hrest⟩ := h
  · exact .inl heq.symm
  obtain ⟨more, rfl, -⟩ | ⟨more, hp, hname'⟩ := List.append_eq_append_iff.mp hrest
  · exact .inr (.inr (List.prefix_append _ _))
  · rcases more with _ | ⟨c, more⟩
    · rw [List.append_nil] at hp
      exact .inr (.inr (hp ▸ List.prefix_refl _))
    · obtain ⟨rfl, rfl⟩ := List.cons.inj hname'
      rcases List.eq_nil_or_concat more with rfl | ⟨more, last, rfl⟩
      · exact .inr (.inl (List.append_cancel_right hp).symm)
      · -- the slash after `p` would be in the name
        rw [List.concat_eq_append, ← List.cons_append, ← List.append_assoc] at hp
        cases List.append_inj_right' hp rfl
        simp at hname

end ZooKeeper
