import Sequins.Registration
import Sequins.ZooKeeper
import Mathlib.Data.List.AList

/-!
# Cleaning up znodes

`triggerCleanup` walks the znodes under the prefix and tries to delete each one that is not
ephemeral, after those below it. `Delete` fails for a znode with children, and that is all that
keeps what is alive: an ephemeral znode keeps its parent, and so on up to the prefix.

A call of `cleanupTree` is described by what it takes away (`Swept`): all that is under its znode,
but for what is `Live`. Since nothing ephemeral is ever taken away, what is alive stays the same, so
the calls for the children can be put together one after the other (`Swept.trans`), whatever
their order.
-/

namespace ZooKeeper

/-- `EphemeralOwner`: zero for a persistent znode. -/
def Znode.ephemeralOwner : Znode → ℕ
  | .persistent => 0
  | .ephemeral session => session

/-- The znodes of a server: every path is that of another znode, or of the root, with a name after
it; what has children is persistent; and no session has the number zero. -/
structure ZnodeTree where
  znodes : AList fun _ : List UInt8 => Znode
  path : ∀ p ∈ znodes.keys,
    p = parent p ++ 47 :: (GoPath.split p).2 ∧ GoPath.Proper (GoPath.split p).2
  above : ∀ p ∈ znodes.keys, parent p = [] ∨ znodes.lookup (parent p) = some .persistent
  session : ∀ p ∈ znodes.keys, znodes.lookup p ≠ some (.ephemeral 0)

namespace ZnodeTree

/-- Whether a znode is ephemeral, or has an ephemeral one below it. -/
def Live (t : ZnodeTree) (q : List UInt8) : Prop :=
  ∃ q' session, Under q q' ∧ t.znodes.lookup q' = some (.ephemeral session)

instance (t : ZnodeTree) (q : List UInt8) : Decidable (t.Live q) := by
  refine decidable_of_iff (∃ q' ∈ t.znodes.keys, Under q q' ∧
    t.znodes.lookup q' ≠ some .persistent) ⟨?_, ?_⟩
  · rintro ⟨q', hmem, hunder, hne⟩
    obtain ⟨_ | session, hz⟩ := Option.isSome_iff_exists.mp (AList.lookup_isSome.mpr hmem)
    · exact absurd hz hne
    · exact ⟨q', session, hunder, hz⟩
  · rintro ⟨q', session, hunder, hz⟩
    refine ⟨q', AList.lookup_isSome.mp (hz ▸ rfl), hunder, ?_⟩
    rw [hz]
    rintro ⟨⟩

/-- `Delete`, which fails for a znode with children. -/
def delete (t : ZnodeTree) (p : List UInt8) : ZnodeTree :=
  if h : ∀ q ∈ t.znodes.keys, parent q ≠ p then
    { znodes := t.znodes.erase p
      path q hq := t.path q (AList.mem_erase.mp hq).2
      above := by
        intro q hq
        rw [AList.lookup_erase_ne (h q (AList.mem_erase.mp hq).2)]
        exact t.above q (AList.mem_erase.mp hq).2
      session := by
        intro q hq
        rw [AList.lookup_erase_ne (AList.mem_erase.mp hq).1]
        exact t.session q (AList.mem_erase.mp hq).2 }
  else t

/-- More than there are bytes in any path. -/
def depth (t : ZnodeTree) : ℕ := t.znodes.keys.flatten.length + 1

/-- The depth is enough for all that is under a path: every level down is longer by a byte at least.
-/
theorem length_lt_of_depth_le (t : ZnodeTree) {depth : ℕ} (h : t.depth ≤ depth) (p : List UInt8) :
    ∀ q ∈ t.znodes, Under p q → q.length < p.length + depth := by
  intro q hq _
  have hle := (List.sublist_flatten_of_mem hq).length_le
  rw [ZnodeTree.depth] at h
  omega

/-! ## Children

A znode has its parent in the tree, so whatever is below a path is below one of its children, and
what is alive is alive because of one of them. -/

variable {t t' t'' : ZnodeTree} {p q name : List UInt8}

/-- The parent of a znode is there, and is not ephemeral. -/
theorem parent_of_mem (hname : 47 ∉ name) (h : p ++ 47 :: name ∈ t.znodes) (hp : p ≠ []) :
    t.znodes.lookup p = some .persistent := by
  have habove := t.above _ h
  rw [parent_append_slash p hname] at habove
  exact habove.resolve_left hp

/-- Names of znodes are neither empty nor dots. -/
theorem proper_of_mem (hname : 47 ∉ name) (h : p ++ 47 :: name ∈ t.znodes) :
    GoPath.Proper name := by
  have hpath := (t.path _ h).2
  rwa [GoPath.split_append_slash p hname] at hpath

/-- A path with its last name. -/
theorem exists_name (h : q ∈ t.znodes) : 47 ∉ (GoPath.split q).2 ∧
    q = parent q ++ 47 :: (GoPath.split q).2 ∧ (parent q = [] ∨ parent q ∈ t.znodes) := by
  have hname : 47 ∉ (GoPath.split q).2 := by
    intro hmem
    have hne := List.mem_rtakeWhile_imp hmem
    simp at hne
  refine ⟨hname, (t.path q h).1, (t.above q h).imp_right fun hlookup => ?_⟩
  rw [← AList.lookup_isSome, hlookup]
  rfl

/-- **The way down** from a path to something below it goes through a child. -/
theorem exists_child (hp : p ≠ []) (h : q ∈ t.znodes) (hunder : Under p q) (hne : q ≠ p) :
    ∃ name, 47 ∉ name ∧ p ++ 47 :: name ∈ t.znodes ∧ Under (p ++ 47 :: name) q := by
  -- up from `q`, until the parent is `p`
  induction hlen : q.length using Nat.strong_induction_on generalizing q with
  | _ n ih =>
    obtain ⟨hname, hq, habove⟩ := exists_name h
    rw [hq] at hunder
    obtain heq | hunder := hunder.of_append hname
    · exact absurd (hq.trans heq.symm) hne
    by_cases hparent : parent q = p
    · rw [hparent] at hq
      exact ⟨_, hname, hq ▸ h, hq ▸ .refl _⟩
    · have hmem : parent q ∈ t.znodes := by
        refine habove.resolve_left fun hnil => ?_
        rw [hnil] at hunder
        obtain heq | hbegins := hunder
        · exact hp heq.symm
        · simp at hbegins
      have hless : (parent q).length < n := by
        have := congrArg List.length hq
        simp only [List.length_append, List.length_cons] at this
        omega
      obtain ⟨name, hname', hchild, hbelow⟩ := ih _ hless hmem hunder hparent rfl
      refine ⟨name, hname', hchild, hbelow.trans ?_⟩
      rw [hq, parent_append_slash _ hname]
      exact under_append _ _

/-- By induction on the way down: what has something below it exists. -/
theorem mem_of_under (hp : p ≠ []) (h : q ∈ t.znodes) (hunder : Under p q) : p ∈ t.znodes := by
  by_cases hne : q = p
  · exact hne ▸ h
  · obtain ⟨name, hname, hchild, -⟩ := exists_child hp h hunder hne
    rw [← AList.lookup_isSome, parent_of_mem hname hchild hp]
    rfl

/-- The owner of an ephemeral znode is its session, and sessions are not numbered from zero. -/
theorem owner_ne_zero {session : ℕ} (h : t.znodes.lookup p = some (.ephemeral session)) :
    (Znode.ephemeral session).ephemeralOwner ≠ 0 := by
  rintro (rfl : session = 0)
  exact t.session p (AList.lookup_isSome.mp (h ▸ rfl)) h

/-- What is above something alive is alive. -/
theorem Live.of_under (h : t.Live q) (hunder : Under p q) : t.Live p := by
  obtain ⟨q', session, hq', hlookup⟩ := h
  exact ⟨q', session, hunder.trans hq', hlookup⟩

theorem live_of_ephemeral {session : ℕ} (h : t.znodes.lookup q = some (.ephemeral session)) :
    t.Live q := ⟨q, session, .refl q, h⟩

/-- A persistent znode is alive through its children. -/
theorem live_iff (hp : p ≠ []) (h : t.znodes.lookup p = some .persistent) :
    t.Live p ↔ ∃ name, 47 ∉ name ∧ p ++ 47 :: name ∈ t.znodes ∧ t.Live (p ++ 47 :: name) := by
  constructor
  · rintro ⟨q, session, hunder, hq⟩
    have hne : q ≠ p := by
      rintro rfl
      rw [h] at hq
      cases hq
    have hmem : q ∈ t.znodes := AList.lookup_isSome.mp (hq ▸ rfl)
    obtain ⟨name, hname, hchild, hbelow⟩ := exists_child hp hmem hunder hne
    exact ⟨name, hname, hchild, (live_of_ephemeral hq).of_under hbelow⟩
  · rintro ⟨name, -, -, hlive⟩
    exact hlive.of_under (under_append p name)

/-! ## Taking away

`Swept s t t'`: of the znodes that `s` is about, those that are not alive are gone, and nothing
else has changed. These compose (`trans`), since what is alive does not change under way; the
rest is the recursion of `cleanupTree`, by induction on its depth. -/

/-- What a call leaves: everything but what it was to take away, as far as that is not alive. -/
structure Swept (s : List UInt8 → Prop) (t t' : ZnodeTree) : Prop where
  gone : ∀ q, s q → ¬ t.Live q → t'.znodes.lookup q = none
  kept : ∀ q, (s q → t.Live q) → t'.znodes.lookup q = t.znodes.lookup q

namespace Swept

variable {s s' : List UInt8 → Prop}

theorem lookup_eq (h : Swept s t t') {z : Znode} (hz : t'.znodes.lookup q = some z) :
    t.znodes.lookup q = some z := by
  by_cases hq : s q → t.Live q
  · rw [← h.kept q hq, hz]
  · rw [Classical.not_imp] at hq
    rw [h.gone q hq.1 hq.2] at hz
    cases hz

theorem mem_of_mem (h : Swept s t t') (hq : q ∈ t'.znodes) : q ∈ t.znodes := by
  obtain ⟨z, hz⟩ := Option.isSome_iff_exists.mp (AList.lookup_isSome.mpr hq)
  rw [← AList.lookup_isSome, h.lookup_eq hz]
  rfl

/-- What is ephemeral is never taken away, so the same is alive. -/
theorem live_iff (h : Swept s t t') : t'.Live q ↔ t.Live q := by
  constructor
  · rintro ⟨q', session, hunder, hq'⟩
    exact ⟨q', session, hunder, h.lookup_eq hq'⟩
  · rintro ⟨q', session, hunder, hq'⟩
    exact ⟨q', session, hunder, (h.kept q' fun _ => live_of_ephemeral hq').trans hq'⟩

theorem of_live (h : ∀ q ∈ t.znodes, s q → t.Live q) : Swept s t t where
  gone q hq hlive := by
    rw [AList.lookup_eq_none]
    exact fun hmem => hlive (h q hmem hq)
  kept _ _ := rfl

/-- Nothing is below a znode that does not exist. -/
theorem of_notMem (hp : p ≠ []) (h : p ∉ t.znodes) : Swept (Under p) t t :=
  .of_live fun _ hq hunder => absurd (mem_of_under hp hq hunder) h

/-- Nothing is below an ephemeral znode. -/
theorem of_ephemeral {session : ℕ} (hp : p ≠ [])
    (h : t.znodes.lookup p = some (.ephemeral session)) : Swept (Under p) t t := by
  refine .of_live fun q hq hunder => ?_
  by_cases hne : q = p
  · exact hne ▸ live_of_ephemeral h
  · obtain ⟨name, hname, hchild, -⟩ := exists_child hp hq hunder hne
    rw [parent_of_mem hname hchild hp] at h
    cases h

/-- **One call after another.** -/
theorem trans (h : Swept s t t') (h' : Swept s' t' t'') : Swept (fun q => s q ∨ s' q) t t'' where
  gone q hq hlive := by
    have hlive' : ¬ t'.Live q := mt h.live_iff.mp hlive
    by_cases hs' : s' q
    · exact h'.gone q hs' hlive'
    · rw [h'.kept q fun h => absurd h hs']
      exact h.gone q (hq.resolve_right hs') hlive
  kept q hq := by
    rw [h'.kept q fun hs' => h.live_iff.mpr (hq (.inr hs')), h.kept q fun hs => hq (.inl hs)]

theorem congr (h : Swept s t t') (hs : ∀ q ∈ t.znodes, s' q ↔ s q) : Swept s' t t' := by
  have hnone : ∀ q ∉ t.znodes, t'.znodes.lookup q = none := by
    intro q hq
    rw [AList.lookup_eq_none]
    exact mt h.mem_of_mem hq
  constructor
  · intro q hq hlive
    by_cases hmem : q ∈ t.znodes
    · exact h.gone q ((hs q hmem).mp hq) hlive
    · exact hnone q hmem
  · intro q hq
    by_cases hmem : q ∈ t.znodes
    · exact h.kept q fun h => hq ((hs q hmem).mpr h)
    · rw [hnone q hmem, AList.lookup_eq_none.mpr hmem]

/-- `Delete` of a znode, once all below it is cleaned up. -/
theorem delete (hp : p ≠ []) (hpersistent : t.znodes.lookup p = some .persistent)
    (h : Swept (fun q => Under p q ∧ q ≠ p) t t') : Swept (Under p) t (t'.delete p) := by
  have hlookup : t'.znodes.lookup p = some .persistent := by
    rw [h.kept p fun hs => absurd rfl hs.2, hpersistent]
  rw [ZnodeTree.delete]
  split
  · next hchildless =>
    have hdead : ¬ t.Live p := by
      rw [← h.live_iff, ZnodeTree.live_iff hp hlookup]
      rintro ⟨name, hname, hchild, -⟩
      exact hchildless _ hchild (parent_append_slash p hname)
    constructor
    · intro q hq hlive
      by_cases hne : q = p
      · rw [hne]
        exact AList.lookup_erase p _
      · exact (AList.lookup_erase_ne hne).trans (h.gone q ⟨hq, hne⟩ hlive)
    · intro q hq
      have hne : q ≠ p := by
        rintro rfl
        exact hdead (hq (.refl q))
      exact (AList.lookup_erase_ne hne).trans (h.kept q fun hs => hq hs.1)
  · next hchild =>
    -- a child is left, so it is alive
    push Not at hchild
    obtain ⟨q, hq, rfl⟩ := hchild
    have hlive : t.Live (parent q) := by
      obtain ⟨hname, heq, -⟩ := exists_name hq
      have hunder : Under (parent q) q := by
        nth_rewrite 2 [heq]
        exact under_append _ _
      have hne : q ≠ parent q := by
        intro hself
        have := congrArg List.length heq
        simp only [List.length_append, List.length_cons] at this
        rw [← hself] at this
        omega
      by_contra hdead
      have hgone := h.gone q ⟨hunder, hne⟩ fun hlive => hdead (hlive.of_under hunder)
      rw [AList.lookup_eq_none] at hgone
      exact hgone hq
    constructor
    · intro q' hq' hdead
      refine h.gone q' ⟨hq', ?_⟩ hdead
      rintro rfl
      exact hdead hlive
    · intro q' hq'
      exact h.kept q' fun hs => hq' hs.1

end Swept

end ZnodeTree

end ZooKeeper

namespace Sequins

open ZooKeeper

/-- How `Children` lists the names of the children, in some order. -/
structure ChildNames where
  children : ZnodeTree → Bytes → List Bytes
  mem_children : ∀ t p name, name ∈ children t p ↔ 47 ∉ name ∧ p ++ 47 :: name ∈ t.znodes

namespace ChildNames

variable (names : ChildNames)

/-- `cleanupTree`, which calls itself to the given depth at most. -/
def cleanupTree : ℕ → Bytes → ZnodeTree → ZnodeTree
  | 0, _, t => t
  | depth + 1, node, t =>
    match t.znodes.lookup node with
    | none => t
    | some znode =>
      if znode.ephemeralOwner ≠ 0 then t
      else
        ((names.children t node).foldl
          (fun t child => cleanupTree depth (GoPath.join [node, child]) t) t).delete node

/-- The calls for some children, one after the other. -/
theorem swept_foldl {node : Bytes} {children : List Bytes} {t : ZnodeTree}
    {f : ZnodeTree → Bytes → ZnodeTree}
    (hf : ∀ t', (∀ q ∈ t'.znodes, q ∈ t.znodes) → ∀ child ∈ children,
      ZnodeTree.Swept (Under (node ++ 47 :: child)) t' (f t' child)) :
    ZnodeTree.Swept (fun q => ∃ child ∈ children, Under (node ++ 47 :: child) q) t
      (children.foldl f t) := by
  induction children generalizing t with
  | nil => exact .of_live (by simp)
  | cons child children ih =>
    have hfirst := hf t (fun _ => id) child (List.mem_cons_self ..)
    have hrest := ih fun t' hsub child' hchild' =>
      hf t' (fun q hq => hfirst.mem_of_mem (hsub q hq)) child' (List.mem_cons_of_mem _ hchild')
    refine (hfirst.trans hrest).congr fun q _ => ?_
    simp only [List.mem_cons, exists_eq_or_imp]

/-- `path.Join` of a clean path and a name puts a slash between them. -/
theorem join_child {node child : Bytes} (hnode : GoPath.Named node ∧ GoPath.clean node = node)
    (hchild : GoPath.Proper child) (hslash : 47 ∉ child) :
    GoPath.join [node, child] = node ++ 47 :: child := by
  have hone : GoPath.join [node] = node := by rw [GoPath.join_singleton hnode.1.1, hnode.2]
  have hnamed : GoPath.Named (GoPath.join [node]) := by
    rw [hone]
    exact hnode.1
  have hconcat := GoPath.join_concat hchild hslash hnamed
  rwa [hone] at hconcat

/-- What is below a znode is under one of its children. -/
theorem under_children_iff {node q : Bytes} {t : ZnodeTree} (hnode : node ≠ [])
    (hq : q ∈ t.znodes) :
    (Under node q ∧ q ≠ node) ↔
      ∃ child ∈ names.children t node, Under (node ++ 47 :: child) q := by
  constructor
  · rintro ⟨hunder, hne⟩
    obtain ⟨name, hname, hchild, hbelow⟩ := ZnodeTree.exists_child hnode hq hunder hne
    exact ⟨name, (names.mem_children t node name).mpr ⟨hname, hchild⟩, hbelow⟩
  · rintro ⟨name, -, hbelow⟩
    refine ⟨(under_append node name).trans hbelow, ?_⟩
    rintro rfl
    have hlen := hbelow.length_le
    simp at hlen

/-- **What `cleanupTree` takes away**, if its depth is enough for what is under its znode. -/
theorem swept_cleanupTree {depth : ℕ} {node : Bytes} {t : ZnodeTree}
    (hnode : GoPath.Named node ∧ GoPath.clean node = node)
    (hdepth : ∀ q ∈ t.znodes, Under node q → q.length < node.length + depth) :
    ZnodeTree.Swept (Under node) t (names.cleanupTree depth node t) := by
  induction depth generalizing node t with
  | zero =>
    refine .of_notMem hnode.1.1 fun hmem => ?_
    have hself := hdepth node hmem (.refl node)
    omega
  | succ depth ih =>
    have hcalls : ZnodeTree.Swept
        (fun q => ∃ child ∈ names.children t node, Under (node ++ 47 :: child) q) t
        ((names.children t node).foldl
          (fun t child => names.cleanupTree depth (GoPath.join [node, child]) t) t) := by
      refine swept_foldl fun t' hsub child hchild => ?_
      obtain ⟨hslash, hmem⟩ := (names.mem_children t node child).mp hchild
      have hproper := ZnodeTree.proper_of_mem hslash hmem
      have hclean : GoPath.clean (node ++ 47 :: child) = node ++ 47 :: child := by
        rw [GoPath.clean_append_slash hnode.1.1 hproper hslash (by rw [hnode.2]; exact hnode.1),
          hnode.2]
      rw [join_child hnode hproper hslash]
      refine ih ⟨GoPath.named_append_slash hproper.1, hclean⟩ fun q hq hunder => ?_
      have hless := hdepth q (hsub q hq) ((under_append node child).trans hunder)
      rw [List.length_append, List.length_cons]
      omega
    rw [cleanupTree]
    split
    · next hnone => exact .of_notMem hnode.1.1 (AList.lookup_eq_none.mp hnone)
    · next znode hznode =>
      cases znode with
      | ephemeral session =>
        rw [if_pos (ZnodeTree.owner_ne_zero hznode)]
        exact .of_ephemeral hnode.1.1 hznode
      | persistent =>
        exact .delete hnode.1.1 hznode
          (hcalls.congr fun q hq => names.under_children_iff hnode.1.1 hq)

end ChildNames

/-- **A cleanup keeps exactly what is alive.** Of the znodes under the prefix those stay that are
ephemeral, or have an ephemeral one below them, and all others stay anyway. What stays is what it
was. -/
theorem cleanup_keeps_live (names : ChildNames) (t : ZnodeTree) (root : Bytes)
    (hroot : GoPath.Named root ∧ GoPath.clean root = root) (depth : ℕ) (hdepth : t.depth ≤ depth) :
    (∀ q, q ∈ (names.cleanupTree depth root t).znodes ↔
      q ∈ t.znodes ∧ (Under root q → t.Live q)) ∧
    ∀ q ∈ (names.cleanupTree depth root t).znodes,
      (names.cleanupTree depth root t).znodes.lookup q = t.znodes.lookup q := by
  have hswept := names.swept_cleanupTree hroot (t.length_lt_of_depth_le hdepth root)
  have hkept : ∀ q ∈ (names.cleanupTree depth root t).znodes, Under root q → t.Live q := by
    intro q hq hunder
    by_contra hdead
    exact AList.lookup_eq_none.mp (hswept.gone q hunder hdead) hq
  refine ⟨fun q => ⟨fun hq => ⟨hswept.mem_of_mem hq, hkept q hq⟩, ?_⟩, fun q hq => ?_⟩
  · rintro ⟨hmem, hlive⟩
    rwa [← AList.lookup_isSome, hswept.kept q hlive, AList.lookup_isSome]
  · exact hswept.kept q (hkept q hq)

/-- The children as they are stored. -/
def ChildNames.stored : ChildNames where
  children t p := t.znodes.keys.filterMap fun q =>
    if parent q = p then some (GoPath.split q).2 else none
  mem_children t p name := by
    simp only [List.mem_filterMap, Option.ite_none_right_eq_some, Option.some.injEq]
    constructor
    · rintro ⟨q, hq, rfl, rfl⟩
      obtain ⟨hname, heq, -⟩ := ZnodeTree.exists_name hq
      exact ⟨hname, heq ▸ hq⟩
    · rintro ⟨hname, hmem⟩
      refine ⟨p ++ 47 :: name, hmem, parent_append_slash p hname, ?_⟩
      rw [GoPath.split_append_slash p hname]

/-- `/p`, with `/p/a` and the ephemeral `/p/b`, and `/q`. -/
def smallTree : ZnodeTree where
  znodes := ⟨[⟨[47, 112], .persistent⟩, ⟨[47, 112, 47, 97], .persistent⟩,
    ⟨[47, 112, 47, 98], .ephemeral 7⟩, ⟨[47, 113], .persistent⟩],
    List.nodup_iff_pairwise_ne.mpr (by decide)⟩
  path := by decide
  above := by decide
  session := by decide

/-- A cleanup of `/p` takes `/p/a` away, and leaves `/p` and `/q`. -/
theorem cleanup_keeps_live_small :
    [47, 112] ∈ (ChildNames.stored.cleanupTree 20 [47, 112] smallTree).znodes ∧
      [47, 112, 47, 97] ∉ (ChildNames.stored.cleanupTree 20 [47, 112] smallTree).znodes ∧
      [47, 113] ∈ (ChildNames.stored.cleanupTree 20 [47, 112] smallTree).znodes := by
  have h := (cleanup_keeps_live .stored smallTree [47, 112] (by decide) 20 (by decide)).1
  rw [h, h, h]
  decide

end Sequins
