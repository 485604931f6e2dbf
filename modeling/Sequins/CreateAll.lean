import Sequins.GoFilePath
import Sequins.ZkCalls

/-!
# Making a path

`createAll` makes a znode and all that is above it, from the root down. For what is above, it calls
itself with what `path.Split` leaves of the clean path, with the slash at the end. That is not a
clean path, but it has one name less (`upward`).

* `CreatesAll` is the function as it runs, with no bound on how often it calls itself. It comes to
  an end for every path from the root, with what `createAll` has (`createsAll_iff`).
* A server that keeps a tree (`TreeServer`) may fail at any call, before the znode is made or after.
  What is left behind is then the upper part of the way down to the path
  (`createAll_makes_chain`).
* A call is made only if the znode above is there, so nothing but such a failure is ever an error
  (`createAll_succeeds`).
-/

namespace Sequins

open ZooKeeper GoPath

/-! ## Going up

`path.Split` of a clean path is its directory, with the slash, and its last name. The directory
is clean but for that slash, so the recursion is on the number of parts of the path and not on
its text. -/

/-- `base` of `createAll` -/
def baseOf (node : Bytes) : Bytes := (split (clean node)).1

/-- Whether `createAll` calls itself. -/
def goesUp (node : Bytes) : Bool := baseOf node != [] && baseOf node != [47]

/-- Where a path from the root leads to. -/
inductive Upward (node : Bytes) : Prop
  /-- to the root, or it is the root -/
  | top (hup : goesUp node = false) (hchain : chain node = [clean node])
      (hparent : parent (clean node) = [])
  /-- to a path with one name less -/
  | above (hup : goesUp node = true) (hbase : (baseOf node).head? = some 47)
      (hless : (parts (baseOf node)).length < (parts node).length)
      (hchain : chain node = chain (baseOf node) ++ [clean node])
      (hparent : parent (clean node) = clean (baseOf node))

/-- By the parts of the path: none, one, or more. -/
theorem upward {node : Bytes} (hnode : node.head? = some 47) : Upward node := by
  rcases eq_or_ne (parts node) [] with hroot | hne
  · have hclean : clean node = [47] := (clean_eq_root_iff hnode).mpr hroot
    refine .top ?_ (chain_of_top ?_) ?_
    · rw [goesUp, baseOf, hclean]
      rfl
    · rw [hroot]
      rfl
    · rw [hclean]
      rfl
  obtain ⟨dir, name, hclean, hslash, hrooted, hparts, hdir⟩ := exists_above hnode hne
  have hbase : baseOf node = dir ++ [47] := by
    rw [baseOf, hclean, split_append_slash dir hslash]
  have hparent : parent (clean node) = dir := by
    rw [hclean, parent_append_slash dir hslash]
  obtain rfl | ⟨hdir, hnames⟩ := hdir
  · refine .top ?_ (chain_of_top ?_) hparent
    · rw [goesUp, hbase]
      rfl
    · rw [hparts, List.dropLast_concat]
      rfl
  · have hdirne : dir ≠ [] := by
      rintro rfl
      exact hnames rfl
    refine .above ?_ (hbase ▸ hrooted) ?_ ?_ ?_
    · rw [goesUp, hbase]
      simpa using hdirne
    · rw [hbase, hparts, List.length_append]
      exact Nat.lt_succ_self _
    · rw [hbase]
      exact chain_of_above hrooted hparts hnames
    · rw [hbase, hdir, hparent]

/-- A path is under itself, and under what its parent is under. -/
theorem under_iff_parent {p q : Bytes} (hq : q.head? = some 47) :
    Under p q ↔ p = q ∨ Under p (parent q) := by
  obtain ⟨dir, -, heq, hname⟩ := exists_split hq
  have hparent : parent q = dir := by
    rw [heq]
    exact parent_append_slash dir hname
  rw [hparent]
  constructor
  · intro h
    rw [heq] at h ⊢
    exact h.of_append hname
  · rintro (rfl | h)
    · exact .refl p
    · rw [heq]
      exact h.trans (under_append dir _)

/-- What is on the way down to a path: all that it is under, but for the root. -/
theorem mem_chain_iff {node : Bytes} (hnode : node.head? = some 47) (p : Bytes) :
    p ∈ chain node ↔ p ≠ [] ∧ Under p (clean node) := by
  -- up to the root, as the calls go
  induction hlen : (parts node).length using Nat.strong_induction_on generalizing node with
  | _ n ih =>
    have hself : clean node ≠ [] := by
      rw [clean_of_rooted hnode]
      exact List.cons_ne_nil _ _
    rw [under_iff_parent (head_clean hnode)]
    cases upward hnode with
    | top _ hchain hparent =>
      have hroot : Under p [] → p = [] := fun h => List.eq_nil_of_length_eq_zero
        (Nat.le_zero.mp h.length_le)
      rw [hchain, hparent, List.mem_singleton]
      constructor
      · rintro rfl
        exact ⟨hself, .inl rfl⟩
      · rintro ⟨hp, rfl | h⟩
        · rfl
        · exact absurd (hroot h) hp
    | above _ hbase hless hchain hparent =>
      have hmem : p ∈ chain (baseOf node) ↔ p ≠ [] ∧ Under p (clean (baseOf node)) :=
        ih _ (hlen ▸ hless) hbase rfl
      rw [hchain, hparent, List.mem_append, List.mem_singleton, hmem]
      constructor
      · rintro (⟨hp, h⟩ | rfl)
        · exact ⟨hp, .inr h⟩
        · exact ⟨hself, .inl rfl⟩
      · rintro ⟨hp, rfl | h⟩
        · exact .inr rfl
        · exact .inl ⟨hp, h⟩

/-! ## Running it -/

namespace ZkServer

variable {σ : Type*} (server : ZkServer σ)

/-- The end of `createAll`, when what is above is there. -/
def createOne (node : Bytes) (c : ZkConn σ) : Option ErrorCode × ZkConn σ :=
  let (err, c) := server.callCreate (clean node) false c
  if err.isSome && !isNodeExists err then (err, c) else (none, c)

/-- A znode that exists already is no error. -/
theorem fst_createOne (node : Bytes) (c : ZkConn σ) : (server.createOne node c).1 =
    (server.answerCreate (clean node) false c.state).1.filter (· != .nodeExists) := by
  rw [createOne, callCreate]
  rcases server.answerCreate (clean node) false c.state with ⟨_ | e, s⟩
  · rfl
  · cases e <;> rfl

theorem state_createOne (node : Bytes) (c : ZkConn σ) : (server.createOne node c).2.state =
    (server.answerCreate (clean node) false c.state).2 := by
  rw [createOne, callCreate]
  dsimp only
  split <;> rfl

/-- `createAll` as it runs, when it does come to an end. -/
inductive CreatesAll : Bytes → ZkConn σ → Option ErrorCode × ZkConn σ → Prop
  | top {node : Bytes} {c : ZkConn σ} (hup : goesUp node = false) :
      CreatesAll node c (server.createOne node c)
  | made {node : Bytes} {c c' : ZkConn σ} (hup : goesUp node = true)
      (habove : CreatesAll (baseOf node) c (none, c')) :
      CreatesAll node c (server.createOne node c')
  | failed {node : Bytes} {c c' : ZkConn σ} {e : ErrorCode} (hup : goesUp node = true)
      (habove : CreatesAll (baseOf node) c (some e, c')) : CreatesAll node c (some e, c')

variable {server} {node : Bytes} {c : ZkConn σ} {r r' : Option ErrorCode × ZkConn σ}

/-- By induction on the run: the server answers a call in one way. -/
theorem CreatesAll.unique (h : server.CreatesAll node c r) (h' : server.CreatesAll node c r') :
    r = r' := by
  induction h generalizing r' with
  | top hup =>
    cases h' with
    | top => rfl
    | made hup' | failed hup' => cases hup.symm.trans hup'
  | made hup _ ih =>
    cases h' with
    | top hup' => cases hup.symm.trans hup'
    | made _ habove' =>
      cases ih habove'
      rfl
    | failed _ habove' => cases ih habove'
  | failed hup _ ih =>
    cases h' with
    | top hup' => cases hup.symm.trans hup'
    | made _ habove' => cases ih habove'
    | failed _ habove' =>
      cases ih habove'
      rfl

theorem createAllTo_eq_ite (depth : ℕ) (node : Bytes) (c : ZkConn σ) :
    server.createAllTo (depth + 1) node c =
      match if goesUp node then server.createAllTo depth (baseOf node) c else (none, c) with
      | (some e, c) => (some e, c)
      | (none, c) => server.createOne node c := rfl

/-- **`createAll` comes to an end**, for a path from the root. -/
theorem createsAll_createAllTo {depth : ℕ} (hnode : node.head? = some 47)
    (hdepth : (parts node).length < depth) (c : ZkConn σ) :
    server.CreatesAll node c (server.createAllTo depth node c) := by
  induction depth generalizing node c with
  | zero => exact absurd hdepth (Nat.not_lt_zero _)
  | succ depth ih =>
    rw [createAllTo_eq_ite]
    cases upward hnode with
    | top hup =>
      rw [hup]
      exact .top hup
    | above hup hbase hless =>
      have habove := ih hbase (by omega) c
      rw [if_pos hup]
      rcases hcall : server.createAllTo depth (baseOf node) c with ⟨_ | e, c'⟩
      · exact .made hup (hcall ▸ habove)
      · exact .failed hup (hcall ▸ habove)

/-- And there is one result, which `createAll` has. -/
theorem createsAll_iff (hnode : node.head? = some 47) :
    server.CreatesAll node c r ↔ r = server.createAll node c := by
  have hrun : server.CreatesAll node c (server.createAll node c) :=
    createsAll_createAllTo hnode (Nat.lt_succ_of_le (length_parts_le hnode)) c
  constructor
  · intro h
    exact h.unique hrun
  · rintro rfl
    exact hrun

end ZkServer

/-! ## Servers that may fail

A call can be lost before the server makes the znode or after. Either way `createAll` stops, so
what is there is a prefix of the way down. `Makes` says this of any list of paths, and a path is
added at its end when `createAll` comes back from above. -/

/-- What a tree has to do with the answer to `Create`, for a persistent znode. A call may fail for
any reason, with nothing done or with the znode created, but only a znode that is there is said to
be there. -/
inductive Asked (t : Tree) (p : Bytes) : Option ErrorCode → Tree → Prop
  | created {t' : Tree} (hcreate : t.create p .persistent = .ok t') : Asked t p none t'
  | found (hpresent : t.present p) : Asked t p (some .nodeExists) t
  | failed {e : ErrorCode} (he : e ≠ .nodeExists) : Asked t p (some e) t
  | lost {e : ErrorCode} {t' : Tree} (he : e ≠ .nodeExists)
      (hcreate : t.create p .persistent = .ok t') : Asked t p (some e) t'

/-- A server that keeps a tree, which nobody else writes to. -/
structure TreeServer (σ : Type*) extends ZkServer σ where
  tree : σ → Tree
  asked : ∀ p s, Asked (tree s) p (answerCreate p false s).1 (tree (answerCreate p false s).2)

namespace TreeServer

variable {σ : Type*} (server : TreeServer σ)

/-- What is left behind on the way down through some paths: all of them, or the upper ones, and then
there is a call that failed, with what is above it there. -/
inductive Makes (t : Tree) (paths : List Bytes) : Option ErrorCode → Tree → Prop
  | all : Makes t paths none (t.fill paths)
  | upper {made : List Bytes} {e : ErrorCode} {p : Bytes} {s : σ} (hmade : made <+: paths)
      (hcall : (server.answerCreate p false s).1 = some e) (he : e ≠ .nodeExists)
      (hparent : (server.tree s).present (parent p)) : Makes t paths (some e) (t.fill made)

variable {server} {node : Bytes} {c : ZkConn σ} {t : Tree} {paths : List Bytes}

/-- Without an error, all of it is there. -/
theorem Makes.tree_eq {t' : Tree} (h : server.Makes t paths none t') : t' = t.fill paths := by
  cases h
  rfl

/-- After an error, nothing more is made. -/
theorem Makes.concat {t' : Tree} {e : ErrorCode} (h : server.Makes t paths (some e) t')
    (p : Bytes) : server.Makes t (paths ++ [p]) (some e) t' := by
  cases h with
  | upper hmade hcall he hparent =>
    exact .upper (hmade.trans (List.prefix_append _ _)) hcall he hparent

/-- **One step down.** -/
theorem makes_createOne (ht : server.tree c.state = t.fill paths)
    (hparent : (t.fill paths).present (parent (clean node))) :
    server.Makes t (paths ++ [clean node]) (server.createOne node c).1
      (server.tree (server.createOne node c).2.state) := by
  have hfilter : ∀ {e : ErrorCode}, e ≠ .nodeExists →
      (some e).filter (· != .nodeExists) = some e := by
    intro e he
    simpa using he
  have hasked := server.asked (clean node) c.state
  rw [ht] at hasked
  rw [ZkServer.fst_createOne, ZkServer.state_createOne]
  generalize hcall : (server.answerCreate (clean node) false c.state).1 = err at hasked ⊢
  generalize server.tree (server.answerCreate (clean node) false c.state).2 = t' at hasked ⊢
  cases hasked with
  | created hcreate =>
    rw [Tree.fill_concat_of_create hcreate]
    exact .all
  | found hpresent =>
    rw [← Tree.fill_concat_of_present hpresent]
    exact .all
  | failed he =>
    rw [hfilter he]
    exact .upper (List.prefix_append _ _) hcall he (ht ▸ hparent)
  | lost he hcreate =>
    rw [hfilter he, Tree.fill_concat_of_create hcreate]
    exact .upper (List.prefix_refl _) hcall he (ht ▸ hparent)

/-- **All the way down.** -/
theorem makes_of_createsAll {r : Option ErrorCode × ZkConn σ} (h : server.CreatesAll node c r)
    (hnode : node.head? = some 47) :
    server.Makes (server.tree c.state) (chain node) r.1 (server.tree r.2.state) := by
  induction h with
  | @top node c hup =>
    cases upward hnode with
    | above hup' => cases hup.symm.trans hup'
    | top _ hchain hparent =>
      have htree : server.tree c.state = (server.tree c.state).fill [] := (Tree.fill_nil _).symm
      rw [hchain]
      refine makes_createOne htree ?_
      rw [hparent]
      rfl
  | @made node c c' hup _ ih =>
    cases upward hnode with
    | top hup' => cases hup.symm.trans hup'
    | above _ hbase _ hchain hparent =>
      have hmem : clean (baseOf node) ∈ chain (baseOf node) := List.mem_concat_self
      rw [hchain]
      refine makes_createOne (ih hbase).tree_eq ?_
      rw [Tree.present_fill, hparent, List.contains_iff_mem.mpr hmem, Bool.or_true]
  | @failed node c c' e hup _ ih =>
    cases upward hnode with
    | top hup' => cases hup.symm.trans hup'
    | above _ hbase _ hchain =>
      rw [hchain]
      exact (ih hbase).concat _

variable (server) in
theorem makes_createAll (hnode : node.head? = some 47) (c : ZkConn σ) :
    server.Makes (server.tree c.state) (chain node) (server.createAll node c).1
      (server.tree (server.createAll node c).2.state) :=
  makes_of_createsAll ((ZkServer.createsAll_iff hnode).mpr rfl) hnode

/-- **Parents come first.** Where `Create` fails only for a missing parent, or for a znode that is
there, `createAll` does not fail. -/
theorem createAll_succeeds (hnode : node.head? = some 47) (c : ZkConn σ)
    (hquiet : ∀ p s e, (server.tree s).present (parent p) →
      (server.answerCreate p false s).1 = some e → e = .nodeExists) :
    (server.createAll node c).1 = none := by
  have hmakes := server.makes_createAll hnode c
  generalize server.tree (server.createAll node c).2.state = t' at hmakes
  cases herr : (server.createAll node c).1 with
  | none => rfl
  | some e =>
    rw [herr] at hmakes
    cases hmakes with
    | upper _ hcall he hparent => exact absurd (hquiet _ _ _ hparent hcall) he

end TreeServer

/-- **The way down, exactly.** For a path from the root, with whatever slashes and dots, and
whatever calls fail, `createAll` comes to an end with one result. Without an error, the path and all
that is above it are there, and what was missing of them is all that was made. With an error, what
was missing of an upper part of the way down is all that was made. -/
theorem createAll_makes_chain {σ : Type*} (server : TreeServer σ) {node : Bytes}
    (hnode : node.head? = some 47) (c : ZkConn σ) :
    (∀ r, server.CreatesAll node c r ↔ r = server.createAll node c) ∧
    ((server.createAll node c).1 = none →
      (∀ p, Under p (clean node) →
        (server.tree (server.createAll node c).2.state).present p = true) ∧
      server.tree (server.createAll node c).2.state = (server.tree c.state).fill (chain node)) ∧
    ∀ e, (server.createAll node c).1 = some e → ∃ made, made <+: chain node ∧
      server.tree (server.createAll node c).2.state = (server.tree c.state).fill made := by
  have hmakes := server.makes_createAll hnode c
  refine ⟨fun r => ZkServer.createsAll_iff hnode, fun hnone => ?_, fun e herr => ?_⟩
  · rw [hnone] at hmakes
    refine ⟨fun p hp => ?_, hmakes.tree_eq⟩
    rw [hmakes.tree_eq, Tree.present_fill]
    rcases eq_or_ne p [] with rfl | hne
    · rfl
    · rw [List.contains_iff_mem.mpr ((mem_chain_iff hnode p).mpr ⟨hne, hp⟩), Bool.or_true]
  · rw [herr] at hmakes
    generalize server.tree (server.createAll node c).2.state = t' at hmakes ⊢
    cases hmakes with
    | upper hmade => exact ⟨_, hmade, rfl⟩

namespace TreeServer

/-- A server that fails only where the tree says so. -/
def ofTree (session : ℕ) (list : Bytes → Tree → Except ErrorCode Listing) : TreeServer Tree where
  toZkServer := .ofTree session list
  tree := id
  asked := by
    intro p t
    simp only [ZkServer.ofTree, cond_false, id]
    rcases hcreate : t.create p .persistent with (_ | _) | t'
    · exact .found (Tree.present_of_nodeExists hcreate)
    · exact .failed ErrorCode.noConfusion
    · exact .created hcreate

/-- There, `createAll` makes every path. -/
theorem createAll_ofTree (session : ℕ) (list : Bytes → Tree → Except ErrorCode Listing)
    {node : Bytes} (hnode : node.head? = some 47) (c : ZkConn Tree) :
    ((ofTree session list).createAll node c).1 = none := by
  refine createAll_succeeds hnode c fun p t e hparent hcall => ?_
  simp only [ofTree, ZkServer.ofTree, cond_false, id] at hparent hcall
  rcases hcreate : t.create p .persistent with (_ | _) | t'
  · rw [hcreate] at hcall
    exact (Option.some.inj hcall).symm
  · rw [Tree.parent_of_noNode hcreate] at hparent
    cases hparent
  · rw [hcreate] at hcall
    cases hcall

/-- A server of which some calls of `Create`, by their numbers, fail, too. -/
def failing {σ : Type*} (server : TreeServer σ) (fails : ℕ → Option ErrorCode)
    (hfails : ∀ n, fails n ≠ some .nodeExists) : TreeServer (σ × ℕ) where
  answerCreate node ephemeral s :=
    match fails s.2 with
    | some e => (some e, s.1, s.2 + 1)
    | none =>
      let (err, state) := server.answerCreate node ephemeral s.1
      (err, state, s.2 + 1)
  answerChildrenW node s :=
    let (reply, state) := server.answerChildrenW node s.1
    (reply, state, s.2)
  tree s := server.tree s.1
  asked := by
    rintro p ⟨state, n⟩
    cases hn : fails n with
    | some e =>
      have he : e ≠ .nodeExists := by
        rintro rfl
        exact hfails n hn
      exact .failed he
    | none => exact server.asked p state

end TreeServer

/-- A server that fails at the third call. -/
def thirdFails : TreeServer (Tree × ℕ) :=
  (TreeServer.ofTree 1 listNone).failing (fun n => if n = 2 then some (.other (-4)) else none) (by
    intro n
    split
    · rintro ⟨⟩
    · rintro ⟨⟩)

/-- `/a//./b/c/` -/
def untidyPath : Bytes := [47, 97, 47, 47, 46, 47, 98, 47, 99, 47]

/-- In an empty tree, `/a` and `/a/b` are made, and `/a/b/c` is not. -/
theorem createAll_makes_chain_third :
    (thirdFails.createAll untidyPath ⟨(fun _ => none, 0), []⟩).1 = some (.other (-4)) ∧
      (chain untidyPath).map (thirdFails.tree
        (thirdFails.createAll untidyPath ⟨(fun _ => none, 0), []⟩).2.state).present =
          [true, true, false] ∧
      ∃ made, made <+: chain untidyPath ∧
        thirdFails.tree (thirdFails.createAll untidyPath ⟨(fun _ => none, 0), []⟩).2.state =
          Tree.fill (fun _ => none) made :=
  ⟨by decide, by decide,
    (createAll_makes_chain thirdFails (show untidyPath.head? = some 47 from rfl) _).2.2
      (.other (-4)) (by decide)⟩

end Sequins
