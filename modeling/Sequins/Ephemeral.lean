import Sequins.CreateAll
import Mathlib.Data.Finset.Basic

/-!
# Ephemeral znodes

The half of `zk_watcher.go` that keeps ephemeral znodes, over one session on a server that nobody
else writes to (`ZkServer.ofTree`). Parents that are missing are created on the way (`createAll`),
from the root down. An error other than a missing parent is handed to the run loop, which then
drops the connection and everything that depends on it; a znode that exists already is such an
error (`ZkSession.createEphemeral_of_isSome`).
-/

namespace Sequins

open ZooKeeper

/-- `sendErr`: the channel has room for one error, and others are discarded. -/
def sendErr (errs : List ZkFailure) (e : ZkFailure) : List ZkFailure :=
  if errs.length < 1 then errs ++ [e] else errs

/-- `zkWatcher`, as far as ephemeral znodes go, in one session. -/
structure ZkSession where
  /-- `prefix`, a keyword here -/
  root : Bytes
  /-- the session that owns what it creates -/
  session : ℕ
  /-- the server's znodes -/
  tree : Tree
  /-- what is created again after a reconnect -/
  ephemeralNodes : Finset Bytes
  /-- what the run loop has to read; an error here tears the connection down -/
  errs : List ZkFailure

namespace ZkSession

/-- The server. No children are listed here. -/
def server (w : ZkSession) : ZkServer Tree := .ofTree w.session listNone

/-- `createEphemeral`. -/
def createEphemeral (w : ZkSession) (node : Bytes) : ZkSession :=
  let node := GoPath.join [w.root, node]
  let (err, c) := w.server.hookCreateEphemeral node ⟨w.tree, []⟩
  { w with
    tree := c.state
    ephemeralNodes := insert node w.ephemeralNodes
    errs := match err with
      | none => w.errs
      | some e => sendErr w.errs e }

/-- `removeEphemeral`. -/
def removeEphemeral (w : ZkSession) (node : Bytes) : ZkSession :=
  let node := GoPath.join [w.root, node]
  { w with tree := w.tree.delete node, ephemeralNodes := w.ephemeralNodes.erase node }

end ZkSession

/-! ## Parents -/

section Node

variable {parts : List Bytes} {dir name : Bytes}

/-- A directory without the slash at its end is clean, unless it is the root. -/
theorem clean_dir_slash (hparts : GoPath.Settled true parts)
    (hdir : GoPath.dirOf true parts = dir ++ [47]) :
    GoPath.clean (dir ++ [47]) = if dir = [] then [47] else dir := by
  rw [← hdir, GoPath.clean_dirOf hparts]
  cases parts with
  | nil =>
    have hnil : [] ++ [47] = dir ++ [47] := hdir
    rw [← List.append_cancel_right hnil]
    rfl
  | cons part parts =>
    have hpart := (hparts.proper (List.mem_cons_self ..)).1
    rw [GoPath.dirOf_cons] at hdir
    rw [GoPath.ofParts_cons _ _ hpart, List.append_cancel_right hdir, if_neg]
    rw [← List.append_cancel_right hdir]
    exact List.append_ne_nil_of_right_ne_nil _ hpart

section Tree

variable (session : ℕ) (list : Bytes → Tree → Except ErrorCode Listing)

/-- **`createAll` makes a directory**: it does not fail, the directory is there, and nothing but
persistent znodes above it was added. -/
theorem createAll_dir (hparts : GoPath.Settled true parts)
    (hdir : GoPath.dirOf true parts = dir ++ [47]) (c : ZkConn Tree) :
    ∃ c', (ZkServer.ofTree session list).createAll (dir ++ [47]) c = (none, c') ∧
      Tree.Filled (dir ++ [47]).length c.state c'.state ∧ c'.state.present dir := by
  have hnode : (dir ++ [47]).head? = some 47 := hdir ▸ rfl
  have hclean := clean_dir_slash hparts hdir
  have hnone := TreeServer.createAll_ofTree session list hnode c
  have hmakes := (TreeServer.ofTree session list).makes_createAll hnode c
  rw [hnone] at hmakes
  have htree : ((ZkServer.ofTree session list).createAll (dir ++ [47]) c).2.state =
      c.state.fill (GoPath.chain (dir ++ [47])) := hmakes.tree_eq
  refine ⟨_, Prod.ext hnone rfl, ?_⟩
  rw [htree, Tree.present_fill]
  refine ⟨Tree.filled_fill fun p hp => ?_, ?_⟩
  · -- what is above the directory is shorter, and the root is there
    obtain ⟨hne, hunder⟩ := (mem_chain_iff hnode p).mp hp
    rw [hclean] at hunder
    split at hunder
    · obtain rfl | hbegins := hunder
      · exact .inl rfl
      · have hlength := hbegins.length_le
        rw [List.length_append] at hlength
        exact absurd (List.length_eq_zero_iff.mp (Nat.le_zero.mp (Nat.le_of_succ_le_succ hlength)))
          hne
    · refine .inr (hunder.length_le.trans_lt ?_)
      rw [List.length_append]
      exact Nat.lt_succ_self _
  · by_cases hroot : dir = []
    · rw [hroot]
      rfl
    · rw [if_neg hroot] at hclean
      have hmem : dir ∈ GoPath.chain (dir ++ [47]) := by
        rw [GoPath.chain, hclean]
        exact List.mem_concat_self
      rw [List.contains_iff_mem.mpr hmem, Bool.or_true]

/-! ## One znode

A znode that exists makes an error, which is not retried. One that does not exist is created at
once, or at the second try if its directory was missing: `createAll` does not fail on a healthy
server, so the other tries are never needed. -/

/-- A path with a name is not the root. -/
theorem present_append_slash (hname : name ≠ []) (t : Tree) :
    t.present (dir ++ 47 :: name) = (t (dir ++ 47 :: name)).isSome := by
  have hpos : 0 < name.length := List.length_pos_iff.mpr hname
  refine Tree.present_eq ?_
  simp only [List.length_append, List.length_cons]
  omega

/-- A znode that exists is an error, and not the one that is retried. -/
theorem hookCreateEphemeral_of_isSome (hname : name ≠ []) {c : ZkConn Tree}
    (h : (c.state (dir ++ 47 :: name)).isSome) :
    ∃ c', (ZkServer.ofTree session list).hookCreateEphemeral (dir ++ 47 :: name) c =
      (some (.call .nodeExists), c') ∧ c'.state = c.state := by
  have hpresent : c.state.present (dir ++ 47 :: name) := by rwa [present_append_slash hname]
  rw [ZkServer.hookCreateEphemeral, maxCreateRetries, ZkServer.createRetrying,
    ZkServer.callCreate_ofTree, Tree.create_of_present hpresent]
  exact ⟨_, rfl, rfl⟩

/-- With the directory there, a znode is created at the first try. -/
theorem createRetrying_of_present (hname : name ≠ []) (hslash : 47 ∉ name) (retries : ℕ)
    {c : ZkConn Tree} (hdir : c.state.present dir) (h : c.state (dir ++ 47 :: name) = none) :
    ∃ c', (ZkServer.ofTree session list).createRetrying (dir ++ 47 :: name) (retries + 1) c =
        (none, c') ∧
      c'.state = Function.update c.state (dir ++ 47 :: name) (some (.ephemeral session)) := by
  have habsent : c.state.present (dir ++ 47 :: name) = false := by
    rw [present_append_slash hname, h]
    rfl
  have hparent : c.state.present (parent (dir ++ 47 :: name)) := by
    rwa [parent_append_slash dir hslash]
  rw [ZkServer.createRetrying, ZkServer.callCreate_ofTree, Tree.create_of_parent habsent hparent]
  exact ⟨_, rfl, rfl⟩

/-- **A znode that does not exist is created**, at the second try at the latest. -/
theorem hookCreateEphemeral_of_none (hparts : GoPath.Settled true parts)
    (hdir : GoPath.dirOf true parts = dir ++ [47]) (hname : name ≠ []) (hslash : 47 ∉ name)
    {c : ZkConn Tree} (h : c.state (dir ++ 47 :: name) = none) :
    ∃ c' t, (ZkServer.ofTree session list).hookCreateEphemeral (dir ++ 47 :: name) c = (none, c') ∧
      c'.state = Function.update t (dir ++ 47 :: name) (some (.ephemeral session)) ∧
      Tree.Filled (dir ++ [47]).length c.state t := by
  cases hparent : c.state.present dir with
  | true =>
    obtain ⟨c', hcall, hstate⟩ :=
      createRetrying_of_present session list hname hslash 4 hparent h
    exact ⟨c', c.state, hcall, hstate, .refl _ _⟩
  | false =>
    have habsent : c.state.present (dir ++ 47 :: name) = false := by
      rw [present_append_slash hname, h]
      rfl
    have habove : c.state.present (parent (dir ++ 47 :: name)) = false := by
      rwa [parent_append_slash dir hslash]
    obtain ⟨c₁, hmade, hfilled, hpresent⟩ := createAll_dir session list hparts hdir
      ⟨c.state, c.calls ++ [.create (dir ++ 47 :: name) true (some .noNode)]⟩
    have hnone : c₁.state (dir ++ 47 :: name) = none := by
      rw [hfilled.eq_of_le (by simp)]
      exact h
    obtain ⟨c', hcall, hstate⟩ :=
      createRetrying_of_present session list hname hslash 3 hpresent hnone
    refine ⟨c', c₁.state, ?_, hstate, hfilled⟩
    rw [ZkServer.hookCreateEphemeral, maxCreateRetries, ZkServer.createRetrying,
      ZkServer.callCreate_ofTree, cond_true, Tree.create_of_no_parent habsent habove]
    dsimp only [ErrorCode.ofError]
    rw [GoPath.split_append_slash dir hslash, hmade]
    exact hcall

end Tree

end Node

/-- The channel has an error after `sendErr`, this one or an earlier one. -/
theorem sendErr_ne_nil (errs : List ZkFailure) (e : ZkFailure) : sendErr errs e ≠ [] := by
  rw [sendErr]
  split
  · simp
  · rename_i h
    rintro rfl
    exact h Nat.zero_lt_one

namespace ZkSession

/-- **Creating a znode that exists**: nothing changes on the server, but the run loop has an error
to read. -/
theorem createEphemeral_of_isSome {w : ZkSession} {node dir name : Bytes}
    (hnode : GoPath.join [w.root, node] = dir ++ 47 :: name) (hname : name ≠ [])
    (h : (w.tree (dir ++ 47 :: name)).isSome) :
    (w.createEphemeral node).tree = w.tree ∧ (w.createEphemeral node).errs ≠ [] := by
  obtain ⟨c', hhook, hstate⟩ :=
    hookCreateEphemeral_of_isSome w.session listNone hname (c := ⟨w.tree, []⟩) h
  simp only [createEphemeral, server, hnode, hhook]
  exact ⟨hstate, sendErr_ne_nil _ _⟩

/-- **Creating a znode that does not exist.** -/
theorem createEphemeral_of_none {w : ZkSession} {node dir name : Bytes} {parts : List Bytes}
    (hparts : GoPath.Settled true parts) (hdir : GoPath.dirOf true parts = dir ++ [47])
    (hnode : GoPath.join [w.root, node] = dir ++ 47 :: name) (hname : name ≠ [])
    (hslash : 47 ∉ name) (h : w.tree (dir ++ 47 :: name) = none) :
    ∃ t, (w.createEphemeral node).tree =
        Function.update t (dir ++ 47 :: name) (some (.ephemeral w.session)) ∧
      Tree.Filled (dir ++ [47]).length w.tree t ∧ (w.createEphemeral node).errs = w.errs := by
  obtain ⟨c', t, hhook, hstate, hfilled⟩ :=
    hookCreateEphemeral_of_none w.session listNone hparts hdir hname hslash (c := ⟨w.tree, []⟩) h
  refine ⟨t, ?_, hfilled, ?_⟩
  all_goals simp only [createEphemeral, server, hnode, hhook]
  exact hstate

/-- What is registered by creating some znodes. -/
theorem foldl_createEphemeral (nodes : List Bytes) (w : ZkSession) :
    (nodes.foldl createEphemeral w).root = w.root ∧ ∀ q,
      q ∈ (nodes.foldl createEphemeral w).ephemeralNodes ↔
        q ∈ w.ephemeralNodes ∨ ∃ node ∈ nodes, GoPath.join [w.root, node] = q := by
  induction nodes generalizing w with
  | nil => simp
  | cons node nodes ih =>
    obtain ⟨hroot, hmem⟩ := ih (w.createEphemeral node)
    refine ⟨hroot, fun q => ?_⟩
    have hone : q ∈ (w.createEphemeral node).ephemeralNodes ↔
        q ∈ w.ephemeralNodes ∨ GoPath.join [w.root, node] = q := by
      rw [or_comm, eq_comm]
      exact Finset.mem_insert
    rw [List.foldl_cons, hmem, hone, or_assoc]
    simp only [List.mem_cons, exists_eq_or_imp]
    rfl

/-- And what is not, by removing some. -/
theorem foldl_removeEphemeral (nodes : List Bytes) (w : ZkSession) :
    (nodes.foldl removeEphemeral w).root = w.root ∧ ∀ q,
      q ∈ (nodes.foldl removeEphemeral w).ephemeralNodes ↔
        q ∈ w.ephemeralNodes ∧ ∀ node ∈ nodes, GoPath.join [w.root, node] ≠ q := by
  induction nodes generalizing w with
  | nil => simp
  | cons node nodes ih =>
    obtain ⟨hroot, hmem⟩ := ih (w.removeEphemeral node)
    refine ⟨hroot, fun q => ?_⟩
    have hone : q ∈ (w.removeEphemeral node).ephemeralNodes ↔
        q ∈ w.ephemeralNodes ∧ GoPath.join [w.root, node] ≠ q := by
      rw [and_comm, ne_comm]
      exact Finset.mem_erase
    rw [List.foldl_cons, hmem, hone, and_assoc, List.forall_mem_cons]
    rfl

/-- A znode of this session. -/
def Owns (w : ZkSession) (node : Bytes) : Prop := w.tree node = some (.ephemeral w.session)

/-- What creating some znodes does, seen at paths no shorter than `n`. -/
structure Created (n : ℕ) (nodes : List Bytes) (w w' : ZkSession) : Prop where
  root : w'.root = w.root
  session : w'.session = w.session
  owns : ∀ q, w'.Owns q ↔ w.Owns q ∨ q ∈ nodes ∧ w.tree q = none
  present : ∀ q, n ≤ q.length → ((w'.tree q).isSome ↔ (w.tree q).isSome ∨ q ∈ nodes)
  errs : w'.errs = [] ↔ w.errs = [] ∧ ∀ q ∈ nodes, w.tree q = none

theorem Created.nil (n : ℕ) (w : ZkSession) : Created n [] w w where
  root := rfl
  session := rfl
  owns q := by simp
  present q _ := by simp
  errs := by simp

/-- One after the other. -/
theorem Created.cons {n : ℕ} {node : Bytes} {nodes : List Bytes} {w w' w'' : ZkSession}
    (h : Created n [node] w w') (h' : Created n nodes w' w'') (hnew : node ∉ nodes)
    (hlong : ∀ q ∈ nodes, n ≤ q.length) : Created n (node :: nodes) w w'' := by
  -- what the later ones find is what was there at first
  have hfind : ∀ q ∈ nodes, w'.tree q = none ↔ w.tree q = none := by
    intro q hq
    have hne : q ∉ [node] := fun hmem => hnew (List.mem_singleton.mp hmem ▸ hq)
    rw [← Option.not_isSome_iff_eq_none, ← Option.not_isSome_iff_eq_none, h.present q (hlong q hq),
      or_iff_left hne]
  refine ⟨h'.root.trans h.root, h'.session.trans h.session, fun q => ?_, fun q hq => ?_, ?_⟩
  · rw [h'.owns, h.owns, List.mem_singleton, List.mem_cons, or_assoc, or_and_right,
      and_congr_right (hfind q)]
  · rw [h'.present q hq, h.present q hq, List.mem_singleton, List.mem_cons, or_assoc]
  · rw [h'.errs, h.errs, List.forall_mem_singleton, List.forall_mem_cons, and_assoc,
      forall₂_congr hfind]

/-- **What `createEphemeral` does.** -/
theorem created_createEphemeral {w : ZkSession} {node dir name : Bytes} {parts : List Bytes}
    (hparts : GoPath.Settled true parts) (hdir : GoPath.dirOf true parts = dir ++ [47])
    (hnode : GoPath.join [w.root, node] = dir ++ 47 :: name) (hname : name ≠ [])
    (hslash : 47 ∉ name) :
    Created (dir ++ [47]).length [dir ++ 47 :: name] w (w.createEphemeral node) := by
  cases hfound : w.tree (dir ++ 47 :: name) with
  | none =>
    obtain ⟨t, htree, hfilled, herrs⟩ :=
      createEphemeral_of_none hparts hdir hnode hname hslash hfound
    refine ⟨rfl, rfl, fun q => ?_, fun q hq => ?_, ?_⟩
    · rw [Owns, htree, List.mem_singleton, Owns]
      by_cases hq : q = dir ++ 47 :: name
      · subst hq
        rw [Function.update_self, hfound]
        exact iff_of_true rfl (.inr ⟨rfl, rfl⟩)
      · rw [Function.update_of_ne hq, or_iff_left fun hor => hq hor.1]
        exact hfilled.ephemeral_iff q w.session
    · rw [htree, List.mem_singleton]
      by_cases hq' : q = dir ++ 47 :: name
      · subst hq'
        rw [Function.update_self]
        exact iff_of_true rfl (.inr rfl)
      · rw [Function.update_of_ne hq', hfilled.eq_of_le hq, or_iff_left hq']
    · rw [herrs, List.forall_mem_singleton, and_iff_left hfound]
  | some z =>
    have hsome : (w.tree (dir ++ 47 :: name)).isSome := by
      rw [hfound]
      rfl
    obtain ⟨htree, herrs⟩ := createEphemeral_of_isSome hnode hname hsome
    refine ⟨rfl, rfl, fun q => ?_, fun q hq => ?_, ?_⟩
    · rw [Owns, htree, List.mem_singleton]
      refine (or_iff_left ?_).symm
      rintro ⟨rfl, hnone⟩
      rw [hfound] at hnone
      cases hnone
    · rw [htree, List.mem_singleton]
      refine (or_iff_left_of_imp ?_).symm
      rintro rfl
      exact hsome
    · refine iff_of_false herrs fun h => ?_
      rw [List.forall_mem_singleton.mp h.2] at hfound
      cases hfound

end ZkSession

end Sequins
