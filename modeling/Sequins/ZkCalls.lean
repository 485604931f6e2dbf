import Sequins.HashCode
import Sequins.ZooKeeper
import Mathlib.Data.List.Count

/-!
# Calls to ZooKeeper

The helpers of `zk_watcher.go` that make missing znodes and try again, with a server that may answer
anything (`ZkServer`), since other nodes clean up behind them. A connection has a list of its calls
with the answers, so that what a helper returns can be held against what happened.

* `hookCreateEphemeral` creates a znode, `childrenW` watches one, `maxCreateRetries` times at most;
* when the last try fails for a missing znode, what is returned is the error of making it, so there
  is none: `success_reported_iff`;
* a server that nobody else writes to is a tree of znodes (`ofTree`).
-/

namespace Sequins

open ZooKeeper

/-- The `Code` of a `zk.Error`. -/
inductive ErrorCode where
  | noNode
  | nodeExists
  | other (code : ℤ)
  deriving DecidableEq, Repr

/-- `isNodeExists` -/
def isNodeExists (err : Option ErrorCode) : Bool := err == some .nodeExists

/-- `isNoNode` -/
def isNoNode (err : Option ErrorCode) : Bool := err == some .noNode

/-- What the helpers return: the error of a call, or that of `createAll` after `create %s: %s`. -/
inductive ZkFailure where
  | call (code : ErrorCode)
  | create (node : Bytes) (code : ErrorCode)
  deriving DecidableEq, Repr

def ZkFailure.code : ZkFailure → ErrorCode
  | .call code => code
  | .create _ code => code

/-- `zk.Stat`, of which only the owner is ever read. -/
structure Stat where
  ephemeralOwner : ℕ
  deriving DecidableEq, Repr

/-- What `ChildrenW` returns without an error. The channel exists then. -/
structure Listing where
  children : List Bytes
  stat : Stat
  watch : ℕ
  deriving DecidableEq, Repr

/-- A server with states `σ`. What it answers, and what becomes of it, may depend on everything that
happened, and on what others do. -/
structure ZkServer (σ : Type*) where
  answerCreate : Bytes → Bool → σ → Option ErrorCode × σ
  answerChildrenW : Bytes → σ → Except ErrorCode Listing × σ

/-- A call with its answer. -/
inductive Call where
  | create (node : Bytes) (ephemeral : Bool) (err : Option ErrorCode)
  | childrenW (node : Bytes) (reply : Except ErrorCode Listing)
  deriving DecidableEq

/-- A call that makes a persistent znode. -/
def Call.persistent : Call → Bool
  | .create _ ephemeral _ => !ephemeral
  | .childrenW .. => false

/-- A server and what it was asked. -/
structure ZkConn (σ : Type*) where
  state : σ
  calls : List Call

/-- The results of `childrenW`. -/
structure ChildrenResult where
  children : List Bytes
  stat : Option Stat
  events : Option ℕ
  err : Option ZkFailure
  deriving DecidableEq, Repr

/-- What `ChildrenW` assigns to them. -/
def ChildrenResult.ofReply : Except ErrorCode Listing → ChildrenResult
  | .ok listing => ⟨listing.children, some listing.stat, some listing.watch, none⟩
  | .error code => ⟨[], none, none, some (.call code)⟩

/-- `maxCreateRetries`. -/
def maxCreateRetries : ℕ := 5

namespace ZkServer

variable {σ : Type*} (server : ZkServer σ)

/-- `conn.Create`, with `zk.EPHEMERAL` or without flags. -/
def callCreate (node : Bytes) (ephemeral : Bool) (c : ZkConn σ) : Option ErrorCode × ZkConn σ :=
  let (err, state) := server.answerCreate node ephemeral c.state
  (err, ⟨state, c.calls ++ [.create node ephemeral err]⟩)

/-- `conn.ChildrenW` -/
def callChildrenW (node : Bytes) (c : ZkConn σ) : Except ErrorCode Listing × ZkConn σ :=
  let (reply, state) := server.answerChildrenW node c.state
  (reply, ⟨state, c.calls ++ [.childrenW node reply]⟩)

/-- `createAll`, which calls itself to the given depth at most. -/
def createAllTo : ℕ → Bytes → ZkConn σ → Option ErrorCode × ZkConn σ
  | 0, _, c => (none, c)
  | depth + 1, node, c =>
    let base := (GoPath.split (GoPath.clean node)).1
    let below := if base != [] && base != [47] then createAllTo depth base c else (none, c)
    match below with
    | (some e, c) => (some e, c)
    | (none, c) =>
      let (err, c) := server.callCreate (GoPath.clean node) false c
      if err.isSome && !isNodeExists err then (err, c) else (none, c)

/-- `createAll`. -/
def createAll (node : Bytes) (c : ZkConn σ) : Option ErrorCode × ZkConn σ :=
  server.createAllTo (node.length + 1) node c

/-- The loop of `hookCreateEphemeral`. -/
def createRetrying (node : Bytes) : ℕ → ZkConn σ → Option ZkFailure × ZkConn σ
  | 0, c => (none, c)
  | retries + 1, c =>
    let (err, c) := server.callCreate node true c
    match err with
    | none => (none, c)
    | some e =>
      if !isNoNode err then (some (.call e), c)
      else
        match server.createAll (GoPath.split node).1 c with
        | (some e, c) => (some (.create node e), c)
        | (none, c) => createRetrying node retries c

/-- `hookCreateEphemeral` -/
def hookCreateEphemeral (node : Bytes) (c : ZkConn σ) : Option ZkFailure × ZkConn σ :=
  server.createRetrying node maxCreateRetries c

/-- The loop of `childrenW`, with the results as the last try left them. -/
def watchRetrying (node : Bytes) : ℕ → ChildrenResult → ZkConn σ → ChildrenResult × ZkConn σ
  | 0, r, c => (r, c)
  | retries + 1, _, c =>
    let (reply, c) := server.callChildrenW node c
    let r := ChildrenResult.ofReply reply
    if !isNoNode (r.err.map ZkFailure.code) then (r, c)
    else
      match server.createAll node c with
      | (some e, c) => ({ r with err := some (.create node e) }, c)
      | (none, c) => watchRetrying node retries { r with err := none } c

/-- `childrenW` -/
def childrenW (node : Bytes) (c : ZkConn σ) : ChildrenResult × ZkConn σ :=
  server.watchRetrying node maxCreateRetries ⟨[], none, none, none⟩ c

/-! ## What was asked -/

theorem count_callCreate (call : Call) (node : Bytes) (ephemeral : Bool) (c : ZkConn σ) :
    (server.callCreate node ephemeral c).2.calls.count call = c.calls.count call +
      if Call.create node ephemeral (server.callCreate node ephemeral c).1 == call
        then 1 else 0 := by
  rw [← List.count_singleton, ← List.count_append]
  rfl

theorem count_callChildrenW (call : Call) (node : Bytes) (c : ZkConn σ) :
    (server.callChildrenW node c).2.calls.count call = c.calls.count call +
      if Call.childrenW node (server.callChildrenW node c).1 == call then 1 else 0 := by
  rw [← List.count_singleton, ← List.count_append]
  rfl

/-- Making parents is all that `createAll` does. -/
theorem count_createAllTo {call : Call} (hcall : call.persistent = false) (depth : ℕ) (node : Bytes)
    (c : ZkConn σ) : (server.createAllTo depth node c).2.calls.count call = c.calls.count call := by
  induction depth generalizing node c with
  | zero => rfl
  | succ depth ih =>
    rw [createAllTo]
    set base := (GoPath.split (GoPath.clean node)).1
    have hbelow : (if base != [] && base != [47] then server.createAllTo depth base c
        else (none, c)).2.calls.count call = c.calls.count call := by
      split
      · exact ih base c
      · rfl
    have hcreate : ∀ c, (server.callCreate (GoPath.clean node) false c).2.calls.count call =
        c.calls.count call := by
      intro c
      rw [count_callCreate, if_neg, Nat.add_zero]
      rw [beq_iff_eq]
      rintro rfl
      cases hcall
    dsimp only
    split
    · next heq => rw [← hbelow, heq]
    · next c' heq =>
      rw [← hbelow, heq]
      refine Eq.trans ?_ (hcreate c')
      split <;> rfl

/-- No ephemeral znode is created on the way. -/
theorem count_createAll {call : Call} (hcall : call.persistent = false) (node : Bytes)
    (c : ZkConn σ) : (server.createAll node c).2.calls.count call = c.calls.count call :=
  server.count_createAllTo hcall _ node c

variable {server} {node : Bytes}

/-- **What stands behind a creation.** Without an error, either the last try succeeded, or all of
them failed for the parent. -/
theorem createRetrying_spec {retries : ℕ} {c c' : ZkConn σ}
    (h : server.createRetrying node retries c = (none, c')) :
    (c'.calls.count (.create node true none) = c.calls.count (.create node true none) + 1 ∧
      c'.calls.count (.create node true (some .noNode)) <
        c.calls.count (.create node true (some .noNode)) + retries) ∨
    (c'.calls.count (.create node true none) = c.calls.count (.create node true none) ∧
      c'.calls.count (.create node true (some .noNode)) =
        c.calls.count (.create node true (some .noNode)) + retries) := by
  induction retries generalizing c with
  | zero =>
    obtain rfl : c = c' := congrArg Prod.snd h
    exact .inr ⟨rfl, rfl⟩
  | succ retries ih =>
    rw [createRetrying] at h
    have hcount := fun call => server.count_callCreate call node true c
    rcases hcall : server.callCreate node true c with ⟨_ | e, c₁⟩
    · rw [hcall] at h hcount
      obtain rfl : c₁ = c' := congrArg Prod.snd h
      refine .inl ⟨?_, ?_⟩
      · rw [hcount, if_pos (beq_self_eq_true _)]
      · rw [hcount, if_neg (by simp)]
        omega
    · rw [hcall] at h hcount
      dsimp only at h
      split at h
      · cases h
      · next hnoNode =>
        obtain rfl : e = .noNode := by simpa [isNoNode] using hnoNode
        split at h
        · cases h
        · next c₂ hmade =>
          have hkept : ∀ call : Call, call.persistent = false →
              c₂.calls.count call = c₁.calls.count call := by
            intro call hpersistent
            rw [← server.count_createAll hpersistent (GoPath.split node).1 c₁, hmade]
          have hrest := ih h
          rw [hkept _ rfl, hkept _ rfl, hcount, hcount, if_neg (by simp),
            if_pos (beq_self_eq_true _)] at hrest
          omega

/-- **What stands behind a watch.** Without an error, either the last try succeeded, and it is what
it returned, or all of them failed for the znode. -/
theorem watchRetrying_spec {retries : ℕ} {r r' : ChildrenResult} {c c' : ZkConn σ}
    (h : server.watchRetrying node retries r c = (r', c')) (herr : r'.err = none) :
    (c'.calls.count (.childrenW node (.error .noNode)) <
        c.calls.count (.childrenW node (.error .noNode)) + retries ∧
      ∃ listing, .childrenW node (.ok listing) ∈ c'.calls ∧ r' = .ofReply (.ok listing)) ∨
    (c'.calls.count (.childrenW node (.error .noNode)) =
        c.calls.count (.childrenW node (.error .noNode)) + retries ∧
      (r.events = none → r'.events = none)) := by
  induction retries generalizing r c with
  | zero =>
    obtain ⟨rfl, rfl⟩ := Prod.mk.inj h
    exact .inr ⟨rfl, id⟩
  | succ retries ih =>
    rw [watchRetrying] at h
    have hcount := fun call => server.count_callChildrenW call node c
    rcases hcall : server.callChildrenW node c with ⟨reply, c₁⟩
    rw [hcall] at h hcount
    dsimp only at h
    split at h
    · next hreturn =>
      obtain ⟨rfl, rfl⟩ := Prod.mk.inj h
      cases reply with
      | error e => cases herr
      | ok listing =>
        refine .inl ⟨?_, listing, ?_, rfl⟩
        · rw [hcount, if_neg (by simp)]
          omega
        · rw [← List.count_pos_iff, hcount, if_pos (beq_self_eq_true _)]
          omega
    · next hagain =>
      have hnoNode : reply = .error .noNode := by
        cases reply with
        | error e => simpa [ChildrenResult.ofReply, ZkFailure.code, isNoNode] using hagain
        | ok listing => simp [ChildrenResult.ofReply, isNoNode] at hagain
      subst hnoNode
      split at h
      · obtain ⟨rfl, rfl⟩ := Prod.mk.inj h
        cases herr
      · next c₂ hmade =>
        have hkept : c₂.calls.count (.childrenW node (.error .noNode)) =
            c₁.calls.count (.childrenW node (.error .noNode)) := by
          rw [← server.count_createAll rfl node c₁, hmade]
        have hrest := ih h
        rw [hkept, hcount, if_pos (beq_self_eq_true _)] at hrest
        obtain ⟨hlt, hlisting⟩ | ⟨heq, hevents⟩ := hrest
        · exact .inl ⟨by omega, hlisting⟩
        · exact .inr ⟨by omega, fun _ => hevents rfl⟩

end ZkServer

/-- **What success means.** If `hookCreateEphemeral` returns no error, the znode was created by one
of its calls if and only if fewer than `maxCreateRetries` of them failed for a missing parent. If
`childrenW` returns no error, it returns the children and the channel of one of its calls, which
succeeded, if and only if fewer than `maxCreateRetries` of them failed for a missing znode. -/
theorem success_reported_iff {σ : Type*} (server : ZkServer σ) (node : Bytes) (state : σ) :
    ((server.hookCreateEphemeral node ⟨state, []⟩).1 = none →
      (.create node true none ∈ (server.hookCreateEphemeral node ⟨state, []⟩).2.calls ↔
        (server.hookCreateEphemeral node ⟨state, []⟩).2.calls.count
          (.create node true (some .noNode)) < maxCreateRetries)) ∧
    ((server.childrenW node ⟨state, []⟩).1.err = none →
      ((∃ listing, .childrenW node (.ok listing) ∈ (server.childrenW node ⟨state, []⟩).2.calls ∧
          (server.childrenW node ⟨state, []⟩).1 =
            ⟨listing.children, some listing.stat, some listing.watch, none⟩) ↔
        (server.childrenW node ⟨state, []⟩).2.calls.count (.childrenW node (.error .noNode)) <
          maxCreateRetries)) := by
  refine ⟨fun herr => ?_, fun herr => ?_⟩
  · have hspec := ZkServer.createRetrying_spec (c := ⟨state, []⟩) (Prod.ext herr rfl)
    rw [List.count_nil, List.count_nil, Nat.zero_add, Nat.zero_add] at hspec
    rw [← List.count_pos_iff]
    obtain ⟨hone, hlt⟩ | ⟨hzero, heq⟩ := hspec
    · exact iff_of_true (hone ▸ Nat.zero_lt_one) hlt
    · exact iff_of_false (hzero ▸ Nat.lt_irrefl 0) (Nat.not_lt.mpr heq.ge)
  · have hspec := ZkServer.watchRetrying_spec (c := ⟨state, []⟩) rfl herr
    rw [List.count_nil, Nat.zero_add] at hspec
    obtain ⟨hlt, hlisting⟩ | ⟨heq, hevents⟩ := hspec
    · exact iff_of_true hlisting hlt
    · refine iff_of_false ?_ (Nat.not_lt.mpr heq.ge)
      rintro ⟨listing, -, hresult⟩
      have hnone := hevents rfl
      rw [← ZkServer.childrenW, hresult] at hnone
      cases hnone

/-! ## Servers that keep a tree -/

def ErrorCode.ofError : Error → ErrorCode
  | .nodeExists => .nodeExists
  | .noNode => .noNode

namespace ZkServer

/-- A server that keeps znodes, as one session sees it when there are no others. What is listed is
left open. -/
def ofTree (session : ℕ) (list : Bytes → Tree → Except ErrorCode Listing) : ZkServer Tree where
  answerCreate node ephemeral t :=
    match t.create node (bif ephemeral then .ephemeral session else .persistent) with
    | .ok t' => (none, t')
    | .error e => (some (.ofError e), t)
  answerChildrenW node t := (list node t, t)

/-- The same, with others who do something before each call. -/
def interrupted {σ : Type*} (server : ZkServer σ) (others : σ → σ) : ZkServer σ where
  answerCreate node ephemeral state := server.answerCreate node ephemeral (others state)
  answerChildrenW node state := server.answerChildrenW node (others state)

theorem callCreate_ofTree (session : ℕ) (list : Bytes → Tree → Except ErrorCode Listing)
    (node : Bytes) (ephemeral : Bool) (c : ZkConn Tree) :
    (ofTree session list).callCreate node ephemeral c =
      match c.state.create node (bif ephemeral then .ephemeral session else .persistent) with
      | .ok t => (none, ⟨t, c.calls ++ [.create node ephemeral none]⟩)
      | .error e =>
        (some (.ofError e),
          ⟨c.state, c.calls ++ [.create node ephemeral (some (.ofError e))]⟩) := by
  simp only [callCreate, ofTree]
  rcases c.state.create node (bif ephemeral then .ephemeral session else .persistent) with e | t
  all_goals rfl

end ZkServer

/-- Nothing is listed, at a channel `7`, if the znode is there. -/
def listNone (node : Bytes) (t : Tree) : Except ErrorCode Listing :=
  if t.present node then .ok ⟨[], ⟨0⟩, 7⟩ else .error .noNode

/-- Without others, `/p/x` is created and `/p` is watched at the second try. -/
theorem success_reported_iff_quiet :
    .create [47, 112, 47, 120] true none ∈
        ((ZkServer.ofTree 1 listNone).hookCreateEphemeral [47, 112, 47, 120]
          ⟨fun _ => none, []⟩).2.calls ∧
      ∃ listing, .childrenW [47, 112] (.ok listing) ∈
          ((ZkServer.ofTree 1 listNone).childrenW [47, 112] ⟨fun _ => none, []⟩).2.calls ∧
        ((ZkServer.ofTree 1 listNone).childrenW [47, 112] ⟨fun _ => none, []⟩).1 =
          ⟨listing.children, some listing.stat, some listing.watch, none⟩ :=
  ⟨((success_reported_iff (ZkServer.ofTree 1 listNone) [47, 112, 47, 120] fun _ => none).1 rfl).mpr
      (by decide),
    ((success_reported_iff (ZkServer.ofTree 1 listNone) [47, 112] fun _ => none).2 rfl).mpr
      (by decide)⟩

/-- With another node that cleans `/p` up each time, `/p/x` is never created and there is no channel
for `/p`, but no error either. -/
theorem success_without_call :
    (((ZkServer.ofTree 1 listNone).interrupted (·.delete [47, 112])).hookCreateEphemeral
        [47, 112, 47, 120] ⟨fun _ => none, []⟩).1 = none ∧
      .create [47, 112, 47, 120] true none ∉
        (((ZkServer.ofTree 1 listNone).interrupted (·.delete [47, 112])).hookCreateEphemeral
          [47, 112, 47, 120] ⟨fun _ => none, []⟩).2.calls ∧
      (((ZkServer.ofTree 1 listNone).interrupted (·.delete [47, 112])).childrenW
        [47, 112] ⟨fun _ => none, []⟩).1 = ⟨[], none, none, none⟩ := by
  decide

end Sequins
