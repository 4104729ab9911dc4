/-
MsgHandler/Pilot/Registration.lean

Where a server registers and where a client looks
(`thrift/pilot/server_cluster.h`, `PooledClientImpl::fixpath`).

Both are configured with a service path `p`.  The server appends `p` to the
namespace as it is: the test whether a `/` has to go in between looks at the
namespace, which begins with one.  It then cuts the whole path at each `/` and
creates a node for every piece that is not empty.  The client looks at the
first and the last character of `p` to decide where a `/` is missing, and uses
the path as a whole.

So a leading `/` that is missing is added by the client alone, and a `/` that is
repeated is dropped by the server alone.  They meet if and only if `p` begins
with a `/` and has no two of them side by side (`fixpath_eq_parent_iff`).
-/
import MsgHandler.Tokens
import MsgHandler.Pilot.PooledClient

namespace Xkim

namespace Pilot

/-- The character `/`. -/
def SLASH : UInt8 := 47

/-- `DEFAULT_NAMESPACE`, which is `/jdns`. -/
def DEFAULT_NAMESPACE : List UInt8 := [47, 106, 100, 110, 115]

/-- The text `rpc`. -/
def RPC : List UInt8 := [114, 112, 99]

/-- The text `jd_service`. -/
def JD_SERVICE : List UInt8 := [106, 100, 95, 115, 101, 114, 118, 105, 99, 101]

/-- `StringAlgo::tokenize`, for a separator of one character. -/
def tokenize (s : List UInt8) (split : UInt8) : List (List UInt8) :=
  if s = [] then [] else tokens split s

/-! ### The server -/

/-- `ServerCluster`, less the ZooKeeper client. -/
structure ServerCluster where
  servicePath : List UInt8
  serviceValue : List UInt8
  zkNodes : List (List UInt8)

/-- A call of `node_create`. -/
structure Creation where
  path : List UInt8
  value : List UInt8
  ephemeral : Bool
  deriving DecidableEq, Repr

namespace ServerCluster

/-- The path of the node of this server. -/
def realServicePath (servicePath serviceNode : List UInt8) : List UInt8 :=
  let real := DEFAULT_NAMESPACE
  let real := if real.head? = some SLASH then real ++ servicePath
    else real ++ [SLASH] ++ servicePath
  let real := if real.getLast? ≠ some SLASH then real ++ [SLASH] else real
  real ++ RPC ++ [SLASH] ++ serviceNode

/-- The constructor; `serviceNode` and `serviceValue` are the JSON texts that it
makes from the ip, the port and the protocol. -/
def new (servicePath serviceNode serviceValue : List UInt8) : ServerCluster where
  servicePath := realServicePath servicePath serviceNode
  serviceValue := serviceValue
  zkNodes := tokenize (realServicePath servicePath serviceNode) SLASH

/-- The loop of `join`, behind the path `currPath`: the return value, and the
calls of `node_create`, which succeeds where `create` says so. -/
def joinLoop (zk : Zk) (create : List UInt8 → Bool) (serviceValue : List UInt8) :
    List UInt8 → List (List UInt8) → ℤ × List Creation
  | _, [] => (0, [])
  | currPath, str :: strs =>
    let currPath := currPath ++ SLASH :: str
    let rc := if create currPath then 0 else -1
    if zk.nodeExists currPath = some true then
      if strs = [] then
        match zk.getNodevalue currPath with
        | none => (-1, [])
        | some nodeValue =>
          if serviceValue ≠ nodeValue then (rc, [⟨currPath, serviceValue, true⟩]) else (0, [])
      else joinLoop zk create serviceValue currPath strs
    else if strs = [] then (rc, [⟨currPath, serviceValue, true⟩])
    else if rc = 0 then
      let r := joinLoop zk create serviceValue currPath strs
      (r.1, ⟨currPath, JD_SERVICE, false⟩ :: r.2)
    else (-1, [⟨currPath, JD_SERVICE, false⟩])

/-- `join()`. -/
def join (zk : Zk) (create : List UInt8 → Bool) (S : ServerCluster) : ℤ × List Creation :=
  joinLoop zk create S.serviceValue [] S.zkNodes

/-- The node above the one of this server. -/
def parent (S : ServerCluster) : List UInt8 := joined SLASH S.zkNodes.dropLast

/-- **The node of a server** is at the end of its path. -/
theorem joinLoop_ephemeral (zk : Zk) (create : List UInt8 → Bool) (serviceValue : List UInt8)
    (currPath : List UInt8) (strs : List (List UInt8)) {c : Creation}
    (hc : c ∈ (joinLoop zk create serviceValue currPath strs).2) (heph : c.ephemeral = true) :
    c.path = currPath ++ joined SLASH strs := by
  induction strs generalizing currPath with
  | nil => cases hc
  | cons str strs ih =>
    have hpath : currPath ++ joined SLASH (str :: strs) =
        currPath ++ SLASH :: str ++ joined SLASH strs := by
      rw [joined_cons, List.append_assoc]
    rw [hpath]
    by_cases hlast : strs = []
    · -- the last node: created unless it is there with this value
      subst hlast
      rw [joined_nil, List.append_nil]
      suffices hcreated : c = ⟨currPath ++ SLASH :: str, serviceValue, true⟩ by
        rw [hcreated]
      rw [joinLoop] at hc
      dsimp only at hc
      rw [if_pos rfl, if_pos rfl] at hc
      by_cases hexists : zk.nodeExists (currPath ++ SLASH :: str) = some true
      · rw [if_pos hexists] at hc
        split at hc
        · cases hc
        · split at hc
          · exact List.mem_singleton.mp hc
          · cases hc
      · rw [if_neg hexists] at hc
        exact List.mem_singleton.mp hc
    · rw [joinLoop] at hc
      dsimp only at hc
      rw [if_neg hlast, if_neg hlast] at hc
      by_cases hexists : zk.nodeExists (currPath ++ SLASH :: str) = some true
      · rw [if_pos hexists] at hc
        exact ih _ hc
      · rw [if_neg hexists] at hc
        by_cases hrc : (if create (currPath ++ SLASH :: str) then (0 : ℤ) else -1) = 0
        · rw [if_pos hrc] at hc
          rcases List.mem_cons.mp hc with rfl | hc
          · cases heph
          · exact ih _ hc
        · rw [if_neg hrc] at hc
          rw [List.mem_singleton.mp hc] at heph
          cases heph

end ServerCluster

/-! ### The client -/

/-- `PooledClientImpl::fixpath`. -/
def fixpath (path : List UInt8) : List UInt8 :=
  if path = [] then path
  else
    let tmp := DEFAULT_NAMESPACE
    let tmp := if path.head? = some SLASH then tmp ++ path else tmp ++ [SLASH] ++ path
    if path.getLast? = some SLASH then tmp ++ RPC else tmp ++ [SLASH] ++ RPC

/-! ### The same path -/

/-- The path without a `/` at its end. -/
def trimmed (p : List UInt8) : List UInt8 := if p.getLast? = some SLASH then p.dropLast else p

variable {p leaf : List UInt8}

theorem trimmed_append (hlast : p.getLast? = some SLASH) : trimmed p ++ [SLASH] = p := by
  rw [trimmed, if_pos hlast]
  exact List.dropLast_append_getLast? _ hlast

/-- **The path of the server.** -/
theorem realServicePath_eq (hp : p ≠ []) (leaf : List UInt8) :
    ServerCluster.realServicePath p leaf =
      DEFAULT_NAMESPACE ++ trimmed p ++ SLASH :: (RPC ++ SLASH :: leaf) := by
  have hlast : (DEFAULT_NAMESPACE ++ p).getLast? = p.getLast? := by
    rw [List.getLast?_append_of_ne_nil _ hp]
  unfold ServerCluster.realServicePath
  dsimp only
  rw [if_pos (show DEFAULT_NAMESPACE.head? = some SLASH from rfl), hlast]
  by_cases hslash : p.getLast? = some SLASH
  · rw [if_neg (not_not.mpr hslash)]
    nth_rewrite 1 [← trimmed_append hslash]
    simp
  · rw [if_pos hslash, trimmed, if_neg hslash]
    simp

/-- The path of the client. -/
theorem fixpath_eq (hp : p ≠ []) :
    fixpath p = DEFAULT_NAMESPACE ++ (if p.head? = some SLASH then [] else [SLASH]) ++
      trimmed p ++ SLASH :: RPC := by
  unfold fixpath
  rw [if_neg hp]
  dsimp only
  by_cases hslash : p.getLast? = some SLASH
  · have hrpc : p ++ RPC = trimmed p ++ SLASH :: RPC := by
      nth_rewrite 1 [← trimmed_append hslash]
      simp
    rw [if_pos hslash]
    split_ifs <;> simp [hrpc]
  · rw [if_neg hslash, trimmed, if_neg hslash]
    split_ifs <;> simp

/-- The pieces of the server's path. -/
theorem zkNodes_eq (hp : p ≠ []) (hleaf : leaf ≠ []) (hfree : SLASH ∉ leaf)
    (value : List UInt8) :
    (ServerCluster.new p leaf value).zkNodes =
      tokens SLASH (DEFAULT_NAMESPACE.tail ++ trimmed p) ++ [RPC] ++ [leaf] := by
  have hns : tokens SLASH (DEFAULT_NAMESPACE ++ trimmed p) =
      tokens SLASH (DEFAULT_NAMESPACE.tail ++ trimmed p) :=
    tokens_append_sep [] (DEFAULT_NAMESPACE.tail ++ trimmed p)
  have hrpc : tokens SLASH RPC = [RPC] := by decide
  show tokenize (ServerCluster.realServicePath p leaf) SLASH = _
  rw [realServicePath_eq hp, tokenize, if_neg (by simp), tokens_append_sep, tokens_append_sep,
    hns, hrpc, tokens_of_free hfree hleaf, List.append_assoc]

theorem parent_eq (hp : p ≠ []) (hleaf : leaf ≠ []) (hfree : SLASH ∉ leaf)
    (value : List UInt8) :
    (ServerCluster.new p leaf value).parent =
      joined SLASH (tokens SLASH (DEFAULT_NAMESPACE.tail ++ trimmed p)) ++ SLASH :: RPC := by
  rw [ServerCluster.parent, zkNodes_eq hp hleaf hfree, List.dropLast_concat, joined_append,
    joined_singleton]

/-- Two `/` side by side. -/
theorem infix_trimmed_iff (p : List UInt8) :
    [SLASH, SLASH] <:+: trimmed p ++ [SLASH] ↔ [SLASH, SLASH] <:+: p := by
  by_cases hlast : p.getLast? = some SLASH
  · rw [trimmed_append hlast]
  · rw [trimmed, if_neg hlast, infix_append_sep_iff hlast]

/-- **Registration and discovery.**  The node above the one that a server creates
is the node that a client watches, if and only if their path begins with a `/` and
has no two of them side by side. -/
theorem fixpath_eq_parent_iff (hp : p ≠ []) (hleaf : leaf ≠ []) (hfree : SLASH ∉ leaf)
    (value : List UInt8) :
    (∀ zk create, ∀ c ∈ ((ServerCluster.new p leaf value).join zk create).2,
      c.ephemeral = true → c.path = (ServerCluster.new p leaf value).parent ++ SLASH :: leaf) ∧
    ((ServerCluster.new p leaf value).parent = fixpath p ↔
      p.head? = some SLASH ∧ ¬ [SLASH, SLASH] <:+: p) := by
  refine ⟨?_, ?_⟩
  · intro zk create c hc heph
    rw [ServerCluster.joinLoop_ephemeral _ _ _ _ _ hc heph, zkNodes_eq hp hleaf hfree,
      parent_eq hp hleaf hfree, joined_append, joined_append, joined_singleton, joined_singleton]
    rfl
  · rw [parent_eq hp hleaf hfree, fixpath_eq hp, List.append_cancel_right_eq]
    by_cases hhead : p.head? = some SLASH
    · rw [if_pos hhead, List.append_nil, and_iff_right hhead, ← infix_trimmed_iff]
      show joined SLASH (tokens SLASH (DEFAULT_NAMESPACE.tail ++ trimmed p)) =
        SLASH :: (DEFAULT_NAMESPACE.tail ++ trimmed p) ↔ _
      rw [joined_tokens_eq_iff, List.append_assoc,
        infix_cons_free_append (by decide) (by decide)]
    · -- the client's path is longer by the added `/`
      rw [if_neg hhead]
      refine ⟨fun heq => ?_, fun h => absurd h.1 hhead⟩
      have hle : (joined SLASH (tokens SLASH (DEFAULT_NAMESPACE.tail ++ trimmed p))).length ≤ _ :=
        length_joined_tokensFrom_le [] _
      rw [heq] at hle
      simp [DEFAULT_NAMESPACE] at hle

/-- A server and a client with the path `/im`. -/
theorem fixpath_eq_parent_im :
    (ServerCluster.new [47, 105, 109] [123, 125] []).parent = fixpath [47, 105, 109] :=
  (fixpath_eq_parent_iff (by decide) (by decide) (by decide) []).2.mpr (by decide)

/-- **They do not meet.**  With the path `im` the server registers under
`/jdnsim/rpc` and the client watches `/jdns/im/rpc`; with the path `/im//x` the
server registers under `/jdns/im/x/rpc` and the client watches `/jdns/im//x/rpc`. -/
theorem fixpath_ne_parent :
    (ServerCluster.new [105, 109] [123, 125] []).parent =
        [47, 106, 100, 110, 115, 105, 109, 47, 114, 112, 99] ∧
      fixpath [105, 109] = [47, 106, 100, 110, 115, 47, 105, 109, 47, 114, 112, 99] ∧
      (ServerCluster.new [47, 105, 109, 47, 47, 120] [123, 125] []).parent =
        [47, 106, 100, 110, 115, 47, 105, 109, 47, 120, 47, 114, 112, 99] ∧
      fixpath [47, 105, 109, 47, 47, 120] =
        [47, 106, 100, 110, 115, 47, 105, 109, 47, 47, 120, 47, 114, 112, 99] := by
  decide

end Pilot

end Xkim
