import NfdTables.Foundation.Release
import NfdTables.NameTree.Moves

namespace NfdTables.NameTree
open Machine Chain
variable {Component : Type}

-- ~NameTree(). What deleting a node takes along is up to the node's destructor.
def destroy (release : Heap Node → NodeId → Exec (Heap Node)) (tree : NameTree Component) : Exec (Heap Node) :=
  releaseSlots release tree.buckets tree.nodes

-- ~Node() as nt::Node has it, and as eraseEntryIfEmpty() guards against it.
def deleteNode (heap : Heap Node) (node : NodeId) : Exec (Heap Node) := releaseOne heap node
def deleteNodes (heap : Heap Node) (node : NodeId) : Exec (Heap Node) := releaseChain Node.next heap.size heap (some node)

section Rehashing

-- A resize relinks nodes. It creates and deletes none.
def SameLive (before after : Heap Node) : Prop := ∀ n, (after.read n).isSome = (before.read n).isSome

theorem SameLive.trans (one : SameLive before middle) (two : SameLive middle after) : SameLive before after :=
  fun n => (two n).trans (one n)

theorem update_sameLive {heap after : Heap Node} (ran : heap.update n change = .ok after) : SameLive heap after := by
  obtain ⟨node,fetched,written⟩ := bind_parts ran
  cases Except.ok.inj written
  intro m
  cases read : heap.read n with
  | none => simp [Heap.fetch,read] at fetched
  | some old =>
    rw [Heap.read_write read]
    by_cases same : m = n
    · subst m
      simp [read]
    · rw [if_neg same]

theorem place_sameLive {work after : Rehash} (ran : work.place b p = .ok after) : SameLive work.nodes after.nodes := by
  obtain ⟨head,_,ran⟩ := bind_parts ran
  obtain ⟨walked,_,ran⟩ := bind_parts ran
  cases walked with
  | leave never => exact never.elim
  | onward state =>
    obtain ⟨pre,pp⟩ := state
    obtain ⟨nodes,placed,ran⟩ := bind_parts ran
    have first := update_sameLive placed
    cases pp with
    | bucket loc =>
      cases Except.ok.inj ran
      exact first
    | next last =>
      obtain ⟨linked,updated,ran⟩ := bind_parts ran
      cases Except.ok.inj ran
      exact first.trans (update_sameLive updated)

theorem rehashChain_sameLive {entries : Heap (Entry Component)} {work after : Rehash}
    (ran : rehashChain entries k fuel start work = .ok after) : SameLive work.nodes after.nodes := by
  induction fuel generalizing start work with
  | zero =>
    cases start with
    | none => cases Except.ok.inj ran; exact fun _ => rfl
    | some p => cases ran
  | succ fuel ih =>
    cases start with
    | none => cases Except.ok.inj ran; exact fun _ => rfl
    | some p =>
      obtain ⟨node,_,ran⟩ := bind_parts ran
      cases holds : node.entry with
      | none => rw [holds] at ran; cases ran
      | some e =>
        rw [holds] at ran
        obtain ⟨entry,_,ran⟩ := bind_parts ran
        obtain ⟨middle,placed,ran⟩ := bind_parts ran
        exact (place_sameLive placed).trans (ih ran)

theorem rehashBuckets_sameLive {entries : Heap (Entry Component)} {heads : List (Option NodeId)} {work after : Rehash}
    (ran : rehashBuckets entries k heads work = .ok after) : SameLive work.nodes after.nodes := by
  induction heads generalizing work with
  | nil => cases Except.ok.inj ran; exact fun _ => rfl
  | cons head rest ih =>
    obtain ⟨middle,one,later⟩ := bind_parts ran
    exact (rehashChain_sameLive one).trans (ih later)

theorem resize_sameLive {host : Host Component} {tree after : NameTree Component} (ran : tree.resize host k = .ok after) :
    SameLive tree.nodes after.nodes := by
  obtain ⟨work,rehashed,ran⟩ := bind_parts ran
  split at ran
  · cases Except.ok.inj ran
    exact rehashBuckets_sameLive rehashed
  · cases ran
end Rehashing

section Owned
variable [DecidableEq Component] {host : Host Component} {s t : Snapshot Component} {tree after : NameTree Component}
  {chains : List (List NodeId)} {registry : Registry Component}

-- Every node that lives is in some bucket.
def Owned (tree : NameTree Component) (chains : List (List NodeId)) : Prop := ∀ n, (tree.nodes.read n).isSome → n ∈ chains.flatten

omit [DecidableEq Component] in
theorem Entered.owned (effect : Entered host tree after chains chain parent name)
    (at_loc : chains[(host.hashName name).toNat % tree.nBuckets]? = some chain) (owned : Owned tree chains) :
    Owned after (enteredChains host tree chains chain name) := by
  intro n here
  refine (mem_entered at_loc).mpr ?_
  by_cases fresh : n = tree.nodes.size
  · exact .inl fresh
  · refine .inr (owned n ?_)
    rw [effect.node_old n fresh] at here
    split at here
    · rwa [Option.isSome_map] at here
    · exact here

omit [DecidableEq Component] in
theorem Removed.owned (effect : Removed tree after chains loc front m behind parent rest)
    (table : Table tree.nexts tree.buckets chains) (at_loc : chains[loc]? = some (front ++ m :: behind)) (owned : Owned tree chains) :
    Owned after (chains.set loc (front ++ behind)) := by
  intro n here
  have other : n ≠ m := by
    rintro rfl
    rw [effect.node_gone] at here
    cases here
  rw [effect.node_old n other,Option.isSome_map] at here
  exact (mem_left table at_loc).mpr ⟨owned n here,other⟩

theorem Moved.owned (moved : Moved host kind s t) (sound : s.Sound host) (owned : Owned s.tree s.chains) :
    Owned t.tree t.chains := by
  cases moved with
  | entered absent at_loc rooted above effect => exact effect.owned at_loc owned
  | resized positive ran effect =>
    intro n here
    rw [resize_sameLive ran n] at here
    exact (mem_distribute_flatten fun m _ => newBucketOf_lt _ positive m).mpr (owned n here)
  | attached ran effect =>
    intro n here
    rw [effect.nodes] at here
    exact owned n here
  | removed sits at_loc childless taken effect => exact effect.owned sound.chained.table at_loc owned

omit [DecidableEq Component] in
theorem live_iff (consistent : Consistent host tree chains registry) (owned : Owned tree chains) :
    (tree.nodes.read n).isSome ↔ n ∈ chains.flatten := by
  refine ⟨owned n,fun member => ?_⟩
  obtain ⟨_,_,sits⟩ := consistent.chained.sits member
  obtain ⟨node,live,_⟩ := sits.node_live
  simp [live]

omit [DecidableEq Component] in
theorem liveKeys_perm (consistent : Consistent host tree chains registry) (owned : Owned tree chains) :
    (liveKeys tree.nodes).Perm chains.flatten := by
  refine (List.perm_ext_iff_of_nodup (liveKeys_nodup _) consistent.chained.table.disjoint).mpr fun n => ?_
  rw [mem_liveKeys,live_iff consistent owned]

theorem clientStep_owned (op : ClientOp Component) (safe : SafeStep tree registry op)
    (related : ∃ chains, Consistent host tree chains registry ∧ Owned tree chains) :
    ∃ next, clientStep host tree op = .ok next ∧
      ∃ chains, Consistent host next chains (op.apply registry) ∧ Owned next chains := by
  obtain ⟨chains,consistent,owned⟩ := related
  have within : op.Within (fun _ => True) tree.resizeThreshold registry := by
    cases op with
    | lookup name => exact ⟨trivial,.inl trivial⟩
    | attach e change => trivial
    | erase e => exact fun _ _ _ => trivial
  obtain ⟨⟨next,chainsT,_⟩,ran,rfl,path⟩ := client_path (s:=⟨tree,chains,registry⟩) consistent op safe within
  exact ⟨next,ran,chainsT,path.sound consistent,
    path.preserves (fun _ sound owned moved => moved.owned sound owned) consistent owned⟩

theorem client_owned {n : Nat} (positive : 1 ≤ n) {ops : List (ClientOp Component)}
    (safe : Guarded (clientStep host) ClientOp.apply SafeStep (new n) .empty ops) :
    ∃ tree, run (clientStep host) (new n) ops = .ok tree ∧
      ∃ chains, Consistent host tree chains (ops.foldl ClientOp.apply .empty) ∧
        Owned tree chains := by
  refine run_simulates (fun tree registry => ∃ chains, Consistent host tree chains registry ∧ Owned tree chains)
    (fun _ _ op related allowed => clientStep_owned op allowed related) ⟨_,(new_consistent host positive).1,fun n here => ?_⟩ safe
  simp [new,Heap.empty,Heap.read] at here

-- No node is lost and none is kept after its entry is gone.
theorem client_nodes {n : Nat} (positive : 1 ≤ n) {ops : List (ClientOp Component)}
    (safe : Guarded (clientStep host) ClientOp.apply SafeStep (new n) .empty ops) :
    ∃ tree chains, run (clientStep host) (new n) ops = .ok tree ∧ Table tree.nexts tree.buckets chains ∧
      (∀ n, (tree.nodes.read n).isSome ↔ n ∈ chains.flatten) ∧ (liveKeys tree.nodes).length = tree.nItems := by
  obtain ⟨tree,ran,chains,consistent,owned⟩ := client_owned positive safe
  exact ⟨tree,chains,ran,consistent.chained.table,fun _ => live_iff consistent owned,
    (liveKeys_perm consistent owned).length_eq.trans consistent.nodes.symm⟩

theorem client_nodes_apart : ∃ tree chains,
    run (clientStep collidingHost) (new 8) [.lookup [0],.attach 1 (.insertPitEntry 7),.lookup [1],.erase 2] = .ok tree ∧
      Table tree.nexts tree.buckets chains ∧ (∀ n, (tree.nodes.read n).isSome ↔ n ∈ chains.flatten) ∧
      (liveKeys tree.nodes).length = tree.nItems :=
  client_nodes (by decide) (show Guarded (clientStep collidingHost) ClientOp.apply SafeStep (new 8) .empty
    [.lookup [0],.attach 1 (.insertPitEntry 7),.lookup [1],.erase 2] by decide)
end Owned

section Destroy
variable [DecidableEq Component] {host : Host Component} {tree : NameTree Component} {chains : List (List NodeId)}
  {registry : Registry Component}

omit [DecidableEq Component] in
theorem destroy_spec (chained : Chained tree chains) (gone : List NodeId → List NodeId)
    (within : ∀ chain, ∀ n ∈ gone chain, n ∈ chain) (empty : gone [] = []) {release : Heap Node → NodeId → Exec (Heap Node)}
    (releases : ∀ heap : Heap Node, ∀ n rest, Seg (links heap Node.next) (n :: rest) none → (n :: rest).Nodup →
      ∃ after, release heap n = .ok after ∧ Released heap after (gone (n :: rest))) :
    ∃ after, tree.destroy release = .ok after ∧ Released tree.nodes after (chains.flatMap gone) := by
  rw [destroy,chained.table.heads]
  exact releaseSlots_spec gone within empty chained.table.linked chained.table.disjoint releases

theorem deleteNodes_spec (heap : Heap Node) (seg : Seg (links heap Node.next) (n :: rest) none) (nodup : (n :: rest).Nodup) :
    ∃ after, deleteNodes heap n = .ok after ∧ Released heap after (n :: rest) :=
  releaseChain_spec seg (chain_fits seg nodup)

theorem deleteNode_spec (heap : Heap Node) (seg : Seg (links heap Node.next) (n :: rest) none) :
    ∃ after, deleteNode heap n = .ok after ∧ Released heap after [n] :=
  releaseOne_spec (chain_live seg n (by simp))

-- The whole chain goes with its first node, or the first node alone.
theorem client_destroyed {n : Nat} (positive : 1 ≤ n) {ops : List (ClientOp Component)}
    (safe : Guarded (clientStep host) ClientOp.apply SafeStep (new n) .empty ops) :
    ∃ tree whole heads, run (clientStep host) (new n) ops = .ok tree ∧
      tree.destroy deleteNodes = .ok whole ∧ (∀ n, whole.read n = none) ∧
      tree.destroy deleteNode = .ok heads ∧
        ∀ n, heads.read n = if some n ∈ tree.buckets then none else tree.nodes.read n := by
  obtain ⟨tree,ran,chains,consistent,owned⟩ := client_owned positive safe
  obtain ⟨whole,ranWhole,releasedWhole⟩ := destroy_spec consistent.chained id (fun _ _ member => member) rfl
    fun heap n rest seg nodup => deleteNodes_spec heap seg nodup
  obtain ⟨heads,ranHeads,releasedHeads⟩ := destroy_spec consistent.chained (fun chain => chain.take 1)
    (fun _ _ member => List.mem_of_mem_take member) rfl fun heap n rest seg _ => deleteNode_spec heap seg
  refine ⟨tree,whole,heads,ran,ranWhole,fun n => ?_,ranHeads,fun n => ?_⟩
  · rw [releasedWhole n,List.flatMap_id]
    split
    · rfl
    · rename_i absent
      exact Option.not_isSome_iff_eq_none.mp fun here => absent ((live_iff consistent owned).mp here)
  · rw [releasedHeads n,consistent.chained.table.heads]
    have first : n ∈ chains.flatMap (fun chain => chain.take 1) ↔ some n ∈ chains.map List.head? := by
      rw [List.mem_flatMap,List.mem_map]
      refine exists_congr fun chain => and_congr_right fun _ => ?_
      cases chain <;> simp [eq_comm]
    simp only [first]

-- The root and /0 share bucket 0, so that /0 stays behind where the root goes alone.
theorem client_destroyed_apart : ∃ tree whole heads,
    run (clientStep collidingHost) (new 8) [.lookup [0],.lookup [1]] = .ok tree ∧
      tree.destroy deleteNodes = .ok whole ∧ (∀ n, whole.read n = none) ∧ tree.destroy deleteNode = .ok heads ∧
      ∀ n, heads.read n = if some n ∈ tree.buckets then none else tree.nodes.read n :=
  client_destroyed (by decide) (show Guarded (clientStep collidingHost) ClientOp.apply SafeStep (new 8) .empty
    [.lookup [0],.lookup [1]] by decide)

example : (do
    let tree ← run (clientStep collidingHost) (new 8) [.lookup [0],.lookup [1]]
    let heads ← tree.destroy deleteNode
    return liveKeys heads) = .ok [1] := by decide
end Destroy

end NfdTables.NameTree
