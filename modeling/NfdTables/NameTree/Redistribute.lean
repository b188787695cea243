import NfdTables.NameTree.GrowthRuns

namespace NfdTables.NameTree
open Machine Chain
variable {Component : Type}

-- Each new chain is the part of the old ones, one after another, that belongs there.
structure Redistributed (tree after : NameTree Component) (k : Nat) (chains chains' : List (List NodeId)) : Prop where
  buckets : after.nBuckets = k
  chained : Chained after chains'
  stable : ∀ b < k, chains'[b]? = some (chains.flatten.filter fun n => tree.newBucketOf k n = b)
  nodes : chains'.flatten.Perm chains.flatten
  held : ∀ n, after.entryAt n = tree.entryAt n
  items : after.nItems = tree.nItems
  counted : after.nItems = chains'.flatten.length

section Redistribution
variable {host : Host Component} {tree after : NameTree Component} {chains : List (List NodeId)}

theorem Resized.redistributed (resized : Resized host tree after k chains) (chained : Chained tree chains)
    (counted : tree.nItems = chains.flatten.length) (positive : 0 < k) :
    Redistributed tree after k chains (distribute k (tree.newBucketOf k) chains.flatten) := by
  have nodes : (distribute k (tree.newBucketOf k) chains.flatten).flatten.Perm chains.flatten :=
    (List.perm_ext_iff_of_nodup resized.chained.table.disjoint chained.table.disjoint).mpr
      (fun _ => mem_distribute_flatten fun n _ => newBucketOf_lt tree positive n)
  refine ⟨resized.buckets,resized.chained,fun b bound => distribute_at bound _ _,nodes,resized.holds,resized.items,?_⟩
  rw [resized.items,counted,nodes.length_eq]

variable [DecidableEq Component]

theorem bearing_bucket {name : Name Component} (found : (tree.hit (bearing host name) n).isSome) :
    tree.newBucketOf k n = (host.hashName name).toNat % k := by
  cases held : tree.entryAt n with
  | none =>
    rw [hit,held] at found
    cases found
  | some pair =>
    obtain ⟨e,entry⟩ := pair
    rw [hit_at held] at found
    split at found
    · rename_i bears
      rw [bearing,decide_eq_true_iff] at bears
      rw [newBucketOf,held,bears.1]
    · cases found

theorem findExactMatch_flatten (chained : Chained tree chains) (placed : Placed tree chains) (name : Name Component) :
    tree.findExactMatch host name = .ok (chains.flatten.findSome? (tree.hit (bearing host name))) := by
  obtain ⟨chain,at_loc⟩ := chained.table.chain_at (placed.bound (host.hashName name).toNat)
  have sorted : ∀ loc group, chains[loc]? = some group → ∀ n ∈ group, tree.newBucketOf tree.nBuckets n = loc := by
    intro loc group at_group n member
    obtain ⟨e,entry,sits⟩ := chained.sits (mem_flatten_at at_group member)
    rw [newBucketOf,sits.holds]
    exact placed.bucket at_group member sits.holds
  have hits : ∀ n ∈ chains.flatten, (tree.hit (bearing host name) n).isSome →
      tree.newBucketOf tree.nBuckets n = (host.hashName name).toNat % tree.nBuckets := fun n _ found => bearing_bucket found
  rw [findExactMatch_chain chained name at_loc,← search_class hits,group_eq sorted at_loc]

theorem Redistributed.found (moved : Redistributed tree after k chains chains') (positive : 0 < k) (name : Name Component) :
    after.findExactMatch host name = .ok (chains.flatten.findSome? (tree.hit (bearing host name))) := by
  have at_loc := moved.stable _ (Nat.mod_lt (host.hashName name).toNat positive)
  have same : after.hit (bearing host name) = tree.hit (bearing host name) := by
    funext n
    rw [hit,hit,moved.held]
  rw [← moved.buckets] at at_loc
  rw [findExactMatch_chain moved.chained name at_loc,same,moved.buckets,search_class (fun n _ found => bearing_bucket found)]

-- No search finds an entry under another hash than its own.
theorem resize_redistributes (host : Host Component) (chained : Chained tree chains)
    (counted : tree.nItems = chains.flatten.length) (positive : 1 ≤ k) :
    ∃ after chains', tree.resize host k = .ok after ∧ Redistributed tree after k chains chains' ∧
      (Placed tree chains → ∀ name, ∃ found, tree.findExactMatch host name = .ok found ∧
        after.findExactMatch host name = .ok found) := by
  obtain ⟨after,ran,resized⟩ := resize_spec host chained counted positive
  have moved := resized.redistributed chained counted positive
  exact ⟨after,_,ran,moved,fun placed name => ⟨_,findExactMatch_flatten chained placed name,moved.found positive name⟩⟩

-- Four nodes from eight buckets to three.
theorem resize_redistributes_three : ∃ (tree : NameTree Nat) (chains : List (List NodeId)),
    run (growthStep collidingHost) (new 8) [.lookup [0,2],.lookup [1]] = .ok tree ∧
      ∃ after chains', tree.resize collidingHost 3 = .ok after ∧ Redistributed tree after 3 chains chains' ∧
        (Placed tree chains → ∀ name, ∃ found, tree.findExactMatch collidingHost name = .ok found ∧
          after.findExactMatch collidingHost name = .ok found) := by
  obtain ⟨tree,ran,chains,consistent⟩ := growth_consistent collidingHost (n:=8) (by decide)
    (show ∀ op ∈ [.lookup [0,2],.lookup [1]], GrowthOp.WellPosed op by decide)
  exact ⟨tree,chains,ran,resize_redistributes collidingHost consistent.chained consistent.nodes (by decide)⟩
end Redistribution

end NfdTables.NameTree
