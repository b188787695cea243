import NfdTables.NameTree.Moves

namespace NfdTables.NameTree
open Machine Chain PrefixSet
variable {Component : Type} [DecidableEq Component]

section Calm
variable {host : Host Component} {allowed : Kind → Prop} {s t : Snapshot Component} {tree after : NameTree Component}
  {chains : List (List NodeId)}

omit [DecidableEq Component] in
theorem headsNull_iff : HeadsNull tree chains ↔ ∀ n, HeadOk tree chains n :=
  ⟨fun heads n chain member first => heads chain member n first,fun ok chain member n first => ok n chain member first⟩

omit [DecidableEq Component] in
theorem attach_threshold (ran : tree.attach e change = .ok after) : after.resizeThreshold = tree.resizeThreshold := by
  obtain ⟨entries,_,same⟩ := bind_parts ran
  rw [← Except.ok.inj same]

omit [DecidableEq Component] in
theorem Attached.headsNull (attached : Attached tree after e change) (heads : HeadsNull tree chains) : HeadsNull after chains := by
  intro chain member n first
  rw [prevs,attached.nodes]
  exact heads chain member n first

-- What a resize alone can disturb.
structure Calm (s t : Snapshot Component) : Prop where
  heads : HeadsNull s.tree s.chains → HeadsNull t.tree t.chains
  threshold : t.tree.resizeThreshold = s.tree.resizeThreshold
  buckets : t.tree.nBuckets = s.tree.nBuckets

theorem Moved.calm (moved : Moved host kind s t) (sound : s.Sound host) (other : kind ≠ .resized) : Calm s t := by
  cases moved with
  | entered absent at_loc rooted above effect =>
    exact ⟨fun heads => effect.headsNull sound.chained heads at_loc,effect.threshold,effect.buckets sound.chained⟩
  | resized _ _ _ => exact absurd rfl other
  | attached ran effect => exact ⟨effect.headsNull,attach_threshold ran,congrArg List.length effect.buckets⟩
  | removed sits at_loc childless taken effect =>
    refine ⟨fun heads => ?_,effect.threshold,effect.buckets sound.chained.table⟩
    rw [headsNull_iff] at heads ⊢
    exact fun m => effect.headOk sound.chained.table at_loc (heads m)

theorem Path.calm (path : Path host allowed s t) (sound : s.Sound host) (never : ¬ allowed .resized) : Calm s t := by
  induction path with
  | stay => exact ⟨id,rfl,rfl⟩
  | step path moved fits ih =>
    obtain ⟨heads,threshold,buckets⟩ := ih
    obtain ⟨headsM,thresholdM,bucketsM⟩ := moved.calm (path.sound sound) (fun same => never (same ▸ fits))
    exact ⟨fun null => headsM (heads null),thresholdM.trans threshold,bucketsM.trans buckets⟩
end Calm

section Room
variable {host : Host Component} {tree : NameTree Component} {chains : List (List NodeId)} {registry : Registry Component}

-- A lookup stays within the load limit of the buckets the tree has been built with.
def RoomyStep (n : Nat) (registry : Registry Component) : ClientOp Component → Prop
  | .lookup name => (registry.lookup name).names.card ≤ loadLimit n
  | .attach e _ => registry.Holds e
  | .erase e => registry.Holds e

instance (n : Nat) (registry : Registry Component) (op : ClientOp Component) : Decidable (RoomyStep n registry op) :=
  match op with
  | .lookup _ => Nat.decLe _ _
  | .attach e _ => inferInstanceAs (Decidable (registry.Holds e))
  | .erase e => inferInstanceAs (Decidable (registry.Holds e))

omit [DecidableEq Component] in
theorem headInOrder_of (consistent : Consistent host tree chains registry) (heads : HeadsNull tree chains)
    (e : EntryId) : tree.HeadInOrder e := by
  intro entry _ n _ first
  rw [consistent.chained.table.heads,List.getElem?_map,Option.map_eq_some_iff] at first
  obtain ⟨chain,at_loc,head⟩ := first
  exact heads chain (List.mem_of_getElem? at_loc) n head

structure Untouched (host : Host Component) (n : Nat) (tree : NameTree Component) (registry : Registry Component) : Prop where
  sound : ∃ chains, Consistent host tree chains registry ∧ HeadsNull tree chains
  threshold : tree.resizeThreshold = loadLimit n
  buckets : tree.nBuckets = n

omit [DecidableEq Component] in
theorem new_untouched (host : Host Component) (positive : 1 ≤ n) : Untouched host n (new n : NameTree Component) .empty :=
  ⟨⟨_,new_consistent host positive⟩,rfl,List.length_replicate⟩

theorem roomyStep_untouched (op : ClientOp Component) (untouched : Untouched host n tree registry)
    (roomy : RoomyStep n registry op) :
    ∃ next, clientStep host tree op = .ok next ∧ Untouched host n next (op.apply registry) := by
  obtain ⟨⟨chains,consistent,heads⟩,threshold,buckets⟩ := untouched
  have safe : SafeStep tree registry op := by
    cases op with
    | lookup name => exact ⟨trivial,trivial⟩
    | attach e change => exact ⟨roomy,trivial⟩
    | erase e => exact ⟨roomy,fun y _ _ => headInOrder_of consistent heads _⟩
  have within : op.Within (· ≠ .resized) tree.resizeThreshold registry := by
    cases op with
    | lookup name => exact ⟨nofun,.inr (threshold ▸ roomy)⟩
    | attach e change => exact nofun
    | erase e => exact fun y _ _ => nofun
  obtain ⟨t,ran,registryT,path⟩ := client_path (s:=⟨tree,chains,registry⟩) consistent op safe within
  obtain ⟨headsT,thresholdT,bucketsT⟩ := path.calm consistent (fun other => other rfl)
  exact ⟨t.tree,ran,⟨t.chains,registryT ▸ path.sound consistent,headsT heads⟩,thresholdT.trans threshold,bucketsT.trans buckets⟩

theorem client_refines_roomy {n : Nat} (positive : 1 ≤ n) {ops : List (ClientOp Component)}
    (roomy : Guarded (clientStep host) ClientOp.apply (fun _ => RoomyStep n) (new n) .empty ops) :
    ∃ tree, run (clientStep host) (new n) ops = .ok tree ∧ Refines host tree (ops.foldl ClientOp.apply .empty) ∧
      DoublyLinked tree ∧ tree.nBuckets = n := by
  obtain ⟨tree,ran,⟨chains,consistent,heads⟩,_,buckets⟩ := run_simulates (Untouched host n)
    (fun _ _ op untouched roomy => roomyStep_untouched op untouched roomy) (new_untouched host positive) roomy
  exact ⟨tree,ran,consistent.refines,doublyLinked_of consistent heads,buckets⟩

-- Erasing /1 is harmless with eight buckets, which three names do not outgrow.
theorem client_refines_roomy_apart : ∃ tree,
    run (clientStep collidingHost) (new 8) [.lookup [0],.lookup [1],.erase 2] = .ok tree ∧
      Refines collidingHost tree (([.lookup [0],.lookup [1],.erase 2] : List (ClientOp Nat)).foldl ClientOp.apply .empty) ∧
      DoublyLinked tree ∧ tree.nBuckets = 8 :=
  client_refines_roomy (by decide) (show Guarded (clientStep collidingHost) ClientOp.apply (fun _ => RoomyStep 8) (new 8) .empty
    [.lookup [0],.lookup [1],.erase 2] by decide)
end Room

end NfdTables.NameTree
