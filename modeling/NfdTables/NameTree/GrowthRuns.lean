import NfdTables.NameTree.LookupSpec
import NfdTables.NameTree.WellFormed

namespace NfdTables.NameTree
open Machine Chain
variable {Component : Type} [DecidableEq Component]

inductive GrowthOp (Component : Type) where
  | lookup (name : Name Component)
  | resize (newNBuckets : Nat)
deriving DecidableEq

def growthStep (host : Host Component) (tree : NameTree Component) : GrowthOp Component → Exec (NameTree Component)
  | .lookup name => do
    let (tree,_) ← tree.lookup host name
    return tree
  | .resize newNBuckets => tree.resize host newNBuckets

def GrowthOp.apply (registry : Registry Component) : GrowthOp Component → Registry Component
  | .lookup name => registry.lookup name
  | .resize _ => registry

def GrowthOp.WellPosed : GrowthOp Component → Prop
  | .lookup _ => True
  | .resize newNBuckets => 1 ≤ newNBuckets

instance (op : GrowthOp Component) : Decidable op.WellPosed := by
  cases op <;> (unfold GrowthOp.WellPosed; infer_instance)

-- The last resize the step runs, itself or inside a lookup, if it runs one, meets
-- each new bucket once before it meets one of them again.
def OrderedStep (host : Host Component) (tree : NameTree Component) (_ : Registry Component) : GrowthOp Component → Prop
  | .lookup name => LookupOrdered host name (List.range (name.length+1)) tree none True
  | .resize newNBuckets => tree.ResizeOrdered newNBuckets

instance (host : Host Component) (tree : NameTree Component) (registry : Registry Component) (op : GrowthOp Component) :
    Decidable (OrderedStep host tree registry op) := by
  cases op <;> (unfold OrderedStep; infer_instance)

section Steps
variable {host : Host Component} {tree : NameTree Component} {registry : Registry Component}

theorem growthStep_consistent (op : GrowthOp Component) (posed : op.WellPosed) (consistent : Consistent host tree chains registry) :
    ∃ next chains', growthStep host tree op = .ok next ∧ Consistent host next chains' (op.apply registry) ∧
      (HeadsNull tree chains → (HeadsNull next chains' ↔ OrderedStep host tree registry op)) := by
  cases op with
  | lookup name =>
    obtain ⟨after,chains',ran,kept,null⟩ := lookup_consistent consistent name
    exact ⟨after,chains',by simp [growthStep,ran],kept,null⟩
  | resize k =>
    obtain ⟨after,chains',ran,kept,null⟩ := resize_consistent consistent posed
    exact ⟨after,chains',ran,kept,fun _ => null⟩

theorem growth_consistent (host : Host Component) {n : Nat} (positive : 1 ≤ n) {ops : List (GrowthOp Component)}
    (posed : ∀ op ∈ ops, op.WellPosed) :
    ∃ tree, run (growthStep host) (new n) ops = .ok tree ∧
      ∃ chains, Consistent host tree chains (ops.foldl GrowthOp.apply .empty) := by
  have simulated : ∀ (tree : NameTree Component) (registry : Registry Component) (op : GrowthOp Component),
      (∃ chains, Consistent host tree chains registry) → op.WellPosed →
      ∃ next, growthStep host tree op = .ok next ∧ ∃ chains, Consistent host next chains (op.apply registry) := by
    intro tree registry op related posed
    obtain ⟨chains,consistent⟩ := related
    obtain ⟨next,chains',stepped,kept,_⟩ := growthStep_consistent op posed consistent
    exact ⟨next,stepped,chains',kept⟩
  have start : ∃ chains, Consistent host (new n : NameTree Component) chains .empty := ⟨_,(new_consistent host positive).1⟩
  have guarded : Guarded (growthStep host) GrowthOp.apply (fun _ _ op => op.WellPosed) (new n) .empty ops :=
    guarded_of_related simulated (fun _ _ op _ member => posed op member) start
  exact run_simulates _ simulated start guarded
end Steps

section DoublyLinked

-- Every bucket is a doubly linked list whose first node has a null m_prev.
def DoublyLinked (tree : NameTree Component) : Prop :=
  ∃ chains, Table tree.nexts tree.buckets chains ∧ ∀ chain ∈ chains, Back tree.prevs none chain

variable {host : Host Component} {tree : NameTree Component} {registry : Registry Component}

omit [DecidableEq Component] in
theorem DoublyLinked.head {loc : Nat} {n : NodeId} (linked : DoublyLinked tree) (head : tree.buckets[loc]? = some (some n)) :
    tree.prevs n = some none := by
  obtain ⟨chains,table,back⟩ := linked
  rw [table.heads,List.getElem?_map,Option.map_eq_some_iff] at head
  obtain ⟨chain,at_loc,first⟩ := head
  have here := back chain (List.mem_of_getElem? at_loc)
  cases chain with
  | nil => cases first
  | cons m rest => cases Option.some.inj first; exact here.1

omit [DecidableEq Component] in
theorem doublyLinked_of (consistent : Consistent host tree chains registry) (heads : HeadsNull tree chains) :
    DoublyLinked tree :=
  ⟨chains,consistent.chained.table,fun _ member => back_of_heads consistent.linked heads member⟩

omit [DecidableEq Component] in
theorem doublyLinked_iff (consistent : Consistent host tree chains registry) : DoublyLinked tree ↔ HeadsNull tree chains := by
  refine ⟨fun linked chain member n first => ?_,doublyLinked_of consistent⟩
  obtain ⟨loc,at_loc⟩ := List.mem_iff_getElem?.mp member
  have head : tree.buckets[loc]? = some (some n) := by rw [consistent.chained.table.head_at at_loc,first]
  exact linked.head head

omit [DecidableEq Component] in
-- One resize, exactly.
theorem resize_doublyLinked_iff (consistent : Consistent host tree chains registry) (positive : 0 < k) :
    ∃ after, tree.resize host k = .ok after ∧ (DoublyLinked after ↔ tree.ResizeOrdered k) := by
  obtain ⟨after,chains',ran,kept,heads⟩ := resize_consistent consistent positive
  exact ⟨after,ran,(doublyLinked_iff kept).trans heads⟩

-- Whole runs, exactly: a later resize of the same lookup repairs an earlier one.
theorem growth_doublyLinked {n : Nat} (positive : 1 ≤ n) {ops : List (GrowthOp Component)} (posed : ∀ op ∈ ops, op.WellPosed) :
    (∀ earlier, earlier <+: ops → ∃ tree, run (growthStep host) (new n) earlier = .ok tree ∧ DoublyLinked tree) ↔
      Guarded (growthStep host) GrowthOp.apply (OrderedStep host) (new n) .empty ops := by
  have exactly : ∀ (tree : NameTree Component) (registry : Registry Component) (op : GrowthOp Component), op ∈ ops →
      (∃ chains, Consistent host tree chains registry) → DoublyLinked tree → ∃ next, growthStep host tree op = .ok next ∧
        (∃ chains, Consistent host next chains (op.apply registry)) ∧ (DoublyLinked next ↔ OrderedStep host tree registry op) := by
    intro tree registry op member sound linked
    obtain ⟨chains,consistent⟩ := sound
    obtain ⟨next,chains',stepped,kept,null⟩ := growthStep_consistent op (posed op member) consistent
    have heads := (doublyLinked_iff consistent).mp linked
    exact ⟨next,stepped,⟨chains',kept⟩,(doublyLinked_iff kept).trans (null heads)⟩
  obtain ⟨start,heads⟩ := new_consistent host positive
  exact guarded_iff exactly ⟨_,start⟩ (doublyLinked_of start heads)
end DoublyLinked

section Colliding

-- /1 goes to an odd bucket, every other name to bucket 0.
def collidingHost : Host Nat := ⟨fun name => if name = [1] then 1 else 0,fun n => n⟩

-- /1 falls behind the root as long as there are 8 buckets, and in front of /1/2.
def spreadingHost : Host Nat := ⟨fun name => [0,8,1,2,3].getD name.length 0,fun n => n⟩

-- Of the three resizes of this lookup the second leaves a stale m_prev at the head
-- of bucket 1, and the third does not.
theorem growth_doublyLinked_repaired :
    Guarded (growthStep spreadingHost) GrowthOp.apply (OrderedStep spreadingHost) (new 2) .empty [.lookup [1,2,3,4]] ∧
      ∀ earlier, earlier <+: [.lookup [1,2,3,4]] → ∃ tree, run (growthStep spreadingHost) (new 2) earlier = .ok tree ∧ DoublyLinked tree := by
  have ordered : Guarded (growthStep spreadingHost) GrowthOp.apply (OrderedStep spreadingHost) (new 2) .empty
    [.lookup [1,2,3,4]] := by decide
  exact ⟨ordered,(growth_doublyLinked (by decide) (by decide)).mpr ordered⟩

-- The last of three resizes puts /0 behind the root before it opens bucket 1 for /1.
theorem growth_not_doublyLinked : ¬ ∀ (host : Host Nat) (n : Nat) (ops : List (GrowthOp Nat)),
    1 ≤ n → (∀ op ∈ ops, op.WellPosed) → ∃ tree, run (growthStep host) (new n) ops = .ok tree ∧ DoublyLinked tree := by
  intro always
  obtain ⟨tree,ran,linked⟩ := always collidingHost 1 [.lookup [0],.lookup [1]] (by decide) (by decide)
  have stale : (run (growthStep collidingHost) (new 1) [.lookup [0],.lookup [1]]).toOption.map
      (fun tree => (tree.buckets[1]?,tree.prevs 2)) = some (some (some 2),some (some 0)) := by decide
  rw [ran] at stale
  obtain ⟨head,prev⟩ := Prod.mk.inj (Option.some.inj stale)
  have null := linked.head head
  rw [prev] at null
  cases null
end Colliding

section Hierarchy
variable {host : Host Component} {tree : NameTree Component} {registry : Registry Component}

def lookedUp (ops : List (GrowthOp Component)) : List (Name Component) :=
  ops.filterMap fun op => match op with
    | .lookup name => some name
    | .resize _ => none

theorem growth_names (ops : List (GrowthOp Component)) (registry : Registry Component) (name : Name Component) :
    name ∈ (ops.foldl GrowthOp.apply registry).names ↔ name ∈ registry.names ∨ ∃ asked ∈ lookedUp ops, name <+: asked := by
  induction ops generalizing registry with
  | nil => simp [lookedUp]
  | cons op rest ih =>
    rw [List.foldl_cons,ih]
    cases op with
    | lookup asked => simp [lookedUp,GrowthOp.apply,Registry.mem_lookup,or_assoc]
    | resize k => simp [lookedUp,GrowthOp.apply]

theorem growth_cell (ops : List (GrowthOp Component)) {registry : Registry Component} (stored : name ∈ registry.names) :
    name ∈ (ops.foldl GrowthOp.apply registry).names ∧
      (ops.foldl GrowthOp.apply registry).cell name = registry.cell name := by
  induction ops generalizing registry with
  | nil => exact ⟨stored,rfl⟩
  | cons op rest ih =>
    cases op with
    | lookup asked =>
      have present : name ∈ (registry.lookup asked).names := Registry.mem_lookup.mpr (.inl stored)
      obtain ⟨kept,same⟩ := ih present
      exact ⟨kept,same.trans (Registry.lookup_cell stored asked)⟩
    | resize k => exact ih stored

-- What the stored names and the parent pointers have to do with the names looked up.
structure GrownFrom (host : Host Component) (tree : NameTree Component) (chains : List (List NodeId))
    (looked : List (Name Component)) : Prop extends Agrees host tree chains where
  stored_iff : ∀ name, (∃ n e entry, Sits tree chains n e entry ∧ entry.namePrefix = name) ↔
    ∃ asked ∈ looked, ∃ i ≤ asked.length, name = getPrefix asked i
  parent_found : ∀ {n e entry}, Sits tree chains n e entry → entry.namePrefix ≠ [] →
    entry.parent.isSome ∧
      tree.findExactMatch host (getPrefix entry.namePrefix (entry.namePrefix.length - 1)) = .ok entry.parent

omit [DecidableEq Component] in
theorem prefix_iff_getPrefix {name asked : Name Component} : name <+: asked ↔ ∃ i ≤ asked.length, name = getPrefix asked i := by
  constructor
  · exact fun below => ⟨name.length,below.length_le,List.prefix_iff_eq_take.mp below⟩
  · rintro ⟨i,_,rfl⟩
    exact List.take_prefix i asked

theorem parent_found {chains : List (List NodeId)} (consistent : Consistent host tree chains registry)
    (sits : Sits tree chains n e entry) (filled : entry.namePrefix ≠ []) : entry.parent.isSome ∧
      tree.findExactMatch host (getPrefix entry.namePrefix (entry.namePrefix.length - 1)) = .ok entry.parent := by
  have above := consistent.parented sits
  have stored := consistent.named.closed.parent (consistent.named.known sits).1
  rw [Registry.parentOf,if_neg filled] at above
  rw [above,consistent.find,getPrefix,← List.dropLast_eq_take,Registry.find_stored stored]
  exact ⟨rfl,rfl⟩

theorem grownFrom {chains : List (List NodeId)} {ops : List (GrowthOp Component)}
    (consistent : Consistent host tree chains (ops.foldl GrowthOp.apply .empty)) :
    GrownFrom host tree chains (lookedUp ops) where
  toAgrees := consistent.agrees
  stored_iff := by
    intro name
    rw [← consistent.named.stored_iff,growth_names]
    simp [Registry.empty,prefix_iff_getPrefix]
  parent_found := parent_found consistent

theorem growth_hierarchy {n : Nat} (positive : 1 ≤ n) {ops : List (GrowthOp Component)} (posed : ∀ op ∈ ops, op.WellPosed) :
    ∃ tree chains, run (growthStep host) (new n) ops = .ok tree ∧ GrownFrom host tree chains (lookedUp ops) ∧
      ∀ earlier name later, ops = earlier ++ .lookup name :: later →
        ∃ before after e, run (growthStep host) (new n) earlier = .ok before ∧ before.lookup host name = .ok (after,some e) ∧
          tree.findExactMatch host name = .ok (some e) := by
  obtain ⟨tree,ran,chains,consistent⟩ := growth_consistent host positive posed
  refine ⟨tree,chains,ran,grownFrom consistent,?_⟩
  rintro earlier name later rfl
  obtain ⟨before,ranBefore,chainsB,consistentB⟩ := growth_consistent host positive
    (fun op member => posed op (List.mem_append_left _ member))
  obtain ⟨after,_,looked,_⟩ := lookup_consistent consistentB name
  refine ⟨before,after,_,ranBefore,looked,?_⟩
  have stored : name ∈ ((earlier.foldl GrowthOp.apply .empty).lookup name).names :=
    Registry.mem_lookup.mpr (.inr List.prefix_rfl)
  obtain ⟨kept,same⟩ := growth_cell later stored
  rw [consistent.find,List.foldl_append,List.foldl_cons,GrowthOp.apply,Registry.find_stored kept,same]

theorem growth_hierarchy_colliding :
    ∃ tree chains, run (growthStep collidingHost) (new 1) [.lookup [0],.resize 3,.lookup [1]] = .ok tree ∧
      GrownFrom collidingHost tree chains [[0],[1]] ∧
      ∀ earlier name later, [.lookup [0],.resize 3,.lookup [1]] = earlier ++ .lookup name :: later →
        ∃ before after e, run (growthStep collidingHost) (new 1) earlier = .ok before ∧
          before.lookup collidingHost name = .ok (after,some e) ∧ tree.findExactMatch collidingHost name = .ok (some e) :=
  growth_hierarchy (by decide) (by decide)
end Hierarchy

end NfdTables.NameTree
