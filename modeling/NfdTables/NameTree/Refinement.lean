import NfdTables.NameTree.EraseSpec

namespace NfdTables.NameTree
open Machine Chain PrefixSet
variable {Component : Type} [DecidableEq Component]

inductive ClientOp (Component : Type) where
  | lookup (name : Name Component)
  | attach (e : EntryId) (change : Payload.Change)
  | erase (e : EntryId)
deriving DecidableEq

def clientStep (host : Host Component) (tree : NameTree Component) : ClientOp Component → Exec (NameTree Component)
  | .lookup name => do
    let (tree,_) ← tree.lookup host name
    return tree
  | .attach e change => tree.attach e change
  | .erase e => do
    let (tree,_) ← tree.eraseEntryIfEmpty e
    return tree

def ClientOp.apply (registry : Registry Component) : ClientOp Component → Registry Component
  | .lookup name => registry.lookup name
  | .attach e change => registry.attach e change
  | .erase e => registry.erase e

def ClientOp.OnStored (registry : Registry Component) : ClientOp Component → Prop
  | .lookup _ => True
  | .attach e _ => registry.Holds e
  | .erase e => registry.Holds e

instance (registry : Registry Component) (op : ClientOp Component) : Decidable (op.OnStored registry) := by
  cases op <;> (unfold ClientOp.OnStored; infer_instance)

-- If the entry's node is the first of its bucket, its m_prev is null.
def HeadInOrder (tree : NameTree Component) (e : EntryId) : Prop :=
  ∀ entry ∈ tree.entries.read e, ∀ n ∈ entry.node,
    tree.buckets[entry.hash.toNat % tree.nBuckets]? = some (some n) → tree.prevs n = some none

instance (tree : NameTree Component) (e : EntryId) : Decidable (tree.HeadInOrder e) := by
  unfold HeadInOrder; infer_instance

-- Every entry an erase is about to take out has its node in order.
def SafeStep (tree : NameTree Component) (registry : Registry Component) (op : ClientOp Component) : Prop :=
  op.OnStored registry ∧ match op with
    | .erase e => ∀ y ∈ registry.names, registry.FallsWith e y → tree.HeadInOrder (registry.cell y).object
    | _ => True

instance (tree : NameTree Component) (registry : Registry Component) (op : ClientOp Component) :
    Decidable (SafeStep tree registry op) := by
  cases op <;> (unfold SafeStep; infer_instance)

section Attach
variable {host : Host Component} {tree after : NameTree Component} {chains : List (List NodeId)} {registry : Registry Component}

-- What a client's change of `e` does to the entry `f`.
def endow (e : EntryId) (change : Payload.Change) (f : EntryId) (entry : Entry Component) : Entry Component :=
  {entry with payload := if f = e then (entry.payload.apply change).1 else entry.payload}

structure Attached (tree after : NameTree Component) (e : EntryId) (change : Payload.Change) : Prop where
  items : after.nItems = tree.nItems
  buckets : after.buckets = tree.buckets
  nodes : after.nodes = tree.nodes
  size : after.entries.size = tree.entries.size
  read : ∀ f, after.entries.read f = (tree.entries.read f).map (endow e change f)

omit [DecidableEq Component]

theorem attach_spec (live : tree.entries.read e = some entry) (change : Payload.Change) :
    ∃ after, tree.attach e change = .ok after ∧ Attached tree after e change := by
  refine ⟨{tree with entries := tree.entries.write e (endow e change e entry)},by simp [attach,Heap.update_live live,endow],
    ⟨rfl,rfl,rfl,by simp,fun f => ?_⟩⟩
  rw [Heap.read_write live]
  by_cases same : f = e
  · subst f; simp [live]
  · rw [if_neg same]
    cases tree.entries.read f <;> simp [endow,same]

theorem Attached.entryAt (attached : Attached tree after e change) (n : NodeId) :
    after.entryAt n = (tree.entryAt n).map fun (f,entry) => (f,endow e change f entry) := by
  unfold NameTree.entryAt
  rw [attached.nodes]
  cases tree.nodes.read n with
  | none => rfl
  | some node =>
    cases points : node.entry with
    | none => simp [points]
    | some f =>
      simp only [points,Option.bind_some,attached.read f]
      cases tree.entries.read f <;> rfl

theorem Attached.sits (attached : Attached tree after e change) : Sits after chains n f entry ↔
    ∃ old, Sits tree chains n f old ∧ entry = endow e change f old := by
  constructor
  · intro sits
    have holds := sits.holds
    rw [attached.entryAt,Option.map_eq_some_iff] at holds
    obtain ⟨⟨g,old⟩,held,same⟩ := holds
    obtain ⟨rfl,rfl⟩ := Prod.mk.inj same
    exact ⟨old,⟨sits.member,held⟩,rfl⟩
  · rintro ⟨old,sits,rfl⟩
    exact ⟨sits.member,by rw [attached.entryAt,sits.holds]; rfl⟩

theorem Attached.consistent (attached : Attached tree after e change) (consistent : Consistent host tree chains registry) :
    Consistent host after chains (registry.attach e change) where
  chained := by
    refine ⟨?_,fun n member => by rw [attached.entryAt,Option.isSome_map]; exact consistent.chained.held n member⟩
    rw [nexts,attached.nodes,attached.buckets]
    exact consistent.chained.table
  placed := by
    refine ⟨by rw [nBuckets,attached.buckets]; exact consistent.placed.positive,?_⟩
    intro loc chain n f entry got deep holds
    obtain ⟨old,sits,rfl⟩ := attached.sits.mp ⟨mem_flatten_at got deep,holds⟩
    rw [nBuckets,attached.buckets]
    exact (consistent.placed.bucket got deep sits.holds :)
  pointing := by
    intro n f entry sits
    obtain ⟨old,sitsOld,rfl⟩ := attached.sits.mp sits
    exact (consistent.pointing sitsOld :)
  linked := by
    intro chain member
    rw [prevs,attached.nodes]
    exact consistent.linked chain member
  named := by
    refine ⟨?_,?_,?_,?_,consistent.named.closed⟩
    · intro n f entry sits
      obtain ⟨old,sitsOld,rfl⟩ := attached.sits.mp sits
      exact (consistent.named.hashed sitsOld :)
    · intro n f entry sits
      obtain ⟨old,sitsOld,rfl⟩ := attached.sits.mp sits
      obtain ⟨stored,cell⟩ := consistent.named.known sitsOld
      refine ⟨stored,?_⟩
      change (registry.attach e change).cell old.namePrefix = _
      rw [Registry.attach]
      simp only [cell,endow]
      split
      · rename_i same; rw [same]
      · rfl
    · intro name stored
      obtain ⟨n,f,old,sits,rfl⟩ := consistent.named.stored name stored
      exact ⟨n,f,_,attached.sits.mpr ⟨old,sits,rfl⟩,rfl⟩
    · intro n f entry n' f' entry' sits sits' same
      obtain ⟨old,sitsOld,rfl⟩ := attached.sits.mp sits
      obtain ⟨old',sitsOld',rfl⟩ := attached.sits.mp sits'
      exact consistent.named.unique sitsOld sitsOld' same
  parented := by
    intro n f entry sits
    obtain ⟨old,sitsOld,rfl⟩ := attached.sits.mp sits
    rw [Registry.attach_parentOf]
    exact (consistent.parented sitsOld :)
  fostered := by
    refine ⟨?_,?_⟩
    · intro n f entry sits
      obtain ⟨old,sitsOld,rfl⟩ := attached.sits.mp sits
      exact (consistent.fostered.nodup sitsOld :)
    · intro n f entry sits c
      obtain ⟨old,sitsOld,rfl⟩ := attached.sits.mp sits
      simp only [Registry.attach_object]
      exact consistent.fostered.child_iff sitsOld c
  counted := attached.items.trans consistent.counted
  synced := consistent.synced.trans attached.size.symm

theorem attach_consistent (consistent : Consistent host tree chains registry) (held : registry.Holds e)
    (change : Payload.Change) :
    ∃ after, tree.attach e change = .ok after ∧ Consistent host after chains (registry.attach e change) := by
  obtain ⟨name,stored,rfl⟩ := held
  obtain ⟨_,_,sits,_⟩ := consistent.named.live stored
  obtain ⟨after,ran,attached⟩ := attach_spec sits.entry_live change
  exact ⟨after,ran,attached.consistent consistent⟩
end Attach

section Steps
variable {host : Host Component} {tree : NameTree Component} {chains : List (List NodeId)} {registry : Registry Component}

omit [DecidableEq Component] in
theorem headOk_of (consistent : Consistent host tree chains registry) (sits : Sits tree chains n e entry)
    (safe : tree.HeadInOrder e) : HeadOk tree chains n := by
  intro chain member first
  obtain ⟨home,at_home,inside⟩ := sits.bucket consistent.placed
  obtain ⟨loc,at_loc⟩ := List.mem_iff_getElem?.mp member
  cases disjoint_other consistent.chained.table.disjoint at_home inside at_loc (List.mem_of_mem_head? first)
  refine safe entry sits.entry_live n (consistent.pointing sits) ?_
  rw [consistent.chained.table.head_at at_loc,first]

theorem clientStep_consistent (op : ClientOp Component) (safe : SafeStep tree registry op)
    (related : ∃ chains, Consistent host tree chains registry) :
    ∃ next, clientStep host tree op = .ok next ∧ ∃ chains, Consistent host next chains (op.apply registry) := by
  obtain ⟨chains,consistent⟩ := related
  obtain ⟨onStored,heads⟩ := safe
  cases op with
  | lookup name =>
    obtain ⟨after,chains',ran,kept,_⟩ := lookup_consistent consistent name
    exact ⟨after,by simp [clientStep,ran],chains',kept⟩
  | attach e change =>
    obtain ⟨after,ran,kept⟩ := attach_consistent consistent onStored change
    exact ⟨after,ran,chains,kept⟩
  | erase e =>
    obtain ⟨name,stored,rfl⟩ := onStored
    obtain ⟨n,entry,sits,rfl⟩ := consistent.named.live stored
    obtain ⟨after,chains',flag,ran,kept⟩ := erase_consistent consistent sits (by
      intro m f object sitsM doomed
      have falls := (Registry.fallsWith_iff consistent.distinct stored).mpr doomed
      have inOrder := heads object.namePrefix (consistent.named.known sitsM).1 falls
      rw [consistent.named.object sitsM] at inOrder
      exact headOk_of consistent sitsM inOrder)
    refine ⟨after,by simp [clientStep,ran],chains',?_⟩
    rwa [ClientOp.apply,Registry.erase_eq consistent.distinct stored]
end Steps

section Runs
variable {host : Host Component} {tree : NameTree Component} {chains : List (List NodeId)} {registry : Registry Component}

-- The tree seen from outside is the registry, and the buckets hold no other nodes.
structure Refines (host : Host Component) (tree : NameTree Component) (registry : Registry Component) : Prop where
  find : ∀ name, tree.findExactMatch host name = .ok (registry.find name)
  object : ∀ name ∈ registry.names, ∃ entry, tree.entries.read (registry.cell name).object = some entry ∧
    entry.namePrefix = name ∧ entry.payload = (registry.cell name).payload
  nodes : ∃ chains, Table tree.nexts tree.buckets chains ∧
    ∀ n ∈ chains.flatten, ∃ node e, tree.nodes.read n = some node ∧ node.entry = some e ∧ registry.Holds e
  counted : tree.nItems = registry.names.card

theorem Consistent.refines (consistent : Consistent host tree chains registry) : Refines host tree registry where
  find := consistent.find
  object := by
    intro name stored
    obtain ⟨_,entry,sits,rfl⟩ := consistent.named.live stored
    refine ⟨entry,sits.entry_live,rfl,?_⟩
    rw [(consistent.named.known sits).2]
  nodes := by
    refine ⟨chains,consistent.chained.table,fun n member => ?_⟩
    obtain ⟨e,entry,sits⟩ := consistent.chained.sits member
    obtain ⟨node,live,holds⟩ := sits.node_live
    exact ⟨node,e,live,holds,entry.namePrefix,(consistent.named.known sits).1,consistent.named.object sits⟩
  counted := consistent.counted

theorem client_consistent {n : Nat} (positive : 1 ≤ n) {ops : List (ClientOp Component)}
    (safe : Guarded (clientStep host) ClientOp.apply SafeStep (new n) .empty ops) :
    ∃ tree, run (clientStep host) (new n) ops = .ok tree ∧
      ∃ chains, Consistent host tree chains (ops.foldl ClientOp.apply .empty) :=
  run_simulates (fun tree registry => ∃ chains, Consistent host tree chains registry)
    (fun _ _ op related allowed => clientStep_consistent op allowed related) ⟨_,(new_consistent host positive).1⟩ safe

theorem client_refines {n : Nat} (positive : 1 ≤ n) {ops earlier : List (ClientOp Component)}
    (safe : Guarded (clientStep host) ClientOp.apply SafeStep (new n) .empty ops) (reached : earlier <+: ops) :
    ∃ tree, run (clientStep host) (new n) earlier = .ok tree ∧ Refines host tree (earlier.foldl ClientOp.apply .empty) ∧
      ∀ before name behind, earlier = before ++ .lookup name :: behind →
        ∃ start after, run (clientStep host) (new n) before = .ok start ∧
          start.lookup host name = .ok (after,some (((before.foldl ClientOp.apply .empty).lookup name).cell name).object) := by
  obtain ⟨later,rfl⟩ := reached
  have safeNow := guarded_earlier safe
  obtain ⟨tree,ran,chains,consistent⟩ := client_consistent positive safeNow
  refine ⟨tree,ran,consistent.refines,?_⟩
  rintro before name behind rfl
  obtain ⟨start,ranStart,_,consistentStart⟩ := client_consistent positive (guarded_earlier safeNow)
  obtain ⟨after,_,looked,_⟩ := lookup_consistent consistentStart name
  exact ⟨start,after,ranStart,looked⟩

theorem client_refines_apart : ∃ tree,
    run (clientStep collidingHost) (new 8) [.lookup [0],.attach 1 (.insertPitEntry 7),.lookup [1],.erase 2] = .ok tree ∧
      Refines collidingHost tree
        (([.lookup [0],.attach 1 (.insertPitEntry 7),.lookup [1],.erase 2] : List (ClientOp Nat)).foldl ClientOp.apply .empty) ∧
      ∀ before name behind,
        ([.lookup [0],.attach 1 (.insertPitEntry 7),.lookup [1],.erase 2] : List (ClientOp Nat)) = before ++ .lookup name :: behind →
        ∃ start after, run (clientStep collidingHost) (new 8) before = .ok start ∧ start.lookup collidingHost name =
          .ok (after,some (((before.foldl ClientOp.apply .empty).lookup name).cell name).object) :=
  client_refines (by decide) (show Guarded (clientStep collidingHost) ClientOp.apply SafeStep (new 8) .empty
    [.lookup [0],.attach 1 (.insertPitEntry 7),.lookup [1],.erase 2] by decide) List.prefix_rfl

-- /1 opens bucket 1 with the root's node as its m_prev, and erasing it drops /0.
theorem client_not_refines : ¬ ∀ (host : Host Nat) (n : Nat) (ops : List (ClientOp Nat)), 1 ≤ n →
    Guarded (clientStep host) ClientOp.apply (fun _ registry op => op.OnStored registry) (new n) .empty ops →
    ∃ tree, run (clientStep host) (new n) ops = .ok tree ∧ Refines host tree (ops.foldl ClientOp.apply .empty) := by
  intro always
  obtain ⟨tree,ran,refined⟩ := always collidingHost 1 [.lookup [0],.lookup [1],.erase 2] (by decide) (by decide)
  have lost : (run (clientStep collidingHost) (new 1) [.lookup [0],.lookup [1],.erase 2]).toOption.map
      (fun tree => (tree.findExactMatch collidingHost [0]).toOption) = some (some none) := by decide
  rw [ran] at lost
  have found := refined.find [0]
  have stored : (([.lookup [0],.lookup [1],.erase 2] : List (ClientOp Nat)).foldl ClientOp.apply .empty).find [0] = some 1 := by
    decide
  rw [stored] at found
  have missing : (tree.findExactMatch collidingHost [0]).toOption = some none := Option.some.inj lost
  rw [found] at missing
  cases missing
end Runs

end NfdTables.NameTree
