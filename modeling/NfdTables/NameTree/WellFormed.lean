import NfdTables.NameTree.EnterSpec

namespace NfdTables.NameTree
open Machine Chain
variable {Component : Type}

-- The same layout in the tree's own terms, with no registry beside it.
structure Stores (host : Host Component) (tree : NameTree Component) (chains : List (List NodeId)) : Prop
    extends Chained tree chains,Placed tree chains where
  hashed : ∀ {n e entry}, Sits tree chains n e entry → entry.hash = host.hashName entry.namePrefix
  unique : ∀ {n e entry n' e' entry'}, Sits tree chains n e entry → Sits tree chains n' e' entry' →
    entry.namePrefix = entry'.namePrefix → n = n'
  closed : ∀ {n e entry name}, Sits tree chains n e entry → name <+: entry.namePrefix →
    ∃ m f other, Sits tree chains m f other ∧ other.namePrefix = name

-- The empty name has no parent, any other the entry one component shorter.
structure ParentLinks (tree : NameTree Component) (chains : List (List NodeId)) : Prop where
  root : ∀ {n e entry}, Sits tree chains n e entry → entry.namePrefix = [] → entry.parent = none
  parent : ∀ {n e entry}, Sits tree chains n e entry → entry.namePrefix ≠ [] →
    ∃ m p object, entry.parent = some p ∧ Sits tree chains m p object ∧ object.namePrefix = entry.namePrefix.dropLast

structure ChildLinks (tree : NameTree Component) (chains : List (List NodeId)) : Prop where
  nodup : ∀ {n e entry}, Sits tree chains n e entry → entry.children.Nodup
  child_iff : ∀ {n e entry}, Sits tree chains n e entry → ∀ c, c ∈ entry.children ↔
    ∃ k m object, Sits tree chains m c object ∧ object.namePrefix = entry.namePrefix ++ [k]

structure Agrees (host : Host Component) (tree : NameTree Component) (chains : List (List NodeId)) : Prop
    extends Stores host tree chains,ParentLinks tree chains,ChildLinks tree chains where
  pointing : BackPointing tree chains
  counted : tree.nItems = chains.flatten.length

structure WellFormed (host : Host Component) (tree : NameTree Component) (chains : List (List NodeId)) : Prop
    extends Agrees host tree chains where
  back : ∀ chain ∈ chains, Back tree.prevs none chain

section Known
variable {host : Host Component} {tree : NameTree Component} {chains : List (List NodeId)}
  {registry : Registry Component}

theorem Named.stored_iff (named : Named host tree chains registry) :
    name ∈ registry.names ↔ ∃ n e entry, Sits tree chains n e entry ∧ entry.namePrefix = name := by
  constructor
  · exact named.stored name
  · rintro ⟨n,e,entry,sits,rfl⟩
    exact (named.known sits).1

theorem Named.object_iff (named : Named host tree chains registry) :
    (name ∈ registry.names ∧ (registry.cell name).object = e) ↔
      ∃ n entry, Sits tree chains n e entry ∧ entry.namePrefix = name := by
  constructor
  · rintro ⟨stored,rfl⟩
    exact named.live stored
  · rintro ⟨n,entry,sits,rfl⟩
    exact ⟨(named.known sits).1,named.object sits⟩

theorem stores_of_named (chained : Chained tree chains) (placed : Placed tree chains)
    (named : Named host tree chains registry) : Stores host tree chains where
  toChained := chained
  toPlaced := placed
  hashed := named.hashed
  unique := named.unique
  closed := fun sits below => named.stored _ (named.closed _ (named.known sits).1 _ below)

theorem parentLinks_iff (named : Named host tree chains registry) :
    ParentLinks tree chains ↔ Parented tree chains registry := by
  constructor
  · intro links n e entry sits
    unfold Registry.parentOf
    split
    · rename_i empty
      exact links.root sits empty
    · rename_i filled
      obtain ⟨m,p,object,points,sitsP,same⟩ := links.parent sits filled
      rw [points,← same,named.object sitsP]
  · intro parented
    refine ⟨fun sits empty => by rw [parented sits,Registry.parentOf,if_pos empty],fun {n e entry} sits filled => ?_⟩
    obtain ⟨m,object,sitsP,same⟩ := named.live (named.closed.parent (named.known sits).1)
    exact ⟨m,_,object,by rw [parented sits,Registry.parentOf,if_neg filled],sitsP,same⟩

theorem childLinks_iff (named : Named host tree chains registry) :
    ChildLinks tree chains ↔ Fostered tree chains registry := by
  constructor
  · intro links
    refine ⟨links.nodup,fun sits c => (links.child_iff sits c).trans ?_⟩
    simp only [named.object_iff]
  · intro fostered
    refine ⟨fostered.nodup,fun sits c => (fostered.child_iff sits c).trans ?_⟩
    simp only [named.object_iff]

theorem Consistent.agrees (consistent : Consistent host tree chains registry) : Agrees host tree chains where
  toStores := stores_of_named consistent.chained consistent.placed consistent.named
  toParentLinks := (parentLinks_iff consistent.named).mpr consistent.parented
  toChildLinks := (childLinks_iff consistent.named).mpr consistent.fostered
  pointing := consistent.pointing
  counted := consistent.nodes

theorem Consistent.wellFormed (consistent : Consistent host tree chains registry) (heads : HeadsNull tree chains) :
    WellFormed host tree chains :=
  ⟨consistent.agrees,fun _ member => back_of_heads consistent.linked heads member⟩
end Known

section RegistryOf
variable {host : Host Component} {tree : NameTree Component} {chains : List (List NodeId)}
variable [DecidableEq Component]

-- The registry such a state stands for.
def registryOf (tree : NameTree Component) (chains : List (List NodeId)) : Registry Component where
  names := ((chains.flatten.filterMap tree.entryAt).map fun pair => pair.2.namePrefix).toFinset
  cell := fun name =>
    match (chains.flatten.filterMap tree.entryAt).find? (fun pair => pair.2.namePrefix = name) with
    | some (e,entry) => ⟨e,entry.payload⟩
    | none => ⟨tree.entries.size,{}⟩
  next := tree.entries.size

omit [DecidableEq Component] in
theorem mem_held : (e,entry) ∈ chains.flatten.filterMap tree.entryAt ↔ ∃ n, Sits tree chains n e entry := by
  rw [List.mem_filterMap]
  exact ⟨fun ⟨n,member,holds⟩ => ⟨n,member,holds⟩,fun ⟨n,sits⟩ => ⟨n,sits.member,sits.holds⟩⟩

theorem mem_registryOf : name ∈ (registryOf tree chains).names ↔
    ∃ n e entry, Sits tree chains n e entry ∧ entry.namePrefix = name := by
  simp only [registryOf,List.mem_toFinset,List.mem_map]
  constructor
  · rintro ⟨⟨e,entry⟩,member,same⟩
    obtain ⟨n,sits⟩ := mem_held.mp member
    exact ⟨n,e,entry,sits,same⟩
  · rintro ⟨n,e,entry,sits,same⟩
    exact ⟨(e,entry),mem_held.mpr ⟨n,sits⟩,same⟩

theorem registryOf_cell (stores : Stores host tree chains) (sits : Sits tree chains n e entry) :
    (registryOf tree chains).cell entry.namePrefix = ⟨e,entry.payload⟩ := by
  simp only [registryOf]
  split
  · rename_i f other found
    obtain ⟨m,sitsM⟩ := mem_held.mp (List.mem_of_find?_eq_some found)
    have same : other.namePrefix = entry.namePrefix := by simpa using List.find?_some found
    have node := stores.unique sitsM sits same
    subst m
    obtain ⟨rfl,rfl⟩ := entryAt_unique sitsM.holds sits.holds
    rfl
  · rename_i missing
    have here := List.find?_eq_none.mp missing (e,entry) (mem_held.mpr ⟨n,sits⟩)
    simp at here

theorem Stores.named (stores : Stores host tree chains) : Named host tree chains (registryOf tree chains) where
  hashed := stores.hashed
  known := fun sits => ⟨mem_registryOf.mpr ⟨_,_,_,sits,rfl⟩,registryOf_cell stores sits⟩
  stored := fun _ stored => mem_registryOf.mp stored
  unique := stores.unique
  closed := by
    intro x stored y below
    obtain ⟨n,e,entry,sits,rfl⟩ := mem_registryOf.mp stored
    exact mem_registryOf.mpr (stores.closed sits below)

omit [DecidableEq Component] in
theorem WellFormed.heads (formed : WellFormed host tree chains) : HeadsNull tree chains :=
  (heads_of_back formed.back).2

theorem WellFormed.consistent (formed : WellFormed host tree chains) :
    Consistent host tree chains (registryOf tree chains) where
  chained := formed.toChained
  placed := formed.toPlaced
  pointing := formed.pointing
  linked := (heads_of_back formed.back).1
  named := formed.named
  parented := (parentLinks_iff formed.named).mp formed.toParentLinks
  fostered := (childLinks_iff formed.named).mp formed.toChildLinks
  counted := formed.counted.trans (nodes_count formed.toChained formed.named)
  synced := rfl
end RegistryOf

end NfdTables.NameTree
