import NfdTables.Foundation.ChainTable
import NfdTables.NameTree.Registry
import NfdTables.NameTree.Table

namespace NfdTables.NameTree
open Machine Chain
variable {Component : Type}

def entryAt (tree : NameTree Component) (n : NodeId) : Option (EntryId × Entry Component) :=
  (tree.nodes.read n).bind fun node => node.entry.bind fun e => (tree.entries.read e).map fun entry => (e,entry)

abbrev nexts (tree : NameTree Component) : Links := links tree.nodes Node.next
abbrev prevs (tree : NameTree Component) : Links := links tree.nodes Node.prev

theorem entryAt_iff {tree : NameTree Component} : tree.entryAt n = some (e,entry) ↔
    ∃ node, tree.nodes.read n = some node ∧ node.entry = some e ∧ tree.entries.read e = some entry := by
  simp [entryAt,Option.bind_eq_some_iff]

-- `chains` lists the nodes of each bucket in order.
structure Chained (tree : NameTree Component) (chains : List (List NodeId)) : Prop where
  table : Table tree.nexts tree.buckets chains
  held : ∀ n ∈ chains.flatten, (tree.entryAt n).isSome

-- Node `n` is in some bucket and holds `entry`, the object `e`.
structure Sits (tree : NameTree Component) (chains : List (List NodeId)) (n : NodeId) (e : EntryId)
    (entry : Entry Component) : Prop where
  member : n ∈ chains.flatten
  holds : tree.entryAt n = some (e,entry)

-- Every node is in the bucket of its entry's hash.
structure Placed (tree : NameTree Component) (chains : List (List NodeId)) : Prop where
  positive : 0 < tree.nBuckets
  bucket : ∀ {loc chain n e entry}, chains[loc]? = some chain → n ∈ chain →
    tree.entryAt n = some (e,entry) → entry.hash.toNat % tree.nBuckets = loc

def BackPointing (tree : NameTree Component) (chains : List (List NodeId)) : Prop :=
  ∀ {n e entry}, Sits tree chains n e entry → entry.node = some n

-- The nodes hold the registry's names, each name once, under its hash.
structure Named (host : Host Component) (tree : NameTree Component) (chains : List (List NodeId))
    (registry : Registry Component) : Prop where
  hashed : ∀ {n e entry}, Sits tree chains n e entry → entry.hash = host.hashName entry.namePrefix
  known : ∀ {n e entry}, Sits tree chains n e entry → entry.namePrefix ∈ registry.names ∧
    registry.cell entry.namePrefix = ⟨e,entry.payload⟩
  stored : ∀ name ∈ registry.names, ∃ n e entry, Sits tree chains n e entry ∧ entry.namePrefix = name
  unique : ∀ {n e entry n' e' entry'}, Sits tree chains n e entry → Sits tree chains n' e' entry' →
    entry.namePrefix = entry'.namePrefix → n = n'
  closed : PrefixSet.Closed registry.names

def Parented (tree : NameTree Component) (chains : List (List NodeId)) (registry : Registry Component) : Prop :=
  ∀ {n e entry}, Sits tree chains n e entry → entry.parent = registry.parentOf entry.namePrefix

-- The children list holds, without duplicates, the entries one component longer.
structure Fostered (tree : NameTree Component) (chains : List (List NodeId)) (registry : Registry Component) : Prop where
  nodup : ∀ {n e entry}, Sits tree chains n e entry → entry.children.Nodup
  child_iff : ∀ {n e entry}, Sits tree chains n e entry → ∀ c, c ∈ entry.children ↔
    ∃ k, entry.namePrefix ++ [k] ∈ registry.names ∧ (registry.cell (entry.namePrefix ++ [k])).object = c

-- m_prev of every node but the first of its bucket.
def BackLinked (tree : NameTree Component) (chains : List (List NodeId)) : Prop :=
  ∀ chain ∈ chains, BackTail tree.prevs chain

-- m_prev of the first node of every bucket.
def HeadsNull (tree : NameTree Component) (chains : List (List NodeId)) : Prop :=
  ∀ chain ∈ chains, ∀ n, chain.head? = some n → tree.prevs n = some none

section Basics
variable {host : Host Component} {tree : NameTree Component} {chains : List (List NodeId)}
  {registry : Registry Component}

theorem Chained.sits (chained : Chained tree chains) (member : n ∈ chains.flatten) :
    ∃ e entry, Sits tree chains n e entry := by
  obtain ⟨⟨e,entry⟩,holds⟩ := Option.isSome_iff_exists.mp (chained.held n member)
  exact ⟨e,entry,member,holds⟩

theorem entryAt_unique (one : tree.entryAt n = some (e,entry)) (two : tree.entryAt n = some (f,object)) :
    e = f ∧ entry = object :=
  Prod.mk.inj (Option.some.inj (one.symm.trans two))

theorem Sits.entry_live (sits : Sits tree chains n e entry) : tree.entries.read e = some entry := by
  obtain ⟨_,_,_,live⟩ := entryAt_iff.mp sits.holds
  exact live

theorem Sits.node_live (sits : Sits tree chains n e entry) :
    ∃ node, tree.nodes.read n = some node ∧ node.entry = some e := by
  obtain ⟨node,live,holds,_⟩ := entryAt_iff.mp sits.holds
  exact ⟨node,live,holds⟩

theorem Sits.bucket (sits : Sits tree chains n e entry) (placed : Placed tree chains) :
    ∃ chain, chains[entry.hash.toNat % tree.nBuckets]? = some chain ∧ n ∈ chain := by
  obtain ⟨chain,member,deep⟩ := List.mem_flatten.mp sits.member
  obtain ⟨loc,at_loc⟩ := List.mem_iff_getElem?.mp member
  have same := placed.bucket at_loc deep sits.holds
  exact ⟨chain,same ▸ at_loc,deep⟩

theorem Placed.bound (placed : Placed tree chains) (hash : Nat) : hash % tree.nBuckets < tree.buckets.length :=
  Nat.mod_lt _ placed.positive

theorem Named.object (named : Named host tree chains registry) (sits : Sits tree chains n e entry) :
    (registry.cell entry.namePrefix).object = e := by rw [(named.known sits).2]

theorem Named.same_entry (named : Named host tree chains registry) (one : Sits tree chains n e entry)
    (two : Sits tree chains n' e entry') : n = n' ∧ entry = entry' := by
  have same : entry = entry' := Option.some.inj (one.entry_live.symm.trans two.entry_live)
  exact ⟨named.unique one two (by rw [same]),same⟩

theorem Named.injective (named : Named host tree chains registry) :
    ∀ x ∈ registry.names, ∀ y ∈ registry.names, (registry.cell x).object = (registry.cell y).object → x = y := by
  intro x hx y hy same
  obtain ⟨n,e,entry,sitsX,rfl⟩ := named.stored x hx
  obtain ⟨m,f,other,sitsY,rfl⟩ := named.stored y hy
  rw [named.object sitsX,named.object sitsY] at same
  subst f
  rw [(named.same_entry sitsX sitsY).2]

theorem Named.live (named : Named host tree chains registry) (stored : name ∈ registry.names) :
    ∃ n entry, Sits tree chains n (registry.cell name).object entry ∧ entry.namePrefix = name := by
  obtain ⟨n,e,entry,sits,rfl⟩ := named.stored name stored
  exact ⟨n,entry,by rwa [named.object sits],rfl⟩

theorem Named.shallow (named : Named host tree chains registry) (stored : name ∈ registry.names) :
    name.length < tree.entries.size := by
  have inside : ∀ i, getPrefix name i ∈ registry.names := fun i => named.closed name stored _ (List.take_prefix i name)
  have nodup : ((List.range (name.length+1)).map fun i => (registry.cell (getPrefix name i)).object).Nodup := by
    refine List.Nodup.map_on ?_ List.nodup_range
    intro i below j belowJ same
    have equal := congrArg List.length (named.injective _ (inside i) _ (inside j) same)
    rw [List.mem_range] at below belowJ
    rwa [getPrefix_length (Nat.le_of_lt_succ below),getPrefix_length (Nat.le_of_lt_succ belowJ)] at equal
  have bound := Heap.length_le_size nodup (fun e member => by
    obtain ⟨i,_,rfl⟩ := List.mem_map.mp member
    obtain ⟨n,entry,sits,_⟩ := named.live (inside i)
    rw [Option.isSome_iff_exists]
    exact ⟨entry,sits.entry_live⟩)
  rwa [List.length_map,List.length_range] at bound

theorem back_of_heads (back : BackLinked tree chains) (heads : HeadsNull tree chains) (member : chain ∈ chains) :
    Back tree.prevs none chain := by
  cases chain with
  | nil => trivial
  | cons first rest => exact ⟨heads _ member first rfl,back _ member⟩

theorem heads_of_back (back : ∀ chain ∈ chains, Back tree.prevs none chain) :
    BackLinked tree chains ∧ HeadsNull tree chains := by
  refine ⟨fun chain member => (back chain member).tail,fun chain member n first => ?_⟩
  cases chain with
  | nil => cases first
  | cons head rest => cases Option.some.inj first; exact (back _ member).1
end Basics

section Search
variable {σ : Type} {host : Host Component} {tree : NameTree Component} {chains : List (List NodeId)}
  {registry : Registry Component}

-- What a search loop returns at a node.
def hit (tree : NameTree Component) (wanted : EntrySelector Component) (n : NodeId) : Option EntryId :=
  (tree.entryAt n).bind fun (e,entry) => if wanted e entry then some e else none

theorem hit_at (holds : tree.entryAt n = some (e,entry)) (wanted : EntrySelector Component) :
    tree.hit wanted n = if wanted e entry then some e else none := by
  simp [hit,holds]

-- `moved` is what the loop keeps of the nodes it passes.
theorem search_nodes {body : σ → NodeId → Node → Exec (Turn σ EntryId)} {moved : σ → NodeId → σ}
    {wanted : EntrySelector Component} (held : ∀ n ∈ keys, (tree.entryAt n).isSome)
    (turn : ∀ s n node e entry, node.entry = some e → tree.entries.read e = some entry →
      body s n node = .ok (if wanted e entry then .leave e else .onward (moved s n))) (s : σ) :
    forNodes tree.nodes body keys s = .ok (match keys.findSome? (tree.hit wanted) with
      | some e => .leave e
      | none => .onward (keys.foldl moved s)) := by
  induction keys generalizing s with
  | nil => rfl
  | cons n rest ih =>
    obtain ⟨⟨e,entry⟩,holds⟩ := Option.isSome_iff_exists.mp (held n (by simp))
    obtain ⟨node,live,points,object⟩ := entryAt_iff.mp holds
    rw [forNodes,Heap.fetch_live live,ok_bind,turn s n node e entry points object,ok_bind,
      List.findSome?_cons,hit_at holds]
    by_cases found : wanted e entry = true
    · simp [found]
    · simp only [found,Bool.false_eq_true,if_false]
      rw [ih (fun m member => held m (by simp [member]))]
      rfl

theorem search_chain {body : σ → NodeId → Node → Exec (Turn σ EntryId)} (moved : σ → NodeId → σ)
    (wanted : EntrySelector Component) (chained : Chained tree chains) (member : chain ∈ chains)
    (turn : ∀ s n node e entry, node.entry = some e → tree.entries.read e = some entry →
      body s n node = .ok (if wanted e entry then .leave e else .onward (moved s n))) (s : σ) :
    forChain tree.nodes Node.next body tree.nodes.size chain.head? s =
      .ok (match chain.findSome? (tree.hit wanted) with
        | some e => .leave e
        | none => .onward (chain.foldl moved s)) := by
  have seg := chained.table.linked chain member
  rw [forChain_nodes seg (chain_fits seg (chained.table.chain_nodup member))]
  exact search_nodes (fun n deep => chained.held n (List.mem_flatten.mpr ⟨chain,member,deep⟩)) turn s

theorem bucketAt_chain (chained : Chained tree chains) (at_loc : chains[loc]? = some chain) :
    bucketAt tree.buckets loc = .ok chain.head? := by
  simp [bucketAt,chained.table.head_at at_loc]

variable [DecidableEq Component]

-- A name can only be in the bucket its hash selects.
theorem find_in_bucket (placed : Placed tree chains) (named : Named host tree chains registry)
    {name : Name Component} (at_loc : chains[(host.hashName name).toNat % tree.nBuckets]? = some chain)
    (wanted : EntrySelector Component)
    (decides : ∀ {n e entry}, Sits tree chains n e entry → (wanted e entry = true ↔ entry.namePrefix = name)) :
    chain.findSome? (tree.hit wanted) = registry.find name := by
  have sitting : ∀ n ∈ chain, ∀ e, tree.hit wanted n = some e →
      ∃ entry, Sits tree chains n e entry ∧ entry.namePrefix = name := by
    intro n deep e found
    simp only [hit,Option.bind_eq_some_iff] at found
    obtain ⟨⟨f,entry⟩,holds,returned⟩ := found
    split at returned
    · rename_i yes
      cases Option.some.inj returned
      have sits : Sits tree chains n f entry := ⟨mem_flatten_at at_loc deep,holds⟩
      exact ⟨entry,sits,(decides sits).mp yes⟩
    · cases returned
  by_cases stored : name ∈ registry.names
  · rw [Registry.find_stored stored]
    obtain ⟨n,entry,sits,rfl⟩ := named.live stored
    obtain ⟨other,got,deep⟩ := sits.bucket placed
    rw [named.hashed sits] at got
    cases Option.some.inj (at_loc.symm.trans got)
    have found : tree.hit wanted n = some (registry.cell entry.namePrefix).object := by
      rw [hit_at sits.holds,if_pos ((decides sits).mpr rfl)]
    cases result : chain.findSome? (tree.hit wanted) with
    | none =>
      rw [List.findSome?_eq_none_iff.mp result n deep] at found
      cases found
    | some e =>
      obtain ⟨m,inside,returned⟩ := List.exists_of_findSome?_eq_some result
      obtain ⟨object,sitsM,same⟩ := sitting m inside e returned
      rw [← same,named.object sitsM]
  · rw [Registry.find_absent stored,List.findSome?_eq_none_iff]
    intro n deep
    cases found : tree.hit wanted n with
    | none => rfl
    | some e =>
      obtain ⟨entry,sits,same⟩ := sitting n deep e found
      exact absurd (same ▸ (named.known sits).1) stored

def bearing (host : Host Component) (name : Name Component) : EntrySelector Component :=
  fun _ entry => decide (host.hashName name = entry.hash ∧ name = entry.namePrefix)

theorem findExactMatch_chain (chained : Chained tree chains) (name : Name Component)
    (at_loc : chains[(host.hashName name).toNat % tree.nBuckets]? = some chain) :
    tree.findExactMatch host name = .ok (chain.findSome? (tree.hit (bearing host name))) := by
  unfold findExactMatch
  simp only [bucketAt_chain chained at_loc,ok_bind]
  rw [search_chain (fun s _ => s) (bearing host name) chained (List.mem_of_getElem? at_loc)]
  · cases chain.findSome? (tree.hit (bearing host name)) <;> rfl
  · intro s n node e entry points live
    simp only [points,Heap.fetch_live live,ok_bind,pure_ok,bearing,decide_eq_true_eq]
    split <;> rfl

theorem findExactMatch_spec (chained : Chained tree chains) (placed : Placed tree chains)
    (named : Named host tree chains registry) (name : Name Component) :
    tree.findExactMatch host name = .ok (registry.find name) := by
  obtain ⟨chain,at_loc⟩ := chained.table.chain_at (placed.bound (host.hashName name).toNat)
  have looked := find_in_bucket placed named at_loc (bearing host name) (by
    intro n e entry sits
    rw [bearing,decide_eq_true_iff,named.hashed sits]
    exact ⟨fun both => both.2.symm,fun same => by simp [same]⟩)
  rw [findExactMatch_chain chained name at_loc,looked]
end Search

end NfdTables.NameTree
