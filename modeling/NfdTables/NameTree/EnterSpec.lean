import NfdTables.NameTree.Layout

namespace NfdTables.NameTree
open Machine Chain
variable {Component : Type} [DecidableEq Component]

-- The m_prev of the first node of a bucket is left out: resize() does not keep it null.
structure Consistent (host : Host Component) (tree : NameTree Component) (chains : List (List NodeId))
    (registry : Registry Component) : Prop where
  chained : Chained tree chains
  placed : Placed tree chains
  pointing : BackPointing tree chains
  linked : BackLinked tree chains
  named : Named host tree chains registry
  parented : Parented tree chains registry
  fostered : Fostered tree chains registry
  counted : tree.nItems = registry.names.card
  synced : registry.next = tree.entries.size

section Counting
variable {host : Host Component} {tree : NameTree Component} {chains : List (List NodeId)}
  {registry : Registry Component}

omit [DecidableEq Component] in
theorem nodes_count (chained : Chained tree chains) (named : Named host tree chains registry) :
    chains.flatten.length = registry.names.card := by
  classical
  let nameAt : NodeId → Name Component := fun n => ((tree.entryAt n).map fun pair => pair.2.namePrefix).getD []
  have at_node : ∀ {n e entry}, Sits tree chains n e entry → nameAt n = entry.namePrefix := by
    intro n e entry sits
    simp [nameAt,sits.holds]
  have nodup : (chains.flatten.map nameAt).Nodup := by
    refine List.Nodup.map_on ?_ chained.table.disjoint
    intro n member m other same
    obtain ⟨_,_,sitsN⟩ := chained.sits member
    obtain ⟨_,_,sitsM⟩ := chained.sits other
    rw [at_node sitsN,at_node sitsM] at same
    exact named.unique sitsN sitsM same
  have all : (chains.flatten.map nameAt).toFinset = registry.names := by
    ext name
    rw [List.mem_toFinset,List.mem_map]
    constructor
    · rintro ⟨n,member,rfl⟩
      obtain ⟨_,_,sits⟩ := chained.sits member
      rw [at_node sits]
      exact (named.known sits).1
    · intro stored
      obtain ⟨n,_,_,sits,rfl⟩ := named.stored name stored
      exact ⟨n,sits.member,at_node sits⟩
  rw [← all,List.toFinset_card_of_nodup nodup,List.length_map]

omit [DecidableEq Component] in
theorem Consistent.nodes (consistent : Consistent host tree chains registry) :
    tree.nItems = chains.flatten.length :=
  consistent.counted.trans (nodes_count consistent.chained consistent.named).symm

omit [DecidableEq Component] in
theorem Consistent.distinct (consistent : Consistent host tree chains registry) : registry.Distinct := by
  refine ⟨consistent.named.injective,fun x stored => ?_⟩
  obtain ⟨_,_,sits,_⟩ := consistent.named.live stored
  rw [consistent.synced]
  exact Heap.live_bound sits.entry_live

theorem Consistent.find (consistent : Consistent host tree chains registry) (name : Name Component) :
    tree.findExactMatch host name = .ok (registry.find name) :=
  findExactMatch_spec consistent.chained consistent.placed consistent.named name
end Counting

section Insert
variable {host : Host Component} {tree : NameTree Component} {chains : List (List NodeId)}
  {registry : Registry Component}

theorem last_moved (chain : List NodeId) (start : Option NodeId) :
    chain.foldl (fun _ n => some n) start = chain.getLast?.or start := by
  induction chain generalizing start with
  | nil => rfl
  | cons n rest ih => rw [List.foldl_cons,ih]; cases rest <;> simp [List.getLast?_cons]

-- The search of insert() compares names alone.
theorem insert_search (consistent : Consistent host tree chains registry) (name : Name Component)
    (at_loc : chains[(host.hashName name).toNat % tree.nBuckets]? = some chain) :
    forChain tree.nodes Node.next (tree.insertTurn name) tree.nodes.size chain.head? chain.head? =
    .ok (match registry.find name with | some e => .leave e | none => .onward chain.getLast?) := by
  rw [search_chain (fun _ n => some n) (fun _ entry => decide (name = entry.namePrefix))
    consistent.chained (List.mem_of_getElem? at_loc)]
  · rw [find_in_bucket consistent.placed consistent.named at_loc (fun _ entry => decide (name = entry.namePrefix))
      (fun {_ _ entry} _ => by rw [decide_eq_true_iff]; exact eq_comm),last_moved]
    cases registry.find name <;> cases chain <;> simp [List.getLast?_cons]
  · intro s n node e entry points live
    simp only [insertTurn,points,Heap.fetch_live live,ok_bind,pure_ok,decide_eq_true_eq]
    split <;> rfl

theorem insert_stored (consistent : Consistent host tree chains registry) (stored : name ∈ registry.names) :
    tree.insert host name = .ok (tree,(registry.cell name).object,false) := by
  obtain ⟨chain,at_loc⟩ := consistent.chained.table.chain_at (consistent.placed.bound (host.hashName name).toNat)
  unfold insert
  simp only [bucketAt_chain consistent.chained at_loc,ok_bind]
  rw [insert_search consistent name at_loc,Registry.find_stored stored]
  rfl

-- Everything that is not named here stays.
structure Entered (host : Host Component) (tree after : NameTree Component) (chains : List (List NodeId))
    (chain : List NodeId) (parent : Option EntryId) (name : Name Component) : Prop where
  items : after.nItems = tree.nItems + 1
  threshold : after.resizeThreshold = tree.resizeThreshold
  nodesSize : after.nodes.size = tree.nodes.size + 1
  entriesSize : after.entries.size = tree.entries.size + 1
  heads : after.buckets =
    (chains.set ((host.hashName name).toNat % tree.nBuckets) (chain ++ [tree.nodes.size])).map List.head?
  node_new : after.nodes.read tree.nodes.size = some ⟨chain.getLast?,none,some tree.entries.size⟩
  node_old : ∀ n, n ≠ tree.nodes.size → after.nodes.read n =
    if chain.getLast? = some n then (tree.nodes.read n).map (fun object => {object with next := some tree.nodes.size})
    else tree.nodes.read n
  entry_new : after.entries.read tree.entries.size = some
    {namePrefix := name,hash := host.hashName name,parent := parent,node := some tree.nodes.size}
  entry_old : ∀ f, f ≠ tree.entries.size → after.entries.read f =
    if parent = some f then (tree.entries.read f).map (fun object => {object with children := object.children ++ [tree.entries.size]})
    else tree.entries.read f

theorem insert_absent (consistent : Consistent host tree chains registry) (absent : name ∉ registry.names)
    (at_loc : chains[(host.hashName name).toNat % tree.nBuckets]? = some chain) :
    ∃ nodes, tree.insert host name = .ok ({tree with
        buckets := (chains.set ((host.hashName name).toNat % tree.nBuckets) (chain ++ [tree.nodes.size])).map List.head?
        nodes := nodes
        entries := tree.entries.alloc {namePrefix := name,hash := host.hashName name,node := some tree.nodes.size}},
        tree.entries.size,true) ∧
      nodes.size = tree.nodes.size + 1 ∧
      nodes.read tree.nodes.size = some ⟨chain.getLast?,none,some tree.entries.size⟩ ∧
      ∀ n, n ≠ tree.nodes.size → nodes.read n =
        if chain.getLast? = some n then (tree.nodes.read n).map (fun object => {object with next := some tree.nodes.size})
        else tree.nodes.read n := by
  unfold insert
  simp only [bucketAt_chain consistent.chained at_loc,ok_bind]
  rw [insert_search consistent name at_loc,Registry.find_absent absent]
  rcases List.eq_nil_or_concat' chain with rfl | ⟨front,last,rfl⟩
  · have live : (tree.nodes.alloc {}).read tree.nodes.size = some {} := by simp [Heap.read_alloc]
    simp only [List.getLast?_nil,ok_bind,pure_ok,Heap.update_live live]
    refine ⟨_,by rw [List.map_set,← consistent.chained.table.heads]; rfl,?_,?_,?_⟩
    · simp
    · simp [Heap.read_write live]
    · intro n other
      simp [Heap.read_write live,Heap.read_alloc,other]
  · have final : (front ++ [last]).getLast? = some last := by simp
    have member : last ∈ chains.flatten := mem_flatten_at at_loc (by simp)
    obtain ⟨e,entry,sits⟩ := consistent.chained.sits member
    obtain ⟨object,gotLast,_⟩ := sits.node_live
    have older : last ≠ tree.nodes.size := Nat.ne_of_lt (Heap.live_bound gotLast)
    have liveLast : (tree.nodes.alloc ⟨some last,none,none⟩).read last = some object := by
      rw [Heap.read_alloc,if_neg older,gotLast]
    have liveNew : ((tree.nodes.alloc ⟨some last,none,none⟩).write last {object with next := some tree.nodes.size}).read
        tree.nodes.size = some ⟨some last,none,none⟩ := by
      rw [Heap.read_write liveLast,if_neg (Ne.symm older),Heap.read_alloc,if_pos rfl]
    simp only [final,ok_bind,pure_ok,Heap.update_live liveLast,Heap.update_live liveNew]
    refine ⟨_,by rw [heads_keep at_loc (by cases front <;> simp),← consistent.chained.table.heads],?_,?_,?_⟩
    · simp
    · simp [Heap.read_write liveNew]
    · intro n other
      rw [Heap.read_write liveNew,if_neg other,Heap.read_write liveLast,Heap.read_alloc,if_neg other]
      by_cases same : n = last
      · subst n; simp [gotLast]
      · simp [same,Ne.symm same]

theorem enter_stored (consistent : Consistent host tree chains registry) (stored : name ∈ registry.names)
    (parent : Option EntryId) : tree.enter host parent name = .ok (tree,(registry.cell name).object) := by
  simp [enter,insert_stored consistent stored]

theorem enter_absent (consistent : Consistent host tree chains registry) (absent : name ∉ registry.names)
    (at_loc : chains[(host.hashName name).toNat % tree.nBuckets]? = some chain)
    (older : ∀ p, parent = some p → (tree.entries.read p).isSome) :
    ∃ after, tree.enter host parent name = .ok (after,tree.entries.size) ∧
      Entered host tree after chains chain parent name := by
  obtain ⟨nodes,ran,size,node_new,node_old⟩ := insert_absent consistent absent at_loc
  have live : (tree.entries.alloc {namePrefix := name,hash := host.hashName name,node := some tree.nodes.size}).read
      tree.entries.size = some {namePrefix := name,hash := host.hashName name,node := some tree.nodes.size} := by
    simp [Heap.read_alloc]
  unfold enter
  simp only [ran,ok_bind,if_true,Heap.update_live live]
  cases parent with
  | none =>
    refine ⟨_,rfl,⟨rfl,rfl,size,by simp,rfl,node_new,node_old,by simp [Heap.read_write live],?_⟩⟩
    intro f other
    simp [Heap.read_write live,Heap.read_alloc,other]
  | some p =>
    obtain ⟨object,got⟩ := Option.isSome_iff_exists.mp (older p rfl)
    have apart : p ≠ tree.entries.size := Nat.ne_of_lt (Heap.live_bound got)
    have gotNow : ((tree.entries.alloc {namePrefix := name,hash := host.hashName name,node := some tree.nodes.size}).write
        tree.entries.size {namePrefix := name,hash := host.hashName name,parent := some p,node := some tree.nodes.size}).read p =
        some object := by rw [Heap.read_write live,if_neg apart,Heap.read_alloc,if_neg apart,got]
    simp only [Heap.update_live gotNow,ok_bind,pure_ok]
    refine ⟨_,rfl,⟨rfl,rfl,size,by simp,rfl,node_new,node_old,?_,?_⟩⟩
    · simp [Heap.read_write gotNow,Heap.read_write live,Ne.symm apart]
    · intro f other
      rw [Heap.read_write gotNow,Heap.read_write live,if_neg other,Heap.read_alloc,if_neg other]
      by_cases same : f = p
      · subst f; simp [got]
      · simp [same,Ne.symm same]

section Entered

-- What linking a new entry `e` below `parent` does to the entry `f`.
def adopt (parent : Option EntryId) (e f : EntryId) (entry : Entry Component) : Entry Component :=
  {entry with children := if parent = some f then entry.children ++ [e] else entry.children}

omit [DecidableEq Component]
@[simp] theorem adopt_namePrefix (parent : Option EntryId) (e f : EntryId) (entry : Entry Component) :
    Entry.namePrefix (adopt parent e f entry) = entry.namePrefix := rfl
@[simp] theorem adopt_hash (parent : Option EntryId) (e f : EntryId) (entry : Entry Component) :
    (adopt parent e f entry).hash = entry.hash := rfl
@[simp] theorem adopt_parent (parent : Option EntryId) (e f : EntryId) (entry : Entry Component) :
    (adopt parent e f entry).parent = entry.parent := rfl
@[simp] theorem adopt_payload (parent : Option EntryId) (e f : EntryId) (entry : Entry Component) :
    (adopt parent e f entry).payload = entry.payload := rfl
@[simp] theorem adopt_node (parent : Option EntryId) (e f : EntryId) (entry : Entry Component) :
    (adopt parent e f entry).node = entry.node := rfl

theorem adopt_children (parent : Option EntryId) (e f : EntryId) (entry : Entry Component) :
    (adopt parent e f entry).children = if parent = some f then entry.children ++ [e] else entry.children := rfl

variable {after : NameTree Component} {chain : List NodeId} {parent : Option EntryId} {name : Name Component}

abbrev enteredChains (host : Host Component) (tree : NameTree Component) (chains : List (List NodeId))
    (chain : List NodeId) (name : Name Component) : List (List NodeId) :=
  chains.set ((host.hashName name).toNat % tree.nBuckets) (chain ++ [tree.nodes.size])

omit [DecidableEq Component]

theorem fresh_node (chained : Chained tree chains) : tree.nodes.size ∉ chains.flatten := by
  intro member
  obtain ⟨_,_,sits⟩ := chained.sits member
  obtain ⟨_,live,_⟩ := sits.node_live
  exact Nat.lt_irrefl _ (Heap.live_bound live)

theorem not_fresh (chained : Chained tree chains) (member : n ∈ chains.flatten) : n ≠ tree.nodes.size :=
  fun same => fresh_node chained (same ▸ member)

theorem Entered.buckets (entered : Entered host tree after chains chain parent name) (chained : Chained tree chains) :
    after.nBuckets = tree.nBuckets := by
  rw [nBuckets,entered.heads,List.length_map,List.length_set,← chained.table.length]
  rfl

theorem Entered.prevs_old (entered : Entered host tree after chains chain parent name) (other : n ≠ tree.nodes.size) :
    after.prevs n = tree.prevs n := by
  simp only [prevs,links,entered.node_old n other]
  split
  · cases tree.nodes.read n <;> rfl
  · rfl

theorem Entered.table (entered : Entered host tree after chains chain parent name) (chained : Chained tree chains)
    (at_loc : chains[(host.hashName name).toNat % tree.nBuckets]? = some chain) :
    Table after.nexts after.buckets (enteredChains host tree chains chain name) := by
  rw [entered.heads]
  refine chained.table.append at_loc (fresh_node chained) ?_ ?_ ?_
  · simp [nexts,links,entered.node_new]
  · intro last final
    have member : last ∈ chains.flatten := mem_flatten_at at_loc (List.mem_of_getLast? final)
    obtain ⟨_,_,sits⟩ := chained.sits member
    obtain ⟨node,live,_⟩ := sits.node_live
    simp [nexts,links,entered.node_old last (not_fresh chained member),final,live]
  · intro m member notLast
    simp [nexts,links,entered.node_old m (not_fresh chained member),notLast]

theorem Entered.entryAt_old (entered : Entered host tree after chains chain parent name)
    (sits : Sits tree chains n f entry) (chained : Chained tree chains) : 
    after.entryAt n = some (f,adopt parent tree.entries.size f entry) := by
  obtain ⟨node,live,points,object⟩ := entryAt_iff.mp sits.holds
  have older : f ≠ tree.entries.size := Nat.ne_of_lt (Heap.live_bound object)
  refine entryAt_iff.mpr ⟨if chain.getLast? = some n then {node with next := some tree.nodes.size} else node,?_,?_,?_⟩
  · rw [entered.node_old n (not_fresh chained sits.member),live]
    split <;> rfl
  · split <;> exact points
  · rw [entered.entry_old f older,object,adopt]
    split <;> rfl

theorem Entered.entryAt_new (entered : Entered host tree after chains chain parent name) :
    after.entryAt tree.nodes.size = some (tree.entries.size,
      {namePrefix := name,hash := host.hashName name,parent := parent,node := some tree.nodes.size}) :=
  entryAt_iff.mpr ⟨_,entered.node_new,rfl,entered.entry_new⟩

theorem mem_entered (at_loc : chains[(host.hashName name).toNat % tree.nBuckets]? = some chain) :
    n ∈ (enteredChains host tree chains chain name).flatten ↔ n = tree.nodes.size ∨ n ∈ chains.flatten := by
  rw [(flatten_set_concat at_loc tree.nodes.size).mem_iff,List.mem_cons]

theorem Entered.sits (entered : Entered host tree after chains chain parent name) (chained : Chained tree chains)
    (at_loc : chains[(host.hashName name).toNat % tree.nBuckets]? = some chain)
    (sits : Sits after (enteredChains host tree chains chain name) n f entry) :
    (n = tree.nodes.size ∧ f = tree.entries.size ∧
      entry = {namePrefix := name,hash := host.hashName name,parent := parent,node := some tree.nodes.size}) ∨
    ∃ old, Sits tree chains n f old ∧ entry = adopt parent tree.entries.size f old := by
  rcases (mem_entered at_loc).mp sits.member with rfl | member
  · obtain ⟨rfl,rfl⟩ := entryAt_unique sits.holds entered.entryAt_new
    exact .inl ⟨rfl,rfl,rfl⟩
  · obtain ⟨g,old,sitsOld⟩ := chained.sits member
    obtain ⟨rfl,rfl⟩ := entryAt_unique sits.holds (entered.entryAt_old sitsOld chained)
    exact .inr ⟨old,sitsOld,rfl⟩

theorem Entered.chained (entered : Entered host tree after chains chain parent name) (chained : Chained tree chains)
    (at_loc : chains[(host.hashName name).toNat % tree.nBuckets]? = some chain) :
    Chained after (enteredChains host tree chains chain name) := by
  refine ⟨entered.table chained at_loc,fun n member => ?_⟩
  rcases (mem_entered at_loc).mp member with rfl | old
  · simp [entered.entryAt_new]
  · obtain ⟨f,entry,sits⟩ := chained.sits old
    simp [entered.entryAt_old sits chained]

theorem Entered.linked (entered : Entered host tree after chains chain parent name) (chained : Chained tree chains)
    (linked : BackLinked tree chains) (at_loc : chains[(host.hashName name).toNat % tree.nBuckets]? = some chain) :
    BackLinked after (enteredChains host tree chains chain name) :=
  backTail_append linked at_loc (fun _ => by simp [prevs,links,entered.node_new])
    (fun m member => entered.prevs_old (not_fresh chained member))

theorem Entered.headsNull (entered : Entered host tree after chains chain parent name) (chained : Chained tree chains)
    (heads : HeadsNull tree chains) (at_loc : chains[(host.hashName name).toNat % tree.nBuckets]? = some chain) :
    HeadsNull after (enteredChains host tree chains chain name) := by
  have keep : ∀ other ∈ chains, ∀ n, other.head? = some n → after.prevs n = some none := by
    intro other member n first
    have inside : n ∈ chains.flatten := List.mem_flatten.mpr ⟨other,member,List.mem_of_mem_head? first⟩
    rw [entered.prevs_old (not_fresh chained inside)]
    exact heads other member n first
  intro other member n first
  rcases mem_set member with rfl | old
  · cases chain with
    | nil =>
      cases Option.some.inj first
      simp [prevs,links,entered.node_new]
    | cons head rest => exact keep _ (List.mem_of_getElem? at_loc) n first
  · exact keep other old n first

-- The new node goes behind the nodes of its bucket, so every head stays one.
theorem Entered.headsNull_iff (entered : Entered host tree after chains chain parent name) (chained : Chained tree chains)
    (at_loc : chains[(host.hashName name).toNat % tree.nBuckets]? = some chain) :
    HeadsNull after (enteredChains host tree chains chain name) ↔ HeadsNull tree chains := by
  refine ⟨fun heads other member n first => ?_,fun heads => entered.headsNull chained heads at_loc⟩
  have inside : n ∈ chains.flatten := List.mem_flatten.mpr ⟨other,member,List.mem_of_mem_head? first⟩
  rw [← entered.prevs_old (not_fresh chained inside)]
  obtain ⟨loc,here⟩ := List.mem_iff_getElem?.mp member
  by_cases same : loc = (host.hashName name).toNat % tree.nBuckets
  · cases Option.some.inj (here.symm.trans (same ▸ at_loc))
    have longer : (chain ++ [tree.nodes.size]).head? = some n := by rw [List.head?_append,first]; rfl
    exact heads _ (List.mem_set (List.getElem?_eq_some_iff.mp at_loc).1 _) n longer
  · have kept : (enteredChains host tree chains chain name)[loc]? = some other := by
      rw [enteredChains,List.getElem?_set_ne (Ne.symm same),here]
    exact heads other (List.mem_of_getElem? kept) n first

theorem Entered.placed (entered : Entered host tree after chains chain parent name) (chained : Chained tree chains)
    (placed : Placed tree chains) (at_loc : chains[(host.hashName name).toNat % tree.nBuckets]? = some chain) :
    Placed after (enteredChains host tree chains chain name) := by
  refine ⟨by rw [entered.buckets chained]; exact placed.positive,?_⟩
  intro loc other n f entry got deep holds
  have member := mem_flatten_at got deep
  rw [entered.buckets chained]
  rcases entered.sits chained at_loc ⟨member,holds⟩ with ⟨rfl,rfl,rfl⟩ | ⟨old,sits,rfl⟩
  · have here : (enteredChains host tree chains chain name)[(host.hashName name).toNat % tree.nBuckets]? =
        some (chain ++ [tree.nodes.size]) := List.getElem?_set_self (List.getElem?_eq_some_iff.mp at_loc).1
    exact disjoint_other (entered.table chained at_loc).disjoint got deep here (by simp)
  · obtain ⟨home,at_home,inside⟩ := sits.bucket placed
    rw [adopt_hash]
    have apart : n ≠ tree.nodes.size := not_fresh chained sits.member
    by_cases where_ : loc = (host.hashName name).toNat % tree.nBuckets
    · subst loc
      rw [List.getElem?_set_self (List.getElem?_eq_some_iff.mp at_loc).1] at got
      cases Option.some.inj got
      have deep : n ∈ chain := by simpa [apart] using deep
      exact disjoint_other chained.table.disjoint at_loc deep at_home inside
    · rw [List.getElem?_set_ne (Ne.symm where_)] at got
      exact disjoint_other chained.table.disjoint got deep at_home inside

theorem Entered.sits_old (entered : Entered host tree after chains chain parent name) (chained : Chained tree chains)
    (at_loc : chains[(host.hashName name).toNat % tree.nBuckets]? = some chain) (sits : Sits tree chains n f entry) :
    Sits after (enteredChains host tree chains chain name) n f (adopt parent tree.entries.size f entry) :=
  ⟨(mem_entered at_loc).mpr (.inr sits.member),entered.entryAt_old sits chained⟩

theorem Entered.sits_new (entered : Entered host tree after chains chain parent name)
    (at_loc : chains[(host.hashName name).toNat % tree.nBuckets]? = some chain) :
    Sits after (enteredChains host tree chains chain name) tree.nodes.size tree.entries.size
      {namePrefix := name,hash := host.hashName name,parent := parent,node := some tree.nodes.size} :=
  ⟨(mem_entered at_loc).mpr (.inl rfl),entered.entryAt_new⟩
end Entered

section EnteredNames
variable {after : NameTree Component} {chain : List NodeId} {parent : Option EntryId} {name : Name Component}

theorem Entered.named (entered : Entered host tree after chains chain parent name)
    (consistent : Consistent host tree chains registry) (absent : name ∉ registry.names)
    (at_loc : chains[(host.hashName name).toNat % tree.nBuckets]? = some chain)
    (rooted : name = [] ∨ name.dropLast ∈ registry.names) :
    Named host after (enteredChains host tree chains chain name) (registry.enter name) := by
  have named := consistent.named
  have apart : ∀ {n f old}, Sits tree chains n f old → old.namePrefix ≠ name :=
    fun sits same => absent (same ▸ (named.known sits).1)
  refine ⟨?_,?_,?_,?_,?_⟩
  · intro n f entry sits
    rcases entered.sits consistent.chained at_loc sits with ⟨_,_,rfl⟩ | ⟨old,sitsOld,rfl⟩
    · rfl
    · rw [adopt_hash,adopt_namePrefix,named.hashed sitsOld]
  · intro n f entry sits
    rw [Registry.enter_names]
    rcases entered.sits consistent.chained at_loc sits with ⟨_,rfl,rfl⟩ | ⟨old,sitsOld,rfl⟩
    · refine ⟨Finset.mem_insert_self _ _,?_⟩
      rw [Registry.enter_fresh absent]
      simp [consistent.synced]
    · obtain ⟨stored,cell⟩ := named.known sitsOld
      rw [adopt_namePrefix,adopt_payload,Registry.enter_cell stored]
      exact ⟨Finset.mem_insert_of_mem stored,cell⟩
  · intro other stored
    rw [Registry.enter_names] at stored
    rcases Finset.mem_insert.mp stored with rfl | old
    · exact ⟨_,_,_,entered.sits_new at_loc,rfl⟩
    · obtain ⟨n,f,entry,sits,rfl⟩ := named.stored other old
      exact ⟨n,f,_,entered.sits_old consistent.chained at_loc sits,adopt_namePrefix _ _ _ _⟩
  · intro n f entry m g other sitsN sitsM same
    rcases entered.sits consistent.chained at_loc sitsN with ⟨rfl,_,rfl⟩ | ⟨oldN,sitsOldN,rfl⟩ <;>
      rcases entered.sits consistent.chained at_loc sitsM with ⟨rfl,_,rfl⟩ | ⟨oldM,sitsOldM,rfl⟩
    · rfl
    · rw [adopt_namePrefix] at same
      exact absurd same.symm (apart sitsOldM)
    · rw [adopt_namePrefix] at same
      exact absurd same (apart sitsOldN)
    · rw [adopt_namePrefix,adopt_namePrefix] at same
      exact named.unique sitsOldN sitsOldM same
  · rw [Registry.enter_names]
    exact named.closed.insert rooted

theorem parentOf_enter (stored : other.dropLast ∈ registry.names ∨ other = []) (name : Name Component) :
    (registry.enter name).parentOf other = registry.parentOf other := by
  unfold Registry.parentOf
  rcases stored with inside | rfl
  · rw [Registry.enter_cell inside]
  · rfl

theorem Entered.parented (entered : Entered host tree after chains chain parent name)
    (consistent : Consistent host tree chains registry)
    (at_loc : chains[(host.hashName name).toNat % tree.nBuckets]? = some chain)
    (rooted : name = [] ∨ name.dropLast ∈ registry.names) (above : parent = registry.parentOf name) :
    Parented after (enteredChains host tree chains chain name) (registry.enter name) := by
  intro n f entry sits
  rcases entered.sits consistent.chained at_loc sits with ⟨_,_,rfl⟩ | ⟨old,sitsOld,rfl⟩
  · rw [parentOf_enter rooted.symm]
    exact above
  · rw [adopt_parent,adopt_namePrefix,consistent.parented sitsOld,
      parentOf_enter (.inl (consistent.named.closed.parent (consistent.named.known sitsOld).1))]

omit [DecidableEq Component] in
-- The new entry's parent is the entry one component shorter, and no other.
theorem parent_iff (consistent : Consistent host tree chains registry) (sits : Sits tree chains n f entry)
    (rooted : name = [] ∨ name.dropLast ∈ registry.names) :
    registry.parentOf name = some f ↔ ∃ k, entry.namePrefix ++ [k] = name := by
  have object := consistent.named.object sits
  have stored := (consistent.named.known sits).1
  unfold Registry.parentOf
  constructor
  · intro above
    split at above
    · cases above
    · rename_i filled
      have same := consistent.named.injective _ (rooted.resolve_left filled) _ stored
        ((Option.some.inj above).trans object.symm)
      exact ⟨name.getLast filled,by rw [← same,List.dropLast_concat_getLast filled]⟩
  · rintro ⟨k,rfl⟩
    simp [object]

theorem Entered.fostered (entered : Entered host tree after chains chain parent name)
    (consistent : Consistent host tree chains registry) (absent : name ∉ registry.names)
    (at_loc : chains[(host.hashName name).toNat % tree.nBuckets]? = some chain)
    (rooted : name = [] ∨ name.dropLast ∈ registry.names) (above : parent = registry.parentOf name) :
    Fostered after (enteredChains host tree chains chain name) (registry.enter name) := by
  have next : ((registry.enter name).cell name).object = tree.entries.size := by
    rw [Registry.enter_fresh absent]
    simp [consistent.synced]
  have newer : ∀ x ∈ registry.names, (registry.cell x).object ≠ tree.entries.size := by
    intro x stored
    rw [← consistent.synced]
    exact Nat.ne_of_lt (consistent.distinct.older x stored)
  constructor
  · intro n f entry sits
    rcases entered.sits consistent.chained at_loc sits with ⟨_,_,rfl⟩ | ⟨old,sitsOld,rfl⟩
    · exact List.nodup_nil
    · rw [adopt_children]
      split
      · rw [List.nodup_append_comm,List.singleton_append,List.nodup_cons]
        refine ⟨fun member => ?_,consistent.fostered.nodup sitsOld⟩
        obtain ⟨k,stored,same⟩ := (consistent.fostered.child_iff sitsOld _).mp member
        exact newer _ stored same
      · exact consistent.fostered.nodup sitsOld
  · intro n f entry sits c
    rw [Registry.enter_names]
    rcases entered.sits consistent.chained at_loc sits with ⟨_,_,rfl⟩ | ⟨old,sitsOld,rfl⟩
    · constructor
      · intro member; cases member
      · rintro ⟨k,stored,_⟩
        rcases Finset.mem_insert.mp stored with same | inside
        · simp at same
        · exact absurd (consistent.named.closed _ inside _ (List.prefix_append _ _)) absent
    · have link := parent_iff consistent sitsOld rooted
      rw [← above] at link
      have children := consistent.fostered.child_iff sitsOld c
      rw [adopt_namePrefix,adopt_children]
      by_cases below : parent = some f
      · obtain ⟨k,rfl⟩ := link.mp below
        rw [if_pos below,List.mem_append,List.mem_singleton,children]
        constructor
        · rintro (⟨j,stored,same⟩ | rfl)
          · exact ⟨j,Finset.mem_insert_of_mem stored,by rw [Registry.enter_cell stored]; exact same⟩
          · exact ⟨k,Finset.mem_insert_self _ _,next⟩
        · rintro ⟨j,stored,same⟩
          rcases Finset.mem_insert.mp stored with equal | inside
          · rw [equal,next] at same
            exact .inr same.symm
          · rw [Registry.enter_cell inside] at same
            exact .inl ⟨j,inside,same⟩
      · rw [if_neg below,children]
        constructor
        · rintro ⟨j,stored,same⟩
          exact ⟨j,Finset.mem_insert_of_mem stored,by rw [Registry.enter_cell stored]; exact same⟩
        · rintro ⟨j,stored,same⟩
          rcases Finset.mem_insert.mp stored with equal | inside
          · exact absurd (link.mpr ⟨j,equal⟩) below
          · exact ⟨j,inside,by rw [Registry.enter_cell inside] at same; exact same⟩

theorem Entered.consistent (entered : Entered host tree after chains chain parent name)
    (consistent : Consistent host tree chains registry) (absent : name ∉ registry.names)
    (at_loc : chains[(host.hashName name).toNat % tree.nBuckets]? = some chain)
    (rooted : name = [] ∨ name.dropLast ∈ registry.names) (above : parent = registry.parentOf name) :
    Consistent host after (enteredChains host tree chains chain name) (registry.enter name) where
  chained := entered.chained consistent.chained at_loc
  placed := entered.placed consistent.chained consistent.placed at_loc
  pointing := by
    intro n f entry sits
    rcases entered.sits consistent.chained at_loc sits with ⟨rfl,_,rfl⟩ | ⟨old,sitsOld,rfl⟩
    · rfl
    · rw [adopt_node,consistent.pointing sitsOld]
  linked := entered.linked consistent.chained consistent.linked at_loc
  named := entered.named consistent absent at_loc rooted
  parented := entered.parented consistent at_loc rooted above
  fostered := entered.fostered consistent absent at_loc rooted above
  counted := by
    rw [entered.items,consistent.counted,Registry.enter_names,Finset.card_insert_of_notMem absent]
  synced := by
    rw [entered.entriesSize,Registry.enter_fresh absent,← consistent.synced]
end EnteredNames

omit [DecidableEq Component] in
-- The parent is there before its new child, which is a new object.
theorem parent_older (consistent : Consistent host tree chains registry)
    (rooted : name = [] ∨ name.dropLast ∈ registry.names) (above : parent = registry.parentOf name) (same : parent = some p) :
    ∃ object, tree.entries.read p = some object ∧ tree.entries.size ∉ object.children := by
  rw [above,Registry.parentOf] at same
  split at same
  · cases same
  · rename_i filled
    obtain ⟨n,object,sits,_⟩ := consistent.named.live (rooted.resolve_left filled)
    cases Option.some.inj same
    refine ⟨object,sits.entry_live,fun member => ?_⟩
    obtain ⟨k,stored,child⟩ := (consistent.fostered.child_iff sits _).mp member
    have older := consistent.distinct.older _ stored
    rw [child,consistent.synced] at older
    exact Nat.lt_irrefl _ older

theorem enter_consistent (consistent : Consistent host tree chains registry)
    (rooted : name = [] ∨ name.dropLast ∈ registry.names) (above : parent = registry.parentOf name) :
    ∃ after chains', tree.enter host parent name = .ok (after,((registry.enter name).cell name).object) ∧
      Consistent host after chains' (registry.enter name) ∧ (HeadsNull after chains' ↔ HeadsNull tree chains) := by
  by_cases stored : name ∈ registry.names
  · refine ⟨tree,chains,?_,?_,Iff.rfl⟩
    · rw [enter_stored consistent stored,Registry.enter_stored stored]
    · rwa [Registry.enter_stored stored]
  · obtain ⟨chain,at_loc⟩ := consistent.chained.table.chain_at (consistent.placed.bound (host.hashName name).toNat)
    have older : ∀ p, parent = some p → (tree.entries.read p).isSome := by
      intro p same
      obtain ⟨object,live,_⟩ := parent_older consistent rooted above same
      simp [live]
    obtain ⟨after,ran,entered⟩ := enter_absent consistent stored at_loc older
    refine ⟨after,_,?_,entered.consistent consistent stored at_loc rooted above,
      entered.headsNull_iff consistent.chained at_loc⟩
    rw [ran,Registry.enter_fresh stored,← consistent.synced]
    simp
end Insert

section Start
omit [DecidableEq Component]

theorem new_consistent (host : Host Component) (positive : 0 < n) :
    Consistent host (new n : NameTree Component) (List.replicate n []) .empty ∧
      HeadsNull (new n : NameTree Component) (List.replicate n []) := by
  have none_sits : ∀ {m e} {entry : Entry Component}, ¬ Sits (new n) (List.replicate n []) m e entry := by
    intro m e entry sits
    have member := sits.member
    simp at member
  have empty : ∀ chain ∈ List.replicate n ([] : List NodeId), chain = [] := fun chain member => (List.mem_replicate.mp member).2
  refine ⟨⟨⟨⟨by simp [new],?_,by simp⟩,by simp⟩,⟨?_,?_⟩,fun sits => (none_sits sits).elim,?_,?_,fun sits => (none_sits sits).elim,
    ⟨fun sits => (none_sits sits).elim,fun sits => (none_sits sits).elim⟩,rfl,rfl⟩,?_⟩
  · intro chain member
    rw [empty chain member]
    trivial
  · simpa [nBuckets,new] using positive
  · intro loc chain m e entry got deep
    rw [empty chain (List.mem_of_getElem? got)] at deep
    cases deep
  · intro chain member
    rw [empty chain member]
    trivial
  · refine ⟨fun sits => (none_sits sits).elim,fun sits => (none_sits sits).elim,?_,fun sits => (none_sits sits).elim,?_⟩
    · intro name stored
      cases stored
    · intro name stored
      cases stored
  · intro chain member m first
    rw [empty chain member] at first
    cases first
end Start

end NfdTables.NameTree
