import NfdTables.NameTree.EnterSpec

namespace NfdTables.NameTree
open Machine Chain PrefixSet
variable {Component : Type}

section Unlink
variable {tree : NameTree Component}

-- What taking a node out from between `before` and `behind` does to node `m`.
def relink (before behind : Option NodeId) (m : NodeId) (object : Node) : Node :=
  {object with
    prev := if behind = some m then before else object.prev
    next := if before = some m then behind else object.next}

theorem bypass_spec (tree : NameTree Component) (entry : Entry Component) (behind : Option NodeId) (held : Option EntryId)
    (ahead : ∀ p, before = some p → (tree.nodes.read p).isSome) :
    ∃ nodes, tree.bypass entry ⟨before,behind,held⟩ =
        .ok (if before.isSome then tree.buckets else tree.buckets.set (entry.hash.toNat % tree.nBuckets) behind,nodes) ∧
      nodes.size = tree.nodes.size ∧
      ∀ m, nodes.read m = (tree.nodes.read m).map (fun object => {object with next := if before = some m then behind else object.next}) := by
  cases before with
  | none =>
    refine ⟨tree.nodes,rfl,rfl,fun m => ?_⟩
    cases tree.nodes.read m <;> rfl
  | some p =>
    obtain ⟨old,got⟩ := Option.isSome_iff_exists.mp (ahead p rfl)
    refine ⟨tree.nodes.write p {old with next := behind},by simp [bypass,Heap.update_live got],by simp,fun m => ?_⟩
    rw [Heap.read_write got]
    by_cases same : m = p
    · subst m; simp [got]
    · rw [if_neg same]
      cases tree.nodes.read m <;> simp [Ne.symm same]

theorem detach_spec {heap : Heap Node} (live : heap.read n = some ⟨before,behind,held⟩)
    (after : ∀ q, behind = some q → q ≠ n ∧ (heap.read q).isSome) :
    ∃ nodes, detach heap n before = .ok nodes ∧ nodes.size = heap.size ∧ nodes.read n = some ⟨before,none,held⟩ ∧
      ∀ m, m ≠ n → nodes.read m = (heap.read m).map (fun object => {object with prev := if behind = some m then before else object.prev}) := by
  cases behind with
  | none =>
    refine ⟨heap,by simp [detach,Heap.fetch_live live],rfl,live,fun m _ => ?_⟩
    cases heap.read m <;> rfl
  | some q =>
    obtain ⟨other,present⟩ := after q rfl
    obtain ⟨old,got⟩ := Option.isSome_iff_exists.mp present
    have still : (heap.write q {old with prev := before}).read n = some ⟨before,some q,held⟩ := by
      rw [Heap.read_write got,if_neg (Ne.symm other),live]
    refine ⟨_,by simp only [detach,Heap.fetch_live live,ok_bind,Heap.update_live got,Heap.update_live still]; rfl,by simp,?_,?_⟩
    · simp [Heap.read_write still]
    · intro m apart
      rw [Heap.read_write still,if_neg apart,Heap.read_write got]
      by_cases same : m = q
      · subst m; simp [got]
      · rw [if_neg same]
        cases heap.read m <;> simp [Ne.symm same]

theorem unlink_spec (tree : NameTree Component) (e : EntryId) (object : tree.entries.read e = some entry) (points : entry.node = some n)
    (live : tree.nodes.read n = some ⟨before,behind,held⟩)
    (ahead : ∀ p, before = some p → p ≠ n ∧ (tree.nodes.read p).isSome)
    (after : ∀ q, behind = some q → q ≠ n ∧ (tree.nodes.read q).isSome) :
    ∃ nodes, tree.unlink e = .ok {tree with
        nItems := decrement tree.nItems
        buckets := if before.isSome then tree.buckets else tree.buckets.set (entry.hash.toNat % tree.nBuckets) behind
        nodes := nodes} ∧
      nodes.size = tree.nodes.size ∧ nodes.read n = none ∧
      ∀ m, m ≠ n → nodes.read m = (tree.nodes.read m).map (relink before behind m) := by
  obtain ⟨skipped,bypassed,sizeS,othersS⟩ := bypass_spec tree entry behind held (fun p same => (ahead p same).2)
  have liveS : skipped.read n = some ⟨before,behind,held⟩ := by
    have notSelf : before ≠ some n := fun same => (ahead n same).1 rfl
    simp [othersS n,live,notSelf]
  have afterS : ∀ q, behind = some q → q ≠ n ∧ (skipped.read q).isSome := by
    intro q same
    obtain ⟨other,present⟩ := after q same
    exact ⟨other,by rw [othersS q,Option.isSome_map]; exact present⟩
  obtain ⟨nodes,detached,size,here,others⟩ := detach_spec liveS afterS
  refine ⟨nodes.free n,?_,by rw [Heap.size_free,size,sizeS],by simp [Heap.read_free],fun m apart => ?_⟩
  · simp only [unlink,Heap.fetch_live object,ok_bind,points,required_some,Heap.fetch_live live,bypassed,detached,
      Heap.fetch_live here,Option.isNone_none,if_true,pure_ok]
  · rw [Heap.read_free,if_neg apart,others m apart,othersS m,Option.map_map]
    rfl
end Unlink

section Removal
variable {host : Host Component} {tree after : NameTree Component} {chains : List (List NodeId)}
  {registry : Registry Component} {loc : Nat} {front behind : List NodeId} {n : NodeId}

-- What taking a child out of the list of `parent` does to the entry `f`.
def disown (parent : Option EntryId) (rest : List EntryId) (f : EntryId) (entry : Entry Component) : Entry Component :=
  {entry with children := if parent = some f then rest else entry.children}

@[simp] theorem disown_namePrefix (parent : Option EntryId) (rest : List EntryId) (f : EntryId) (entry : Entry Component) :
    Entry.namePrefix (disown parent rest f entry) = entry.namePrefix := rfl
@[simp] theorem disown_hash (parent : Option EntryId) (rest : List EntryId) (f : EntryId) (entry : Entry Component) :
    (disown parent rest f entry).hash = entry.hash := rfl
@[simp] theorem disown_parent (parent : Option EntryId) (rest : List EntryId) (f : EntryId) (entry : Entry Component) :
    (disown parent rest f entry).parent = entry.parent := rfl
@[simp] theorem disown_payload (parent : Option EntryId) (rest : List EntryId) (f : EntryId) (entry : Entry Component) :
    (disown parent rest f entry).payload = entry.payload := rfl
@[simp] theorem disown_node (parent : Option EntryId) (rest : List EntryId) (f : EntryId) (entry : Entry Component) :
    (disown parent rest f entry).node = entry.node := rfl

theorem disown_children (parent : Option EntryId) (rest : List EntryId) (f : EntryId) (entry : Entry Component) :
    (disown parent rest f entry).children = if parent = some f then rest else entry.children := rfl

-- Everything not named here stays.
structure Removed (tree after : NameTree Component) (chains : List (List NodeId)) (loc : Nat) (front : List NodeId)
    (n : NodeId) (behind : List NodeId) (parent : Option EntryId) (rest : List EntryId) : Prop where
  items : after.nItems = decrement tree.nItems
  threshold : after.resizeThreshold = tree.resizeThreshold
  nodesSize : after.nodes.size = tree.nodes.size
  entriesSize : after.entries.size = tree.entries.size
  heads : after.buckets = (chains.set loc (front ++ behind)).map List.head?
  node_gone : after.nodes.read n = none
  node_old : ∀ m, m ≠ n → after.nodes.read m = (tree.nodes.read m).map (relink front.getLast? behind.head? m)
  entry_old : ∀ f, after.entries.read f = (tree.entries.read f).map (disown parent rest f)

-- `n` may be erased where its m_prev is in order, which no state needs to keep.
def HeadOk (tree : NameTree Component) (chains : List (List NodeId)) (n : NodeId) : Prop :=
  ∀ chain ∈ chains, chain.head? = some n → tree.prevs n = some none

theorem prev_in_chain (consistent : Consistent host tree chains registry) (safe : HeadOk tree chains n)
    (at_loc : chains[loc]? = some (front ++ n :: behind)) : tree.prevs n = some front.getLast? := by
  have member := List.mem_of_getElem? at_loc
  cases front with
  | nil => exact safe _ member rfl
  | cons first further =>
    have back := consistent.linked _ member
    rw [List.cons_append,backTail_iff,back_append] at back
    rw [back.2.1,List.getLast?_cons]
    cases further <;> simp [List.getLast?_cons]

-- A stored entry below the root is in the children list of its parent.
theorem parent_of (consistent : Consistent host tree chains registry) (sits : Sits tree chains n e entry)
    (points : entry.parent = some p) : ∃ m object, Sits tree chains m p object ∧ e ∈ object.children ∧
      entry.namePrefix ≠ [] ∧ object.namePrefix = entry.namePrefix.dropLast := by
  have above := consistent.parented sits
  rw [points,Registry.parentOf] at above
  split at above
  · cases above
  · rename_i filled
    obtain ⟨m,object,sitsP,same⟩ := consistent.named.live (consistent.named.closed.parent (consistent.named.known sits).1)
    rw [← Option.some.inj above] at sitsP
    refine ⟨m,object,sitsP,?_,filled,same⟩
    refine (consistent.fostered.child_iff sitsP e).mpr ⟨entry.namePrefix.getLast filled,?_⟩
    rw [same,List.dropLast_concat_getLast filled]
    exact ⟨(consistent.named.known sits).1,consistent.named.object sits⟩

theorem removeChild_spec (consistent : Consistent host tree chains registry) (sits : Sits tree chains n e entry) :
    ∃ entries rest, removeChild tree.entries entry.parent e = .ok entries ∧
      entries.size = tree.entries.size ∧ (∀ f, entries.read f = (tree.entries.read f).map (disown entry.parent rest f)) ∧
      ∀ p object, entry.parent = some p → tree.entries.read p = some object → swapRemove object.children e = some rest := by
  cases points : entry.parent with
  | none =>
    refine ⟨tree.entries,[],rfl,rfl,fun f => ?_,fun _ _ none => nomatch none⟩
    cases tree.entries.read f <;> rfl
  | some p =>
    obtain ⟨m,object,sitsP,member,_⟩ := parent_of consistent sits points
    obtain ⟨rest,removed,_⟩ := swapRemove_perm member
    refine ⟨_,rest,by simp only [removeChild,Heap.fetch_live sitsP.entry_live,ok_bind,removed]; rfl,by simp,fun f => ?_,?_⟩
    · rw [Heap.read_write sitsP.entry_live]
      by_cases same : f = p
      · subst f; simp [sitsP.entry_live,disown]
      · rw [if_neg same]
        cases tree.entries.read f <;> simp [disown,Ne.symm same]
    · rintro q other same got
      cases Option.some.inj same
      cases Option.some.inj (sitsP.entry_live.symm.trans got)
      exact removed

theorem removeEntry_spec (consistent : Consistent host tree chains registry) (sits : Sits tree chains n e entry)
    (safe : HeadOk tree chains n) : ∃ front behind rest after,
      chains[entry.hash.toNat % tree.nBuckets]? = some (front ++ n :: behind) ∧ tree.removeEntry e entry = .ok after ∧
      Removed tree after chains (entry.hash.toNat % tree.nBuckets) front n behind entry.parent rest ∧
      ∀ p object, entry.parent = some p → tree.entries.read p = some object → swapRemove object.children e = some rest := by
  obtain ⟨chain,at_loc,deep⟩ := sits.bucket consistent.placed
  obtain ⟨front,behind,rfl⟩ := List.append_of_mem deep
  have member := List.mem_of_getElem? at_loc
  have nodup := consistent.chained.table.chain_nodup member
  have seg := consistent.chained.table.linked _ member
  obtain ⟨object,live,holds⟩ := sits.node_live
  have next : object.next = behind.head? := by
    have here := (seg_append.mp seg).2.1
    simpa [nexts,links,live] using here
  have prev : object.prev = front.getLast? := by
    have here := prev_in_chain consistent safe at_loc
    simpa [prevs,links,live] using here
  have shape : tree.nodes.read n = some ⟨front.getLast?,behind.head?,some e⟩ := by rw [live,← next,← prev,← holds]
  obtain ⟨entries,rest,ran,size,others,removed⟩ := removeChild_spec consistent sits
  obtain ⟨nodupFront,nodupRest,apart⟩ := List.nodup_append.mp nodup
  obtain ⟨nodes,unlinked,nodesSize,gone,relinked⟩ := unlink_spec {tree with entries := entries} e
    (by rw [others e,sits.entry_live]; rfl) ((disown_node _ _ _ _).trans (consistent.pointing sits)) shape
    (fun p same => ⟨apart p (List.mem_of_getLast? same) n (by simp),
      chain_live seg p (List.mem_append_left _ (List.mem_of_getLast? same))⟩)
    (fun q same => ⟨fun equal => (List.nodup_cons.mp nodupRest).1 (equal ▸ List.mem_of_mem_head? same),
      chain_live seg q (List.mem_append_right _ (List.mem_cons_of_mem _ (List.mem_of_mem_head? same)))⟩)
  have begun : tree.removeEntry e entry = unlink {tree with entries := entries} e := by rw [removeEntry,ran]; rfl
  refine ⟨front,behind,rest,_,at_loc,begun.trans unlinked,⟨rfl,rfl,nodesSize,size,?_,gone,relinked,others⟩,removed⟩
  cases front with
  | nil => rw [List.map_set,← consistent.chained.table.heads]; simp; rfl
  | cons first further =>
    rw [heads_keep at_loc (by simp),← consistent.chained.table.heads]
    simp [List.getLast?_cons]

end Removal

section Removed
variable {host : Host Component} {tree after : NameTree Component} {chains : List (List NodeId)}
  {registry : Registry Component} {loc : Nat} {front behind : List NodeId} {n m : NodeId}
  {parent : Option EntryId} {rest : List EntryId}

theorem mem_left (table : Table tree.nexts tree.buckets chains) (at_loc : chains[loc]? = some (front ++ n :: behind)) :
    m ∈ (chains.set loc (front ++ behind)).flatten ↔ m ∈ chains.flatten ∧ m ≠ n := by
  have perm := flatten_set_remove at_loc
  have fresh := (List.nodup_cons.mp (perm.nodup_iff.mp table.disjoint)).1
  rw [perm.mem_iff,List.mem_cons]
  constructor
  · exact fun member => ⟨.inr member,fun same => fresh (same ▸ member)⟩
  · exact fun ⟨member,other⟩ => member.resolve_left other

theorem Removed.prevs_old (removed : Removed tree after chains loc front n behind parent rest) (other : m ≠ n) :
    after.prevs m = (tree.prevs m).map fun prev => if behind.head? = some m then front.getLast? else prev := by
  simp only [prevs,links,removed.node_old m other,Option.map_map]
  rfl

theorem Removed.nexts_old (removed : Removed tree after chains loc front n behind parent rest) (other : m ≠ n) :
    after.nexts m = (tree.nexts m).map fun next => if front.getLast? = some m then behind.head? else next := by
  simp only [nexts,links,removed.node_old m other,Option.map_map]
  rfl

theorem Removed.buckets (removed : Removed tree after chains loc front n behind parent rest)
    (table : Table tree.nexts tree.buckets chains) : after.nBuckets = tree.nBuckets := by
  rw [nBuckets,removed.heads,List.length_map,List.length_set,← table.length]
  rfl

theorem Removed.table (removed : Removed tree after chains loc front n behind parent rest)
    (table : Table tree.nexts tree.buckets chains) (at_loc : chains[loc]? = some (front ++ n :: behind)) :
    Table after.nexts after.buckets (chains.set loc (front ++ behind)) := by
  have nodup := table.chain_nodup (List.mem_of_getElem? at_loc)
  have seg := table.linked _ (List.mem_of_getElem? at_loc)
  rw [removed.heads]
  refine table.remove at_loc ?_ ?_
  · intro last final
    have inside := List.mem_of_getLast? final
    have other : last ≠ n := (List.nodup_append.mp nodup).2.2 last inside n (by simp)
    obtain ⟨node,live⟩ := Option.isSome_iff_exists.mp (chain_live seg last (List.mem_append_left _ inside))
    rw [removed.nexts_old other]
    simp [final,nexts,links,live]
  · intro m member other notLast
    rw [removed.nexts_old other]
    simp [notLast]

theorem Removed.entryAt_old (removed : Removed tree after chains loc front n behind parent rest)
    (sits : Sits tree chains m f entry) (other : m ≠ n) :
    after.entryAt m = some (f,disown parent rest f entry) := by
  obtain ⟨node,live,points,object⟩ := entryAt_iff.mp sits.holds
  exact entryAt_iff.mpr ⟨relink front.getLast? behind.head? m node,by rw [removed.node_old m other,live]; rfl,points,
    by rw [removed.entry_old f,object]; rfl⟩

theorem Removed.sits_old (removed : Removed tree after chains loc front n behind parent rest)
    (table : Table tree.nexts tree.buckets chains) (at_loc : chains[loc]? = some (front ++ n :: behind))
    (sits : Sits tree chains m f entry) (other : m ≠ n) :
    Sits after (chains.set loc (front ++ behind)) m f (disown parent rest f entry) :=
  ⟨(mem_left table at_loc).mpr ⟨sits.member,other⟩,removed.entryAt_old sits other⟩

theorem Removed.sits (removed : Removed tree after chains loc front n behind parent rest)
    (chained : Chained tree chains) (at_loc : chains[loc]? = some (front ++ n :: behind))
    (sits : Sits after (chains.set loc (front ++ behind)) m f entry) :
    m ≠ n ∧ ∃ old, Sits tree chains m f old ∧ entry = disown parent rest f old := by
  obtain ⟨member,other⟩ := (mem_left chained.table at_loc).mp sits.member
  obtain ⟨g,old,sitsOld⟩ := chained.sits member
  obtain ⟨rfl,rfl⟩ := entryAt_unique sits.holds (removed.entryAt_old sitsOld other)
  exact ⟨other,old,sitsOld,rfl⟩

theorem Removed.chained (removed : Removed tree after chains loc front n behind parent rest)
    (chained : Chained tree chains) (at_loc : chains[loc]? = some (front ++ n :: behind)) :
    Chained after (chains.set loc (front ++ behind)) := by
  refine ⟨removed.table chained.table at_loc,fun m member => ?_⟩
  obtain ⟨old,other⟩ := (mem_left chained.table at_loc).mp member
  obtain ⟨f,entry,sits⟩ := chained.sits old
  simp [removed.entryAt_old sits other]

theorem Removed.placed (removed : Removed tree after chains loc front n behind parent rest)
    (chained : Chained tree chains) (placed : Placed tree chains) (at_loc : chains[loc]? = some (front ++ n :: behind)) :
    Placed after (chains.set loc (front ++ behind)) := by
  refine ⟨by rw [removed.buckets chained.table]; exact placed.positive,?_⟩
  intro loc' other m f entry got deep holds
  obtain ⟨_,old,sits,rfl⟩ := removed.sits chained at_loc ⟨mem_flatten_at got deep,holds⟩
  rw [removed.buckets chained.table,disown_hash]
  by_cases same : loc' = loc
  · subst loc'
    rw [List.getElem?_set_self (List.getElem?_eq_some_iff.mp at_loc).1] at got
    cases Option.some.inj got
    refine placed.bucket at_loc ?_ sits.holds
    rcases List.mem_append.mp deep with inFront | inBehind
    · exact List.mem_append_left _ inFront
    · exact List.mem_append_right _ (List.mem_cons_of_mem _ inBehind)
  · rw [List.getElem?_set_ne (Ne.symm same)] at got
    exact placed.bucket got deep sits.holds

-- A chain that is left is the shortened one or one that nothing has touched.
theorem Removed.left_cases (removed : Removed tree after chains loc front n behind parent rest)
    (table : Table tree.nexts tree.buckets chains) (at_loc : chains[loc]? = some (front ++ n :: behind))
    (member : chain ∈ chains.set loc (front ++ behind)) :
    chain = front ++ behind ∨ chain ∈ chains ∧ ∀ m ∈ chain, after.prevs m = tree.prevs m := by
  obtain ⟨loc',got⟩ := List.mem_iff_getElem?.mp member
  by_cases same : loc' = loc
  · subst loc'
    rw [List.getElem?_set_self (List.getElem?_eq_some_iff.mp at_loc).1] at got
    exact .inl (Option.some.inj got).symm
  · rw [List.getElem?_set_ne (Ne.symm same)] at got
    refine .inr ⟨List.mem_of_getElem? got,fun m deep => ?_⟩
    have away : m ∉ front ++ n :: behind := fun inside => same (disjoint_other table.disjoint at_loc inside got deep)
    have notHead : behind.head? ≠ some m := fun head => away
      (List.mem_append_right _ (List.mem_cons_of_mem _ (List.mem_of_mem_head? head)))
    rw [removed.prevs_old (fun equal => away (by simp [equal]))]
    simp [notHead]

theorem Removed.linked (removed : Removed tree after chains loc front n behind parent rest)
    (table : Table tree.nexts tree.buckets chains) (linked : BackLinked tree chains)
    (at_loc : chains[loc]? = some (front ++ n :: behind)) : BackLinked after (chains.set loc (front ++ behind)) := by
  intro chain member
  rcases removed.left_cases table at_loc member with rfl | ⟨old,same⟩
  · have back := linked _ (List.mem_of_getElem? at_loc)
    have nodup := table.chain_nodup (List.mem_of_getElem? at_loc)
    have frame : ∀ m ∈ front ++ behind, behind.head? ≠ some m → after.prevs m = tree.prevs m := by
      intro m inside notHead
      have other : m ≠ n := fun same => by
        subst m
        rw [List.nodup_append_comm,List.cons_append,List.nodup_cons,List.mem_append] at nodup
        exact nodup.1 ((List.mem_append.mp inside).symm)
      rw [removed.prevs_old other]
      simp [notHead]
    cases front with
    | nil =>
      cases behind with
      | nil => trivial
      | cons head further =>
        refine Back.congr (fun m deep => ?_) back.2
        have apart : head ≠ m := fun same => by
          subst m
          exact (List.nodup_cons.mp (List.nodup_cons.mp nodup).2).1 deep
        exact frame m (List.mem_cons_of_mem _ deep) (by simpa using apart)
    | cons first further =>
      refine back_remove back (List.nodup_cons.mp nodup).2 (fun m head => ?_)
        (fun m inside notHead => frame m (List.mem_cons_of_mem _ inside) notHead)
      have inside : m ∈ behind := List.mem_of_mem_head? head
      have other : m ≠ n := fun same => by
        subst m
        exact (List.nodup_cons.mp (List.nodup_append.mp nodup).2.1).1 inside
      obtain ⟨node,live⟩ := Option.isSome_iff_exists.mp (chain_live (table.linked _ (List.mem_of_getElem? at_loc)) m
        (List.mem_append_right _ (List.mem_cons_of_mem _ inside)))
      rw [removed.prevs_old other]
      cases further <;> simp [head,prevs,links,live,List.getLast?_cons]
  · exact BackTail.congr same (linked chain old)

theorem Removed.headOk (removed : Removed tree after chains loc front n behind parent rest)
    (table : Table tree.nexts tree.buckets chains) (at_loc : chains[loc]? = some (front ++ n :: behind))
    (ok : HeadOk tree chains m) : HeadOk after (chains.set loc (front ++ behind)) m := by
  intro chain member first
  rcases removed.left_cases table at_loc member with rfl | ⟨old,same⟩
  · have inside := List.mem_of_getElem? at_loc
    have nodup := table.chain_nodup inside
    cases front with
    | nil =>
      have deep : m ∈ behind := List.mem_of_mem_head? first
      have other : m ≠ n := fun same => (List.nodup_cons.mp nodup).1 (same ▸ deep)
      obtain ⟨node,live⟩ := Option.isSome_iff_exists.mp (chain_live (table.linked _ inside) m (List.mem_cons_of_mem _ deep))
      rw [List.nil_append] at first
      rw [removed.prevs_old other]
      simp [prevs,links,live,first]
    | cons head further =>
      cases Option.some.inj first
      have fresh := (List.nodup_cons.mp nodup).1
      have other : m ≠ n := fun same => fresh (List.mem_append_right _ (by simp [same]))
      have notHead : behind.head? ≠ some m := fun second => fresh
        (List.mem_append_right _ (List.mem_cons_of_mem _ (List.mem_of_mem_head? second)))
      rw [removed.prevs_old other,ok _ inside rfl]
      simp [notHead]
  · rw [same m (List.mem_of_mem_head? first)]
    exact ok chain old first

variable [DecidableEq Component]

theorem Removed.named (removed : Removed tree after chains loc front n behind parent rest)
    (consistent : Consistent host tree chains registry) (sits : Sits tree chains n e entry)
    (at_loc : chains[loc]? = some (front ++ n :: behind)) (childless : ∀ k, entry.namePrefix ++ [k] ∉ registry.names) :
    Named host after (chains.set loc (front ++ behind)) (registry.forget entry.namePrefix) := by
  have named := consistent.named
  refine ⟨?_,?_,?_,?_,named.closed.erase_leaf childless⟩
  · intro m f object sitsM
    obtain ⟨_,old,sitsOld,rfl⟩ := removed.sits consistent.chained at_loc sitsM
    rw [disown_hash,disown_namePrefix,named.hashed sitsOld]
  · intro m f object sitsM
    obtain ⟨other,old,sitsOld,rfl⟩ := removed.sits consistent.chained at_loc sitsM
    rw [disown_namePrefix,disown_payload]
    obtain ⟨stored,cell⟩ := named.known sitsOld
    exact ⟨Finset.mem_erase.mpr ⟨fun same => other (named.unique sitsOld sits same),stored⟩,cell⟩
  · intro name stored
    obtain ⟨apart,old⟩ := Finset.mem_erase.mp stored
    obtain ⟨m,f,object,sitsM,rfl⟩ := named.stored name old
    have other : m ≠ n := by
      rintro rfl
      obtain ⟨_,rfl⟩ := entryAt_unique sitsM.holds sits.holds
      exact apart rfl
    exact ⟨m,f,_,removed.sits_old consistent.chained.table at_loc sitsM other,disown_namePrefix _ _ _ _⟩
  · intro m f object m' f' object' sitsM sitsM' same
    obtain ⟨_,old,sitsOld,rfl⟩ := removed.sits consistent.chained at_loc sitsM
    obtain ⟨_,old',sitsOld',rfl⟩ := removed.sits consistent.chained at_loc sitsM'
    rw [disown_namePrefix,disown_namePrefix] at same
    exact named.unique sitsOld sitsOld' same

theorem Removed.fostered (removed : Removed tree after chains loc front n behind entry.parent rest)
    (consistent : Consistent host tree chains registry) (sits : Sits tree chains n e entry)
    (at_loc : chains[loc]? = some (front ++ n :: behind))
    (taken : ∀ p object, entry.parent = some p → tree.entries.read p = some object → swapRemove object.children e = some rest) :
    Fostered after (chains.set loc (front ++ behind)) (registry.forget entry.namePrefix) := by
  have named := consistent.named
  obtain ⟨storedE,_⟩ := named.known sits
  have objectE := named.object sits
  have rooted : entry.namePrefix = [] ∨ entry.namePrefix.dropLast ∈ registry.names := .inr (named.closed.parent storedE)
  have perm : ∀ {f old m}, Sits tree chains m f old → entry.parent = some f → old.children.Perm (e :: rest) := by
    intro f old m sitsOld points
    obtain ⟨_,object,sitsP,member,_⟩ := parent_of consistent sits points
    cases Option.some.inj (sitsOld.entry_live.symm.trans sitsP.entry_live)
    obtain ⟨other,removedSame,perm⟩ := swapRemove_perm member
    cases Option.some.inj ((taken f _ points sitsOld.entry_live).symm.trans removedSame)
    exact perm
  constructor
  · intro m f object sitsM
    obtain ⟨_,old,sitsOld,rfl⟩ := removed.sits consistent.chained at_loc sitsM
    rw [disown_children]
    split
    · rename_i points
      exact (List.nodup_cons.mp ((perm sitsOld points).nodup_iff.mp (consistent.fostered.nodup sitsOld))).2
    · exact consistent.fostered.nodup sitsOld
  · intro m f object sitsM c
    obtain ⟨_,old,sitsOld,rfl⟩ := removed.sits consistent.chained at_loc sitsM
    have children := consistent.fostered.child_iff sitsOld c
    have link := parent_iff consistent sitsOld rooted
    rw [← consistent.parented sits] at link
    rw [disown_namePrefix,disown_children]
    simp only [Registry.forget,Finset.mem_erase]
    by_cases points : entry.parent = some f
    · have moved := perm sitsOld points
      have fresh := (List.nodup_cons.mp (moved.nodup_iff.mp (consistent.fostered.nodup sitsOld))).1
      have inRest : c ∈ rest ↔ c ∈ old.children ∧ c ≠ e := by
        rw [moved.mem_iff,List.mem_cons]
        exact ⟨fun member => ⟨.inr member,fun same => fresh (same ▸ member)⟩,fun ⟨member,other⟩ => member.resolve_left other⟩
      rw [if_pos points,inRest,children]
      constructor
      · rintro ⟨⟨k,stored,rfl⟩,other⟩
        exact ⟨k,⟨fun same => other (by rw [same]; exact objectE),stored⟩,rfl⟩
      · rintro ⟨k,⟨apart,stored⟩,rfl⟩
        exact ⟨⟨k,stored,rfl⟩,fun same => apart (named.injective _ stored _ storedE (same.trans objectE.symm))⟩
    · rw [if_neg points,children]
      have apart : ∀ k, old.namePrefix ++ [k] ≠ entry.namePrefix := fun k same => points (link.mpr ⟨k,same⟩)
      exact ⟨fun ⟨k,stored,same⟩ => ⟨k,⟨apart k,stored⟩,same⟩,fun ⟨k,⟨_,stored⟩,same⟩ => ⟨k,stored,same⟩⟩

theorem Removed.consistent (removed : Removed tree after chains loc front n behind entry.parent rest)
    (consistent : Consistent host tree chains registry) (sits : Sits tree chains n e entry)
    (at_loc : chains[loc]? = some (front ++ n :: behind)) (childless : ∀ k, entry.namePrefix ++ [k] ∉ registry.names)
    (taken : ∀ p object, entry.parent = some p → tree.entries.read p = some object → swapRemove object.children e = some rest) :
    Consistent host after (chains.set loc (front ++ behind)) (registry.forget entry.namePrefix) where
  chained := removed.chained consistent.chained at_loc
  placed := removed.placed consistent.chained consistent.placed at_loc
  pointing := by
    intro m f object sitsM
    obtain ⟨_,old,sitsOld,rfl⟩ := removed.sits consistent.chained at_loc sitsM
    rw [disown_node,consistent.pointing sitsOld]
  linked := removed.linked consistent.chained.table consistent.linked at_loc
  named := removed.named consistent sits at_loc childless
  parented := by
    intro m f object sitsM
    obtain ⟨_,old,sitsOld,rfl⟩ := removed.sits consistent.chained at_loc sitsM
    rw [disown_parent,disown_namePrefix,consistent.parented sitsOld]
    rfl
  fostered := removed.fostered consistent sits at_loc taken
  counted := by
    have stored := (consistent.named.known sits).1
    have filled := Finset.card_pos.mpr ⟨_,stored⟩
    rw [removed.items,consistent.counted,decrement,if_neg (Nat.ne_of_gt filled)]
    exact (Finset.card_erase_of_mem stored).symm
  synced := consistent.synced.trans removed.entriesSize.symm
end Removed

end NfdTables.NameTree
