import NfdTables.Foundation.Distribute
import NfdTables.NameTree.Layout

namespace NfdTables.NameTree
open Machine Chain
variable {Component : Type}

def newBucketOf (tree : NameTree Component) (newNBuckets : Nat) (n : NodeId) : Nat :=
  match tree.entryAt n with
  | some (_,entry) => entry.hash.toNat % newNBuckets
  | none => 0

theorem newBucketOf_lt (tree : NameTree Component) (positive : 0 < k) (n : NodeId) : tree.newBucketOf k n < k := by
  unfold newBucketOf
  split
  · exact Nat.mod_lt _ positive
  · exact positive

-- The nodes in the order resize() meets them.
def nodesInOrder (tree : NameTree Component) : List NodeId :=
  tree.buckets.flatMap fun head => follow tree.nodes Node.next tree.nodes.size head

theorem nodesInOrder_eq {tree : NameTree Component} (chained : Chained tree chains) :
    tree.nodesInOrder = chains.flatten := by
  have each : ∀ chain ∈ chains, follow tree.nodes Node.next tree.nodes.size chain.head? = chain := fun chain member =>
    have seg := chained.table.linked chain member
    follow_seg seg (chain_fits seg (chained.table.chain_nodup member))
  rw [nodesInOrder,chained.table.heads,List.flatMap_map,List.flatMap_def,List.map_congr_left each,List.map_id']

-- resize() meets every new bucket once before it puts a second node into one.
def ResizeOrdered (tree : NameTree Component) (newNBuckets : Nat) : Prop :=
  FirstsFirst (tree.nodesInOrder.map (tree.newBucketOf newNBuckets))

instance (tree : NameTree Component) (newNBuckets : Nat) : Decidable (tree.ResizeOrdered newNBuckets) := by
  unfold ResizeOrdered; infer_instance

-- `p` goes behind the last node of `chain`, and `pre` moves if there is one.
structure PlacedBehind (before after : Rehash) (chain : List NodeId) (p : NodeId) : Prop where
  count : after.count = before.count
  size : after.nodes.size = before.nodes.size
  pre : after.pre = chain.getLast?.or before.pre
  entries : ∀ n, (after.nodes.read n).map Node.entry = (before.nodes.read n).map Node.entry
  frame : ∀ n, n ≠ p → n ∉ chain → after.nodes.read n = before.nodes.read n
  next_frame : ∀ n, n ≠ p → chain.getLast? ≠ some n →
    links after.nodes Node.next n = links before.nodes Node.next n
  next_here : links after.nodes Node.next p = some none
  next_last : ∀ last, chain.getLast? = some last → links after.nodes Node.next last = some (some p)
  prev_frame : ∀ n, n ≠ p → links after.nodes Node.prev n = links before.nodes Node.prev n
  prev_here : links after.nodes Node.prev p = some (chain.getLast?.or before.pre)

theorem walk_tail (heap : Heap Node) (seg : Seg (links heap Node.next) chain none) (nodup : chain.Nodup)
    (pre : Option NodeId) (pp : Slot) :
    forChain heap Node.next (fun (_ : Option NodeId × Slot) key _ =>
      (.ok (.onward (some key,.next key)) : Exec (Turn (Option NodeId × Slot) Empty))) heap.size chain.head? (pre,pp) =
    .ok (.onward (chain.getLast?.or pre,match chain.getLast? with | some last => .next last | none => pp)) := by
  rw [forChain_nodes seg (chain_fits seg nodup)]
  have live := chain_live seg
  clear seg nodup
  induction chain generalizing pre pp with
  | nil => rfl
  | cons n rest ih =>
    obtain ⟨node,got⟩ := Option.isSome_iff_exists.mp (live n (by simp))
    rw [forNodes,Heap.fetch_live got,ok_bind,ok_bind]
    dsimp only
    rw [ih _ _ (fun m member => live m (by simp [member]))]
    cases rest <;> simp [List.getLast?_cons]

theorem place_spec (work : Rehash) (table : Table (links work.nodes Node.next) work.newBuckets chains)
    (at_loc : chains[b]? = some chain) (fresh : p ∉ chain) (live : work.nodes.read p = some node) :
    ∃ after, work.place b p = .ok after ∧ PlacedBehind work after chain p ∧
      after.newBuckets = (chains.set b (chain ++ [p])).map List.head? := by
  have member := List.mem_of_getElem? at_loc
  have seg := table.linked chain member
  have walked := walk_tail work.nodes seg (table.chain_nodup member) work.pre (.bucket b)
  have head : bucketAt work.newBuckets b = .ok chain.head? := by simp [bucketAt,table.head_at at_loc]
  unfold Rehash.place
  simp only [head,ok_bind,walked,Heap.update_live live]
  rcases List.eq_nil_or_concat' chain with rfl | ⟨front,last,rfl⟩
  · refine ⟨_,rfl,⟨rfl,by simp,rfl,?_,?_,?_,?_,by simp,?_,?_⟩,?_⟩
    · intro n
      by_cases same : n = p
      · subst n; simp [Heap.read_write live,live]
      · simp [Heap.read_write live,same]
    · intro n other _; simp [Heap.read_write live,other]
    · intro n other _; simp [links_write live,other]
    · simp [links_write live]
    · intro n other; simp [links_write live,other]
    · simp [links_write live]
    · rw [List.map_set,table.heads]; rfl
  · have lastLive : last ∈ front ++ [last] := by simp
    obtain ⟨object,gotLast⟩ := Option.isSome_iff_exists.mp (chain_live seg last lastLive)
    have apart : last ≠ p := fun same => fresh (same ▸ lastLive)
    have gotNow : (work.nodes.write p {node with prev := ((front ++ [last]).getLast?.or work.pre),next := none}).read last =
        some object := by simp [Heap.read_write live,apart,gotLast]
    have final : (front ++ [last]).getLast? = some last := by simp
    simp only [final,Option.some_or] at gotNow ⊢
    simp only [Heap.update_live gotNow,ok_bind,pure_ok]
    refine ⟨_,rfl,⟨rfl,by simp,by simp,?_,?_,?_,?_,?_,?_,?_⟩,?_⟩
    · intro n
      rw [Heap.read_write gotNow]
      by_cases same : n = last
      · subst n; simp [gotLast]
      · by_cases here : n = p
        · subst n; simp [Heap.read_write live,live,same]
        · simp [Heap.read_write live,same,here]
    · intro n other outside
      have notLast : n ≠ last := fun same => outside (same ▸ lastLive)
      simp [Heap.read_write gotNow,Heap.read_write live,other,notLast]
    · intro n other notLast
      have notLast : n ≠ last := fun same => notLast (by simp [same])
      simp [links_write gotNow,links_write live,other,notLast]
    · simp [links_write gotNow,links_write live,Ne.symm apart]
    · intro other same
      rw [final] at same
      cases Option.some.inj same
      simp [links_write gotNow]
    · intro n other
      rw [links_write gotNow,links_write live,if_neg other]
      split
      · rename_i same
        subst n
        simp [links,gotLast]
      · rfl
    · simp [links_write gotNow,links_write live,Ne.symm apart]
    · rw [heads_keep at_loc (by cases front <;> simp),table.heads]

-- The nodes `done` have been moved. `pre` is null until two of them met in a bucket,
-- so a node that opens a bucket has a null m_prev only where none had met before.
structure Rehashing (tree : NameTree Component) (k : Nat) (work : Rehash) (done : List NodeId) : Prop where
  table : Table (links work.nodes Node.next) work.newBuckets (distribute k (tree.newBucketOf k) done)
  count : work.count = done.length
  size : work.nodes.size = tree.nodes.size
  entries : ∀ n, (work.nodes.read n).map Node.entry = (tree.nodes.read n).map Node.entry
  frame : ∀ n, n ∉ done → work.nodes.read n = tree.nodes.read n
  back : ∀ chain ∈ distribute k (tree.newBucketOf k) done, BackTail (links work.nodes Node.prev) chain
  pre : work.pre = none ↔ (done.map (tree.newBucketOf k)).Nodup
  opened : ∀ front n behind, done = front ++ n :: behind → tree.newBucketOf k n ∉ front.map (tree.newBucketOf k) →
    (links work.nodes Node.prev n = some none ↔ (front.map (tree.newBucketOf k)).Nodup)

theorem rehashing_start (tree : NameTree Component) (k : Nat) :
    Rehashing tree k ⟨List.replicate k none,tree.nodes,0,none⟩ [] := by
  refine ⟨⟨?_,?_,?_⟩,rfl,rfl,fun _ => rfl,fun _ _ => rfl,?_,by simp,by simp⟩
  · simp [distribute_nil]
  · intro chain member
    rw [distribute_nil] at member
    rw [(List.mem_replicate.mp member).2]
    trivial
  · simp [distribute_nil]
  · intro chain member
    rw [distribute_nil] at member
    rw [(List.mem_replicate.mp member).2]
    trivial

theorem Rehashing.place {tree : NameTree Component} {work : Rehash} (state : Rehashing tree k work done)
    (positive : 0 < k) (fresh : p ∉ done) (live : tree.nodes.read p = some node) :
    ∃ after, Rehash.place {work with count := work.count + 1} (tree.newBucketOf k p) p = .ok after ∧
      Rehashing tree k after (done ++ [p]) := by
  have bound := newBucketOf_lt tree positive p
  have bounded : ∀ n ∈ done, tree.newBucketOf k n < k := fun n _ => newBucketOf_lt tree positive n
  have at_loc := distribute_at bound (tree.newBucketOf k) done
  generalize chainIs : (done.filter fun n => tree.newBucketOf k n = tree.newBucketOf k p) = chain at at_loc
  have inner : ∀ n ∈ chain, n ∈ done := fun n member => List.mem_of_mem_filter (chainIs ▸ member)
  have outside : p ∉ (distribute k (tree.newBucketOf k) done).flatten := by
    rwa [mem_distribute_flatten bounded]
  have liveNow : work.nodes.read p = some node := by rw [state.frame p fresh,live]
  obtain ⟨after,ran,moved,heads⟩ := place_spec {work with count := work.count + 1} state.table at_loc
    (fun member => fresh (inner p member)) liveNow
  have shape := distribute_concat k (tree.newBucketOf k) done p
  rw [chainIs] at shape
  have notHere : ∀ m ∈ (distribute k (tree.newBucketOf k) done).flatten, m ≠ p :=
    fun m member same => outside (same ▸ member)
  have open_iff : chain = [] ↔ tree.newBucketOf k p ∉ done.map (tree.newBucketOf k) := by
    rw [← chainIs,List.filter_eq_nil_iff]
    simp
  refine ⟨after,ran,⟨?_,?_,?_,?_,?_,?_,?_,?_⟩⟩
  · rw [shape,heads]
    exact state.table.append at_loc outside moved.next_here moved.next_last
      (fun m member notLast => moved.next_frame m (notHere m member) notLast)
  · rw [moved.count,List.length_append]
    simp [state.count]
  · rw [moved.size]; exact state.size
  · intro n
    rw [moved.entries n]
    exact state.entries n
  · intro n absent
    rw [List.mem_append,List.mem_singleton,not_or] at absent
    rw [moved.frame n absent.2 (fun member => absent.1 (inner n member))]
    exact state.frame n absent.1
  · rw [shape]
    refine backTail_append state.back at_loc (fun filled => ?_) (fun m member => moved.prev_frame m (notHere m member))
    cases final : chain.getLast? with
    | none => exact absurd (List.getLast?_eq_none_iff.mp final) filled
    | some last => rw [moved.prev_here,final,Option.some_or]
  · rw [moved.pre,Option.or_eq_none_iff,List.getLast?_eq_none_iff,open_iff,state.pre,List.map_append,List.map_singleton,
      List.nodup_append_comm,List.singleton_append,List.nodup_cons]
  · intro front n behind equal absent
    rcases List.eq_nil_or_concat' behind with rfl | ⟨middle,last,rfl⟩
    · obtain ⟨rfl,same⟩ := List.append_inj' equal rfl
      cases List.cons.inj same |>.1
      rw [moved.prev_here,open_iff.mpr absent,← state.pre]
      simp
    · have split : done ++ [p] = (front ++ n :: middle) ++ [last] := by simpa using equal
      obtain ⟨rfl,_⟩ := List.append_inj' split rfl
      have other : n ≠ p := fun same => fresh (by simp [same])
      rw [moved.prev_frame n other]
      exact state.opened front n middle rfl absent

variable {tree : NameTree Component}

theorem Rehashing.node {work : Rehash} (state : Rehashing tree k work done) (fresh : p ∉ done)
    (held : (tree.entryAt p).isSome) : ∃ node e entry, work.nodes.read p = some node ∧
      tree.nodes.read p = some node ∧ node.entry = some e ∧ tree.entries.read e = some entry ∧
      entry.hash.toNat % k = tree.newBucketOf k p := by
  obtain ⟨⟨e,entry⟩,holds⟩ := Option.isSome_iff_exists.mp held
  obtain ⟨node,live,points,object⟩ := entryAt_iff.mp holds
  exact ⟨node,e,entry,by rw [state.frame p fresh,live],live,points,object,by simp [newBucketOf,holds]⟩

theorem rehashChain_spec {work : Rehash} (positive : 0 < k) (state : Rehashing tree k work done)
    (seg : Seg tree.nexts rest none) (held : ∀ n ∈ rest, (tree.entryAt n).isSome)
    (nodup : (done ++ rest).Nodup) (fits : rest.length ≤ fuel) :
    ∃ after, rehashChain tree.entries k fuel rest.head? work = .ok after ∧ Rehashing tree k after (done ++ rest) := by
  induction rest generalizing done work fuel with
  | nil => exact ⟨work,by cases fuel <;> rfl,by simpa using state⟩
  | cons p rest ih =>
    obtain ⟨fuel,rfl⟩ : ∃ smaller, fuel = smaller + 1 := ⟨fuel - 1,by simp only [List.length_cons] at fits; omega⟩
    have fresh : p ∉ done := fun member => (List.nodup_append.mp nodup).2.2 p member p (by simp) rfl
    obtain ⟨node,e,entry,live,old,points,object,bucket⟩ := state.node fresh (held p (by simp))
    have behind : node.next = rest.head? := by
      have here := seg.1
      simpa [nexts,links,old] using here
    obtain ⟨middle,placed,moved⟩ := state.place positive fresh old
    have further : ((done ++ [p]) ++ rest).Nodup := by simpa using nodup
    have less : rest.length ≤ fuel := by simpa using fits
    obtain ⟨after,ran,final⟩ := ih moved seg.2 (fun n member => held n (by simp [member])) further less
    refine ⟨after,?_,by simpa using final⟩
    rw [List.head?_cons,rehashChain]
    simp only [Heap.fetch_live live,ok_bind,points,Heap.fetch_live object,bucket,placed,behind]
    exact ran

theorem rehashBuckets_spec {work : Rehash} {chains : List (List NodeId)} (positive : 0 < k) (state : Rehashing tree k work done)
    (linked : ∀ chain ∈ chains, Seg tree.nexts chain none) (held : ∀ n ∈ chains.flatten, (tree.entryAt n).isSome)
    (nodup : (done ++ chains.flatten).Nodup) :
    ∃ after, rehashBuckets tree.entries k (chains.map List.head?) work = .ok after ∧
      Rehashing tree k after (done ++ chains.flatten) := by
  induction chains generalizing done work with
  | nil => exact ⟨work,rfl,by simpa using state⟩
  | cons chain rest ih =>
    rw [List.flatten_cons] at held nodup ⊢
    rw [← List.append_assoc] at nodup ⊢
    have seg := linked chain (by simp)
    have fits : chain.length ≤ work.nodes.size := by
      rw [state.size]
      exact chain_fits seg (List.nodup_append.mp (List.nodup_append.mp nodup).1).2.1
    obtain ⟨middle,ran,moved⟩ := rehashChain_spec positive state seg (fun n member => held n (by simp [member]))
      (List.nodup_append.mp nodup).1 fits
    obtain ⟨after,later,final⟩ := ih moved (fun other member => linked other (by simp [member]))
      (fun n member => held n (List.mem_append_right _ member)) nodup
    exact ⟨after,by simp only [List.map_cons,rehashBuckets,ran,ok_bind,later],final⟩

-- Where a resize leaves a table whose m_next chains are well formed.
structure Resized (host : Host Component) (tree after : NameTree Component) (k : Nat) (chains : List (List NodeId)) : Prop where
  items : after.nItems = tree.nItems
  threshold : after.resizeThreshold = host.intOfDouble (loadLimit k)
  buckets : after.nBuckets = k
  objects : after.entries = tree.entries
  nodesSize : after.nodes.size = tree.nodes.size
  holds : ∀ n, after.entryAt n = tree.entryAt n
  chained : Chained after (distribute k (tree.newBucketOf k) chains.flatten)
  back : BackLinked after (distribute k (tree.newBucketOf k) chains.flatten)
  heads : HeadsNull after (distribute k (tree.newBucketOf k) chains.flatten) ↔ tree.ResizeOrdered k

theorem heads_iff {work : Rehash} (positive : 0 < k) (state : Rehashing tree k work done) :
    (∀ chain ∈ distribute k (tree.newBucketOf k) done, ∀ n, chain.head? = some n →
      links work.nodes Node.prev n = some none) ↔ FirstsFirst (done.map (tree.newBucketOf k)) := by
  rw [firstsFirst_iff]
  constructor
  · intro null front b behind equal absent
    obtain ⟨earlier,later,rfl,rfl,laterIs⟩ := List.map_eq_append_iff.mp equal
    obtain ⟨n,rest,rfl,rfl,rfl⟩ := List.map_eq_cons_iff.mp laterIs
    have bound := newBucketOf_lt tree positive n
    refine (state.opened earlier n rest rfl absent).mp (null _ (List.mem_of_getElem? (distribute_at bound _ _)) n ?_)
    exact head_filter_iff.mpr ⟨earlier,rest,rfl,rfl,absent⟩
  · intro ordered chain member n head
    obtain ⟨b,_,rfl⟩ := mem_distribute member
    obtain ⟨front,behind,rfl,rfl,absent⟩ := head_filter_iff.mp head
    refine (state.opened front n behind rfl absent).mpr (ordered _ _ (behind.map (tree.newBucketOf k)) ?_ absent)
    simp

theorem resize_spec (host : Host Component) (chained : Chained tree chains)
    (counted : tree.nItems = chains.flatten.length) (positive : 0 < k) :
    ∃ after, tree.resize host k = .ok after ∧ Resized host tree after k chains := by
  obtain ⟨work,ran,state⟩ := rehashBuckets_spec positive (rehashing_start tree k) chained.table.linked
    (by simpa using chained.held) (by simpa using chained.table.disjoint)
  rw [← chained.table.heads] at ran
  rw [List.nil_append] at state
  have count : work.count = tree.nItems := by rw [state.count,counted]
  let after : NameTree Component := {tree with
    buckets := work.newBuckets
    nodes := work.nodes
    resizeThreshold := host.intOfDouble (loadLimit k)}
  have holds : ∀ n, after.entryAt n = tree.entryAt n := by
    intro n
    have same := state.entries n
    simp only [entryAt,after]
    cases old : tree.nodes.read n <;> cases new : work.nodes.read n <;> simp_all
  have bounded : ∀ n ∈ chains.flatten, tree.newBucketOf k n < k := fun n _ => newBucketOf_lt tree positive n
  refine ⟨after,?_,⟨rfl,rfl,?_,rfl,state.size,holds,⟨state.table,?_⟩,state.back,?_⟩⟩
  · simp only [resize,ran,ok_bind,count,if_true,pure_ok,after]
  · rw [nBuckets,state.table.length,distribute_length]
  · intro n member
    rw [holds]
    exact chained.held n ((mem_distribute_flatten bounded).mp member)
  · rw [ResizeOrdered,nodesInOrder_eq chained]
    exact heads_iff positive state

end NfdTables.NameTree
