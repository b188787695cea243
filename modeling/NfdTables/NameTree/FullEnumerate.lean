import NfdTables.NameTree.GrowthRuns
import NfdTables.NameTree.Iterator

namespace NfdTables.NameTree
open Machine Chain
variable {Component : Type}

section Yields
variable {tree : NameTree Component} {chains : List (List NodeId)} {selector : EntrySelector Component}

-- The entries of the table that satisfy the selector, by bucket and position.
def eligible (tree : NameTree Component) (chains : List (List NodeId)) (selector : EntrySelector Component) : List EntryId :=
  ((chains.flatten.filterMap tree.entryAt).filter fun (e,entry) => selector e entry).map Prod.fst

theorem eligible_eq (nodes : List NodeId) :
    ((nodes.filterMap tree.entryAt).filter fun (e,entry) => selector e entry).map Prod.fst =
      nodes.filterMap (tree.hit selector) := by
  induction nodes with
  | nil => rfl
  | cons n rest ih =>
    rw [List.filterMap_cons,List.filterMap_cons,hit]
    cases holds : tree.entryAt n with
    | none => exact ih
    | some pair =>
      obtain ⟨e,entry⟩ := pair
      by_cases wanted : selector e entry = true <;> simp [wanted,ih]

theorem mem_eligible : e ∈ tree.eligible chains selector ↔ ∃ n entry, Sits tree chains n e entry ∧ selector e entry = true := by
  simp only [eligible,List.mem_map,List.mem_filter]
  constructor
  · rintro ⟨⟨f,entry⟩,⟨member,wanted⟩,rfl⟩
    obtain ⟨n,sits⟩ := mem_held.mp member
    exact ⟨n,entry,sits,wanted⟩
  · rintro ⟨n,entry,sits,wanted⟩
    exact ⟨(e,entry),⟨mem_held.mpr ⟨n,sits⟩,wanted⟩,rfl⟩

theorem hit_sits (member : n ∈ chains.flatten) (found : tree.hit selector n = some e) :
    ∃ entry, Sits tree chains n e entry := by
  simp only [hit,Option.bind_eq_some_iff] at found
  obtain ⟨⟨f,entry⟩,holds,returned⟩ := found
  split at returned
  · cases Option.some.inj returned
    exact ⟨entry,member,holds⟩
  · cases returned

theorem same_node (pointing : BackPointing tree chains) (one : Sits tree chains n e entry) (two : Sits tree chains m e entry') :
    n = m := by
  have same : entry = entry' := Option.some.inj (one.entry_live.symm.trans two.entry_live)
  have points := pointing one
  rw [same,pointing two] at points
  exact (Option.some.inj points).symm

theorem hits_nodup (chained : Chained tree chains) (pointing : BackPointing tree chains) (selector : EntrySelector Component) :
    (chains.flatten.filterMap (tree.hit selector)).Nodup := by
  refine List.pairwise_filterMap.mpr (chained.table.disjoint.imp_of_mem ?_)
  intro n m inN inM apart e gotN f gotM same
  obtain ⟨_,sitsN⟩ := hit_sits inN gotN
  obtain ⟨_,sitsM⟩ := hit_sits inM gotM
  exact apart (same_node pointing sitsN (same ▸ sitsM))

-- No more nodes than entries, since an entry knows its node.
theorem nodes_fit (chained : Chained tree chains) (pointing : BackPointing tree chains) :
    chains.flatten.length ≤ tree.entries.size := by
  have all : (chains.flatten.filterMap (tree.hit anyEntry)).length = chains.flatten.length := by
    rw [List.length_filterMap_eq_countP,List.countP_eq_length]
    intro n member
    obtain ⟨e,entry,sits⟩ := chained.sits member
    simp [hit_at sits.holds,anyEntry]
  rw [← all]
  refine Heap.length_le_size (hits_nodup chained pointing anyEntry) (fun e member => ?_)
  obtain ⟨n,inside,found⟩ := List.mem_filterMap.mp member
  obtain ⟨entry,sits⟩ := hit_sits inside found
  simp [sits.entry_live]
end Yields

section Next
variable {tree : NameTree Component} {chains : List (List NodeId)} {selector : EntrySelector Component}
-- Where it finds nothing it stops at the last entry of the bucket.
theorem sameBucket_spec (selector : EntrySelector Component) (seg : Seg tree.nexts (n :: rest) none) (inside : ∀ m ∈ n :: rest, m ∈ chains.flatten)
    (chained : Chained tree chains) (pointing : BackPointing tree chains)
    (sits : Sits tree chains n e entry) (fits : rest.length < fuel) :
    ∃ f, loop (ConstIterator.bucketTurn tree selector) fuel e = .ok (f,(rest.findSome? (tree.hit selector)).isSome) ∧
      match rest.findSome? (tree.hit selector) with
      | some found => f = found
      | none => ∃ m ∈ n :: rest, ∃ last, Sits tree chains m f last := by
  induction rest generalizing n e entry fuel with
  | nil =>
    obtain ⟨fuel,rfl⟩ : ∃ smaller, fuel = smaller + 1 := ⟨fuel - 1,by simp only [List.length_nil] at fits; omega⟩
    obtain ⟨node,live,_⟩ := sits.node_live
    have next : node.next = none := by simpa [nexts,links,live] using seg.1
    have turn : ConstIterator.bucketTurn tree selector e = .ok (.leave (e,false)) := by
      simp [ConstIterator.bucketTurn,Heap.fetch_live sits.entry_live,pointing sits,Heap.fetch_live live,next]
    exact ⟨e,loop_leave turn fuel,n,by simp,entry,sits⟩
  | cons m rest ih =>
    obtain ⟨fuel,rfl⟩ : ∃ smaller, fuel = smaller + 1 := ⟨fuel - 1,by simp only [List.length_cons] at fits; omega⟩
    obtain ⟨node,live,_⟩ := sits.node_live
    have next : node.next = some m := by simpa [nexts,links,live] using seg.1
    obtain ⟨f,other,sitsM⟩ := chained.sits (inside m (by simp))
    obtain ⟨follower,liveM,points⟩ := sitsM.node_live
    have turn : ConstIterator.bucketTurn tree selector e =
        .ok (if selector f other then .leave (f,true) else .onward f) := by
      simp only [ConstIterator.bucketTurn,Heap.fetch_live sits.entry_live,ok_bind,pointing sits,required_some,
        Heap.fetch_live live,next,Heap.fetch_live liveM,points,Heap.fetch_live sitsM.entry_live]
      split <;> rfl
    rw [List.findSome?_cons,hit_at sitsM.holds]
    by_cases wanted : selector f other = true
    · rw [if_pos wanted] at turn ⊢
      exact ⟨f,loop_leave turn fuel,rfl⟩
    · rw [if_neg wanted] at turn ⊢
      obtain ⟨g,ran,reached⟩ := ih seg.2 (fun k member => inside k (List.mem_cons_of_mem _ member)) sitsM
        (by simpa using fits)
      refine ⟨g,(loop_onward turn fuel).trans ran,?_⟩
      cases later : rest.findSome? (tree.hit selector) with
      | some h => rwa [later] at reached
      | none =>
        rw [later] at reached
        obtain ⟨k,member,last,sitsK⟩ := reached
        exact ⟨k,List.mem_cons_of_mem _ member,last,sitsK⟩

theorem laterTurn_spec (s : Unit) (n : NodeId) (node : Node) (e : EntryId) (entry : Entry Component)
    (points : node.entry = some e) (live : tree.entries.read e = some entry) :
    ConstIterator.laterTurn tree selector s n node = .ok (if selector e entry then .leave e else .onward s) := by
  simp only [ConstIterator.laterTurn,points,required_some,ok_bind,Heap.fetch_live live,pure_ok]
  split <;> rfl

theorem eligibleTurn_spec (s : Unit) (n : NodeId) (node : Node) (e : EntryId) (entry : Entry Component)
    (points : node.entry = some e) (live : tree.entries.read e = some entry) :
    tree.eligibleTurn selector s n node = .ok (if selector e entry then .leave e else .onward s) := by
  simp only [eligibleTurn,points,ok_bind,Heap.fetch_live live,pure_ok]
  split <;> rfl

theorem laterBuckets_spec (selector : EntrySelector Component) (chained : Chained tree chains)
    (small : chains.length < 2^31) (rest : start + count = chains.length) :
    ConstIterator.laterBuckets tree selector (List.range' start count) =
      .ok ((chains.drop start).flatten.findSome? (tree.hit selector)) := by
  induction count generalizing start with
  | zero =>
    rw [List.drop_eq_nil_of_le (by omega)]
    rfl
  | succ count ih =>
    have bound : start < chains.length := by omega
    have at_loc : chains[start]? = some chains[start] := List.getElem?_eq_getElem bound
    have searched := search_chain (fun s _ => s) selector chained (List.mem_of_getElem? at_loc) laterTurn_spec ()
    rw [List.range'_succ,ConstIterator.laterBuckets,bucketAt_chain chained at_loc,ok_bind,searched,ok_bind,
      List.drop_eq_getElem_cons bound,List.flatten_cons,List.findSome?_append]
    cases found : chains[start].findSome? (tree.hit selector) with
    | some e => rfl
    | none =>
      have inside : start + 1 ≠ 2^31 := by omega
      simp only [if_neg inside,Option.none_or]
      exact ih (by omega)

theorem firstEligible_spec (selector : EntrySelector Component) {groups : List (List NodeId)} (chained : Chained tree chains)
    (sub : ∀ chain ∈ groups, chain ∈ chains) :
    tree.firstEligible selector (groups.map List.head?) = .ok (groups.flatten.findSome? (tree.hit selector)) := by
  induction groups with
  | nil => rfl
  | cons chain rest ih =>
    have searched := search_chain (fun s _ => s) selector chained (sub chain (by simp)) eligibleTurn_spec ()
    rw [List.map_cons,firstEligible,searched,ok_bind,List.flatten_cons,List.findSome?_append]
    cases found : chain.findSome? (tree.hit selector) with
    | some e => rfl
    | none => exact ih (fun other member => sub other (List.mem_cons_of_mem _ member))

-- m_entry moves to the first hit among the nodes behind its own in all buckets.
theorem nextFull_spec (chained : Chained tree chains) (placed : Placed tree chains) (pointing : BackPointing tree chains)
    (small : tree.nBuckets < 2^31) (it : ConstIterator Component) (shape : chains.flatten = front ++ n :: behind)
    (sits : Sits tree chains n e entry) :
    it.nextFull tree e = .ok {it with entry := behind.findSome? (tree.hit it.entrySelector)} := by
  obtain ⟨loc,before,after,at_loc,rfl⟩ := flatten_place shape
  have member := List.mem_of_getElem? at_loc
  have seg := (seg_append.mp (chained.table.linked _ member)).2
  have inside : ∀ m ∈ n :: after, m ∈ chains.flatten := fun m deep => mem_flatten_at at_loc (List.mem_append_right _ deep)
  have fits : (n :: after).length ≤ tree.nodes.size := chain_fits seg
    (List.nodup_append.mp (chained.table.chain_nodup member)).2.1
  have length : tree.nBuckets = chains.length := chained.table.length
  obtain ⟨f,ran,reached⟩ := sameBucket_spec it.entrySelector seg inside chained pointing sits fits
  rw [List.findSome?_append]
  unfold ConstIterator.nextFull
  rw [ran,ok_bind]
  cases found : after.findSome? (tree.hit it.entrySelector) with
  | some g =>
    rw [found] at reached
    subst f
    rfl
  | none =>
    rw [found] at reached
    obtain ⟨m,deep,last,sitsM⟩ := reached
    have home := placed.bucket at_loc (List.mem_append_right _ deep) sitsM.holds
    have bound : loc < tree.nBuckets := length ▸ (List.getElem?_eq_some_iff.mp at_loc).1
    have location : toInt (last.hash.toNat % tree.nBuckets + 1) = Int.ofNat (loc + 1) := by
      rw [home]
      exact toInt_small (by omega)
    have rest : (loc + 1) + (tree.nBuckets - (loc + 1)) = chains.length := by omega
    have later := laterBuckets_spec it.entrySelector chained (length ▸ small) rest
    have searched : ConstIterator.otherBuckets tree it.entrySelector (toInt (last.hash.toNat % tree.nBuckets + 1)) =
        .ok ((chains.drop (loc+1)).flatten.findSome? (tree.hit it.entrySelector)) := by
      rw [location]
      exact later
    rw [Option.isSome_none,Option.none_or]
    dsimp only
    rw [if_neg Bool.false_ne_true,Heap.fetch_live sitsM.entry_live,ok_bind,searched,ok_bind,pure_ok]
end Next

section Enumerate
variable {tree : NameTree Component} {chains : List (List NodeId)}

theorem collect_end (tree : NameTree Component) {it : ConstIterator Component} (ended : it.entry = none) (fuel : Nat) :
    it.collect tree fuel = .ok [] := by
  cases fuel <;> simp [ConstIterator.collect,ended]

theorem filterMap_first {items : List NodeId} {visit : NodeId → Option EntryId} (found : items.findSome? visit = some e) :
    ∃ before n after, items = before ++ n :: after ∧ visit n = some e ∧ items.filterMap visit = e :: after.filterMap visit := by
  obtain ⟨before,n,after,rfl,here,passed⟩ := List.findSome?_eq_some_iff.mp found
  refine ⟨before,n,after,rfl,here,?_⟩
  rw [List.filterMap_append,List.filterMap_cons_some here,List.filterMap_eq_nil_iff.mpr passed,List.nil_append]

theorem collectFull_spec (chained : Chained tree chains) (placed : Placed tree chains) (pointing : BackPointing tree chains)
    (small : tree.nBuckets < 2^31) {it : ConstIterator Component} (kind : it.kind = .fullEnumerate)
    (shape : chains.flatten = front ++ n :: behind) (sits : Sits tree chains n e entry) (here : it.entry = some e)
    (enough : behind.length < fuel) :
    it.collect tree fuel = .ok (e :: behind.filterMap (tree.hit it.entrySelector)) := by
  induction fuel generalizing it front n behind e entry with
  | zero => exact absurd enough (Nat.not_lt_zero _)
  | succ fuel ih =>
    have next := nextFull_spec chained placed pointing small it shape sits
    have moved : it.increment tree = .ok {it with entry := behind.findSome? (tree.hit it.entrySelector)} := by
      simp only [ConstIterator.increment,here,required_some,ok_bind,kind,next]
    rw [ConstIterator.collect,here]
    dsimp only
    rw [moved,ok_bind]
    cases found : behind.findSome? (tree.hit it.entrySelector) with
    | none =>
      rw [collect_end tree rfl,List.filterMap_eq_nil_iff.mpr (List.findSome?_eq_none_iff.mp found)]
      rfl
    | some f =>
      obtain ⟨before,m,after,rfl,hitM,rest⟩ := filterMap_first found
      have longer : chains.flatten = (front ++ n :: before) ++ m :: after := by rw [shape]; simp
      have inside : m ∈ chains.flatten := by rw [longer]; simp
      obtain ⟨other,sitsM⟩ := hit_sits inside hitM
      have fewer : after.length < fuel := by
        simp only [List.length_append,List.length_cons] at enough
        omega
      have later := @ih _ _ _ _ _ {it with entry := some f} kind longer sitsM rfl fewer
      rw [later,rest]
      rfl

theorem fullEnumerate_exact (chained : Chained tree chains) (placed : Placed tree chains) (pointing : BackPointing tree chains)
    (small : tree.nBuckets < 2^31) (selector : EntrySelector Component) :
    ∃ it, tree.fullEnumerate selector = .ok it ∧ tree.drain it = .ok (tree.eligible chains selector) ∧
      (tree.eligible chains selector).Nodup ∧
      ∀ e, e ∈ tree.eligible chains selector ↔ ∃ n entry, Sits tree chains n e entry ∧ selector e entry = true := by
  have first := firstEligible_spec selector chained (fun _ member => member)
  rw [← chained.table.heads] at first
  have order : tree.eligible chains selector = chains.flatten.filterMap (tree.hit selector) := eligible_eq _
  refine (?_ : ∃ it, tree.fullEnumerate selector = .ok it ∧ tree.drain it = .ok (tree.eligible chains selector)).imp
    fun it both => ⟨both.1,both.2,order ▸ hits_nodup chained pointing selector,fun e => mem_eligible⟩
  unfold fullEnumerate
  rw [first,ok_bind,order]
  cases found : chains.flatten.findSome? (tree.hit selector) with
  | none =>
    refine ⟨endIterator,rfl,?_⟩
    rw [List.filterMap_eq_nil_iff.mpr (List.findSome?_eq_none_iff.mp found)]
    exact collect_end tree rfl _
  | some e =>
    obtain ⟨before,n,after,shape,hitN,rest⟩ := filterMap_first found
    have inside : n ∈ chains.flatten := by rw [shape]; simp
    obtain ⟨entry,sits⟩ := hit_sits inside hitN
    have enough : after.length < tree.entries.size := by
      have fits := nodes_fit chained pointing
      rw [shape,List.length_append,List.length_cons] at fits
      omega
    refine ⟨_,rfl,?_⟩
    rw [rest]
    exact collectFull_spec chained placed pointing small rfl shape sits rfl enough

theorem fullEnumerate_exact_pair : ∃ (tree : NameTree Nat) (chains : List (List NodeId)) (it : ConstIterator Nat),
    (new 8).lookup collidingHost [1] = .ok (tree,some 1) ∧ tree.fullEnumerate anyEntry = .ok it ∧
      tree.drain it = .ok (tree.eligible chains anyEntry) ∧ (tree.eligible chains anyEntry).Nodup ∧
      ∀ e, e ∈ tree.eligible chains anyEntry ↔ ∃ n entry, Sits tree chains n e entry ∧ anyEntry e entry = true := by
  obtain ⟨tree,chains,ran,consistent,_⟩ := lookup_consistent (new_consistent (n:=8) collidingHost (by decide)).1 [1]
  have size : ((new 8).lookup collidingHost [1]).toOption.map (fun result => result.1.nBuckets) = some 8 := by decide
  rw [ran] at size
  have buckets : tree.nBuckets = 8 := Option.some.inj size
  have small : tree.nBuckets < 2^31 := by rw [buckets]; decide
  obtain ⟨it,begun,listed⟩ := fullEnumerate_exact consistent.chained consistent.placed consistent.pointing small anyEntry
  exact ⟨tree,chains,it,ran,begun,listed⟩
end Enumerate

end NfdTables.NameTree
