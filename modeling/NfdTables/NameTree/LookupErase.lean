import NfdTables.NameTree.EraseSpec
import NfdTables.NameTree.GrowthRuns
import Mathlib.Data.Nat.Find
import Mathlib.Order.Interval.Finset.Nat

namespace NfdTables.NameTree
open Machine Chain
variable {Component : Type}

-- `after` is `before` over again. What was made in between has no node.
structure Restored (before after : NameTree Component) : Prop where
  items : after.nItems = before.nItems
  threshold : after.resizeThreshold = before.resizeThreshold
  buckets : after.buckets = before.buckets
  nodes : ∀ n, after.nodes.read n = before.nodes.read n
  entries : ∀ {e entry}, before.entries.read e = some entry → after.entries.read e = some entry

theorem Restored.refl (tree : NameTree Component) : Restored tree tree := ⟨rfl,rfl,rfl,fun _ => rfl,id⟩

section Undo
variable {host : Host Component} {tree mid now : NameTree Component} {chains : List (List NodeId)} {chain : List NodeId}
  {parent : Option EntryId} {name : Name Component}

abbrev freshEntry (host : Host Component) (tree : NameTree Component) (parent : Option EntryId) (name : Name Component) :
    Entry Component :=
  {namePrefix := name,hash := host.hashName name,parent := parent,node := some tree.nodes.size}

-- The new entry is the last child of its parent, and stays it until it is taken out.
theorem removeChild_undone (entered : Entered host tree mid chains chain parent name) (restored : Restored mid now)
    (older : ∀ p, parent = some p → ∃ object, tree.entries.read p = some object ∧ tree.entries.size ∉ object.children) :
    ∃ entries, removeChild now.entries parent tree.entries.size = .ok entries ∧
      entries.read tree.entries.size = some (freshEntry host tree parent name) ∧
      ∀ {f entry}, tree.entries.read f = some entry → entries.read f = some entry := by
  have fresh := restored.entries entered.entry_new
  have apart : ∀ {f entry}, tree.entries.read f = some entry → f ≠ tree.entries.size :=
    fun live => Nat.ne_of_lt (Heap.live_bound live)
  cases parent with
  | none =>
    refine ⟨now.entries,rfl,fresh,fun {f entry} live => restored.entries ?_⟩
    rw [entered.entry_old f (apart live),if_neg (by simp),live]
  | some p =>
    obtain ⟨object,live,absent⟩ := older p rfl
    have adopted : now.entries.read p = some {object with children := object.children ++ [tree.entries.size]} := by
      refine restored.entries ?_
      rw [entered.entry_old p (apart live),if_pos rfl,live]
      rfl
    refine ⟨now.entries.write p object,?_,?_,fun {f entry} liveF => ?_⟩
    · simp only [removeChild,Heap.fetch_live adopted,ok_bind,swapRemove_last absent,pure_ok]
    · rw [Heap.read_write adopted,if_neg (Ne.symm (apart live)),fresh]
    · rw [Heap.read_write adopted]
      split
      · rename_i same
        rw [← live,← same,liveF]
      · rename_i other
        refine restored.entries ?_
        rw [entered.entry_old f (apart liveF),if_neg (fun same => other (Option.some.inj same).symm),liveF]

theorem last_next (seg : Seg next chain none) (final : chain.getLast? = some last) : next last = some none := by
  obtain ⟨front,rfl⟩ := List.getLast?_eq_some_iff.mp final
  exact (seg_append.mp seg).2.1

-- Where the bucket was empty its head is null again, and otherwise no head has moved.
theorem heads_undone (entered : Entered host tree mid chains chain parent name) (chained : Chained tree chains)
    (at_loc : chains[(host.hashName name).toNat % tree.nBuckets]? = some chain) :
    (if chain.getLast?.isSome then mid.buckets else mid.buckets.set ((host.hashName name).toNat % tree.nBuckets) none) =
      tree.buckets := by
  cases chain with
  | nil =>
    have slot : tree.buckets[(host.hashName name).toNat % tree.nBuckets]? = some none := chained.table.head_at at_loc
    have heads : mid.buckets = tree.buckets.set ((host.hashName name).toNat % tree.nBuckets) (some tree.nodes.size) := by
      rw [entered.heads,List.map_set,chained.table.heads]
      rfl
    obtain ⟨bound,null⟩ := List.getElem?_eq_some_iff.mp slot
    rw [if_neg (by simp),heads,List.set_set,← null]
    exact List.set_getElem_self bound
  | cons first rest =>
    have some_last : (first :: rest).getLast?.isSome := by simp
    rw [if_pos some_last,entered.heads,heads_keep at_loc (by simp),chained.table.heads]

-- The node before the new one has got its null m_next back.
theorem node_undone (entered : Entered host tree mid chains chain parent name) (seg : Seg tree.nexts chain none)
    (other : n ≠ tree.nodes.size) : (mid.nodes.read n).map (relink chain.getLast? none n) = tree.nodes.read n := by
  rw [entered.node_old n other]
  split
  · rename_i final
    have null := last_next seg final
    cases old : tree.nodes.read n with
    | none => rfl
    | some node =>
      obtain ⟨prev,next,held⟩ := node
      have ends : next = none := by simpa [links,old] using null
      subst next
      simp [relink,final]
  · rename_i notLast
    cases tree.nodes.read n <;> simp [relink,notLast]

theorem unlink_undone (entered : Entered host tree mid chains chain parent name) (restored : Restored mid now)
    (chained : Chained tree chains) (at_loc : chains[(host.hashName name).toNat % tree.nBuckets]? = some chain)
    {entries : Heap (Entry Component)} (object : entries.read tree.entries.size = some (freshEntry host tree parent name))
    (others : ∀ {f entry}, tree.entries.read f = some entry → entries.read f = some entry) :
    ∃ after, unlink {now with entries := entries} tree.entries.size = .ok after ∧ Restored tree after := by
  have seg := chained.table.linked chain (List.mem_of_getElem? at_loc)
  have live : now.nodes.read tree.nodes.size = some ⟨chain.getLast?,none,some tree.entries.size⟩ := by
    rw [restored.nodes,entered.node_new]
  have ahead : ∀ last, chain.getLast? = some last → last ≠ tree.nodes.size ∧ (now.nodes.read last).isSome := by
    intro last final
    have member := List.mem_of_getLast? final
    have other := not_fresh chained (mem_flatten_at at_loc member)
    refine ⟨other,?_⟩
    rw [restored.nodes,entered.node_old last other,if_pos final,Option.isSome_map]
    exact chain_live seg last member
  obtain ⟨nodes,ran,_,gone,relinked⟩ := unlink_spec {now with entries := entries} tree.entries.size object rfl live ahead
    (fun _ none => nomatch none)
  refine ⟨_,ran,⟨?_,restored.threshold.trans entered.threshold,?_,fun n => ?_,others⟩⟩
  · rw [restored.items,entered.items]
    rfl
  · have size : now.nBuckets = tree.nBuckets := by rw [nBuckets,restored.buckets,← entered.buckets chained]; rfl
    have heads := heads_undone entered chained at_loc
    rwa [← restored.buckets,← size] at heads
  · by_cases here : n = tree.nodes.size
    · rw [here,gone,Heap.read_beyond (Nat.le_refl _)]
    · exact (relinked n here).trans (restored.nodes n ▸ node_undone entered seg here)

-- One level of the erase takes back one round of the lookup.
theorem enter_undone (entered : Entered host tree mid chains chain parent name) (restored : Restored mid now)
    (chained : Chained tree chains) (at_loc : chains[(host.hashName name).toNat % tree.nBuckets]? = some chain)
    (older : ∀ p, parent = some p → ∃ object, tree.entries.read p = some object ∧ tree.entries.size ∉ object.children) :
    ∃ back, Restored tree back ∧ ∀ fuel after, eraseAbove fuel back parent = .ok after →
      eraseFrom (fuel+1) now tree.entries.size = .ok (after,true) := by
  obtain ⟨entries,disowned,object,others⟩ := removeChild_undone entered restored older
  obtain ⟨back,unlinked,same⟩ := unlink_undone entered restored chained at_loc object others
  refine ⟨back,same,fun fuel after above => ?_⟩
  have removed : now.removeEntry tree.entries.size (freshEntry host tree parent name) = .ok back := by
    rw [removeEntry,disowned,ok_bind,unlinked]
  have live : now.entries.read tree.entries.size = some (freshEntry host tree parent name) := restored.entries entered.entry_new
  have empty : (freshEntry host tree parent name).isEmpty = true := rfl
  exact eraseFrom_empty live empty removed above
end Undo

section Rounds
variable [DecidableEq Component] {host : Host Component} {tree : NameTree Component} {chains : List (List NodeId)}
  {registry : Registry Component} {q : Name Component}

-- The rounds of a lookup that find their prefix stored.
theorem stored_rounds (consistent : Consistent host tree chains registry) (calm : tree.nItems ≤ tree.resizeThreshold)
    (stored : ∀ j < i, getPrefix q j ∈ registry.names) :
    lookupFrom host q (List.range i) tree none = .ok (tree,heldBefore registry q i) := by
  induction i with
  | zero => rfl
  | succ i ih =>
    have here := enter_stored consistent (stored i (Nat.lt_succ_self i)) (heldBefore registry q i)
    have grown : tree.grow host = .ok tree := if_neg (Nat.not_lt.mpr calm)
    have held : heldBefore registry q (i+1) = some (registry.cell (getPrefix q i)).object := if_neg (Nat.succ_ne_zero i)
    rw [List.range_succ,lookupFrom_append (ih fun j below => stored j (Nat.lt_succ_of_lt below))]
    simp only [ok_bind,lookupFrom,here,grown,held]

-- A round that creates its prefix, without a resize.
theorem fresh_round (consistent : Consistent host tree chains registry) (within : i ≤ q.length)
    (begun : i = 0 ∨ getPrefix q (i-1) ∈ registry.names) (absent : getPrefix q i ∉ registry.names)
    (room : tree.nItems + 1 ≤ tree.resizeThreshold) :
    ∃ next chains', lookupFrom host q [i] tree (heldBefore registry q i) = .ok (next,some tree.entries.size) ∧
      Consistent host next chains' (registry.enter (getPrefix q i)) ∧
      heldBefore (registry.enter (getPrefix q i)) q (i+1) = some tree.entries.size ∧
      next.nItems = tree.nItems + 1 ∧ next.resizeThreshold = tree.resizeThreshold ∧
      ∀ now, Restored next now → ∃ back, Restored tree back ∧ ∀ fuel after,
        eraseAbove fuel back (heldBefore registry q i) = .ok after → eraseFrom (fuel+1) now tree.entries.size = .ok (after,true) := by
  have rooted := rooted_of_begun within begun
  have above : heldBefore registry q i = registry.parentOf (getPrefix q i) := heldBefore_parent within
  have older : ∀ p, heldBefore registry q i = some p → ∃ object, tree.entries.read p = some object ∧
      tree.entries.size ∉ object.children := fun p same => parent_older consistent rooted above same
  obtain ⟨chain,at_loc⟩ := consistent.chained.table.chain_at (consistent.placed.bound (host.hashName (getPrefix q i)).toNat)
  obtain ⟨next,ran,entered⟩ := enter_absent consistent absent at_loc (fun p same => by
    obtain ⟨object,live,_⟩ := older p same
    simp [live])
  have grown : next.grow host = .ok next := by
    refine if_neg (Nat.not_lt.mpr ?_)
    rwa [entered.items,entered.threshold]
  refine ⟨next,_,?_,entered.consistent consistent absent at_loc rooted above,?_,entered.items,entered.threshold,
    fun now restored => enter_undone entered restored consistent.chained at_loc older⟩
  · simp only [lookupFrom,ran,ok_bind,grown]
  · rw [heldBefore,if_neg (Nat.succ_ne_zero i),Nat.add_sub_cancel,Registry.enter_fresh absent,← consistent.synced]
    simp

def afterRounds (registry : Registry Component) (q : Name Component) (i m : Nat) : Registry Component :=
  ((List.range' i m).map (getPrefix q)).foldl Registry.enter registry

theorem mem_afterRounds : name ∈ (afterRounds registry q i m).names ↔
    name ∈ registry.names ∨ ∃ j, (i ≤ j ∧ j < i + m) ∧ getPrefix q j = name := by
  rw [afterRounds,Registry.enters_names,Finset.mem_union,List.mem_toFinset,List.mem_map]
  simp only [List.mem_range'_1]

theorem afterRounds_succ (registry : Registry Component) (q : Name Component) (i m : Nat) :
    afterRounds registry q i (m+1) = (afterRounds registry q i m).enter (getPrefix q (i+m)) := by
  rw [afterRounds,List.range'_1_concat,List.map_append,List.foldl_append]
  rfl

omit [DecidableEq Component] in
theorem getPrefix_injective (one : i ≤ q.length) (two : j ≤ q.length) (same : getPrefix q i = getPrefix q j) : i = j := by
  have equal := congrArg List.length same
  rwa [getPrefix_length one,getPrefix_length two] at equal

theorem begun_afterRounds (begun : i = 0 ∨ getPrefix q (i-1) ∈ registry.names) :
    i + m = 0 ∨ getPrefix q (i+m-1) ∈ (afterRounds registry q i m).names := by
  cases m with
  | zero => exact begun.imp id fun stored => mem_afterRounds.mpr (.inl stored)
  | succ m => exact .inr (mem_afterRounds.mpr (.inr ⟨i+m,by omega,rfl⟩))

theorem absent_afterRounds (within : i + m ≤ q.length) (absent : ∀ j, i ≤ j → j ≤ q.length → getPrefix q j ∉ registry.names) :
    getPrefix q (i+m) ∉ (afterRounds registry q i m).names := by
  intro member
  rcases mem_afterRounds.mp member with stored | ⟨j,between,same⟩
  · exact absent (i+m) (by omega) within stored
  · have equal := getPrefix_injective (by omega) within same
    omega

-- Induction on the number of rounds, which the erase takes back from the last one.
theorem fresh_rounds (consistent : Consistent host tree chains registry) (within : i + m ≤ q.length + 1)
    (begun : i = 0 ∨ getPrefix q (i-1) ∈ registry.names)
    (absent : ∀ j, i ≤ j → j ≤ q.length → getPrefix q j ∉ registry.names)
    (room : tree.nItems + m ≤ tree.resizeThreshold)
    (stops : ∀ now fuel, Restored tree now → eraseAbove (fuel+1) now (heldBefore registry q i) = .ok now) :
    ∃ mid chains', lookupFrom host q (List.range' i m) tree (heldBefore registry q i) =
        .ok (mid,heldBefore (afterRounds registry q i m) q (i+m)) ∧
      Consistent host mid chains' (afterRounds registry q i m) ∧
      mid.nItems = tree.nItems + m ∧ mid.resizeThreshold = tree.resizeThreshold ∧
      ∀ now fuel, m < fuel → Restored mid now →
        ∃ after, eraseAbove fuel now (heldBefore (afterRounds registry q i m) q (i+m)) = .ok after ∧ Restored tree after := by
  induction m with
  | zero =>
    refine ⟨tree,chains,rfl,consistent,rfl,rfl,fun now fuel enough restored => ⟨now,?_,restored⟩⟩
    obtain ⟨fuel,rfl⟩ : ∃ smaller, fuel = smaller + 1 := ⟨fuel - 1,by omega⟩
    exact stops now fuel restored
  | succ m ih =>
    obtain ⟨mid,chains',ran,consistentM,items,threshold,undo⟩ := ih (by omega) (by omega)
    obtain ⟨next,chainsN,ranN,consistentN,held,itemsN,thresholdN,undoN⟩ := fresh_round consistentM (i:=i+m) (q:=q) (by omega)
      (begun_afterRounds begun) (absent_afterRounds (by omega) absent) (by omega)
    rw [← afterRounds_succ] at consistentN held
    refine ⟨next,chainsN,?_,consistentN,by omega,by omega,fun now fuel enough restored => ?_⟩
    · rw [List.range'_1_concat,lookupFrom_append ran,← Nat.add_assoc,held]
      exact ranN
    · obtain ⟨fuel,rfl⟩ : ∃ smaller, fuel = smaller + 1 := ⟨fuel - 1,by omega⟩
      obtain ⟨back,same,climbs⟩ := undoN now restored
      obtain ⟨after,above,whole⟩ := undo back fuel (by omega) same
      refine ⟨after,?_,whole⟩
      rw [← Nat.add_assoc,held,eraseAbove,climbs fuel after above]
      rfl
end Rounds

section Formed
variable {host : Host Component} {tree after : NameTree Component} {chains : List (List NodeId)}

theorem Restored.sits (restored : Restored tree after) (chained : Chained tree chains) :
    Sits after chains n e entry ↔ Sits tree chains n e entry := by
  have kept : ∀ {m f other}, Sits tree chains m f other → Sits after chains m f other := by
    intro m f other sits
    obtain ⟨node,live,holds,object⟩ := entryAt_iff.mp sits.holds
    exact ⟨sits.member,entryAt_iff.mpr ⟨node,by rw [restored.nodes,live],holds,restored.entries object⟩⟩
  refine ⟨fun sits => ?_,kept⟩
  obtain ⟨f,other,sitsOld⟩ := chained.sits sits.member
  obtain ⟨rfl,rfl⟩ := entryAt_unique sits.holds (kept sitsOld).holds
  exact sitsOld

theorem Restored.links (restored : Restored tree after) : after.nexts = tree.nexts ∧ after.prevs = tree.prevs := by
  have reads : after.nodes.read = tree.nodes.read := funext restored.nodes
  constructor <;> (funext n; simp only [nexts,prevs,Chain.links,reads])

theorem Restored.chained (restored : Restored tree after) (chained : Chained tree chains) : Chained after chains := by
  refine ⟨?_,fun n member => ?_⟩
  · rw [restored.links.1,restored.buckets]
    exact chained.table
  · obtain ⟨e,entry,sits⟩ := chained.sits member
    rw [((restored.sits chained).mpr sits).holds]
    rfl

theorem Restored.placed (restored : Restored tree after) (chained : Chained tree chains) (placed : Placed tree chains) :
    Placed after chains := by
  have size : after.nBuckets = tree.nBuckets := congrArg List.length restored.buckets
  refine ⟨by rw [size]; exact placed.positive,fun {loc chain n e entry} at_loc deep holds => ?_⟩
  have sits : Sits after chains n e entry := ⟨mem_flatten_at at_loc deep,holds⟩
  rw [size]
  exact placed.bucket at_loc deep ((restored.sits chained).mp sits).holds

theorem Restored.stores (restored : Restored tree after) (stores : Stores host tree chains) : Stores host after chains := by
  have sits : ∀ {n e entry}, Sits after chains n e entry ↔ Sits tree chains n e entry := restored.sits stores.toChained
  refine ⟨restored.chained stores.toChained,restored.placed stores.toChained stores.toPlaced,
    fun here => stores.hashed (sits.mp here),fun one two => stores.unique (sits.mp one) (sits.mp two),?_⟩
  intro n e entry name here below
  obtain ⟨m,f,other,there,same⟩ := stores.closed (sits.mp here) below
  exact ⟨m,f,other,sits.mpr there,same⟩

-- A state that is restored is well formed with the very chains it had.
theorem Restored.wellFormed (restored : Restored tree after) (formed : WellFormed host tree chains) :
    WellFormed host after chains := by
  have sits : ∀ {n e entry}, Sits after chains n e entry ↔ Sits tree chains n e entry := restored.sits formed.toChained
  refine ⟨⟨restored.stores formed.toStores,⟨fun here => formed.root (sits.mp here),?_⟩,
    ⟨fun here => formed.nodup (sits.mp here),?_⟩,fun here => formed.pointing (sits.mp here),?_⟩,?_⟩
  · intro n e entry here filled
    obtain ⟨m,p,object,points,there,same⟩ := formed.parent (sits.mp here) filled
    exact ⟨m,p,object,points,sits.mpr there,same⟩
  · intro n e entry here c
    simp only [sits]
    exact formed.child_iff (sits.mp here) c
  · rw [restored.items,formed.counted]
  · rw [restored.links.2]
    exact formed.back
end Formed

section Inverse
variable [DecidableEq Component] {host : Host Component} {tree : NameTree Component} {chains : List (List NodeId)}
  {registry : Registry Component} {q : Name Component}

def missing (registry : Registry Component) (q : Name Component) : Finset (Name Component) := q.inits.toFinset \ registry.names

-- From the first missing prefix on, all are missing.
theorem missing_from (closed : PrefixSet.Closed registry.names) (absent : q ∉ registry.names) :
    ∃ i ≤ q.length, (∀ j < i, getPrefix q j ∈ registry.names) ∧
      (∀ j, i ≤ j → j ≤ q.length → getPrefix q j ∉ registry.names) ∧ q.length + 1 - i ≤ (missing registry q).card := by
  have exists_ : ∃ i, getPrefix q i ∉ registry.names := ⟨q.length,by rwa [getPrefix,List.take_length]⟩
  have whole : Nat.find exists_ ≤ q.length := Nat.find_min' exists_ (by rwa [getPrefix,List.take_length])
  have later : ∀ j, Nat.find exists_ ≤ j → j ≤ q.length → getPrefix q j ∉ registry.names := by
    intro j above within stored
    refine Nat.find_spec exists_ (closed _ stored _ ?_)
    exact List.take_prefix_take_left above
  refine ⟨Nat.find exists_,whole,fun j below => not_not.mp (Nat.find_min exists_ below),later,?_⟩
  have inside : (Finset.Ico (Nat.find exists_) (q.length+1)).image (getPrefix q) ⊆ missing registry q := by
    intro x member
    obtain ⟨j,between,rfl⟩ := Finset.mem_image.mp member
    obtain ⟨above,below⟩ := Finset.mem_Ico.mp between
    refine Finset.mem_sdiff.mpr ⟨List.mem_toFinset.mpr ((List.mem_inits _ _).mpr (List.take_prefix j q)),?_⟩
    exact later j above (Nat.le_of_lt_succ below)
  have injective : Set.InjOn (getPrefix q) (Finset.Ico (Nat.find exists_) (q.length+1)) := by
    intro j inJ k inK same
    rw [Finset.coe_Ico,Set.mem_Ico] at inJ inK
    exact getPrefix_injective (Nat.le_of_lt_succ inJ.2) (Nat.le_of_lt_succ inK.2) same
  have count := Finset.card_le_card inside
  rwa [Finset.card_image_of_injOn injective,Nat.card_Ico] at count

-- The longest stored prefix of `q`, where there is one, has a payload or a child.
def LongestBusy (tree : NameTree Component) (chains : List (List NodeId)) (q : Name Component) : Prop :=
  ∀ {n e entry}, Sits tree chains n e entry → entry.namePrefix <+: q →
    (∀ {m f other}, Sits tree chains m f other → other.namePrefix <+: q → other.namePrefix.length ≤ entry.namePrefix.length) →
    entry.children ≠ [] ∨ entry.payload ≠ {}

omit [DecidableEq Component] in
-- The erase does not go beyond the longest prefix that was stored before.
theorem stops_above (consistent : Consistent host tree chains registry) (busy : LongestBusy tree chains q)
    (within : i ≤ q.length) (stored : ∀ j < i, getPrefix q j ∈ registry.names)
    (absent : ∀ j, i ≤ j → j ≤ q.length → getPrefix q j ∉ registry.names) (now : NameTree Component) (fuel : Nat)
    (restored : Restored tree now) : eraseAbove (fuel+1) now (heldBefore registry q i) = .ok now := by
  cases i with
  | zero => rfl
  | succ i =>
    obtain ⟨n,entry,sits,same⟩ := consistent.named.live (stored i (Nat.lt_succ_self i))
    have held : heldBefore registry q (i+1) = some (registry.cell (getPrefix q i)).object := if_neg (Nat.succ_ne_zero i)
    have kept := busy sits (by rw [same]; exact List.take_prefix i q) (by
      intro m f other sitsM below
      rw [same,getPrefix_length (Nat.le_of_succ_le within)]
      by_contra longer
      have whole : getPrefix q other.namePrefix.length = other.namePrefix := getPrefix_prefix below
      refine absent other.namePrefix.length (by omega) below.length_le ?_
      rw [whole]
      exact (consistent.named.known sitsM).1)
    have full : entry.isEmpty = false := by
      rw [← Bool.not_eq_true,entry.isEmpty_iff,Payload.isEmpty_iff]
      exact fun ⟨childless,clear⟩ => kept.elim (· childless) (· clear)
    rw [held,eraseAbove,eraseFrom_busy (restored.entries sits.entry_live) full fuel]
    rfl

theorem rounds_split (i m : Nat) : List.range (i+m+1) = List.range i ++ (List.range' i m ++ [i+m]) := by
  rw [← List.range'_1_concat,List.range_eq_range',List.range_eq_range',Nat.add_assoc]
  have split := List.range'_append_1 (s:=0) (m:=i) (n:=m+1)
  rw [Nat.zero_add] at split
  exact split.symm

theorem lookup_undone (consistent : Consistent host tree chains registry) (fresh : q ∉ registry.names)
    (room : tree.nItems + (missing registry q).card ≤ tree.resizeThreshold) (busy : LongestBusy tree chains q) :
    ∃ mid e after, tree.lookup host q = .ok (mid,some e) ∧ mid.eraseEntryIfEmpty e = .ok (after,true) ∧ Restored tree after := by
  obtain ⟨i,within,stored,absent,many⟩ := missing_from consistent.named.closed fresh
  obtain ⟨m,size⟩ : ∃ m, i + m = q.length := ⟨q.length - i,by omega⟩
  have begun : i = 0 ∨ getPrefix q (i-1) ∈ registry.names := by
    cases i with
    | zero => exact .inl rfl
    | succ i => exact .inr (stored i (Nat.lt_succ_self i))
  obtain ⟨mid,chainsM,ranM,consistentM,items,threshold,undo⟩ := fresh_rounds consistent (q:=q) (m:=m) (by omega) begun absent
    (by omega) (fun now fuel restored => stops_above consistent busy within stored absent now fuel restored)
  obtain ⟨last,chainsL,ranL,consistentL,held,_,_,undoL⟩ := fresh_round consistentM (i:=i+m) (q:=q) (by omega)
    (begun_afterRounds begun) (absent_afterRounds (by omega) absent) (by omega)
  have here : q ∈ ((afterRounds registry q i m).enter (getPrefix q (i+m))).names := by
    rw [Registry.enter_names,size,getPrefix,List.take_length]
    exact Finset.mem_insert_self _ _
  have deep := consistentL.named.shallow here
  obtain ⟨back,same,climbs⟩ := undoL last (.refl last)
  obtain ⟨after,above,whole⟩ := undo back last.entries.size (by omega) same
  refine ⟨last,mid.entries.size,after,?_,climbs last.entries.size after above,whole⟩
  rw [lookup,← size,rounds_split,lookupFrom_append (stored_rounds consistent (by omega) stored),lookupFrom_append ranM]
  exact ranL

theorem erase_undoes_lookup (formed : WellFormed host tree chains)
    (fresh : ∀ {n e entry}, Sits tree chains n e entry → entry.namePrefix ≠ q)
    (room : tree.nItems + (missing (registryOf tree chains) q).card ≤ tree.resizeThreshold)
    (busy : LongestBusy tree chains q) :
    ∃ mid e after, tree.lookup host q = .ok (mid,some e) ∧ mid.eraseEntryIfEmpty e = .ok (after,true) ∧
      Restored tree after ∧ WellFormed host after chains := by
  have absent : q ∉ (registryOf tree chains).names := by
    intro stored
    obtain ⟨n,e,entry,sits,same⟩ := mem_registryOf.mp stored
    exact fresh sits same
  obtain ⟨mid,e,after,looked,erased,restored⟩ := lookup_undone formed.consistent absent room busy
  exact ⟨mid,e,after,looked,erased,restored,restored.wellFormed formed⟩

-- Two entries below the root, where /0 is stored.
theorem erase_undoes_lookup_two : ∃ (tree : NameTree Nat) (chains : List (List NodeId)),
    (new 8).lookup collidingHost [0] = .ok (tree,some 1) ∧ ∃ mid e after, tree.lookup collidingHost [1,2] = .ok (mid,some e) ∧
      mid.eraseEntryIfEmpty e = .ok (after,true) ∧ Restored tree after ∧ WellFormed collidingHost after chains := by
  obtain ⟨start,heads⟩ := new_consistent (n:=8) collidingHost (by decide)
  obtain ⟨tree,chains,ran,consistent,null⟩ := lookup_consistent start [0]
  have names : (Registry.empty.lookup [0] : Registry Nat).names = {[],[0]} := by decide
  have object : ((Registry.empty.lookup [0] : Registry Nat).cell [0]).object = 1 := by decide
  have known : ∀ {n e entry}, Sits tree chains n e entry → entry.namePrefix = [] ∨ entry.namePrefix = [0] := by
    intro n e entry sits
    have stored := (consistent.named.known sits).1
    rw [names] at stored
    simpa using stored
  have counters : ((new 8).lookup collidingHost [0]).toOption.map (fun result => (result.1.nItems,result.1.resizeThreshold)) =
      some (2,4) := by decide
  rw [ran] at counters
  obtain ⟨items,threshold⟩ := Prod.mk.inj (Option.some.inj counters)
  rw [object] at ran
  refine ⟨tree,chains,ran,erase_undoes_lookup (consistent.wellFormed ((null heads).mpr (by decide))) ?_ ?_ ?_⟩
  · intro n e entry sits same
    rcases known sits with root | zero
    · rw [root] at same; cases same
    · rw [zero] at same; cases same
  · have count : (missing (registryOf tree chains) [1,2]).card = 2 := by
      rw [missing,registryOf_names consistent.named,names]
      decide
    rw [items,threshold,count]
  · intro n e entry sits below _
    rcases known sits with root | zero
    · refine .inl fun childless => ?_
      have child := (consistent.fostered.child_iff sits 1).mpr ⟨0,by rw [root]; decide,by rw [root]; decide⟩
      rw [childless] at child
      cases child
    · rw [zero] at below
      exact absurd below (by decide)
end Inverse
end NfdTables.NameTree
