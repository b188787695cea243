import NfdTables.Pit.OnNameTree
import NfdTables.Pit.Prune

namespace NfdTables.Pit
open Machine PrefixSet
variable {Component Exclude Milliseconds : Type} [DecidableEq Component]

section Parts
variable {Tree : Type} {calls : NameTreeCalls Component Tree} {ndn : Ndn Component Exclude Milliseconds}
  {pit after : Pit Component Exclude Milliseconds Tree}

theorem asserted_ok {found : Option EntryId} (passed : asserted found = .ok e) : found = some e := by
  cases found with
  | none => cases passed
  | some f => rw [Except.ok.inj passed]

theorem insert_parts (ran : pit.insert calls ndn interest = .ok (after,e,isNew)) :
    ∃ nameTree f, calls.seek pit.nameTree interest.name = .ok (nameTree,some f) ∧
      match isNew with
      | false => after.nameTree = nameTree
      | true => calls.attach nameTree f (.insertPitEntry e) = .ok after.nameTree := by
  obtain ⟨⟨nameTree,sought⟩,ranSeek,ran⟩ := bind_parts ran
  obtain ⟨f,passed,ran⟩ := bind_parts ran
  obtain ⟨pitEntries,_,ran⟩ := bind_parts ran
  obtain ⟨found,_,ran⟩ := bind_parts ran
  rw [asserted_ok passed] at ranSeek
  refine ⟨nameTree,f,ranSeek,?_⟩
  cases found with
  | some g =>
    cases Except.ok.inj ran
    rfl
  | none =>
    obtain ⟨attached,ranAttach,ran⟩ := bind_parts ran
    cases Except.ok.inj ran
    exact ranAttach

omit [DecidableEq Component] in
theorem remove_calls (ran : pit.remove calls e = .ok after) :
    ∃ entry f mid, pit.entries.read e = some entry ∧ calls.lookup pit.nameTree entry.getName = .ok (some f) ∧
      calls.attach pit.nameTree f (.deletePitEntry e) = .ok mid ∧ calls.deleteEntryIfEmpty mid f = .ok after.nameTree := by
  obtain ⟨entry,fetched,ran⟩ := bind_parts ran
  obtain ⟨found,looked,ran⟩ := bind_parts ran
  obtain ⟨f,passed,ran⟩ := bind_parts ran
  obtain ⟨mid,ranAttach,ran⟩ := bind_parts ran
  obtain ⟨last,ranDelete,ran⟩ := bind_parts ran
  rw [asserted_ok passed] at looked
  cases Except.ok.inj ran
  refine ⟨entry,f,mid,?_,looked,ranAttach,ranDelete⟩
  unfold Heap.fetch at fetched
  split at fetched
  · rename_i value live
    rw [live,Except.ok.inj fetched]
  · cases fetched
end Parts

section Room
variable {host : Host Component} {ndn : Ndn Component Exclude Milliseconds}
  {pit after : Pit Component Exclude Milliseconds (NameTree Component)}
  {plain plainAfter : Pit Component Exclude Milliseconds (Ledger Component)}

-- A lookup and an attach, or an attach and an erase, of a tree with room.
theorem insert_untouched
    (untouched : NameTree.Untouched host n pit.nameTree plain.nameTree.registry)
    (room : (plain.nameTree.registry.lookup interest.name).names.card ≤ loadLimit n)
    (ran : pit.insert (NameTree.calls host) ndn interest = .ok (after,e,isNew))
    (plainRan : plain.insert Ledger.calls ndn interest = .ok (plainAfter,e,isNew)) :
    NameTree.Untouched host n after.nameTree plainAfter.nameTree.registry := by
  have stored : interest.name ∈ (plain.nameTree.registry.lookup interest.name).names := Registry.mem_lookup.mpr (.inr List.prefix_rfl)
  obtain ⟨sought,f,ranSeek,effect⟩ := insert_parts ran
  obtain ⟨ledger,g,plainSeek,plainEffect⟩ := insert_parts plainRan
  obtain ⟨chains,consistent,_⟩ := untouched.sound
  obtain ⟨tree,_,looked,_⟩ := NameTree.lookup_consistent consistent interest.name
  obtain ⟨rfl,same⟩ := Prod.mk.inj (Except.ok.inj (looked.symm.trans ranSeek))
  cases Option.some.inj same
  obtain ⟨next,stepped,untouchedS⟩ := NameTree.roomyStep_untouched (.lookup interest.name) untouched room
  rw [NameTree.clientStep,looked] at stepped
  cases Except.ok.inj stepped
  obtain ⟨rfl,found⟩ := Prod.mk.inj (Except.ok.inj plainSeek)
  rw [Registry.find_stored stored] at found
  cases Option.some.inj found
  cases isNew with
  | false =>
    dsimp only at effect plainEffect
    rw [effect,plainEffect]
    exact untouchedS
  | true =>
    obtain ⟨last,attached,untouchedA⟩ := NameTree.roomyStep_untouched
      (.attach ((plain.nameTree.registry.lookup interest.name).cell interest.name).object (.insertPitEntry e)) untouchedS
      ⟨interest.name,stored,rfl⟩
    cases Except.ok.inj (attached.symm.trans effect)
    rw [← Except.ok.inj plainEffect]
    exact untouchedA

theorem remove_untouched (mirrors : Mirrors host ndn pit plain)
    (untouched : NameTree.Untouched host n pit.nameTree plain.nameTree.registry)
    (ran : pit.remove (NameTree.calls host) e = .ok after) (plainRan : plain.remove Ledger.calls e = .ok plainAfter) :
    NameTree.Untouched host n after.nameTree plainAfter.nameTree.registry := by
  obtain ⟨entry,f,mid,live,looked,ranAttach,ranDelete⟩ := remove_calls ran
  obtain ⟨plainEntry,g,ledger,plainLive,plainLooked,plainAttach,plainDelete⟩ := remove_calls plainRan
  rw [← mirrors.entries,live] at plainLive
  cases Option.some.inj plainLive
  obtain ⟨chains,consistent,_⟩ := untouched.sound
  have found := Except.ok.inj ((consistent.find entry.getName).symm.trans looked)
  cases Option.some.inj ((Except.ok.inj plainLooked).symm.trans found)
  have held : plain.nameTree.registry.Holds f := by
    by_cases stored : entry.getName ∈ plain.nameTree.registry.names
    · rw [Registry.find_stored stored] at found
      exact ⟨entry.getName,stored,Option.some.inj found⟩
    · rw [Registry.find_absent stored] at found
      cases found
  obtain ⟨next,attached,untouchedA⟩ := NameTree.roomyStep_untouched (.attach f (.deletePitEntry e)) untouched held
  cases Except.ok.inj (attached.symm.trans ranAttach)
  have still : (plain.nameTree.registry.attach f (.deletePitEntry e)).Holds f := by
    obtain ⟨name,stored,rfl⟩ := held
    exact ⟨name,stored,Registry.attach_object _ _ _ _⟩
  obtain ⟨last,erased,untouchedE⟩ := NameTree.roomyStep_untouched (.erase f) untouchedA still
  cases Except.ok.inj (erased.symm.trans ranDelete)
  rw [← Except.ok.inj plainAttach] at plainDelete
  rw [← Except.ok.inj plainDelete]
  exact untouchedE

def unmatched (host : Host Component) (tree : NameTree Component) (name : Name Component) : List (Name Component) :=
  ((List.range (name.length + 1)).map (getPrefix name)).filter fun x => (tree.findExactMatch host x).toOption = some none

theorem unmatched_card {registry : Registry Component} {tree : NameTree Component} (represents : NameTree.Represents host tree registry)
    (name : Name Component) : (registry.lookup name).names.card ≤ tree.nItems + (unmatched host tree name).length := by
  obtain ⟨chains,consistent⟩ := represents
  have within : (registry.lookup name).names ⊆ registry.names ∪ (unmatched host tree name).toFinset := by
    intro x stored
    rw [Finset.mem_union,List.mem_toFinset]
    by_cases old : x ∈ registry.names
    · exact .inl old
    · have below := (Registry.mem_lookup.mp stored).resolve_left old
      refine .inr (List.mem_filter.mpr ⟨Registry.mem_prefixes.mpr below,?_⟩)
      rw [consistent.find,Registry.find_absent old]
      rfl
  calc (registry.lookup name).names.card
      ≤ (registry.names ∪ (unmatched host tree name).toFinset).card := Finset.card_le_card within
    _ ≤ registry.names.card + (unmatched host tree name).toFinset.card := Finset.card_union_le _ _
    _ ≤ tree.nItems + (unmatched host tree name).length := by
      rw [consistent.counted]
      exact Nat.add_le_add_left (List.toFinset_card_le _) _

-- Inserts whose missing names the tree has room for, and removes of listed entries.
def FindsRoom (host : Host Component) (n : Nat) (pit : Pit Component Exclude Milliseconds (NameTree Component)) (_ : Unit) :
    Op Component Exclude Milliseconds → Prop
  | .insert interest => pit.nameTree.nItems + (unmatched host pit.nameTree interest.name).length ≤ loadLimit n
  | .remove e => Listed (NameTree.calls host) pit e

instance (host : Host Component) (n : Nat) (pit : Pit Component Exclude Milliseconds (NameTree Component)) (nothing : Unit)
    (op : Op Component Exclude Milliseconds) : Decidable (FindsRoom host n pit nothing op) :=
  match op with
  | .insert _ => Nat.decLe _ _
  | .remove e => inferInstanceAs (Decidable (Listed (NameTree.calls host) pit e))

-- The table and its name tree, seen through the functions of the name tree.
structure EndToEnd (host : Host Component) (ndn : Ndn Component Exclude Milliseconds) (n : Nat)
    (pit : Pit Component Exclude Milliseconds (NameTree Component)) : Prop where
  oneEach : OneEach (NameTree.calls host) ndn pit
  names : ∀ x, HasName (NameTree.calls host) pit x ↔
    ∃ e interest, Stored (NameTree.calls host) pit e ∧ pit.interestOf e = some interest ∧ x <+: interest.name
  finds : ∀ data fuel, data.name.length < 2^31 → data.name.length < fuel →
    ∃ result, pit.findAllDataMatches (NameTree.calls host) ndn data fuel = .ok result ∧
      DataMatched (NameTree.calls host) ndn pit data result
  linked : NameTree.DoublyLinked pit.nameTree
  buckets : pit.nameTree.nBuckets = n

structure Settled (host : Host Component) (ndn : Ndn Component Exclude Milliseconds) (n : Nat)
    (pit : Pit Component Exclude Milliseconds (NameTree Component)) (plain : Pit Component Exclude Milliseconds (Ledger Component)) :
    Prop where
  mirrors : Mirrors host ndn pit plain
  untouched : NameTree.Untouched host n pit.nameTree plain.nameTree.registry
  tight : Tight plain.nameTree.registry

theorem Settled.step (settled : Settled host ndn n pit plain) (room : FindsRoom host n pit () op) :
    ∃ after plainAfter, pit.step (NameTree.calls host) ndn op = .ok after ∧ Settled host ndn n after plainAfter := by
  obtain ⟨mirrors,untouched,tight⟩ := settled
  have mirrored := mirrors.kept
  cases op with
  | insert interest =>
    obtain ⟨after,plainAfter,e,isNew,ran,plainRan,kept⟩ := insert_alike mirrors interest
    have stepped : plain.step Ledger.calls ndn (.insert interest) = .ok plainAfter := by rw [Pit.step,plainRan]; rfl
    obtain ⟨remaining,shown,effect⟩ := step_cases Ledger.documented mirrored stepped
    refine ⟨after,plainAfter,by rw [Pit.step,ran]; rfl,kept,?_,?_⟩
    · exact insert_untouched untouched ((unmatched_card mirrors.tree _).trans room) ran plainRan
    · rw [shown.same]
      exact effect.tight mirrored.shown.distinct tight
  | remove e =>
    obtain ⟨entry,_,stored⟩ := room
    obtain ⟨chains,consistent,heads⟩ := untouched.sound
    obtain ⟨after,plainAfter,ran,plainRan,kept⟩ := remove_alike mirrors ((storedAt_real mirrors).mp stored)
      (fun _ _ _ _ _ => NameTree.headInOrder_of consistent heads _)
    have stepped : plain.step Ledger.calls ndn (.remove e) = .ok plainAfter := plainRan
    obtain ⟨remaining,shown,effect⟩ := step_cases Ledger.documented mirrored stepped
    refine ⟨after,plainAfter,ran,kept,remove_untouched mirrors untouched ran plainRan,?_⟩
    rw [shown.same]
    exact effect.tight mirrored.shown.distinct tight

section EndToEnd

theorem stored_alike (mirrors : Mirrors host ndn pit plain) :
    Stored (NameTree.calls host) pit e ↔ Stored Ledger.calls plain e :=
  exists_congr fun _ => (storedAt_real mirrors).trans (storedAt_iff Ledger.documented mirrors.kept.shown).symm

theorem hasName_alike (mirrors : Mirrors host ndn pit plain) :
    HasName (NameTree.calls host) pit x ↔ HasName Ledger.calls plain x := by
  rw [hasName_iff Ledger.documented mirrors.kept.shown,← hasName_iff (NameTree.hoarding_documented host) mirrors.tree]
  unfold HasName
  rw [(NameTree.calls_alike host).2.1]

omit [DecidableEq Component] in
theorem interestOf_alike (same : pit.entries = plain.entries) (e : PitId) : pit.interestOf e = plain.interestOf e := by
  rw [interestOf,interestOf,same]

theorem Mirrors.oneEach (mirrors : Mirrors host ndn pit plain) : OneEach (NameTree.calls host) ndn pit := by
  obtain ⟨placed,_,unique⟩ := mirrors.kept.oneEach Ledger.documented
  obtain ⟨_,nodup,_⟩ := mirrors.real.oneEach (NameTree.hoarding_documented host)
  have same := interestOf_alike mirrors.entries
  refine ⟨fun {x e} stored => ?_,fun found listed => ?_,fun storedE storedF isE isF alike => ?_⟩
  · rw [same]
    exact placed ((storedAt_iff Ledger.documented mirrors.kept.shown).mpr ((storedAt_real mirrors).mp stored))
  · rw [(NameTree.calls_alike host).2.1] at found
    rw [(NameTree.calls_alike host).2.2.2.1] at listed
    exact nodup found listed
  · rw [same] at isE isF
    exact unique ((stored_alike mirrors).mp storedE) ((stored_alike mirrors).mp storedF) isE isF alike

theorem Mirrors.dataMatched (mirrors : Mirrors host ndn pit plain) {data : Data Component}
    (exactly : DataMatched Ledger.calls ndn plain data result) : DataMatched (NameTree.calls host) ndn pit data result := by
  obtain ⟨member,nodup,order⟩ := exactly
  have same := interestOf_alike mirrors.entries
  refine ⟨fun e => ?_,nodup,?_⟩
  · rw [member,stored_alike mirrors,same]
  · simpa only [same] using order

theorem Settled.endToEnd (settled : Settled host ndn n pit plain) (byName : MatchesBySelectors ndn) : EndToEnd host ndn n pit := by
  obtain ⟨mirrors,⟨⟨chains,consistent,heads⟩,_,buckets⟩,tight⟩ := settled
  refine ⟨mirrors.oneEach,fun x => ?_,fun data fuel small enough => ?_,NameTree.doublyLinked_of consistent heads,buckets⟩
  · simp only [hasName_alike mirrors,stored_alike mirrors,interestOf_alike mirrors.entries]
    exact (mirrors.kept.nothingLeaked Ledger.documented tight).names x
  · refine ⟨_,(findAllDataMatches_alike mirrors data small enough).trans
      (findAllDataMatches_spec Ledger.documented mirrors.kept data enough),?_⟩
    exact mirrors.dataMatched (mirrors.kept.dataMatched Ledger.documented byName data)

theorem pit_endToEnd {n : Nat} (positive : 1 ≤ n) (byName : MatchesBySelectors ndn) {ops : List (Op Component Exclude Milliseconds)}
    (room : Guarded (step (NameTree.calls host) ndn) (fun _ _ => ()) (FindsRoom host n) ⟨NameTree.new n,Heap.empty⟩ () ops) :
    ∃ pit, run (step (NameTree.calls host) ndn) ⟨NameTree.new n,Heap.empty⟩ ops = .ok pit ∧ EndToEnd host ndn n pit := by
  have tight : Tight (Registry.empty : Registry Component) :=
    ⟨fun x stored => absurd stored (Finset.notMem_empty x),fun x stored => absurd stored (Finset.notMem_empty x)⟩
  have start : Settled host ndn n ⟨NameTree.new n,Heap.empty⟩ ⟨Ledger.empty,Heap.empty⟩ :=
    ⟨new_mirrors host ndn positive,NameTree.new_untouched host positive,tight⟩
  have simulated : ∀ (pit : Pit Component Exclude Milliseconds (NameTree Component)) (nothing : Unit) op,
      (∃ plain, Settled host ndn n pit plain) → FindsRoom host n pit nothing op →
      ∃ next, pit.step (NameTree.calls host) ndn op = .ok next ∧ ∃ plain, Settled host ndn n next plain := by
    rintro before _ op ⟨plain,settled⟩ allowed
    obtain ⟨next,plainNext,stepped,settledNext⟩ := settled.step allowed
    exact ⟨next,stepped,plainNext,settledNext⟩
  obtain ⟨pit,ran,plain,settled⟩ := run_simulates (fun pit _ => ∃ plain, Settled host ndn n pit plain) simulated ⟨_,start⟩ room
  exact ⟨pit,ran,settled.endToEnd byName⟩

theorem pit_endToEnd_apart : ∃ pit,
    run (step (NameTree.calls NameTree.collidingHost) plainNdn) ⟨NameTree.new 8,Heap.empty⟩
      [.insert (plainInterest [1]),.insert (plainInterest [0]),.remove 0] = .ok pit ∧
    EndToEnd NameTree.collidingHost plainNdn 8 pit :=
  pit_endToEnd (by decide) plainNdn_matches (show Guarded (step (NameTree.calls NameTree.collidingHost) plainNdn) (fun _ _ => ())
    (FindsRoom NameTree.collidingHost 8) ⟨NameTree.new 8,Heap.empty⟩ ()
    [.insert (plainInterest [1]),.insert (plainInterest [0]),.remove 0] by decide)
end EndToEnd
end Room

end NfdTables.Pit
