import NfdTables.Foundation.Lockstep
import NfdTables.NameTree.FindAllMatches
import NfdTables.NameTree.Roomy
import NfdTables.Pit.DataMatches

namespace NfdTables
open Machine Chain PrefixSet
variable {Component Exclude Milliseconds : Type} [DecidableEq Component]

namespace NameTree

-- The functions of the name tree behind the calls, which use their earlier names.
def calls (host : Host Component) : NameTreeCalls Component (NameTree Component) where
  seek := fun tree name => tree.lookup host name
  lookup := fun tree name => tree.findExactMatch host name
  longestPrefixMatch := fun tree name => tree.findLongestPrefixMatch host name anyEntry
  deleteEntryIfEmpty := fun tree e => do
    let (tree,_) ← tree.eraseEntryIfEmpty e
    return tree
  getParent := fun tree e => do
    let entry ← tree.entries.fetch e
    return entry.parent
  getPitEntries := fun tree e => do
    let entry ← tree.entries.fetch e
    return entry.payload.pitEntries
  attach := fun tree e change => tree.attach e change

-- A tree that never erases, and counts components without an int.
def hoarding (host : Host Component) : NameTreeCalls Component (NameTree Component) :=
  {calls host with
    longestPrefixMatch := fun tree name => probeDown host tree name anyEntry (name.length + 1)
    deleteEntryIfEmpty := fun tree _ => .ok tree}

def Represents (host : Host Component) (tree : NameTree Component) (registry : Registry Component) : Prop :=
  ∃ chains, Consistent host tree chains registry

section Calls
variable {host : Host Component} {tree : NameTree Component} {chains : List (List NodeId)} {registry : Registry Component}

theorem matchAt_any (named : Named host tree chains registry) (q : Name Component) (i : Nat) :
    tree.matchAt registry q anyEntry i = registry.find (getPrefix q i) := by
  by_cases stored : getPrefix q i ∈ registry.names
  · obtain ⟨n,entry,sits,same⟩ := named.live stored
    rw [matchAt_stored named sits same,Registry.find_stored stored]
    rfl
  · simp [matchAt,Registry.find_absent stored]

theorem hoarding_documented (host : Host Component) :
    Documented (hoarding host) (Represents host) (fun registry _ after => after = registry) where
  closed := fun ⟨_,consistent⟩ => consistent.named.closed
  distinct := fun ⟨_,consistent⟩ => consistent.distinct
  seek := by
    rintro tree registry ⟨chains,consistent⟩ x
    obtain ⟨after,chains',ran,kept,_⟩ := lookup_consistent consistent x
    exact ⟨after,ran,chains',kept⟩
  lookup := fun ⟨_,consistent⟩ x => consistent.find x
  longestPrefixMatch := by
    rintro tree registry ⟨chains,consistent⟩ x
    refine ⟨_,probeDown_spec consistent.chained consistent.placed consistent.named (x.length + 1),?_⟩
    rw [funext (matchAt_any consistent.named x)]
    exact Ledger.probe_nearest x
  getParent := by
    rintro tree registry ⟨chains,consistent⟩ x stored
    obtain ⟨n,entry,sits,rfl⟩ := consistent.named.live stored
    change (do let entry ← tree.entries.fetch _; return entry.parent) = _
    rw [Heap.fetch_live sits.entry_live,ok_bind,consistent.parented sits]
    rfl
  getPitEntries := by
    rintro tree registry ⟨chains,consistent⟩ x stored
    obtain ⟨n,entry,sits,rfl⟩ := consistent.named.live stored
    change (do let entry ← tree.entries.fetch _; return entry.payload.pitEntries) = _
    rw [Heap.fetch_live sits.entry_live,ok_bind,(consistent.named.known sits).2]
    rfl
  attach := by
    rintro tree registry ⟨chains,consistent⟩ x stored change
    obtain ⟨after,ran,kept⟩ := attach_consistent consistent ⟨x,stored,rfl⟩ change
    exact ⟨after,ran,chains,kept⟩
  deleteEntryIfEmpty := fun shown x stored => ⟨_,_,rfl,shown,rfl⟩

theorem calls_alike (host : Host Component) : (calls host).seek = (hoarding host).seek ∧
    (calls host).lookup = (hoarding host).lookup ∧ (calls host).getParent = (hoarding host).getParent ∧
    (calls host).getPitEntries = (hoarding host).getPitEntries ∧ (calls host).attach = (hoarding host).attach := by
  simp only [hoarding,calls,and_self]

-- Names of fewer than 2^31 components are probed from the full name on.
theorem longestPrefixMatch_small (host : Host Component) (tree : NameTree Component) {name : Name Component}
    (small : name.length < 2^31) :
    (calls host).longestPrefixMatch tree name = (hoarding host).longestPrefixMatch tree name := by
  have probing : (calls host).longestPrefixMatch tree name = tree.findLongestPrefixMatch host name anyEntry := by rw [calls]
  rw [probing,findLongestPrefixMatch,toInt_small small]
  rfl

omit [DecidableEq Component] in
theorem Attached.headInOrder {after : NameTree Component} (attached : Attached tree after e change)
    (inOrder : tree.HeadInOrder f) : after.HeadInOrder f := by
  intro entry live n points first
  rw [attached.read,Option.mem_map] at live
  obtain ⟨old,liveOld,rfl⟩ := live
  rw [prevs,attached.nodes]
  rw [nBuckets,attached.buckets] at first
  exact inOrder old liveOld n points first
end Calls
end NameTree

namespace Pit
section Mirrors
variable {host : Host Component} {ndn : Ndn Component Exclude Milliseconds}
  {pit : Pit Component Exclude Milliseconds (NameTree Component)} {plain : Pit Component Exclude Milliseconds (Ledger Component)}

structure Mirrors (host : Host Component) (ndn : Ndn Component Exclude Milliseconds)
    (pit : Pit Component Exclude Milliseconds (NameTree Component)) (plain : Pit Component Exclude Milliseconds (Ledger Component)) :
    Prop where
  entries : pit.entries = plain.entries
  tree : NameTree.Represents host pit.nameTree plain.nameTree.registry
  kept : Kept Ledger.Shows ndn plain plain.nameTree.registry

theorem Mirrors.real (mirrors : Mirrors host ndn pit plain) :
    Kept (NameTree.Represents host) ndn pit plain.nameTree.registry :=
  ⟨mirrors.tree,mirrors.entries ▸ mirrors.kept.books⟩

theorem storedAt_real (mirrors : Mirrors host ndn pit plain) :
    StoredAt (NameTree.calls host) pit x e ↔ e ∈ plain.nameTree.registry.held x := by
  have same : StoredAt (NameTree.calls host) pit x e ↔ StoredAt (NameTree.hoarding host) pit x e := by
    simp only [StoredAt,NameTree.hoarding,NameTree.calls]
  exact same.trans (storedAt_iff (NameTree.hoarding_documented host) mirrors.tree)

theorem insert_hoarding (pit : Pit Component Exclude Milliseconds (NameTree Component)) (interest : Interest Component Exclude Milliseconds) :
    pit.insert (NameTree.calls host) ndn interest = pit.insert (NameTree.hoarding host) ndn interest := by
  simp only [insert,NameTree.hoarding,NameTree.calls]

theorem insert_alike (mirrors : Mirrors host ndn pit plain) (interest : Interest Component Exclude Milliseconds) :
    ∃ after plainAfter e isNew, pit.insert (NameTree.calls host) ndn interest = .ok (after,e,isNew) ∧
      plain.insert Ledger.calls ndn interest = .ok (plainAfter,e,isNew) ∧ Mirrors host ndn after plainAfter := by
  obtain ⟨after,e,isNew,remaining,ran,shown,inserted⟩ := insert_spec (NameTree.hoarding_documented host) mirrors.real interest
  obtain ⟨plainAfter,f,old,last,plainRan,plainShown,plainInserted⟩ := insert_spec Ledger.documented mirrors.kept interest
  rw [mirrors.entries] at inserted
  obtain ⟨entries,rfl,rfl⟩ := plainInserted.verdict mirrors.kept.books rfl inserted
  rw [inserted.remaining_eq,← plainInserted.remaining_eq] at shown
  have registry := plainShown.same
  have books := plainInserted.books mirrors.kept.shown.distinct mirrors.kept.books
  refine ⟨after,plainAfter,e,isNew,(insert_hoarding pit interest).trans ran,plainRan,entries,registry ▸ shown,?_⟩
  rw [registry]
  exact ⟨plainShown,books⟩

-- Every entry of the tree that goes with the removed one has its node in order.
def SafeRemoval (pit : Pit Component Exclude Milliseconds (NameTree Component)) (registry : Registry Component) (e : PitId) : Prop :=
  ∀ entry ∈ pit.entries.read e, ∀ y ∈ registry.names,
    (registry.attach (registry.cell entry.getName).object (.deletePitEntry e)).FallsWith (registry.cell entry.getName).object y →
    pit.nameTree.HeadInOrder (registry.cell y).object

theorem remove_alike (mirrors : Mirrors host ndn pit plain) (member : e ∈ plain.nameTree.registry.held x)
    (safe : SafeRemoval pit plain.nameTree.registry e) :
    ∃ after plainAfter, pit.remove (NameTree.calls host) e = .ok after ∧ plain.remove Ledger.calls e = .ok plainAfter ∧
      Mirrors host ndn after plainAfter := by
  obtain ⟨entry,live,rfl⟩ := mirrors.kept.books.named x e member
  have stored := Registry.stored_of_held member
  have distinct := mirrors.kept.shown.distinct
  obtain ⟨ledger,remaining,plainRan,plainShown,pruned⟩ := remove_spec Ledger.documented mirrors.kept.shown live stored
  rw [← mirrors.entries] at live
  obtain ⟨chains,consistent⟩ := mirrors.tree
  obtain ⟨n,object,sits,_⟩ := consistent.named.live stored
  obtain ⟨attached,ranAttach,effect⟩ := NameTree.attach_spec sits.entry_live (.deletePitEntry e)
  have consistentA := effect.consistent consistent
  have safeA : NameTree.SafeStep attached (plain.nameTree.registry.attach
      (plain.nameTree.registry.cell entry.getName).object (.deletePitEntry e))
      (.erase (plain.nameTree.registry.cell entry.getName).object) := by
    refine ⟨⟨entry.getName,stored,Registry.attach_object _ _ _ _⟩,fun y storedY falls => ?_⟩
    rw [Registry.attach_object]
    exact effect.headInOrder (safe entry live y storedY falls)
  obtain ⟨after,ranErase,chains',consistentE⟩ := NameTree.clientStep_consistent _ safeA ⟨chains,consistentA⟩
  have same : ledger.registry = (plain.nameTree.registry.attach (plain.nameTree.registry.cell entry.getName).object
      (.deletePitEntry e)).erase (plain.nameTree.registry.cell entry.getName).object := by
    have gone := Registry.erase_eq (distinct.attach (plain.nameTree.registry.cell entry.getName).object (.deletePitEntry e)) stored
    rw [Registry.attach_object] at gone
    rw [plainShown.same,gone]
    exact pruned
  refine ⟨{pit with nameTree := after},_,?_,plainRan,mirrors.entries,⟨chains',same ▸ consistentE⟩,?_⟩
  · have found : (NameTree.calls host).lookup pit.nameTree entry.getName = .ok (plain.nameTree.registry.find entry.getName) :=
      consistent.find _
    have cleared : (NameTree.calls host).attach pit.nameTree _ _ = .ok attached := ranAttach
    have erased : (NameTree.calls host).deleteEntryIfEmpty attached _ = .ok after := ranErase
    rw [remove,Heap.fetch_live live,ok_bind,found,ok_bind,Registry.find_stored stored]
    dsimp only [asserted]
    rw [ok_bind,cleared,ok_bind,erased]
    rfl
  · rw [plainShown.same]
    exact ⟨plainShown,removed_held distinct stored e pruned.clears ▸ mirrors.kept.books.strike _ _⟩

theorem ascend_hoarding (pit : Pit Component Exclude Milliseconds (NameTree Component)) (name : Name Component) (fuel : Nat)
    (nameTreeEntry : Option EntryId) (result : List PitId) :
    ascend (NameTree.calls host) ndn pit name fuel nameTreeEntry result =
      ascend (NameTree.hoarding host) ndn pit name fuel nameTreeEntry result := by
  induction fuel generalizing nameTreeEntry result with
  | zero => cases nameTreeEntry <;> simp only [ascend]
  | succ fuel ih =>
    cases nameTreeEntry with
    | none => simp only [ascend]
    | some e =>
      simp only [ascend,ih]
      simp only [NameTree.hoarding,NameTree.calls]

theorem findAllDataMatches_alike (mirrors : Mirrors host ndn pit plain) (data : Data Component) (small : data.name.length < 2^31)
    (enough : data.name.length < fuel) :
    pit.findAllDataMatches (NameTree.calls host) ndn data fuel = plain.findAllDataMatches Ledger.calls ndn data fuel := by
  rw [findAllDataMatches_spec Ledger.documented mirrors.kept data enough]
  have same : matchesAt ndn plain = matchesAt ndn pit := by
    unfold matchesAt
    rw [mirrors.entries]
  rw [same,← findAllDataMatches_spec (NameTree.hoarding_documented host) mirrors.real data enough]
  simp only [findAllDataMatches,NameTree.longestPrefixMatch_small host _ small,ascend_hoarding]
end Mirrors

section Runs
variable {host : Host Component} {ndn : Ndn Component Exclude Milliseconds}
  {pit : Pit Component Exclude Milliseconds (NameTree Component)} {plain : Pit Component Exclude Milliseconds (Ledger Component)}

-- Removes ask for listed entries whose removal is safe where the table has got to.
def RemovesSafely (host : Host Component) (pit : Pit Component Exclude Milliseconds (NameTree Component))
    (plain : Pit Component Exclude Milliseconds (Ledger Component)) : Op Component Exclude Milliseconds → Prop
  | .insert _ => True
  | .remove e => Listed (NameTree.calls host) pit e ∧ SafeRemoval pit plain.nameTree.registry e

instance (host : Host Component) (pit : Pit Component Exclude Milliseconds (NameTree Component))
    (plain : Pit Component Exclude Milliseconds (Ledger Component)) (op : Op Component Exclude Milliseconds) :
    Decidable (RemovesSafely host pit plain op) :=
  match op with
  | .insert _ => isTrue trivial
  | .remove e => by
    unfold RemovesSafely SafeRemoval
    infer_instance

structure AnswersAlike (host : Host Component) (ndn : Ndn Component Exclude Milliseconds)
    (pit : Pit Component Exclude Milliseconds (NameTree Component)) (plain : Pit Component Exclude Milliseconds (Ledger Component)) :
    Prop where
  entries : pit.entries = plain.entries
  tree : NameTree.Refines host pit.nameTree plain.nameTree.registry
  inserts : ∀ interest, ∃ after plainAfter e isNew, pit.insert (NameTree.calls host) ndn interest = .ok (after,e,isNew) ∧
    plain.insert Ledger.calls ndn interest = .ok (plainAfter,e,isNew)
  finds : ∀ data fuel, data.name.length < 2^31 → data.name.length < fuel →
    ∃ result, pit.findAllDataMatches (NameTree.calls host) ndn data fuel = .ok result ∧
      plain.findAllDataMatches Ledger.calls ndn data fuel = .ok result

theorem Mirrors.answersAlike (mirrors : Mirrors host ndn pit plain) : AnswersAlike host ndn pit plain where
  entries := mirrors.entries
  tree := mirrors.tree.elim fun _ consistent => consistent.refines
  inserts := by
    intro interest
    obtain ⟨after,plainAfter,e,isNew,ran,plainRan,_⟩ := insert_alike mirrors interest
    exact ⟨after,plainAfter,e,isNew,ran,plainRan⟩
  finds := by
    intro data fuel small enough
    have found := findAllDataMatches_spec Ledger.documented mirrors.kept data enough
    exact ⟨_,(findAllDataMatches_alike mirrors data small enough).trans found,found⟩

theorem step_alike (mirrors : Mirrors host ndn pit plain) (allowed : RemovesSafely host pit plain op) :
    ∃ after plainAfter, pit.step (NameTree.calls host) ndn op = .ok after ∧ plain.step Ledger.calls ndn op = .ok plainAfter ∧
      Mirrors host ndn after plainAfter := by
  cases op with
  | insert interest =>
    obtain ⟨after,plainAfter,e,isNew,ran,plainRan,kept⟩ := insert_alike mirrors interest
    exact ⟨after,plainAfter,by rw [step,ran]; rfl,by rw [step,plainRan]; rfl,kept⟩
  | remove e =>
    obtain ⟨⟨entry,_,stored⟩,safe⟩ := allowed
    obtain ⟨after,plainAfter,ran,plainRan,kept⟩ := remove_alike mirrors ((storedAt_real mirrors).mp stored) safe
    exact ⟨after,plainAfter,ran,plainRan,kept⟩

theorem new_mirrors (host : Host Component) (ndn : Ndn Component Exclude Milliseconds) (positive : 1 ≤ n) :
    Mirrors host ndn ⟨NameTree.new n,Heap.empty⟩ ⟨Ledger.empty,Heap.empty⟩ where
  entries := rfl
  tree := ⟨_,(NameTree.new_consistent host positive).1⟩
  kept := kept_start Ledger.documented Ledger.empty_shows ledger_stores_nothing ndn

theorem pit_refines_ledger {n : Nat} (positive : 1 ≤ n) {ops : List (Op Component Exclude Milliseconds)}
    (safe : Guarded (step (NameTree.calls host) ndn) (asSpec (step Ledger.calls ndn)) (RemovesSafely host)
      ⟨NameTree.new n,Heap.empty⟩ ⟨Ledger.empty,Heap.empty⟩ ops) :
    ∃ pit plain, run (step (NameTree.calls host) ndn) ⟨NameTree.new n,Heap.empty⟩ ops = .ok pit ∧
      run (step Ledger.calls ndn) ⟨Ledger.empty,Heap.empty⟩ ops = .ok plain ∧ AnswersAlike host ndn pit plain := by
  obtain ⟨pit,plain,ran,plainRan,mirrors⟩ := run_lockstep (Mirrors host ndn) (new_mirrors host ndn positive) safe
    fun _ _ _ mirrors allowed => step_alike mirrors allowed
  exact ⟨pit,plain,ran,plainRan,mirrors.answersAlike⟩

-- The second removal takes the whole name tree with it.
theorem pit_refines_ledger_apart : ∃ pit plain,
    run (step (NameTree.calls NameTree.collidingHost) plainNdn) ⟨NameTree.new 8,Heap.empty⟩
      [.insert (plainInterest [1]),.insert (plainInterest [0]),.remove 0,.remove 1] = .ok pit ∧
    run (step Ledger.calls plainNdn) ⟨Ledger.empty,Heap.empty⟩
      [.insert (plainInterest [1]),.insert (plainInterest [0]),.remove 0,.remove 1] = .ok plain ∧
    AnswersAlike NameTree.collidingHost plainNdn pit plain :=
  pit_refines_ledger (by decide) (show Guarded (step (NameTree.calls NameTree.collidingHost) plainNdn)
    (asSpec (step Ledger.calls plainNdn)) (RemovesSafely NameTree.collidingHost) ⟨NameTree.new 8,Heap.empty⟩
    ⟨Ledger.empty,Heap.empty⟩ [.insert (plainInterest [1]),.insert (plainInterest [0]),.remove 0,.remove 1] by decide)

-- Resized on the way, the tree loses [0] when [1] is removed, and the table its entry.
example : (do
    let pit ← run (step (NameTree.calls NameTree.collidingHost) plainNdn) ⟨NameTree.new 1,Heap.empty⟩
      [.insert (plainInterest [0]),.insert (plainInterest [1]),.remove 1]
    pit.findAllDataMatches (NameTree.calls NameTree.collidingHost) plainNdn ⟨[0]⟩ 2) = .ok [] := by decide
end Runs
end Pit

end NfdTables
