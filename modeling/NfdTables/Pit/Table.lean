import NfdTables.Pit.Interest

namespace NfdTables
open Machine
variable {Component Exclude Milliseconds Tree : Type}

-- What pit.cpp calls on the name tree: seek() finds or creates, lookup() only finds.
structure NameTreeCalls (Component Tree : Type) where
  seek : Tree → Name Component → Exec (Tree × Option EntryId)
  lookup : Tree → Name Component → Exec (Option EntryId)
  longestPrefixMatch : Tree → Name Component → Exec (Option EntryId)
  deleteEntryIfEmpty : Tree → EntryId → Exec Tree
  getParent : Tree → EntryId → Exec (Option EntryId)
  getPitEntries : Tree → EntryId → Exec (List PitId)
  attach : Tree → EntryId → Payload.Change → Exec Tree

-- A pit::Entry lives on as long as someone points to it, so none is ever freed.
structure Pit (Component Exclude Milliseconds Tree : Type) where
  nameTree : Tree
  entries : Heap (PitEntry Component Exclude Milliseconds)

structure Data (Component : Type) where
  name : Name Component

namespace Pit

def asserted : Option EntryId → Exec EntryId
  | some e => .ok e
  | none => .error .assertion

section Insert
variable [DecidableEq Component]

def findSimilar (ndn : Ndn Component Exclude Milliseconds) (entries : Heap (PitEntry Component Exclude Milliseconds))
    (interest : Interest Component Exclude Milliseconds) : List PitId → Exec (Option PitId)
  | [] => .ok none
  | e :: rest => do
    let entry ← entries.fetch e
    if ← predicatePitEntrySimilarInterest ndn entry interest then return some e
    else findSimilar ndn entries interest rest

def insert (calls : NameTreeCalls Component Tree) (ndn : Ndn Component Exclude Milliseconds)
    (pit : Pit Component Exclude Milliseconds Tree) (interest : Interest Component Exclude Milliseconds) :
    Exec (Pit Component Exclude Milliseconds Tree × PitId × Bool) := do
  let (nameTree,sought) ← calls.seek pit.nameTree interest.name
  let nameTreeEntry ← asserted sought
  let pitEntries ← calls.getPitEntries nameTree nameTreeEntry
  match ← findSimilar ndn pit.entries interest pitEntries with
  | some e => return ({pit with nameTree := nameTree},e,false)
  | none => do
    let e := pit.entries.size
    let nameTree ← calls.attach nameTree nameTreeEntry (.insertPitEntry e)
    return (⟨nameTree,pit.entries.alloc ⟨interest⟩⟩,e,true)
end Insert

def pushMatches (ndn : Ndn Component Exclude Milliseconds) (entries : Heap (PitEntry Component Exclude Milliseconds))
    (name : Name Component) (result : List PitId) : List PitId → Exec (List PitId)
  | [] => .ok result
  | e :: rest => do
    let entry ← entries.fetch e
    pushMatches ndn entries name (if ndn.matchesName entry.getInterest name then result ++ [e] else result) rest

-- The outer loop, with a bound on its rounds.
def ascend (calls : NameTreeCalls Component Tree) (ndn : Ndn Component Exclude Milliseconds)
    (pit : Pit Component Exclude Milliseconds Tree) (name : Name Component) :
    Nat → Option EntryId → List PitId → Exec (List PitId)
  | _,none,result => .ok result
  | 0,some _,_ => .error .endless
  | fuel+1,some nameTreeEntry,result => do
    let pitEntries ← calls.getPitEntries pit.nameTree nameTreeEntry
    let result ← pushMatches ndn pit.entries name result pitEntries
    let parent ← calls.getParent pit.nameTree nameTreeEntry
    ascend calls ndn pit name fuel parent result

def findAllDataMatches (calls : NameTreeCalls Component Tree) (ndn : Ndn Component Exclude Milliseconds)
    (pit : Pit Component Exclude Milliseconds Tree) (data : Data Component) (fuel : Nat) : Exec (List PitId) := do
  let nameTreeEntry ← calls.longestPrefixMatch pit.nameTree data.name
  ascend calls ndn pit data.name fuel nameTreeEntry []

-- The test for a null pointer behind the assertion never fails.
def remove (calls : NameTreeCalls Component Tree) (pit : Pit Component Exclude Milliseconds Tree) (pitEntry : PitId) :
    Exec (Pit Component Exclude Milliseconds Tree) := do
  let entry ← pit.entries.fetch pitEntry
  let found ← calls.lookup pit.nameTree entry.getName
  let nameTreeEntry ← asserted found
  let nameTree ← calls.attach pit.nameTree nameTreeEntry (.deletePitEntry pitEntry)
  let nameTree ← calls.deleteEntryIfEmpty nameTree nameTreeEntry
  return {pit with nameTree := nameTree}

inductive Op (Component Exclude Milliseconds : Type) where
  | insert (interest : Interest Component Exclude Milliseconds)
  | remove (pitEntry : PitId)

def step [DecidableEq Component] (calls : NameTreeCalls Component Tree) (ndn : Ndn Component Exclude Milliseconds)
    (pit : Pit Component Exclude Milliseconds Tree) :
    Op Component Exclude Milliseconds → Exec (Pit Component Exclude Milliseconds Tree)
  | .insert interest => do
    let (pit,_) ← pit.insert calls ndn interest
    return pit
  | .remove pitEntry => pit.remove calls pitEntry

def HasName (calls : NameTreeCalls Component Tree) (pit : Pit Component Exclude Milliseconds Tree) (x : Name Component) : Prop :=
  ∃ nameTreeEntry, calls.lookup pit.nameTree x = .ok (some nameTreeEntry)

def StoredAt (calls : NameTreeCalls Component Tree) (pit : Pit Component Exclude Milliseconds Tree) (x : Name Component)
    (e : PitId) : Prop :=
  ∃ nameTreeEntry pitEntries, calls.lookup pit.nameTree x = .ok (some nameTreeEntry) ∧
    calls.getPitEntries pit.nameTree nameTreeEntry = .ok pitEntries ∧ e ∈ pitEntries

def Stored (calls : NameTreeCalls Component Tree) (pit : Pit Component Exclude Milliseconds Tree) (e : PitId) : Prop :=
  ∃ x, StoredAt calls pit x e

theorem toOption_iff {computed : Exec α} : computed.toOption = some value ↔ computed = .ok value := by
  cases computed <;> simp [Except.toOption]

instance decidableHasName (calls : NameTreeCalls Component Tree) (pit : Pit Component Exclude Milliseconds Tree)
    (x : Name Component) : Decidable (HasName calls pit x) :=
  decidable_of_iff (∃ found ∈ (calls.lookup pit.nameTree x).toOption, found.isSome) (by
    simp only [HasName,Option.mem_def,toOption_iff,Option.isSome_iff_exists]
    exact ⟨fun ⟨_,looked,f,same⟩ => ⟨f,same ▸ looked⟩,fun ⟨f,looked⟩ => ⟨_,looked,f,rfl⟩⟩)

instance decidableStoredAt (calls : NameTreeCalls Component Tree) (pit : Pit Component Exclude Milliseconds Tree)
    (x : Name Component) (e : PitId) : Decidable (StoredAt calls pit x e) :=
  decidable_of_iff (∃ found ∈ (calls.lookup pit.nameTree x).toOption, ∃ f ∈ found,
      ∃ items ∈ (calls.getPitEntries pit.nameTree f).toOption, e ∈ items) (by
    simp only [StoredAt,Option.mem_def,toOption_iff]
    exact ⟨fun ⟨_,looked,f,same,items,listed,member⟩ => ⟨f,items,same ▸ looked,listed,member⟩,
      fun ⟨f,items,looked,listed,member⟩ => ⟨_,looked,f,rfl,items,listed,member⟩⟩)

def Listed (calls : NameTreeCalls Component Tree) (pit : Pit Component Exclude Milliseconds Tree) (e : PitId) : Prop :=
  ∃ entry ∈ pit.entries.read e, StoredAt calls pit entry.getName e

instance (calls : NameTreeCalls Component Tree) (pit : Pit Component Exclude Milliseconds Tree) (e : PitId) :
    Decidable (Listed calls pit e) := by
  unfold Listed; infer_instance

def interestOf (pit : Pit Component Exclude Milliseconds Tree) (e : PitId) : Option (Interest Component Exclude Milliseconds) :=
  (pit.entries.read e).map PitEntry.getInterest

end Pit
end NfdTables
