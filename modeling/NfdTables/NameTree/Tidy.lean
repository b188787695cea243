import NfdTables.Foundation.Settling
import NfdTables.NameTree.Roomy

namespace NfdTables.NameTree
open Machine PrefixSet
variable {Component : Type} [DecidableEq Component] {host : Host Component} {tree : NameTree Component}
  {registry : Registry Component}

def tidyStep (host : Host Component) (tree : NameTree Component) (name : Name Component) : Exec (NameTree Component) := do
  match ← tree.findExactMatch host name with
  | none => return tree
  | some e =>
    let (tree,_) ← tree.eraseEntryIfEmpty e
    return tree

def holdingOn (registry : Registry Component) (names : Finset (Name Component)) : Registry Component := {registry with names := names}

-- The names something is attached to, and their prefixes.
def inUse (registry : Registry Component) : Registry Component :=
  holdingOn registry (registry.names.filter (Needed registry.names registry.idle))

theorem tidyStep_untouched (untouched : Untouched host n tree registry) (name : Name Component) :
    ∃ next, tidyStep host tree name = .ok next ∧
      Untouched host n next (holdingOn registry (pruneAt registry.idle registry.names name)) := by
  obtain ⟨⟨chains,consistent,heads⟩,threshold,buckets⟩ := untouched
  have found := findExactMatch_spec consistent.chained consistent.placed consistent.named name
  unfold tidyStep pruneAt
  rw [found,ok_bind]
  by_cases stored : name ∈ registry.names
  · rw [Registry.find_stored stored,if_pos stored]
    have roomy : RoomyStep n registry (.erase (registry.cell name).object) := ⟨name,stored,rfl⟩
    obtain ⟨next,ran,left⟩ := roomyStep_untouched (.erase _) ⟨⟨chains,consistent,heads⟩,threshold,buckets⟩ roomy
    rw [ClientOp.apply,Registry.erase_eq consistent.distinct stored] at left
    exact ⟨next,ran,left⟩
  · rw [Registry.find_absent stored,if_neg stored]
    exact ⟨tree,rfl,⟨chains,consistent,heads⟩,threshold,buckets⟩

theorem tidy_untouched (untouched : Untouched host n tree registry) (order : List (Name Component)) :
    ∃ after, run (tidyStep host) tree order = .ok after ∧
      Untouched host n after (holdingOn registry (pruneEach registry.idle order registry.names)) := by
  induction order generalizing tree registry with
  | nil => exact ⟨tree,rfl,untouched⟩
  | cons name rest ih =>
    obtain ⟨next,stepped,untouchedN⟩ := tidyStep_untouched untouched name
    obtain ⟨after,ran,left⟩ := ih untouchedN
    exact ⟨after,by rw [run,stepped,ok_bind,ran],left⟩

-- Erasing all names, in any order, leaves the names in use.
theorem client_tidied {n : Nat} (positive : 1 ≤ n) {ops : List (ClientOp Component)} {order : List (Name Component)}
    (roomy : Guarded (clientStep host) ClientOp.apply (fun _ => RoomyStep n) (new n) .empty ops)
    (covers : ∀ name ∈ (ops.foldl ClientOp.apply .empty).names, name ∈ order) :
    ∃ tree after, run (clientStep host) (new n) ops = .ok tree ∧ run (tidyStep host) tree order = .ok after ∧
      Refines host after (inUse (ops.foldl ClientOp.apply .empty)) ∧
      DoublyLinked after := by
  obtain ⟨tree,ran,untouched⟩ := run_simulates (Untouched host n)
    (fun _ _ op untouched roomy => roomyStep_untouched op untouched roomy) (new_untouched host positive) roomy
  have closed : Closed (ops.foldl ClientOp.apply .empty).names := by
    obtain ⟨⟨_,consistent,_⟩,_,_⟩ := untouched
    exact consistent.named.closed
  obtain ⟨after,swept,⟨⟨chains,left,heads⟩,_,_⟩⟩ := tidy_untouched untouched order
  rw [pruneEach_eq closed covers] at left
  exact ⟨tree,after,ran,swept,left.refines,doublyLinked_of left heads⟩

-- /0/2 and /1 go; the root and /0 stay for what is attached to /0.
theorem client_tidied_apart : ∃ tree after,
    run (clientStep collidingHost) (new 8) [.lookup [0,2],.attach 1 (.insertPitEntry 7),.lookup [1]] = .ok tree ∧
      run (tidyStep collidingHost) tree [[],[1],[0],[0,2]] = .ok after ∧
      Refines collidingHost after
        (inUse (([.lookup [0,2],.attach 1 (.insertPitEntry 7),.lookup [1]] : List (ClientOp Nat)).foldl ClientOp.apply .empty)) ∧
      DoublyLinked after :=
  client_tidied (by decide) (show Guarded (clientStep collidingHost) ClientOp.apply (fun _ => RoomyStep 8) (new 8) .empty
    [.lookup [0,2],.attach 1 (.insertPitEntry 7),.lookup [1]] by decide) (by decide)

end NfdTables.NameTree
