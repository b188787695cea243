import NfdTables.NameTree.Table

namespace NfdTables
open Machine Chain

inductive IteratorType where
  | fullEnumerate
  | partialEnumerate
  | findAllMatches
deriving DecidableEq,Repr

structure ConstIterator (Component : Type) where
  kind : IteratorType
  entry : Option EntryId
  subTreeRoot : Option EntryId
  entrySelector : EntrySelector Component
  entrySubTreeSelector : EntrySubTreeSelector Component
  visitChildren : Bool

namespace ConstIterator
variable {Component : Type} [DecidableEq Component]

def new (kind : IteratorType) (entry : Option EntryId) (entrySelector : EntrySelector Component)
    (entrySubTreeSelector : EntrySubTreeSelector Component) : ConstIterator Component :=
  ⟨kind,entry,entry,entrySelector,entrySubTreeSelector,true⟩

-- FULL_ENUMERATE_TYPE, the while loop. Without a hit m_entry is left at the last node.
def bucketTurn (tree : NameTree Component) (selector : EntrySelector Component) (e : EntryId) :
    Exec (Turn EntryId (EntryId × Bool)) := do
  let entry ← tree.entries.fetch e
  let n ← required entry.node
  let node ← tree.nodes.fetch n
  match node.next with
  | none => return .leave (e,false)
  | some m => do
    let follower ← tree.nodes.fetch m
    let e ← required follower.entry
    let entry ← tree.entries.fetch e
    if selector e entry then return .leave (e,true) else return .onward e

def laterTurn (tree : NameTree Component) (selector : EntrySelector Component) (_ : Unit) (_ : NodeId) (node : Node) :
    Exec (Turn Unit EntryId) := do
  let e ← required node.entry
  let entry ← tree.entries.fetch e
  if selector e entry then return .leave e else return .onward ()

-- newLocation is an int and is incremented after each bucket without a hit.
def laterBuckets (tree : NameTree Component) (selector : EntrySelector Component) :
    List Nat → Exec (Option EntryId)
  | [] => .ok NameTree.mEnd
  | newLocation :: rest => do
    let head ← NameTree.bucketAt tree.buckets newLocation
    let searched ← forChain tree.nodes Node.next (laterTurn tree selector) tree.nodes.size head ()
    match searched with
    | .leave e => return some e
    | .onward () =>
      if newLocation + 1 = 2^31 then .error .signedOverflow else laterBuckets tree selector rest

-- A negative newLocation turns into a size_t beyond every bucket.
def otherBuckets (tree : NameTree Component) (selector : EntrySelector Component) : Int → Exec (Option EntryId)
  | .negSucc _ => .ok NameTree.mEnd
  | .ofNat newLocation => laterBuckets tree selector (List.range' newLocation (tree.nBuckets - newLocation))

def nextFull (tree : NameTree Component) (it : ConstIterator Component) (e : EntryId) :
    Exec (ConstIterator Component) := do
  let (e,isFound) ← loop (bucketTurn tree it.entrySelector) tree.nodes.size e
  if isFound then return {it with entry := some e}
  else
    let entry ← tree.entries.fetch e
    let found ← otherBuckets tree it.entrySelector (toInt (entry.hash.toNat % tree.nBuckets + 1))
    return {it with entry := found}

def arrive (tree : NameTree Component) (it : ConstIterator Component) (e : EntryId) :
    Exec (ConstIterator Component × Bool) := do
  let entry ← tree.entries.fetch e
  let result := it.entrySubTreeSelector e entry
  return ({it with entry := some e,visitChildren := result.2 && entry.hasChildren},result.1)

def firstChild (tree : NameTree Component) (e : EntryId) : Exec EntryId := do
  let entry ← tree.entries.fetch e
  match entry.children with
  | child :: _ => return child
  | [] => .error .outOfBounds

-- PARTIAL_ENUMERATE_TYPE, a round of the while loop.
def climbTurn (tree : NameTree Component) (it : ConstIterator Component) :
    Exec (Turn (ConstIterator Component) (ConstIterator Component)) :=
  if it.entry = it.subTreeRoot then .ok (.leave {it with entry := NameTree.mEnd}) else do
    let e ← required it.entry
    if it.visitChildren then
      let child ← firstChild tree e
      let (it,accepted) ← arrive tree it child
      if accepted then return .leave it else return .onward it
    else
      let entry ← tree.entries.fetch e
      let parent ← required entry.parent
      let object ← tree.entries.fetch parent
      let parentChildrenList := object.children
      let i := parentChildrenList.idxOf e
      if i < parentChildrenList.length then
        match parentChildrenList[i + 1]? with
        | some sibling => do
          let (it,accepted) ← arrive tree it sibling
          if accepted then return .leave it else return .onward it
        | none => return .onward {it with visitChildren := false,entry := some parent}
      else .error .assertion

-- More than the pairs of m_entry and m_visitChildren: a loop that comes back to one
-- of them never ends.
def climbFuel (tree : NameTree Component) : Nat := 3 * tree.entries.size + 1

def nextPartial (tree : NameTree Component) (it : ConstIterator Component) (e : EntryId) :
    Exec (ConstIterator Component) := do
  if some e = it.subTreeRoot ∧ it.visitChildren = true then
    let child ← firstChild tree e
    let (it,accepted) ← arrive tree it child
    if accepted then return it else loop (climbTurn tree) (climbFuel tree) it
  else loop (climbTurn tree) (climbFuel tree) it

-- FIND_ALL_MATCHES_TYPE, a round of the while loop.
def matchTurn (tree : NameTree Component) (selector : EntrySelector Component) (e : EntryId) :
    Exec (Turn EntryId (Option EntryId)) := do
  let entry ← tree.entries.fetch e
  match entry.parent with
  | none => return .leave NameTree.mEnd
  | some parent => do
    let object ← tree.entries.fetch parent
    if selector parent object then return .leave (some parent) else return .onward parent

def nextMatch (tree : NameTree Component) (it : ConstIterator Component) (e : EntryId) :
    Exec (ConstIterator Component) := do
  let found ← loop (matchTurn tree it.entrySelector) tree.entries.size e
  return {it with entry := found}

def increment (tree : NameTree Component) (it : ConstIterator Component) : Exec (ConstIterator Component) := do
  let e ← required it.entry
  match it.kind with
  | .fullEnumerate => nextFull tree it e
  | .partialEnumerate => nextPartial tree it e
  | .findAllMatches => nextMatch tree it e

-- `for (; it != end(); ++it)` collecting *it. operator== compares m_entry alone.
def collect (tree : NameTree Component) : Nat → ConstIterator Component → Exec (List EntryId)
  | 0,it => if it.entry.isNone then .ok [] else .error .endless
  | fuel+1,it =>
    match it.entry with
    | none => .ok []
    | some e => do
      let it ← increment tree it
      let later ← collect tree fuel it
      return e :: later

end ConstIterator

namespace NameTree
variable {Component : Type} [DecidableEq Component]

def endIterator : ConstIterator Component := .new .fullEnumerate mEnd anyEntry anyEntrySubTree

def eligibleTurn (tree : NameTree Component) (selector : EntrySelector Component) (_ : Unit) (_ : NodeId) (node : Node) :
    Exec (Turn Unit EntryId) :=
  match node.entry with
  | none => .ok (.onward ())
  | some e => do
    let entry ← tree.entries.fetch e
    if selector e entry then return .leave e else return .onward ()

def firstEligible (tree : NameTree Component) (selector : EntrySelector Component) :
    List (Option NodeId) → Exec (Option EntryId)
  | [] => .ok none
  | head :: rest => do
    let searched ← forChain tree.nodes Node.next (eligibleTurn tree selector) tree.nodes.size head ()
    match searched with
    | .leave e => return some e
    | .onward () => firstEligible tree selector rest

def fullEnumerate (tree : NameTree Component) (selector : EntrySelector Component) :
    Exec (ConstIterator Component) := do
  match ← firstEligible tree selector tree.buckets with
  | some e => return .new .fullEnumerate (some e) selector anyEntrySubTree
  | none => return endIterator

def partialEnumerate (host : Host Component) (tree : NameTree Component) (name : Name Component)
    (selector : EntrySubTreeSelector Component) : Exec (ConstIterator Component) := do
  match ← tree.findExactMatch host name with
  | none => return endIterator
  | some e =>
    let entry ← tree.entries.fetch e
    let result := selector e entry
    let it : ConstIterator Component := .new .partialEnumerate (some e) anyEntry selector
    let it := {it with visitChildren := result.2 && entry.hasChildren}
    if result.1 then return it else it.increment tree

def findAllMatches (host : Host Component) (tree : NameTree Component) (name : Name Component)
    (selector : EntrySelector Component) : Exec (ConstIterator Component) := do
  match ← tree.findLongestPrefixMatch host name selector with
  | some e => return .new .findAllMatches (some e) selector anyEntrySubTree
  | none => return endIterator

def drain (tree : NameTree Component) (it : ConstIterator Component) : Exec (List EntryId) :=
  it.collect tree tree.entries.size

end NameTree
end NfdTables
