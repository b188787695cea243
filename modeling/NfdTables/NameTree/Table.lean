import NfdTables.Foundation.Chain
import NfdTables.NameTree.Entry
import Mathlib.Algebra.Group.Nat.Defs

namespace NfdTables
open Machine Chain

-- What (int) makes of a double beyond int is undefined in C++: here it is any number.
structure Host (Component : Type) where
  hashName : Name Component → UInt32
  intOverflow : Nat → Nat

def toInt (n : Nat) : Int := Int.bmod n (2^32)

theorem toInt_small (small : n < 2^31) : toInt n = n := by
  unfold toInt Int.bmod
  have modulus : ((2^32 : Nat) : Int) = 4294967296 := rfl
  simp only [modulus]
  split <;> omega

theorem toInt_succ (n : Nat) : toInt (n+1) ≠ toInt n := by
  unfold toInt Int.bmod
  have modulus : ((2^32 : Nat) : Int) = 4294967296 := rfl
  simp only [modulus]
  split <;> split <;> omega

-- The nearest double to a size_t, ties to even. Its value is a whole number.
def toDouble (n : Nat) : Nat :=
  if n < 2^53 then n else
  let unit := 2^(n.log2 - 52)
  let below := n / unit
  let cut := n % unit
  if 2*cut < unit ∨ (2*cut = unit ∧ below % 2 = 0) then below*unit else (below+1)*unit

-- m_loadFactor is 0.5 and m_resizeFactor is 2 from construction on.
def loadLimit (nBuckets : Nat) : Nat := toDouble nBuckets / 2
def resizeFactor : Nat := 2

def Host.intOfDouble (host : Host Component) (value : Nat) : Nat :=
  if value < 2^31 then value else host.intOverflow value

-- m_nBuckets is the length of `buckets`, and m_end stays null.
structure NameTree (Component : Type) where
  nItems : Nat
  resizeThreshold : Nat
  buckets : List (Option NodeId)
  nodes : Heap Node
  entries : Heap (Entry Component)
deriving DecidableEq

namespace NameTree
variable {Component : Type} [DecidableEq Component]

def nBuckets (tree : NameTree Component) : Nat := tree.buckets.length
def mEnd : Option EntryId := none

def new (nBuckets : Nat) : NameTree Component where
  nItems := 0
  resizeThreshold := loadLimit nBuckets
  buckets := List.replicate nBuckets none
  nodes := .empty
  entries := .empty

def bucketAt (buckets : List (Option NodeId)) (loc : Nat) : Exec (Option NodeId) :=
  match buckets[loc]? with
  | some head => .ok head
  | none => .error .outOfBounds

-- insert() looks at the name alone; findExactMatch() looks at the hash too.
def insertTurn (tree : NameTree Component) (name : Name Component) (_ : Option NodeId) (key : NodeId) (node : Node) :
    Exec (Turn (Option NodeId) EntryId) :=
  match node.entry with
  | none => .ok (.onward (some key))
  | some e => do
    let entry ← tree.entries.fetch e
    if name = entry.namePrefix then return .leave e else return .onward (some key)

def insert (host : Host Component) (tree : NameTree Component) (name : Name Component) :
    Exec (NameTree Component × EntryId × Bool) := do
  let hashValue := host.hashName name
  let loc := hashValue.toNat % tree.nBuckets
  let head ← bucketAt tree.buckets loc
  let searched ← forChain tree.nodes Node.next (tree.insertTurn name) tree.nodes.size head head
  match searched with
  | .leave e => return (tree,e,false)
  | .onward nodePrev =>
    let node := tree.nodes.size
    let nodes := tree.nodes.alloc {prev := nodePrev}
    let (buckets,nodes) ← match nodePrev with
      | none => pure (tree.buckets.set loc (some node),nodes)
      | some p => do
        let nodes ← nodes.update p (fun object => {object with next := some node})
        pure (tree.buckets,nodes)
    let e := tree.entries.size
    let entries := tree.entries.alloc {namePrefix := name,hash := hashValue,node := some node}
    let nodes ← nodes.update node (fun object => {object with entry := some e})
    return ({tree with buckets := buckets,nodes := nodes,entries := entries},e,true)

-- What `pp` points at: a bucket, or the m_next of the last node passed.
inductive Slot where
  | bucket (loc : Nat)
  | next (node : NodeId)

structure Rehash where
  newBuckets : List (Option NodeId)
  nodes : Heap Node
  count : Nat
  pre : Option NodeId

-- The walk to the tail of new bucket `b` moves `pre` only where it passes a node.
def Rehash.place (work : Rehash) (b : Nat) (p : NodeId) : Exec Rehash := do
  let head ← bucketAt work.newBuckets b
  let walked ← forChain work.nodes Node.next (fun (_ : Option NodeId × Slot) key _ =>
    (.ok (.onward (some key,.next key)) : Exec (Turn (Option NodeId × Slot) Empty))) work.nodes.size head (work.pre,.bucket b)
  match walked with
  | .leave never => nomatch never
  | .onward (pre,pp) =>
    let nodes ← work.nodes.update p (fun object => {object with prev := pre,next := none})
    match pp with
    | .bucket loc => return {work with newBuckets := work.newBuckets.set loc (some p),nodes := nodes,pre := pre}
    | .next last =>
      let nodes ← nodes.update last (fun object => {object with next := some p})
      return {work with nodes := nodes,pre := pre}

def rehashChain (entries : Heap (Entry Component)) (newNBuckets : Nat) : Nat → Option NodeId → Rehash → Exec Rehash
  | _,none,work => .ok work
  | 0,some _,_ => .error .endless
  | fuel+1,some p,work => do
    let node ← work.nodes.fetch p
    let q := node.next
    match node.entry with
    | none => .error .assertion
    | some e =>
      let entry ← entries.fetch e
      let work ← Rehash.place {work with count := work.count + 1} (entry.hash.toNat % newNBuckets) p
      rehashChain entries newNBuckets fuel q work

def rehashBuckets (entries : Heap (Entry Component)) (newNBuckets : Nat) : List (Option NodeId) → Rehash → Exec Rehash
  | [],work => .ok work
  | head :: rest,work => do
    let work ← rehashChain entries newNBuckets work.nodes.size head work
    rehashBuckets entries newNBuckets rest work

-- Without `delete oldBuckets`: the storage of the bucket arrays is left out.
def resize (host : Host Component) (tree : NameTree Component) (newNBuckets : Nat) : Exec (NameTree Component) := do
  let start : Rehash := ⟨List.replicate newNBuckets none,tree.nodes,0,none⟩
  let work ← rehashBuckets tree.entries newNBuckets tree.buckets start
  if work.count = tree.nItems then
    return {tree with
      buckets := work.newBuckets
      nodes := work.nodes
      resizeThreshold := host.intOfDouble (loadLimit newNBuckets)}
  else .error .assertion

-- The loop body of lookup() up to the resize check.
def enter (host : Host Component) (tree : NameTree Component) (parent : Option EntryId) (name : Name Component) :
    Exec (NameTree Component × EntryId) := do
  let (tree,e,isNew) ← tree.insert host name
  if isNew then
    let entries ← tree.entries.update e (fun entry => {entry with parent := parent})
    let entries ← match parent with
      | none => pure entries
      | some p => entries.update p (fun entry => {entry with children := entry.children ++ [e]})
    return ({tree with nItems := tree.nItems + 1,entries := entries},e)
  else return (tree,e)

def grow (host : Host Component) (tree : NameTree Component) : Exec (NameTree Component) :=
  if tree.nItems > tree.resizeThreshold then tree.resize host (resizeFactor * tree.nBuckets) else .ok tree

def lookupFrom (host : Host Component) (name : Name Component) :
    List Nat → NameTree Component → Option EntryId → Exec (NameTree Component × Option EntryId)
  | [],tree,entry => .ok (tree,entry)
  | i :: rest,tree,parent => do
    let (tree,entry) ← tree.enter host parent (getPrefix name i)
    let tree ← tree.grow host
    lookupFrom host name rest tree (some entry)

def lookup (host : Host Component) (tree : NameTree Component) (name : Name Component) :
    Exec (NameTree Component × Option EntryId) :=
  lookupFrom host name (List.range (name.length + 1)) tree none

def findExactMatch (host : Host Component) (tree : NameTree Component) (name : Name Component) :
    Exec (Option EntryId) := do
  let hashValue := host.hashName name
  let head ← bucketAt tree.buckets (hashValue.toNat % tree.nBuckets)
  let searched ← forChain tree.nodes Node.next (fun (_ : Unit) _ node =>
    match node.entry with
    | none => .ok (.onward ())
    | some e => do
      let entry ← tree.entries.fetch e
      if hashValue = entry.hash ∧ name = entry.namePrefix then return .leave e else return .onward ()) tree.nodes.size head ()
  match searched with
  | .leave e => return some e
  | .onward () => return none

def probeDown (host : Host Component) (tree : NameTree Component) (name : Name Component)
    (selector : EntrySelector Component) : Nat → Exec (Option EntryId)
  | 0 => .ok none
  | i+1 => do
    match ← tree.findExactMatch host (getPrefix name i) with
    | none => probeDown host tree name selector i
    | some e =>
      let entry ← tree.entries.fetch e
      if selector e entry then return some e else probeDown host tree name selector i

-- The loop variable is an int, and the loop runs while it is not negative.
def probeFrom (host : Host Component) (tree : NameTree Component) (name : Name Component)
    (selector : EntrySelector Component) : Int → Exec (Option EntryId)
  | .ofNat i => probeDown host tree name selector (i+1)
  | .negSucc _ => .ok none

def findLongestPrefixMatch (host : Host Component) (tree : NameTree Component) (name : Name Component)
    (selector : EntrySelector Component) : Exec (Option EntryId) :=
  probeFrom host tree name selector (toInt name.length)

-- size_t wraps below zero.
def decrement (n : Nat) : Nat := if n = 0 then 2^64 - 1 else n - 1

def removeChild (entries : Heap (Entry Component)) (parent : Option EntryId) (child : EntryId) :
    Exec (Heap (Entry Component)) :=
  match parent with
  | none => .ok entries
  | some p => do
    let object ← entries.fetch p
    match swapRemove object.children child with
    | some rest => return entries.write p {object with children := rest}
    | none => .error .assertion

def bypass (tree : NameTree Component) (entry : Entry Component) (node : Node) :
    Exec (List (Option NodeId) × Heap Node) :=
  match node.prev with
  | some p => do
    let nodes ← tree.nodes.update p (fun object => {object with next := node.next})
    return (tree.buckets,nodes)
  | none => return (tree.buckets.set (entry.hash.toNat % tree.nBuckets) node.next,tree.nodes)

def detach (nodes : Heap Node) (n : NodeId) (nodePrev : Option NodeId) : Exec (Heap Node) := do
  let node ← nodes.fetch n
  match node.next with
  | some q => do
    let nodes ← nodes.update q (fun object => {object with prev := nodePrev})
    nodes.update n (fun object => {object with next := none})
  | none => return nodes

def unlink (tree : NameTree Component) (e : EntryId) : Exec (NameTree Component) := do
  let entry ← tree.entries.fetch e
  let n ← required entry.node
  let node ← tree.nodes.fetch n
  let (buckets,nodes) ← tree.bypass entry node
  let nodes ← detach nodes n node.prev
  let node ← nodes.fetch n
  if node.next.isNone then
    return {tree with nItems := decrement tree.nItems,buckets := buckets,nodes := nodes.free n}
  else .error .assertion

def removeEntry (tree : NameTree Component) (e : EntryId) (entry : Entry Component) : Exec (NameTree Component) := do
  let entries ← removeChild tree.entries entry.parent e
  unlink {tree with entries := entries} e

def eraseFrom : Nat → NameTree Component → EntryId → Exec (NameTree Component × Bool)
  | 0,_,_ => .error .endless
  | fuel+1,tree,e => do
    let entry ← tree.entries.fetch e
    if entry.isEmpty then
      let tree ← tree.removeEntry e entry
      match entry.parent with
      | some p => do
        let (tree,_) ← eraseFrom fuel tree p
        return (tree,true)
      | none => return (tree,true)
    else return (tree,false)

-- There are no more parent pointers to follow than entries.
def eraseEntryIfEmpty (tree : NameTree Component) (e : EntryId) : Exec (NameTree Component × Bool) :=
  eraseFrom (tree.entries.size + 1) tree e

def attach (tree : NameTree Component) (e : EntryId) (change : Payload.Change) : Exec (NameTree Component) := do
  let entries ← tree.entries.update e (fun entry => {entry with payload := (entry.payload.apply change).1})
  return {tree with entries := entries}

end NameTree
end NfdTables
