import NfdTables.Foundation.Heap
import NfdTables.Foundation.SwapRemove

namespace NfdTables

-- A name of the ndn library; getPrefix(n) takes its first n components.
abbrev Name (Component : Type) := List Component
def getPrefix (name : Name Component) (n : Nat) : Name Component := name.take n

theorem getPrefix_length {Component : Type} {name : Name Component} (within : i ≤ name.length) :
    (getPrefix name i).length = i := by
  rw [getPrefix,List.length_take,Nat.min_eq_left within]

theorem getPrefix_prefix {Component : Type} {name other : Name Component} (below : other <+: name) :
    getPrefix name other.length = other :=
  (List.prefix_iff_eq_take.mp below).symm

theorem getPrefix_dropLast {Component : Type} {name : Name Component} (within : i + 1 ≤ name.length) :
    (getPrefix name (i+1)).dropLast = getPrefix name i := by
  rw [getPrefix,getPrefix,List.dropLast_eq_take,List.take_take,List.length_take,Nat.min_eq_left within,
    Nat.add_sub_cancel,Nat.min_eq_left (Nat.le_succ i)]

theorem getPrefix_filled {Component : Type} {name : Name Component} (within : i + 1 ≤ name.length) :
    getPrefix name (i+1) ≠ [] := by
  intro empty
  have short := congrArg List.length empty
  rw [getPrefix_length within] at short
  cases short

-- Pointers are object identities.
abbrev NodeId := Nat
abbrev EntryId := Nat
abbrev FibId := Nat
abbrev PitId := Nat
abbrev MeasurementsId := Nat

-- The three members of an entry that other tables attach to it.
structure Payload where
  fib : Option FibId := none
  pitEntries : List PitId := []
  measurements : Option MeasurementsId := none
deriving DecidableEq,Repr

namespace Payload

def isEmpty (payload : Payload) : Bool :=
  payload.fib.isNone && payload.pitEntries.isEmpty && payload.measurements.isNone

-- A null pointer clears the member.
def setFibEntry (payload : Payload) (fib : Option FibId) : Payload × Bool := ({payload with fib := fib},true)

def deleteFibEntry (payload : Payload) (fib : Option FibId) : Payload × Bool :=
  if payload.fib ≠ fib then (payload,false) else ({payload with fib := none},true)

def insertPitEntry (payload : Payload) (pit : PitId) : Payload × Bool :=
  ({payload with pitEntries := payload.pitEntries ++ [pit]},true)

def deletePitEntry (payload : Payload) (pit : PitId) : Payload × Bool :=
  match swapRemove payload.pitEntries pit with
  | some rest => ({payload with pitEntries := rest},true)
  | none => (payload,false)

def setMeasurementsEntry (payload : Payload) (measurements : Option MeasurementsId) : Payload × Bool :=
  ({payload with measurements := measurements},true)

inductive Change where
  | setFibEntry (fib : Option FibId)
  | deleteFibEntry (fib : Option FibId)
  | insertPitEntry (pit : PitId)
  | deletePitEntry (pit : PitId)
  | setMeasurementsEntry (measurements : Option MeasurementsId)
deriving DecidableEq,Repr

def apply (payload : Payload) : Change → Payload × Bool
  | .setFibEntry fib => payload.setFibEntry fib
  | .deleteFibEntry fib => payload.deleteFibEntry fib
  | .insertPitEntry pit => payload.insertPitEntry pit
  | .deletePitEntry pit => payload.deletePitEntry pit
  | .setMeasurementsEntry measurements => payload.setMeasurementsEntry measurements

theorem isEmpty_iff (payload : Payload) : payload.isEmpty = true ↔ payload = {} := by
  cases payload
  simp [isEmpty,and_assoc]

end Payload

structure Entry (Component : Type) where
  namePrefix : Name Component
  hash : UInt32 := 0
  parent : Option EntryId := none
  children : List EntryId := []
  payload : Payload := {}
  node : Option NodeId := none
deriving DecidableEq

namespace Entry
variable {Component : Type}

def hasChildren (entry : Entry Component) : Bool := !entry.children.isEmpty

def isEmpty (entry : Entry Component) : Bool := !entry.hasChildren && entry.payload.isEmpty

theorem isEmpty_iff (entry : Entry Component) :
    entry.isEmpty = true ↔ entry.children = [] ∧ entry.payload.isEmpty = true := by
  simp [isEmpty,hasChildren]

end Entry

structure Node where
  prev : Option NodeId := none
  next : Option NodeId := none
  entry : Option EntryId := none
deriving DecidableEq,Repr

-- A predicate may look at the object's identity and at what it holds.
abbrev EntrySelector (Component : Type) := EntryId → Entry Component → Bool
abbrev EntrySubTreeSelector (Component : Type) := EntryId → Entry Component → Bool × Bool
def anyEntry : EntrySelector Component := fun _ _ => true
def anyEntrySubTree : EntrySubTreeSelector Component := fun _ _ => (true,true)

end NfdTables
