import NfdTables.Foundation.Machine
import Mathlib.Data.List.Perm.Subperm

namespace NfdTables
open Machine

-- An identity is never handed out twice, so a pointer to a released object stays
-- recognisable as dangling even where an allocator would reuse the address.
structure Heap (α : Type) where
  cells : List (Option α)
deriving DecidableEq,Repr

namespace Heap
variable {α : Type}

def empty : Heap α := ⟨[]⟩
def size (heap : Heap α) : Nat := heap.cells.length
def read (heap : Heap α) (key : Nat) : Option α := heap.cells[key]?.join
-- The new object's identity is the size before the call.
def alloc (heap : Heap α) (value : α) : Heap α := ⟨heap.cells ++ [some value]⟩
def write (heap : Heap α) (key : Nat) (value : α) : Heap α := ⟨heap.cells.set key (some value)⟩
def free (heap : Heap α) (key : Nat) : Heap α := ⟨heap.cells.set key none⟩

def fetch (heap : Heap α) (key : Nat) : Exec α :=
  match heap.read key with
  | some value => .ok value
  | none => .error .danglingPointer

def update (heap : Heap α) (key : Nat) (change : α → α) : Exec (Heap α) := do
  let value ← heap.fetch key
  return heap.write key (change value)

@[simp] theorem size_alloc (heap : Heap α) (value : α) : (heap.alloc value).size = heap.size + 1 := by
  simp [size,alloc]
@[simp] theorem size_write (heap : Heap α) (key : Nat) (value : α) : (heap.write key value).size = heap.size := by
  simp [size,write]
@[simp] theorem size_free (heap : Heap α) (key : Nat) : (heap.free key).size = heap.size := by
  simp [size,free]

theorem live_bound {heap : Heap α} (live : heap.read key = some value) : key < heap.size := by
  by_cases bound : key < heap.size
  · exact bound
  · have absent : heap.cells[key]? = none := List.getElem?_eq_none (Nat.le_of_not_gt bound)
    simp [read,absent] at live

theorem read_beyond {heap : Heap α} (beyond : heap.size ≤ key) : heap.read key = none := by
  cases got : heap.read key with
  | none => rfl
  | some value => exact absurd (live_bound got) (Nat.not_lt.mpr beyond)

theorem read_alloc (heap : Heap α) (value : α) (key : Nat) :
    (heap.alloc value).read key = if key = heap.size then some value else heap.read key := by
  by_cases fresh : key = heap.size
  · subst key
    simp [read,alloc,size]
  · rw [if_neg fresh]
    rcases Nat.lt_or_gt_of_ne fresh with older | newer
    · simp only [read,alloc,List.getElem?_append_left older]
    · have past : (heap.alloc value).size ≤ key := by rw [size_alloc]; exact newer
      rw [read_beyond past,read_beyond (Nat.le_of_lt newer)]

theorem read_write {heap : Heap α} (live : heap.read key = some old) (value : α) (other : Nat) :
    (heap.write key value).read other = if other = key then some value else heap.read other := by
  have bound := live_bound live
  unfold size at bound
  by_cases same : other = key
  · subst other
    simp [read,write,bound]
  · simp [read,write,Ne.symm same,same]

theorem read_free (heap : Heap α) (key other : Nat) :
    (heap.free key).read other = if other = key then none else heap.read other := by
  by_cases same : other = key
  · subst other
    by_cases bound : key < heap.cells.length <;> simp [read,free,bound]
  · simp [read,free,Ne.symm same,same]

theorem write_same {heap : Heap α} (live : heap.read key = some value) : heap.write key value = heap := by
  have here : heap.cells[key]? = some (some value) := Option.join_eq_some_iff.mp live
  obtain ⟨bound,same⟩ := List.getElem?_eq_some_iff.mp here
  rw [write,← same,List.set_getElem_self]

theorem fetch_live {heap : Heap α} (live : heap.read key = some value) : heap.fetch key = .ok value := by
  simp [fetch,live]

theorem update_live {heap : Heap α} (live : heap.read key = some value) (change : α → α) :
    heap.update key change = .ok (heap.write key (change value)) := by
  simp [update,fetch_live live]

theorem length_le_size {heap : Heap α} {ids : List Nat} (nodup : ids.Nodup)
    (live : ∀ key ∈ ids, (heap.read key).isSome) : ids.length ≤ heap.size := by
  have inside : ids ⊆ List.range heap.size := by
    intro key member
    obtain ⟨value,got⟩ := Option.isSome_iff_exists.mp (live key member)
    exact List.mem_range.mpr (live_bound got)
  simpa using (List.subperm_of_subset nodup inside).length_le

end Heap
end NfdTables
