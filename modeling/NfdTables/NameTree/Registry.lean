import NfdTables.Foundation.PrefixSet
import NfdTables.NameTree.Entry

namespace NfdTables
open PrefixSet

-- What a name tree is for: names, each with the object handed out for it and what
-- clients have attached.
structure Cell where
  object : EntryId
  payload : Payload
deriving DecidableEq

structure Registry (Component : Type) where
  names : Finset (Name Component)
  cell : Name Component → Cell
  next : EntryId

namespace Registry
variable {Component : Type} [DecidableEq Component]

def empty : Registry Component := ⟨∅,fun _ => ⟨0,{}⟩,0⟩

def find (registry : Registry Component) (name : Name Component) : Option EntryId :=
  if name ∈ registry.names then some (registry.cell name).object else none

def idle (registry : Registry Component) (name : Name Component) : Bool := (registry.cell name).payload.isEmpty

-- A name that is not stored gets a new object with nothing attached.
def enter (registry : Registry Component) (name : Name Component) : Registry Component :=
  if name ∈ registry.names then registry else
  { names := insert name registry.names
    cell := fun other => if other = name then ⟨registry.next,{}⟩ else registry.cell other
    next := registry.next + 1 }

def lookup (registry : Registry Component) (name : Name Component) : Registry Component :=
  (List.range (name.length + 1)).foldl (fun registry i => registry.enter (getPrefix name i)) registry

def attach (registry : Registry Component) (e : EntryId) (change : Payload.Change) : Registry Component :=
  {registry with cell := fun name =>
    if (registry.cell name).object = e then ⟨e,((registry.cell name).payload.apply change).1⟩
    else registry.cell name}

-- The name with the maximal chain of its ancestors left without child and payload.
def eraseAt (registry : Registry Component) (name : Name Component) : Registry Component :=
  {registry with names := prune registry.names registry.idle name}

def forget (registry : Registry Component) (name : Name Component) : Registry Component :=
  {registry with names := registry.names.erase name}

def Holds (registry : Registry Component) (e : EntryId) : Prop :=
  ∃ name ∈ registry.names, (registry.cell name).object = e

def FallsWith (registry : Registry Component) (e : EntryId) (y : Name Component) : Prop :=
  ∃ x ∈ registry.names, (registry.cell x).object = e ∧ Doomed registry.names registry.idle x y

instance (registry : Registry Component) (e : EntryId) : Decidable (registry.Holds e) := by
  unfold Holds; infer_instance

instance (registry : Registry Component) (e : EntryId) (y : Name Component) : Decidable (registry.FallsWith e y) := by
  unfold FallsWith; infer_instance

def erase (registry : Registry Component) (e : EntryId) : Registry Component :=
  {registry with names := registry.names.filter (fun y => ¬ registry.FallsWith e y)}

def parentOf (registry : Registry Component) (name : Name Component) : Option EntryId :=
  if name = [] then none else some (registry.cell name.dropLast).object

-- Each stored name has an object of its own, and the next one is new.
structure Distinct (registry : Registry Component) : Prop where
  injective : ∀ x ∈ registry.names, ∀ y ∈ registry.names,
    (registry.cell x).object = (registry.cell y).object → x = y
  older : ∀ x ∈ registry.names, (registry.cell x).object < registry.next

theorem find_stored {registry : Registry Component} (stored : name ∈ registry.names) :
    registry.find name = some (registry.cell name).object := if_pos stored

theorem find_absent {registry : Registry Component} (absent : name ∉ registry.names) :
    registry.find name = none := if_neg absent

omit [DecidableEq Component] in
theorem parentOf_getPrefix (registry : Registry Component) (within : i + 1 ≤ name.length) :
    registry.parentOf (getPrefix name (i+1)) = some (registry.cell (getPrefix name i)).object := by
  rw [parentOf,if_neg (getPrefix_filled within),getPrefix_dropLast within]

theorem enter_stored {registry : Registry Component} (stored : name ∈ registry.names) :
    registry.enter name = registry := if_pos stored

theorem enter_fresh {registry : Registry Component} (absent : name ∉ registry.names) :
    registry.enter name = { names := insert name registry.names
                            cell := fun other => if other = name then ⟨registry.next,{}⟩ else registry.cell other
                            next := registry.next + 1 } := if_neg absent

theorem enter_names (registry : Registry Component) (name : Name Component) :
    (registry.enter name).names = insert name registry.names := by
  by_cases stored : name ∈ registry.names
  · rw [enter_stored stored,Finset.insert_eq_of_mem stored]
  · rw [enter_fresh stored]

theorem enter_cell {registry : Registry Component} (stored : other ∈ registry.names) (name : Name Component) :
    (registry.enter name).cell other = registry.cell other := by
  by_cases present : name ∈ registry.names
  · rw [enter_stored present]
  · rw [enter_fresh present]
    exact if_neg (fun same : other = name => present (same ▸ stored))

theorem enters_names (names : List (Name Component)) (registry : Registry Component) :
    (names.foldl enter registry).names = registry.names ∪ names.toFinset := by
  induction names generalizing registry with
  | nil => simp
  | cons name rest ih =>
    rw [List.foldl_cons,ih,enter_names]
    ext other
    simp

theorem enters_cell (names : List (Name Component)) {registry : Registry Component} (stored : other ∈ registry.names) :
    (names.foldl enter registry).cell other = registry.cell other := by
  induction names generalizing registry with
  | nil => rfl
  | cons name rest ih =>
    rw [List.foldl_cons,ih (by rw [enter_names]; exact Finset.mem_insert_of_mem stored),enter_cell stored]

theorem lookup_eq (registry : Registry Component) (name : Name Component) :
    registry.lookup name = ((List.range (name.length + 1)).map (getPrefix name)).foldl enter registry := by
  rw [lookup,List.foldl_map]

omit [DecidableEq Component] in
theorem mem_prefixes {name other : Name Component} :
    other ∈ (List.range (name.length + 1)).map (getPrefix name) ↔ other <+: name := by
  constructor
  · intro member
    obtain ⟨i,_,rfl⟩ := List.mem_map.mp member
    exact List.take_prefix i name
  · intro below
    refine List.mem_map.mpr ⟨other.length,List.mem_range.mpr (Nat.lt_succ_of_le below.length_le),?_⟩
    exact (List.prefix_iff_eq_take.mp below).symm

theorem mem_lookup {registry : Registry Component} :
    other ∈ (registry.lookup name).names ↔ other ∈ registry.names ∨ other <+: name := by
  rw [lookup_eq,enters_names,Finset.mem_union,List.mem_toFinset,mem_prefixes]

theorem lookup_cell {registry : Registry Component} (stored : other ∈ registry.names) (name : Name Component) :
    (registry.lookup name).cell other = registry.cell other := by
  rw [lookup_eq,enters_cell _ stored]

theorem Distinct.enter {registry : Registry Component} (distinct : Distinct registry) (name : Name Component) :
    Distinct (registry.enter name) := by
  by_cases stored : name ∈ registry.names
  · rwa [enter_stored stored]
  · have apart : ∀ x ∈ registry.names, x ≠ name := fun x member same => stored (same ▸ member)
    rw [enter_fresh stored]
    refine ⟨?_,?_⟩
    · intro x hx y hy same
      rcases Finset.mem_insert.mp hx with rfl | oldX <;> rcases Finset.mem_insert.mp hy with rfl | oldY
      · rfl
      · have bound := distinct.older y oldY
        simp only [if_neg (apart y oldY),if_true] at same
        exact absurd same (Nat.ne_of_gt bound)
      · have bound := distinct.older x oldX
        simp only [if_neg (apart x oldX),if_true] at same
        exact absurd same (Nat.ne_of_lt bound)
      · simp only [if_neg (apart x oldX),if_neg (apart y oldY)] at same
        exact distinct.injective x oldX y oldY same
    · intro x hx
      rcases Finset.mem_insert.mp hx with rfl | oldX
      · simp
      · simp only [if_neg (apart x oldX)]
        exact Nat.lt_succ_of_lt (distinct.older x oldX)

theorem Distinct.lookup {registry : Registry Component} (distinct : Distinct registry) (name : Name Component) :
    Distinct (registry.lookup name) := by
  rw [lookup_eq]
  generalize (List.range (name.length + 1)).map (getPrefix name) = names
  induction names generalizing registry with
  | nil => exact distinct
  | cons x rest ih => exact ih (distinct.enter x)

theorem lookup_closed {registry : Registry Component} (closed : Closed registry.names) (name : Name Component) :
    Closed (registry.lookup name).names := by
  intro x member y below
  rcases mem_lookup.mp member with old | inside
  · exact mem_lookup.mpr (.inl (closed x old y below))
  · exact mem_lookup.mpr (.inr (below.trans inside))

omit [DecidableEq Component] in
theorem attach_object (registry : Registry Component) (e : EntryId) (change : Payload.Change) (name : Name Component) :
    ((registry.attach e change).cell name).object = (registry.cell name).object := by
  simp only [attach]
  split
  · rename_i same; exact same.symm
  · rfl

omit [DecidableEq Component] in
theorem attach_parentOf (registry : Registry Component) (e : EntryId) (change : Payload.Change) (name : Name Component) :
    (registry.attach e change).parentOf name = registry.parentOf name := by
  simp only [parentOf,attach_object]

omit [DecidableEq Component] in
theorem Distinct.attach {registry : Registry Component} (distinct : Distinct registry) (e : EntryId) (change : Payload.Change) :
    Distinct (registry.attach e change) where
  injective := by
    intro x storedX y storedY same
    rw [attach_object,attach_object] at same
    exact distinct.injective x storedX y storedY same
  older := by
    intro x stored
    rw [attach_object]
    exact distinct.older x stored

theorem eraseAt_busy {registry : Registry Component} (stored : name ∈ registry.names)
    (busy : registry.idle name = false ∨ ∃ k, name ++ [k] ∈ registry.names) : registry.eraseAt name = registry := by
  rw [eraseAt,prune_busy stored busy]

theorem eraseAt_root {registry : Registry Component} (closed : Closed registry.names) (quiet : registry.idle [] = true)
    (childless : ∀ k, [] ++ [k] ∉ registry.names) : registry.eraseAt [] = registry.forget [] := by
  rw [eraseAt,prune_root closed quiet childless]
  rfl

theorem eraseAt_leaf {registry : Registry Component} (closed : Closed registry.names) (quiet : registry.idle name = true)
    (childless : ∀ k, name ++ [k] ∉ registry.names) :
    registry.eraseAt name = (registry.forget name).eraseAt name.dropLast := by
  rw [eraseAt,prune_leaf closed quiet childless]
  rfl

omit [DecidableEq Component] in
theorem fallsWith_iff {registry : Registry Component} (distinct : Distinct registry) (stored : name ∈ registry.names) :
    registry.FallsWith (registry.cell name).object y ↔ Doomed registry.names registry.idle name y := by
  constructor
  · rintro ⟨x,member,same,doomed⟩
    rwa [distinct.injective x member name stored same] at doomed
  · exact fun doomed => ⟨name,stored,rfl,doomed⟩

theorem erase_eq {registry : Registry Component} (distinct : Distinct registry) (stored : name ∈ registry.names) :
    registry.erase (registry.cell name).object = registry.eraseAt name := by
  simp only [erase,eraseAt,prune,fallsWith_iff distinct stored]

end Registry
end NfdTables
