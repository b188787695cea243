import NfdTables.Pit.Laws

namespace NfdTables
open Machine PrefixSet
variable {Component Exclude Milliseconds Tree : Type}

namespace Registry
variable [DecidableEq Component] {registry : Registry Component}

def held (registry : Registry Component) (x : Name Component) : List PitId :=
  if x ∈ registry.names then (registry.cell x).payload.pitEntries else []

theorem held_stored (stored : x ∈ registry.names) : registry.held x = (registry.cell x).payload.pitEntries := if_pos stored

theorem held_absent (absent : x ∉ registry.names) : registry.held x = [] := if_neg absent

theorem stored_of_held (member : e ∈ registry.held x) : x ∈ registry.names := by
  by_contra absent
  rw [held_absent absent] at member
  cases member

theorem held_enter (registry : Registry Component) (name x : Name Component) : (registry.enter name).held x = registry.held x := by
  by_cases old : name ∈ registry.names
  · rw [enter_stored old]
  · rw [enter_fresh old]
    by_cases same : x = name
    · subst x
      simp [held,old]
    · simp [held,same]

-- A new name comes with an empty list.
theorem held_lookup (registry : Registry Component) (name x : Name Component) : (registry.lookup name).held x = registry.held x := by
  rw [lookup_eq]
  generalize (List.range (name.length + 1)).map (getPrefix name) = names
  induction names generalizing registry with
  | nil => rfl
  | cons y rest ih => rw [List.foldl_cons,ih,held_enter]

theorem held_attach (distinct : registry.Distinct) (stored : x ∈ registry.names) (change : Payload.Change) (y : Name Component) :
    (registry.attach (registry.cell x).object change).held y =
      if y = x then ((registry.cell x).payload.apply change).1.pitEntries else registry.held y := by
  by_cases same : y = x
  · subst y
    simp [held,attach,stored]
  · rw [if_neg same]
    by_cases other : y ∈ registry.names
    · have apart : (registry.cell y).object ≠ (registry.cell x).object := fun equal =>
        same (distinct.injective y other x stored equal)
      simp [held,attach,other,apart]
    · simp [held,attach,other]

end Registry

theorem ClearsEmpty.held [DecidableEq Component] {registry after : Registry Component} (clears : ClearsEmpty registry x after)
    (y : Name Component) : after.held y = registry.held y := by
  by_cases kept : y ∈ after.names
  · rw [Registry.held_stored kept,Registry.held_stored (clears.names kept),clears.cell y kept]
  · rw [Registry.held_absent kept]
    by_cases stored : y ∈ registry.names
    · have nothing := (Payload.isEmpty_iff _).mp (clears.idle y stored kept)
      rw [Registry.held_stored stored,nothing]
    · rw [Registry.held_absent stored]

namespace Pit

-- The list without one entry, as deletePitEntry() leaves it.
def without (items : List PitId) (e : PitId) : List PitId := (swapRemove items e).getD items

theorem deletePitEntry_without (payload : Payload) (e : PitId) :
    (payload.apply (.deletePitEntry e)).1 = {payload with pitEntries := without payload.pitEntries e} := by
  simp only [Payload.apply,Payload.deletePitEntry,without]
  split
  · rename_i rest removed
    rw [removed]
    rfl
  · rename_i absent
    rw [absent]
    rfl

theorem without_perm {items : List PitId} (member : e ∈ items) : items.Perm (e :: without items e) := by
  obtain ⟨rest,removed,perm⟩ := swapRemove_perm member
  rwa [without,removed]

theorem without_absent {items : List PitId} (absent : e ∉ items) : without items e = items := by
  rw [without,swapRemove_absent absent]
  rfl

theorem without_nodup {items : List PitId} (nodup : items.Nodup) (e : PitId) : (without items e).Nodup := by
  by_cases member : e ∈ items
  · exact (List.nodup_cons.mp ((without_perm member).nodup_iff.mp nodup)).2
  · rwa [without_absent member]

theorem mem_without {items : List PitId} (nodup : items.Nodup) : f ∈ without items e ↔ f ∈ items ∧ f ≠ e := by
  by_cases member : e ∈ items
  · have perm := without_perm member
    have fresh := (List.nodup_cons.mp (perm.nodup_iff.mp nodup)).1
    rw [perm.mem_iff,List.mem_cons]
    constructor
    · exact fun inside => ⟨.inr inside,fun same => fresh (same ▸ inside)⟩
    · exact fun ⟨either,differ⟩ => either.resolve_left differ
  · rw [without_absent member]
    exact ⟨fun inside => ⟨inside,fun same => member (same ▸ inside)⟩,And.left⟩

variable [DecidableEq Component]

-- Each list holds entries of its own name, none twice and no two similar ones.
structure Books (ndn : Ndn Component Exclude Milliseconds) (entries : Heap (PitEntry Component Exclude Milliseconds))
    (held : Name Component → List PitId) : Prop where
  named : ∀ x, ∀ e ∈ held x, ∃ entry, entries.read e = some entry ∧ entry.getName = x
  nodup : ∀ x, (held x).Nodup
  unique : ∀ x, ∀ e ∈ held x, ∀ f ∈ held x, ∀ one two, entries.read e = some one → entries.read f = some two →
    Similar ndn one.getInterest two.getInterest → e = f

section Books
variable {ndn : Ndn Component Exclude Milliseconds} {entries : Heap (PitEntry Component Exclude Milliseconds)}
  {held : Name Component → List PitId}

def enlist (held : Name Component → List PitId) (x : Name Component) (e : PitId) (y : Name Component) : List PitId :=
  if y = x then held y ++ [e] else held y

def strike (held : Name Component → List PitId) (x : Name Component) (e : PitId) (y : Name Component) : List PitId :=
  if y = x then without (held y) e else held y

theorem mem_enlist : f ∈ enlist held x e y ↔ f ∈ held y ∨ (y = x ∧ f = e) := by
  unfold enlist
  split <;> simp [*]

omit [DecidableEq Component] in
theorem Books.live (books : Books ndn entries held) (member : e ∈ held x) : e < entries.size := by
  obtain ⟨entry,live,_⟩ := books.named x e member
  exact Heap.live_bound live

omit [DecidableEq Component] in
theorem Books.fresh (books : Books ndn entries held) (x : Name Component) : entries.size ∉ held x :=
  fun member => Nat.lt_irrefl _ (books.live member)

omit [DecidableEq Component] in
-- An entry is in the list of one name only.
theorem Books.one_name (books : Books ndn entries held) (inX : e ∈ held x) (inY : e ∈ held y) : x = y := by
  obtain ⟨entry,live,rfl⟩ := books.named x e inX
  obtain ⟨other,liveY,rfl⟩ := books.named y e inY
  rw [Option.some.inj (live.symm.trans liveY)]

theorem mem_strike (books : Books ndn entries held) : f ∈ strike held x e y ↔ f ∈ held y ∧ (y = x → f ≠ e) := by
  unfold strike
  split
  · rename_i same
    rw [mem_without (books.nodup y)]
    simp [same]
  · rename_i other
    simp [other]

omit [DecidableEq Component] in
theorem read_older (older : e < entries.size) (entry : PitEntry Component Exclude Milliseconds) :
    (entries.alloc entry).read e = entries.read e := by
  rw [Heap.read_alloc,if_neg (Nat.ne_of_lt older)]

theorem Books.enlist (books : Books ndn entries held) (interest : Interest Component Exclude Milliseconds)
    (alone : ∀ f ∈ held interest.name, ∀ entry, entries.read f = some entry → ¬ Similar ndn entry.getInterest interest) :
    Books ndn (entries.alloc ⟨interest⟩) (enlist held interest.name entries.size) := by
  have read_new : (entries.alloc ⟨interest⟩).read entries.size = some ⟨interest⟩ := by rw [Heap.read_alloc,if_pos rfl]
  refine ⟨?_,?_,?_⟩
  · intro x e member
    rcases mem_enlist.mp member with old | ⟨rfl,rfl⟩
    · rw [read_older (books.live old)]
      exact books.named x e old
    · exact ⟨⟨interest⟩,read_new,rfl⟩
  · intro x
    unfold Pit.enlist
    split
    · exact List.nodup_append.mpr ⟨books.nodup x,List.nodup_singleton _,fun f member g single same =>
        books.fresh x (List.mem_singleton.mp single ▸ same ▸ member)⟩
    · exact books.nodup x
  · intro x e inE f inF one two readE readF similar
    rcases mem_enlist.mp inE with oldE | ⟨rfl,rfl⟩
    · rw [read_older (books.live oldE)] at readE
      rcases mem_enlist.mp inF with oldF | ⟨rfl,rfl⟩
      · rw [read_older (books.live oldF)] at readF
        exact books.unique x e oldE f oldF one two readE readF similar
      · cases Option.some.inj (read_new.symm.trans readF)
        exact absurd similar (alone e oldE one readE)
    · cases Option.some.inj (read_new.symm.trans readE)
      rcases mem_enlist.mp inF with oldF | ⟨_,rfl⟩
      · rw [read_older (books.live oldF)] at readF
        exact absurd similar.symm (alone f oldF two readF)
      · rfl

theorem Books.strike (books : Books ndn entries held) (x : Name Component) (e : PitId) :
    Books ndn entries (strike held x e) := by
  have before : ∀ {f y}, f ∈ Pit.strike held x e y → f ∈ held y := fun member => ((mem_strike books).mp member).1
  refine ⟨fun y f member => books.named y f (before member),fun y => ?_,fun y f inF g inG =>
    books.unique y f (before inF) g (before inG)⟩
  unfold Pit.strike
  split
  · exact without_nodup (books.nodup y) e
  · exact books.nodup y
end Books

end Pit
end NfdTables
