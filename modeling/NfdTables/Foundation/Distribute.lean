import Mathlib.Data.List.Nodup
import Mathlib.Data.List.Perm.Basic
import Mathlib.Data.List.Induction

namespace NfdTables
variable {α : Type}

-- The items sorted into `k` classes, in order within each class.
def distribute (k : Nat) (classOf : α → Nat) (items : List α) : List (List α) :=
  (List.range k).map fun b => items.filter fun item => classOf item = b

theorem distribute_nil (k : Nat) (classOf : α → Nat) : distribute k classOf [] = List.replicate k [] := by
  simp [distribute,List.map_const']

theorem distribute_length (k : Nat) (classOf : α → Nat) (items : List α) : (distribute k classOf items).length = k := by
  simp [distribute]

theorem distribute_at {k b : Nat} (bound : b < k) (classOf : α → Nat) (items : List α) :
    (distribute k classOf items)[b]? = some (items.filter fun item => classOf item = b) := by
  simp [distribute,bound]

theorem mem_distribute {k : Nat} {classOf : α → Nat} (member : group ∈ distribute k classOf items) :
    ∃ b < k, group = items.filter fun item => classOf item = b := by
  obtain ⟨b,inside,rfl⟩ := List.mem_map.mp member
  exact ⟨b,List.mem_range.mp inside,rfl⟩

theorem distribute_concat (k : Nat) (classOf : α → Nat) (items : List α) (item : α) :
    distribute k classOf (items ++ [item]) =
      (distribute k classOf items).set (classOf item) ((items.filter fun other => classOf other = classOf item) ++ [item]) := by
  refine List.ext_getElem? (fun b => ?_)
  by_cases inside : b < k
  · rw [distribute_at inside]
    by_cases same : b = classOf item
    · subst b
      rw [List.getElem?_set_self (by rwa [distribute_length])]
      simp
    · rw [List.getElem?_set_ne (Ne.symm same),distribute_at inside]
      simp [Ne.symm same]
  · have past : k ≤ b := Nat.le_of_not_lt inside
    rw [List.getElem?_eq_none (by rwa [distribute_length]),
      List.getElem?_eq_none (by rwa [List.length_set,distribute_length])]

theorem mem_distribute_flatten {k : Nat} {classOf : α → Nat} (bounded : ∀ item ∈ items, classOf item < k) :
    item ∈ (distribute k classOf items).flatten ↔ item ∈ items := by
  constructor
  · intro member
    obtain ⟨group,inside,deep⟩ := List.mem_flatten.mp member
    obtain ⟨b,_,rfl⟩ := mem_distribute inside
    exact List.mem_of_mem_filter deep
  · intro member
    refine List.mem_flatten.mpr ⟨_,List.mem_of_getElem? (distribute_at (bounded item member) classOf items),?_⟩
    simp [member]

-- A search that can only succeed in one class may look at that class alone.
theorem search_class {classOf : α → Nat} {items : List α} {find : α → Option β}
    (hits : ∀ item ∈ items, (find item).isSome → classOf item = b) :
    (items.filter fun item => classOf item = b).findSome? find = items.findSome? find := by
  induction items with
  | nil => rfl
  | cons item rest ih =>
    have later := ih fun other member => hits other (List.mem_cons_of_mem _ member)
    by_cases same : classOf item = b
    · simp only [List.filter_cons,same,decide_true,if_true,List.findSome?_cons,later]
    · have missed : find item = none := by
        cases found : find item with
        | none => rfl
        | some result => exact absurd (hits item (by simp) (by rw [found]; rfl)) same
      simp only [List.filter_cons,same,decide_false,Bool.false_eq_true,if_false,List.findSome?_cons,missed,later]

-- Groups whose items are in the class of their position are the classes.
theorem group_eq {classOf : α → Nat} {groups : List (List α)}
    (sorted : ∀ loc group, groups[loc]? = some group → ∀ item ∈ group, classOf item = loc)
    (at_loc : groups[loc]? = some group) : groups.flatten.filter (fun item => classOf item = loc) = group := by
  obtain ⟨bound,here⟩ := List.getElem?_eq_some_iff.mp at_loc
  have split : groups = groups.take loc ++ group :: groups.drop (loc+1) := by
    rw [← here,List.getElem_cons_drop,List.take_append_drop]
  have kept : group.filter (fun item => classOf item = loc) = group := by
    rw [List.filter_eq_self]
    intro item member
    rw [decide_eq_true_iff]
    exact sorted loc group at_loc item member
  have before : (groups.take loc).flatten.filter (fun item => classOf item = loc) = [] := by
    rw [List.filter_eq_nil_iff]
    intro item member
    obtain ⟨other,inside,deep⟩ := List.mem_flatten.mp member
    obtain ⟨i,early,got⟩ := List.mem_take_iff_getElem.mp inside
    rw [decide_eq_true_iff,sorted i other (List.getElem?_eq_some_iff.mpr ⟨_,got⟩) item deep]
    omega
  have behind : (groups.drop (loc+1)).flatten.filter (fun item => classOf item = loc) = [] := by
    rw [List.filter_eq_nil_iff]
    intro item member
    obtain ⟨other,inside,deep⟩ := List.mem_flatten.mp member
    obtain ⟨i,got⟩ := List.mem_iff_getElem?.mp inside
    rw [List.getElem?_drop] at got
    rw [decide_eq_true_iff,sorted _ other got item deep]
    omega
  rw [split,List.flatten_append,List.flatten_cons,List.filter_append,List.filter_append,before,kept,behind,
    List.nil_append,List.append_nil]

-- The first item of a class is the one no earlier item shares the class with.
theorem head_filter_iff {classOf : α → Nat} {items : List α} :
    (items.filter fun item => classOf item = b).head? = some first ↔
      ∃ front behind, items = front ++ first :: behind ∧ classOf first = b ∧ b ∉ front.map classOf := by
  induction items with
  | nil => simp
  | cons item rest ih =>
    by_cases same : classOf item = b
    · simp only [List.filter_cons,same,decide_true,if_true,List.head?_cons,Option.some.injEq]
      constructor
      · rintro rfl
        exact ⟨[],rest,rfl,same,by simp⟩
      · rintro ⟨front,behind,shape,_,absent⟩
        cases front with
        | nil => exact (List.cons.inj shape).1
        | cons head front =>
          obtain ⟨rfl,_⟩ := List.cons.inj shape
          exact absurd (by simp [same]) absent
    · simp only [List.filter_cons,same,decide_false,Bool.false_eq_true,if_false,ih]
      constructor
      · rintro ⟨front,behind,rfl,equal,absent⟩
        exact ⟨item :: front,behind,rfl,equal,by simp [absent,Ne.symm same]⟩
      · rintro ⟨front,behind,shape,equal,absent⟩
        cases front with
        | nil => exact absurd ((List.cons.inj shape).1 ▸ equal) same
        | cons head front =>
          obtain ⟨rfl,rfl⟩ := List.cons.inj shape
          exact ⟨front,behind,rfl,equal,fun inside => absent (by simp [inside])⟩

-- Every class is met for the first time before any class is met again.
def FirstsFirst (classes : List Nat) : Prop :=
  ∀ i, (bound : i < classes.length) → classes[i] ∉ classes.take i → (classes.take i).Nodup

instance (classes : List Nat) : Decidable (FirstsFirst classes) := by unfold FirstsFirst; infer_instance

theorem firstsFirst_iff : FirstsFirst classes ↔
    ∀ front b behind, classes = front ++ b :: behind → b ∉ front → front.Nodup := by
  constructor
  · rintro ordered front b behind rfl absent
    have here := ordered front.length (by simp)
    simpa [absent] using here
  · intro ordered i bound absent
    refine ordered (classes.take i) classes[i] (classes.drop (i+1)) ?_ absent
    rw [List.getElem_cons_drop,List.take_append_drop]

end NfdTables
