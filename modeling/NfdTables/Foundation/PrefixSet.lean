import Mathlib.Data.Finset.Basic
import Mathlib.Data.Finset.Card
import Mathlib.Data.List.Infix

namespace NfdTables.PrefixSet
variable {α : Type}

def Closed (names : Finset (List α)) : Prop := ∀ x ∈ names, ∀ y, y <+: x → y ∈ names

theorem proper_iff {x y : List α} : y <+: x ∧ y ≠ x ↔ x ≠ [] ∧ y <+: x.dropLast := by
  constructor
  · rintro ⟨⟨rest,rfl⟩,proper⟩
    rcases List.eq_nil_or_concat' rest with rfl | ⟨front,last,rfl⟩
    · simp at proper
    · rw [← List.append_assoc,List.dropLast_concat]
      exact ⟨by simp,List.prefix_append _ _⟩
  · rintro ⟨filled,inner⟩
    refine ⟨inner.trans (List.dropLast_prefix x),?_⟩
    rintro rfl
    have short := inner.length_le
    have long := List.length_pos_iff.mpr filled
    rw [List.length_dropLast] at short
    omega

theorem concat_of_proper {x z : List α} (below : x <+: z) (proper : z ≠ x) : ∃ k, x ++ [k] <+: z := by
  obtain ⟨rest,rfl⟩ := below
  cases rest with
  | nil => simp at proper
  | cons k rest => exact ⟨k,rest,by simp⟩

theorem Closed.parent {names : Finset (List α)} (closed : Closed names) (member : x ∈ names) : x.dropLast ∈ names :=
  closed x member _ (List.dropLast_prefix x)

theorem Closed.leaf_iff {names : Finset (List α)} (closed : Closed names) :
    (∀ k, x ++ [k] ∉ names) ↔ ∀ z ∈ names, x <+: z → z = x := by
  constructor
  · intro childless z member below
    by_contra proper
    obtain ⟨k,further⟩ := concat_of_proper below proper
    exact childless k (closed z member _ further)
  · intro alone k member
    have same := alone _ member (List.prefix_append x [k])
    simp at same

-- Pruning at `x`: `y` goes exactly when nothing but idle prefixes of `x` is stored at
-- or below it.
def Doomed (names : Finset (List α)) (idle : List α → Bool) (x y : List α) : Prop :=
  y <+: x ∧ ∀ z ∈ names, y <+: z → z <+: x ∧ idle z = true

theorem doomed_self {names : Finset (List α)} (closed : Closed names) (quiet : idle x = true)
    (childless : ∀ k, x ++ [k] ∉ names) : Doomed names idle x x := by
  refine ⟨List.prefix_rfl,fun z stored below => ?_⟩
  rw [closed.leaf_iff.mp childless z stored below]
  exact ⟨List.prefix_rfl,quiet⟩

variable [DecidableEq α]

theorem Closed.insert {names : Finset (List α)} (closed : Closed names) (rooted : x = [] ∨ x.dropLast ∈ names) :
    Closed (insert x names) := by
  intro z member y below
  rcases Finset.mem_insert.mp member with rfl | old
  · by_cases same : y = z
    · exact Finset.mem_insert.mpr (.inl same)
    · obtain ⟨filled,inner⟩ := proper_iff.mp ⟨below,same⟩
      exact Finset.mem_insert_of_mem (closed _ (rooted.resolve_left filled) _ inner)
  · exact Finset.mem_insert_of_mem (closed z old y below)

theorem Closed.erase_leaf {names : Finset (List α)} (closed : Closed names) (childless : ∀ k, x ++ [k] ∉ names) :
    Closed (names.erase x) := by
  intro z member y below
  obtain ⟨proper,old⟩ := Finset.mem_erase.mp member
  refine Finset.mem_erase.mpr ⟨?_,closed z old y below⟩
  rintro rfl
  exact proper ((closed.leaf_iff.mp childless) z old below)

instance (names : Finset (List α)) (idle : List α → Bool) (x y : List α) : Decidable (Doomed names idle x y) := by
  unfold Doomed; infer_instance

def prune (names : Finset (List α)) (idle : List α → Bool) (x : List α) : Finset (List α) :=
  names.filter (fun y => ¬ Doomed names idle x y)

theorem mem_prune {names : Finset (List α)} : y ∈ prune names idle x ↔ y ∈ names ∧ ¬ Doomed names idle x y := by
  simp [prune]

theorem prune_subset (names : Finset (List α)) (idle : List α → Bool) (x : List α) : prune names idle x ⊆ names :=
  Finset.filter_subset _ _

theorem Closed.prune {names : Finset (List α)} (closed : Closed names) (idle : List α → Bool) (x : List α) :
    Closed (prune names idle x) := by
  intro z member y below
  obtain ⟨stored,kept⟩ := mem_prune.mp member
  refine mem_prune.mpr ⟨closed z stored y below,fun doomed => kept ?_⟩
  exact ⟨(doomed.2 z stored below).1,fun w inside further => doomed.2 w inside (below.trans further)⟩

theorem prune_busy {names : Finset (List α)} (member : x ∈ names)
    (busy : idle x = false ∨ ∃ k, x ++ [k] ∈ names) : prune names idle x = names := by
  refine Finset.filter_true_of_mem (fun y _ doomed => ?_)
  rcases busy with loaded | ⟨k,child⟩
  · have quiet := (doomed.2 x member doomed.1).2
    rw [loaded] at quiet
    cases quiet
  · have short := (doomed.2 _ child (doomed.1.trans (List.prefix_append x [k]))).1.length_le
    rw [List.length_append,List.length_singleton] at short
    omega

theorem doomed_parent {names : Finset (List α)} (quiet : idle x = true) (proper : y ≠ x) :
    Doomed names idle x y ↔ Doomed (names.erase x) idle x.dropLast y := by
  constructor
  · rintro ⟨below,only⟩
    refine ⟨(proper_iff.mp ⟨below,proper⟩).2,fun z member further => ?_⟩
    obtain ⟨other,stored⟩ := Finset.mem_erase.mp member
    obtain ⟨inside,calm⟩ := only z stored further
    exact ⟨(proper_iff.mp ⟨inside,other⟩).2,calm⟩
  · rintro ⟨below,only⟩
    refine ⟨below.trans (List.dropLast_prefix x),fun z stored further => ?_⟩
    by_cases same : z = x
    · subst z; exact ⟨List.prefix_rfl,quiet⟩
    · obtain ⟨inside,calm⟩ := only z (Finset.mem_erase.mpr ⟨same,stored⟩) further
      exact ⟨inside.trans (List.dropLast_prefix x),calm⟩

theorem prune_leaf {names : Finset (List α)} (closed : Closed names) (quiet : idle x = true)
    (childless : ∀ k, x ++ [k] ∉ names) :
    prune names idle x = prune (names.erase x) idle x.dropLast := by
  ext y
  simp only [mem_prune,Finset.mem_erase]
  by_cases same : y = x
  · subst y
    simp [doomed_self closed quiet childless]
  · have moved : Doomed names idle x y ↔ Doomed (names.erase x) idle x.dropLast y := doomed_parent quiet same
    simp [moved,same]

theorem prune_root {names : Finset (List α)} (closed : Closed names) (quiet : idle [] = true)
    (childless : ∀ k, [] ++ [k] ∉ names) : prune names idle [] = names.erase [] := by
  ext y
  simp only [mem_prune,Finset.mem_erase]
  by_cases same : y = []
  · subst y
    simp [doomed_self closed quiet childless]
  · have open_ : ¬ Doomed names idle [] y := fun doomed => same (List.prefix_nil.mp doomed.1)
    simp [open_,same]

-- The same set found from below: an idle ancestor goes when its only child has gone.
inductive Falls (names : Finset (List α)) (idle : List α → Bool) (x : List α) : List α → Prop where
  | leaf : Falls names idle x x
  | parent (below : Falls names idle x y) (filled : y ≠ []) (quiet : idle y.dropLast = true)
      (only : ∀ k, y.dropLast ++ [k] ∈ names → y.dropLast ++ [k] = y) : Falls names idle x y.dropLast

omit [DecidableEq α] in
theorem Falls.doomed {names : Finset (List α)} (closed : Closed names) (quiet : idle x = true)
    (childless : ∀ k, x ++ [k] ∉ names) (falls : Falls names idle x y) : Doomed names idle x y := by
  induction falls with
  | leaf => exact doomed_self closed quiet childless
  | @parent w _ _ calm only ih =>
    refine ⟨(List.dropLast_prefix w).trans ih.1,fun z stored further => ?_⟩
    by_cases same : z = w.dropLast
    · rw [same]
      exact ⟨(List.dropLast_prefix w).trans ih.1,calm⟩
    · obtain ⟨k,inside⟩ := concat_of_proper further same
      exact ih.2 z stored (only k (closed z stored _ inside) ▸ inside)

omit [DecidableEq α] in
theorem Doomed.falls {names : Finset (List α)} (closed : Closed names) (member : x ∈ names)
    (doomed : Doomed names idle x y) : Falls names idle x y := by
  -- Induction on how far `y` is above `x`.
  obtain ⟨above,size⟩ : ∃ above, above = x.length - y.length := ⟨_,rfl⟩
  induction above generalizing y with
  | zero =>
    have long : x.length ≤ y.length := by omega
    rw [doomed.1.eq_of_length (Nat.le_antisymm doomed.1.length_le long)]
    exact .leaf
  | succ above ih =>
    have proper : x ≠ y := by rintro rfl; simp at size
    obtain ⟨k,further⟩ := concat_of_proper doomed.1 proper
    have wider : y <+: y ++ [k] := List.prefix_append _ _
    have next : Doomed names idle x (y ++ [k]) := ⟨further,fun z stored below => doomed.2 z stored (wider.trans below)⟩
    have falls := ih next (by simp; omega)
    have stored := closed x member y doomed.1
    have climbed := Falls.parent falls (by simp) (by rw [List.dropLast_concat]; exact (doomed.2 y stored List.prefix_rfl).2)
      (fun j child => by
        rw [List.dropLast_concat] at child ⊢
        have inside := (doomed.2 _ child (List.prefix_append _ _)).1
        exact List.prefix_of_prefix_length_le inside further (by simp) |>.eq_of_length (by simp))
    rwa [List.dropLast_concat] at climbed

omit [DecidableEq α] in
theorem falls_iff {names : Finset (List α)} (closed : Closed names) (member : x ∈ names) (quiet : idle x = true)
    (childless : ∀ k, x ++ [k] ∉ names) : Falls names idle x y ↔ Doomed names idle x y :=
  ⟨Falls.doomed closed quiet childless,Doomed.falls closed member⟩

-- The longest stored prefix of `x`.
def Nearest (names : Finset (List α)) (x y : List α) : Prop :=
  y ∈ names ∧ y <+: x ∧ ∀ z ∈ names, z <+: x → z <+: y

omit [DecidableEq α] in
theorem nearest_self {names : Finset (List α)} (member : x ∈ names) : Nearest names x y ↔ y = x := by
  constructor
  · rintro ⟨_,below,longest⟩
    exact below.eq_of_length (Nat.le_antisymm below.length_le (longest x member List.prefix_rfl).length_le)
  · rintro rfl
    exact ⟨member,List.prefix_rfl,fun _ _ inside => inside⟩

omit [DecidableEq α] in
theorem nearest_parent {names : Finset (List α)} (absent : x ∉ names) :
    Nearest names x y ↔ Nearest names x.dropLast y := by
  have inner : ∀ z ∈ names, z <+: x ↔ z <+: x.dropLast := by
    intro z member
    constructor
    · exact fun below => (proper_iff.mp ⟨below,fun same => absent (same ▸ member)⟩).2
    · exact fun below => below.trans (List.dropLast_prefix x)
  constructor
  · rintro ⟨member,below,longest⟩
    exact ⟨member,(inner y member).mp below,fun z stored inside => longest z stored ((inner z stored).mpr inside)⟩
  · rintro ⟨member,below,longest⟩
    exact ⟨member,(inner y member).mpr below,fun z stored inside => longest z stored ((inner z stored).mp inside)⟩

end NfdTables.PrefixSet
