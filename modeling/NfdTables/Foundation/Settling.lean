import NfdTables.Foundation.PrefixSet
import Mathlib.Data.Finset.Max

namespace NfdTables.PrefixSet
variable {α : Type} {names : Finset (List α)} {idle : List α → Bool}

def Needed (names : Finset (List α)) (idle : List α → Bool) (x : List α) : Prop :=
  ∃ z ∈ names, x <+: z ∧ idle z = false

theorem Needed.above (needed : Needed names idle x) (below : y <+: x) : Needed names idle y := by
  obtain ⟨z,stored,further,busy⟩ := needed
  exact ⟨z,stored,below.trans further,busy⟩

-- What has been tried and is needless is there for its children.
def Settled (tried : List (List α)) (names : Finset (List α)) (idle : List α → Bool) : Prop :=
  ∀ x ∈ tried, x ∈ names → ¬ Needed names idle x → ∃ k, x ++ [k] ∈ names

-- A longest name that nothing is kept for would have a child, which is longer.
theorem Settled.needed (settled : Settled tried names idle) (all : ∀ x ∈ names, x ∈ tried) (stored : x ∈ names) :
    Needed names idle x := by
  classical
  by_contra useless
  obtain ⟨y,inside,longest⟩ := (names.filter fun y => ¬ Needed names idle y).exists_max_image List.length
    ⟨x,Finset.mem_filter.mpr ⟨stored,useless⟩⟩
  obtain ⟨storedY,uselessY⟩ := Finset.mem_filter.mp inside
  obtain ⟨k,child⟩ := settled y (all y storedY) storedY uselessY
  have short := longest (y ++ [k]) (Finset.mem_filter.mpr ⟨child,fun needed => uselessY (needed.above (List.prefix_append _ _))⟩)
  rw [List.length_append,List.length_singleton] at short
  omega

variable [DecidableEq α]

instance (names : Finset (List α)) (idle : List α → Bool) (x : List α) : Decidable (Needed names idle x) := by
  unfold Needed; infer_instance

theorem needed_prune : Needed (prune names idle x) idle y ↔ Needed names idle y := by
  constructor
  · rintro ⟨z,stored,further,busy⟩
    exact ⟨z,(mem_prune.mp stored).1,further,busy⟩
  · rintro ⟨z,stored,further,busy⟩
    refine ⟨z,mem_prune.mpr ⟨stored,fun doomed => ?_⟩,further,busy⟩
    rw [(doomed.2 z stored List.prefix_rfl).2] at busy
    cases busy

-- A name that loses its last child by the pruning at `x` would have gone with it.
theorem Settled.prune (settled : Settled tried names idle) (closed : Closed names) (member : x ∈ names) :
    Settled (x :: tried) (prune names idle x) idle := by
  intro y among inside useless
  rw [needed_prune] at useless
  obtain ⟨stored,kept⟩ := mem_prune.mp inside
  have calm : ∀ z ∈ names, y <+: z → idle z = true := by
    intro z storedZ below
    by_contra busy
    exact useless ⟨z,storedZ,below,Bool.not_eq_true _ ▸ busy⟩
  by_contra childless
  have fallen : ∀ k, y ++ [k] ∈ names → Doomed names idle x (y ++ [k]) := by
    intro k child
    by_contra stays
    exact childless ⟨k,mem_prune.mpr ⟨child,stays⟩⟩
  by_cases parent : ∃ k, y ++ [k] ∈ names
  · obtain ⟨k,child⟩ := parent
    have above : y <+: x := (List.prefix_append y [k]).trans (fallen k child).1
    refine kept ⟨above,fun z storedZ below => ⟨?_,calm z storedZ below⟩⟩
    by_cases same : z = y
    · exact same ▸ above
    · obtain ⟨j,further⟩ := concat_of_proper below same
      exact ((fallen j (closed z storedZ _ further)).2 z storedZ further).1
  · rcases List.mem_cons.mp among with rfl | earlier
    · exact kept (doomed_self closed (calm y stored List.prefix_rfl) fun k child => parent ⟨k,child⟩)
    · exact parent (settled y earlier stored useless)

def pruneAt (idle : List α → Bool) (names : Finset (List α)) (x : List α) : Finset (List α) :=
  if x ∈ names then prune names idle x else names

theorem Closed.pruneAt (closed : Closed names) (idle : List α → Bool) (x : List α) : Closed (pruneAt idle names x) := by
  unfold PrefixSet.pruneAt
  split
  · exact closed.prune idle x
  · exact closed

theorem needed_pruneAt : Needed (pruneAt idle names x) idle y ↔ Needed names idle y := by
  unfold pruneAt
  split
  · exact needed_prune
  · rfl

theorem pruneAt_subset (idle : List α → Bool) (names : Finset (List α)) (x : List α) : pruneAt idle names x ⊆ names := by
  unfold pruneAt
  split
  · exact prune_subset names idle x
  · exact subset_rfl

theorem Settled.pruneAt (settled : Settled tried names idle) (closed : Closed names) :
    Settled (x :: tried) (pruneAt idle names x) idle := by
  unfold PrefixSet.pruneAt
  split
  · rename_i member
    exact settled.prune closed member
  · rename_i absent
    intro y among stored
    exact settled y ((List.mem_cons.mp among).resolve_left fun same => absent (same ▸ stored)) stored

def pruneEach (idle : List α → Bool) (order : List (List α)) (names : Finset (List α)) : Finset (List α) :=
  order.foldl (pruneAt idle) names

theorem Closed.pruneEach (closed : Closed names) (idle : List α → Bool) (order : List (List α)) :
    Closed (pruneEach idle order names) := by
  induction order generalizing names with
  | nil => exact closed
  | cons x rest ih => exact ih (closed.pruneAt idle x)

theorem needed_pruneEach {order : List (List α)} : Needed (pruneEach idle order names) idle y ↔ Needed names idle y := by
  induction order generalizing names with
  | nil => rfl
  | cons x rest ih => exact ih.trans needed_pruneAt

theorem pruneEach_subset (idle : List α → Bool) (order : List (List α)) (names : Finset (List α)) :
    pruneEach idle order names ⊆ names := by
  induction order generalizing names with
  | nil => exact subset_rfl
  | cons x rest ih => exact (ih _).trans (pruneAt_subset idle names x)

theorem Settled.pruneEach (settled : Settled tried names idle) (closed : Closed names) (order : List (List α)) :
    Settled (order.reverse ++ tried) (pruneEach idle order names) idle := by
  induction order generalizing names tried with
  | nil => exact settled
  | cons x rest ih =>
    rw [List.reverse_cons,List.append_assoc]
    exact ih (settled.pruneAt closed) (closed.pruneAt idle x)

-- In whatever order pruning is tried at all names, what is left is what is needed.
theorem pruneEach_eq (closed : Closed names) (covers : ∀ x ∈ names, x ∈ order) :
    pruneEach idle order names = names.filter (Needed names idle) := by
  have nothing : Settled [] names idle := nofun
  have settled := nothing.pruneEach closed order
  ext y
  rw [Finset.mem_filter]
  constructor
  · intro left
    have stored := pruneEach_subset idle order names left
    refine ⟨stored,needed_pruneEach.mp (settled.needed (fun x inside => ?_) left)⟩
    simpa using covers x (pruneEach_subset idle order names inside)
  · rintro ⟨_,needed⟩
    obtain ⟨z,stored,below,_⟩ := needed_pruneEach.mpr needed
    exact closed.pruneEach idle order z stored y below

end NfdTables.PrefixSet
