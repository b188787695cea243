import NfdTables.Foundation.Countdown
import NfdTables.NameTree.Registry
import NfdTables.Pit.Table

namespace NfdTables
open Machine PrefixSet
variable {Component Tree : Type} [DecidableEq Component]

-- What deleteEntryIfEmpty() may take out is left to `erases`.
structure Documented (calls : NameTreeCalls Component Tree) (shows : Tree → Registry Component → Prop)
    (erases : Registry Component → Name Component → Registry Component → Prop) : Prop where
  closed : ∀ {tree registry}, shows tree registry → Closed registry.names
  distinct : ∀ {tree registry}, shows tree registry → registry.Distinct
  seek : ∀ {tree registry}, shows tree registry → ∀ x, ∃ after,
    calls.seek tree x = .ok (after,some ((registry.lookup x).cell x).object) ∧ shows after (registry.lookup x)
  lookup : ∀ {tree registry}, shows tree registry → ∀ x, calls.lookup tree x = .ok (registry.find x)
  longestPrefixMatch : ∀ {tree registry}, shows tree registry → ∀ x, ∃ found, calls.longestPrefixMatch tree x = .ok found ∧
    match found with
    | none => ∀ y ∈ registry.names, ¬ y <+: x
    | some e => ∃ y, Nearest registry.names x y ∧ (registry.cell y).object = e
  getParent : ∀ {tree registry}, shows tree registry → ∀ x ∈ registry.names,
    calls.getParent tree (registry.cell x).object = .ok (registry.parentOf x)
  getPitEntries : ∀ {tree registry}, shows tree registry → ∀ x ∈ registry.names,
    calls.getPitEntries tree (registry.cell x).object = .ok (registry.cell x).payload.pitEntries
  attach : ∀ {tree registry}, shows tree registry → ∀ x ∈ registry.names, ∀ change, ∃ after,
    calls.attach tree (registry.cell x).object change = .ok after ∧ shows after (registry.attach (registry.cell x).object change)
  deleteEntryIfEmpty : ∀ {tree registry}, shows tree registry → ∀ x ∈ registry.names, ∃ after remaining,
    calls.deleteEntryIfEmpty tree (registry.cell x).object = .ok after ∧ shows after remaining ∧ erases registry x remaining

-- No entry with a payload is erased, and none with children: names stay prefix-closed.
structure ClearsEmpty (registry : Registry Component) (x : Name Component) (after : Registry Component) : Prop where
  names : after.names ⊆ registry.names
  idle : ∀ y ∈ registry.names, y ∉ after.names → registry.idle y = true
  cell : ∀ y ∈ after.names, after.cell y = registry.cell y

-- The entry goes if it is empty, and then its parent is looked at.
def Prunes (registry : Registry Component) (x : Name Component) (after : Registry Component) : Prop :=
  after = registry.eraseAt x

theorem Prunes.clears {registry after : Registry Component} (prunes : Prunes registry x after) : ClearsEmpty registry x after := by
  unfold Prunes at prunes
  subst after
  refine ⟨prune_subset _ _ _,?_,fun _ _ => rfl⟩
  intro y stored gone
  have doomed : Doomed registry.names registry.idle x y := by
    by_contra kept
    exact gone (mem_prune.mpr ⟨stored,kept⟩)
  exact (doomed.2 y stored List.prefix_rfl).2

def OnlyEmpty (erases : Registry Component → Name Component → Registry Component → Prop) : Prop :=
  ∀ registry x after, erases registry x after → ClearsEmpty registry x after

omit [DecidableEq Component] in
theorem onlyEmpty_clears : OnlyEmpty (@ClearsEmpty Component) := fun _ _ _ cleared => cleared

theorem onlyEmpty_prunes : OnlyEmpty (@Prunes Component _) := fun _ _ _ pruned => pruned.clears

theorem Documented.weaken {calls : NameTreeCalls Component Tree} {shows : Tree → Registry Component → Prop}
    {erases : Registry Component → Name Component → Registry Component → Prop} (laws : Documented calls shows erases)
    (only : OnlyEmpty erases) : Documented calls shows ClearsEmpty :=
  {laws with
    deleteEntryIfEmpty := fun shown x stored => by
      obtain ⟨after,remaining,ran,shownAfter,erased⟩ := laws.deleteEntryIfEmpty shown x stored
      exact ⟨after,remaining,ran,shownAfter,only _ _ _ erased⟩}

section Ledger

-- The registry, with all names it has ever seen to find an object's name again.
structure Ledger (Component : Type) where
  registry : Registry Component
  seen : List (Name Component)

namespace Ledger

def empty : Ledger Component := ⟨.empty,[]⟩

def nameOf (ledger : Ledger Component) (e : EntryId) : Exec (Name Component) :=
  match ledger.seen.find? fun x => x ∈ ledger.registry.names ∧ (ledger.registry.cell x).object = e with
  | some x => .ok x
  | none => .error .danglingPointer

def calls : NameTreeCalls Component (Ledger Component) where
  seek := fun ledger x => .ok (⟨ledger.registry.lookup x,(List.range (x.length + 1)).map (getPrefix x) ++ ledger.seen⟩,
    (ledger.registry.lookup x).find x)
  lookup := fun ledger x => .ok (ledger.registry.find x)
  longestPrefixMatch := fun ledger x =>
    .ok ((countdown (x.length + 1)).findSome? fun i => ledger.registry.find (getPrefix x i))
  deleteEntryIfEmpty := fun ledger e => .ok {ledger with registry := ledger.registry.erase e}
  getParent := fun ledger e => do
    let x ← ledger.nameOf e
    return ledger.registry.parentOf x
  getPitEntries := fun ledger e => do
    let x ← ledger.nameOf e
    return (ledger.registry.cell x).payload.pitEntries
  attach := fun ledger e change => .ok {ledger with registry := ledger.registry.attach e change}

structure Shows (ledger : Ledger Component) (registry : Registry Component) : Prop where
  same : ledger.registry = registry
  closed : Closed registry.names
  distinct : registry.Distinct
  seen : ∀ x ∈ registry.names, x ∈ ledger.seen

omit [DecidableEq Component] in
theorem empty_shows : Shows (empty : Ledger Component) .empty where
  same := rfl
  closed := fun _ member => absurd member (Finset.notMem_empty _)
  distinct := ⟨fun _ member => absurd member (Finset.notMem_empty _),fun _ member => absurd member (Finset.notMem_empty _)⟩
  seen := fun _ member => absurd member (Finset.notMem_empty _)

theorem nameOf_spec {ledger : Ledger Component} {registry : Registry Component} (shows : Shows ledger registry) (stored : x ∈ registry.names) :
    ledger.nameOf (registry.cell x).object = .ok x := by
  obtain ⟨rfl,_,distinct,seen⟩ := shows
  unfold nameOf
  split
  · rename_i y found
    have kept := List.find?_some found
    rw [decide_eq_true_iff] at kept
    rw [distinct.injective y kept.1 x stored kept.2]
  · rename_i missing
    have here := List.find?_eq_none.mp missing x (seen x stored)
    simp [stored] at here

-- Probing from the full name downwards stops at the longest stored prefix.
theorem probe_nearest {registry : Registry Component} (x : Name Component) :
    match (countdown (x.length + 1)).findSome? fun i => registry.find (getPrefix x i) with
    | none => ∀ y ∈ registry.names, ¬ y <+: x
    | some e => ∃ y, Nearest registry.names x y ∧ (registry.cell y).object = e := by
  have whole : ∀ y, y <+: x → y.length < x.length + 1 ∧ getPrefix x y.length = y :=
    fun y below => ⟨Nat.lt_succ_of_le below.length_le,(List.prefix_iff_eq_take.mp below).symm⟩
  split
  · rename_i missing
    intro y stored below
    obtain ⟨bound,same⟩ := whole y below
    have here := List.findSome?_eq_none_iff.mp missing y.length (mem_countdown.mpr bound)
    rw [same,Registry.find_stored stored] at here
    cases here
  · rename_i e found
    obtain ⟨i,bound,hit,beyond⟩ := countdown_highest found
    have stored : getPrefix x i ∈ registry.names := by
      by_contra absent
      rw [Registry.find_absent absent] at hit
      cases hit
    rw [Registry.find_stored stored] at hit
    refine ⟨getPrefix x i,⟨stored,List.take_prefix i x,fun z storedZ below => ?_⟩,Option.some.inj hit⟩
    obtain ⟨boundZ,same⟩ := whole z below
    have low : z.length ≤ i := by
      by_contra high
      have gone := beyond z.length boundZ (Nat.lt_of_not_le high)
      rw [same,Registry.find_stored storedZ] at gone
      cases gone
    refine List.prefix_of_prefix_length_le below (List.take_prefix i x) ?_
    rw [getPrefix,List.length_take]
    exact Nat.le_min.mpr ⟨low,below.length_le⟩

theorem documented : Documented (calls : NameTreeCalls Component (Ledger Component)) Shows Prunes where
  closed := fun shows => shows.closed
  distinct := fun shows => shows.distinct
  seek := by
    intro ledger registry shows x
    obtain ⟨rfl,closed,distinct,seen⟩ := shows
    have stored : x ∈ (ledger.registry.lookup x).names := Registry.mem_lookup.mpr (.inr List.prefix_rfl)
    refine ⟨_,by rw [← Registry.find_stored stored]; rfl,rfl,Registry.lookup_closed closed x,distinct.lookup x,?_⟩
    intro y member
    rcases Registry.mem_lookup.mp member with old | below
    · exact List.mem_append_right _ (seen y old)
    · exact List.mem_append_left _ (Registry.mem_prefixes.mpr below)
  lookup := fun shows x => by rw [← shows.same]; rfl
  longestPrefixMatch := by
    intro ledger registry shows x
    obtain ⟨rfl,_,_,_⟩ := shows
    exact ⟨_,rfl,probe_nearest x⟩
  getParent := by
    intro ledger registry shows x stored
    have named := nameOf_spec shows stored
    obtain ⟨rfl,_,_,_⟩ := shows
    simp only [calls,named,ok_bind,pure_ok]
  getPitEntries := by
    intro ledger registry shows x stored
    have named := nameOf_spec shows stored
    obtain ⟨rfl,_,_,_⟩ := shows
    simp only [calls,named,ok_bind,pure_ok]
  attach := by
    intro ledger registry shows x stored change
    obtain ⟨rfl,closed,distinct,seen⟩ := shows
    exact ⟨_,rfl,rfl,closed,distinct.attach _ _,seen⟩
  deleteEntryIfEmpty := by
    intro ledger registry shows x stored
    obtain ⟨rfl,closed,distinct,seen⟩ := shows
    refine ⟨_,_,rfl,⟨rfl,?_,?_,?_⟩,Registry.erase_eq distinct stored⟩
    all_goals rw [Registry.erase_eq distinct stored]
    · exact closed.prune _ _
    · refine ⟨fun y storedY z storedZ => ?_,fun y storedY => ?_⟩
      · exact distinct.injective y (prune_subset _ _ _ storedY) z (prune_subset _ _ _ storedZ)
      · exact distinct.older y (prune_subset _ _ _ storedY)
    · exact fun y member => seen y (prune_subset _ _ _ member)

end Ledger
end Ledger

end NfdTables
