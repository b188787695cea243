import NfdTables.NameTree.EnterSpec
import NfdTables.NameTree.ResizeSpec

namespace NfdTables.NameTree
open Machine Chain
variable {Component : Type} [DecidableEq Component]

section Resize
variable {host : Host Component} {tree after : NameTree Component} {chains : List (List NodeId)}
  {registry : Registry Component}
omit [DecidableEq Component]

theorem Resized.sits (resized : Resized host tree after k chains) (positive : 0 < k) :
    Sits after (distribute k (tree.newBucketOf k) chains.flatten) n e entry ↔ Sits tree chains n e entry := by
  have member : n ∈ (distribute k (tree.newBucketOf k) chains.flatten).flatten ↔ n ∈ chains.flatten :=
    mem_distribute_flatten (fun n _ => newBucketOf_lt tree positive n)
  constructor
  · exact fun sits => ⟨member.mp sits.member,(resized.holds n).symm.trans sits.holds⟩
  · exact fun sits => ⟨member.mpr sits.member,(resized.holds n).trans sits.holds⟩

theorem Resized.consistent (resized : Resized host tree after k chains) (positive : 0 < k)
    (consistent : Consistent host tree chains registry) :
    Consistent host after (distribute k (tree.newBucketOf k) chains.flatten) registry where
  chained := resized.chained
  placed := by
    refine ⟨resized.buckets ▸ positive,?_⟩
    intro loc chain n e entry got deep holds
    have bound : loc < k := by
      have inside := (List.getElem?_eq_some_iff.mp got).1
      rwa [distribute_length] at inside
    rw [distribute_at bound] at got
    rw [resized.holds] at holds
    rw [resized.buckets]
    have bucket : tree.newBucketOf k n = loc := by
      rw [← Option.some.inj got] at deep
      simpa using (List.mem_filter.mp deep).2
    simpa [newBucketOf,holds] using bucket
  pointing := fun sits => consistent.pointing ((resized.sits positive).mp sits)
  linked := resized.back
  named := by
    refine ⟨fun sits => consistent.named.hashed ((resized.sits positive).mp sits),
      fun sits => consistent.named.known ((resized.sits positive).mp sits),?_,
      fun one two => consistent.named.unique ((resized.sits positive).mp one) ((resized.sits positive).mp two),
      consistent.named.closed⟩
    intro name stored
    obtain ⟨n,e,entry,sits,same⟩ := consistent.named.stored name stored
    exact ⟨n,e,entry,(resized.sits positive).mpr sits,same⟩
  parented := fun sits => consistent.parented ((resized.sits positive).mp sits)
  fostered := ⟨fun sits => consistent.fostered.nodup ((resized.sits positive).mp sits),
    fun sits => consistent.fostered.child_iff ((resized.sits positive).mp sits)⟩
  counted := resized.items.trans consistent.counted
  synced := by rw [resized.objects]; exact consistent.synced

theorem resize_consistent (consistent : Consistent host tree chains registry) (positive : 0 < k) :
    ∃ after chains', tree.resize host k = .ok after ∧ Consistent host after chains' registry ∧
      (HeadsNull after chains' ↔ tree.ResizeOrdered k) := by
  obtain ⟨after,ran,resized⟩ := resize_spec host consistent.chained consistent.nodes positive
  exact ⟨after,_,ran,resized.consistent positive consistent,resized.heads⟩

-- Whether the buckets are in order after the load check: a resize decides it anew.
def GrowOrdered (tree : NameTree Component) (before : Prop) : Prop :=
  if tree.nItems > tree.resizeThreshold then tree.ResizeOrdered (resizeFactor * tree.nBuckets) else before

instance (tree : NameTree Component) (before : Prop) [Decidable before] : Decidable (tree.GrowOrdered before) := by
  unfold GrowOrdered; infer_instance

theorem grow_consistent (consistent : Consistent host tree chains registry) :
    ∃ after chains', tree.grow host = .ok after ∧ Consistent host after chains' registry ∧
      (HeadsNull after chains' ↔ tree.GrowOrdered (HeadsNull tree chains)) := by
  unfold grow GrowOrdered
  by_cases beyond : tree.nItems > tree.resizeThreshold
  · obtain ⟨after,chains',ran,kept,heads⟩ := resize_consistent consistent
      (Nat.mul_pos (by decide) consistent.placed.positive : 0 < resizeFactor * tree.nBuckets)
    exact ⟨after,chains',by rw [if_pos beyond,ran],kept,by rw [if_pos beyond,heads]⟩
  · exact ⟨tree,chains,by rw [if_neg beyond],consistent,by rw [if_neg beyond]⟩
end Resize

section Lookup
variable {host : Host Component} {tree : NameTree Component} {chains : List (List NodeId)}
  {registry : Registry Component}

-- The last resize the rounds fire decides, in the state it starts from.
def LookupOrdered (host : Host Component) (name : Name Component) : List Nat → NameTree Component → Option EntryId → Prop → Prop
  | [],_,_,before => before
  | i :: rest,tree,parent,before => Yields (tree.enter host parent (getPrefix name i)) fun (entered,e) =>
      Yields (entered.grow host) fun grown => LookupOrdered host name rest grown (some e) (entered.GrowOrdered before)

instance decidableLookupOrdered (host : Host Component) (name : Name Component) :
    ∀ rounds tree parent before, [Decidable before] → Decidable (LookupOrdered host name rounds tree parent before)
  | [],_,_,before,_ => inferInstanceAs (Decidable before)
  | i :: rest,tree,parent,before,_ =>
    have : ∀ grown e (entered : NameTree Component), Decidable (LookupOrdered host name rest grown e (entered.GrowOrdered before)) :=
      fun grown e entered => decidableLookupOrdered host name rest grown e (entered.GrowOrdered before)
    inferInstanceAs (Decidable (Yields (tree.enter host parent (getPrefix name i)) fun (entered,e) =>
      Yields (entered.grow host) fun grown => LookupOrdered host name rest grown (some e) (entered.GrowOrdered before)))

theorem lookupFrom_append {earlier : List Nat} (ran : lookupFrom host name earlier tree parent = .ok (middle,entry))
    (later : List Nat) : lookupFrom host name (earlier ++ later) tree parent = lookupFrom host name later middle entry := by
  induction earlier generalizing tree parent with
  | nil => cases Except.ok.inj ran; rfl
  | cons i rest ih =>
    obtain ⟨⟨entered,e⟩,first,ran⟩ := bind_parts ran
    obtain ⟨grown,second,ran⟩ := bind_parts ran
    simp only [List.cons_append,lookupFrom,first,second,ok_bind]
    exact ih ran

theorem lookupFrom_preserves {invariant : NameTree Component → Prop}
    (round : ∀ tree parent name entered e grown, invariant tree → tree.enter host parent name = .ok (entered,e) →
      entered.grow host = .ok grown → invariant grown)
    (start : invariant tree) (ran : lookupFrom host name rounds tree parent = .ok (after,entry)) : invariant after := by
  induction rounds generalizing tree parent with
  | nil => cases Except.ok.inj ran; exact start
  | cons i rest ih =>
    obtain ⟨⟨entered,e⟩,first,ran⟩ := bind_parts ran
    obtain ⟨grown,second,ran⟩ := bind_parts ran
    exact ih (round _ _ _ _ _ _ start first second) ran

-- The first i+1 rounds of lookup(name) are those of lookup(name.getPrefix(i)).
theorem lookupFrom_getPrefix (host : Host Component) (name : Name Component) (within : ∀ j ∈ rounds, j ≤ i)
    (tree : NameTree Component) (parent : Option EntryId) :
    lookupFrom host (getPrefix name i) rounds tree parent = lookupFrom host name rounds tree parent := by
  induction rounds generalizing tree parent with
  | nil => rfl
  | cons j rest ih =>
    have same : getPrefix (getPrefix name i) j = getPrefix name j := by
      rw [getPrefix,getPrefix,List.take_take,Nat.min_eq_left (within j (by simp))]
      rfl
    simp only [lookupFrom,same,ih fun k member => within k (List.mem_cons_of_mem _ member)]

-- The entry lookup() holds before round `i`: that of the first i-1 components.
def heldBefore (registry : Registry Component) (name : Name Component) (i : Nat) : Option EntryId :=
  if i = 0 then none else some (registry.cell (getPrefix name (i-1))).object

omit [DecidableEq Component] in
theorem heldBefore_parent (within : i ≤ name.length) :
    heldBefore registry name i = registry.parentOf (getPrefix name i) := by
  cases i with
  | zero => exact (if_pos (List.take_zero ..)).symm
  | succ i => rw [heldBefore,if_neg (Nat.succ_ne_zero i),Registry.parentOf_getPrefix registry within,Nat.add_sub_cancel]

omit [DecidableEq Component] in
theorem rooted_of_begun (within : i ≤ name.length) (begun : i = 0 ∨ getPrefix name (i-1) ∈ registry.names) :
    getPrefix name i = [] ∨ (getPrefix name i).dropLast ∈ registry.names := by
  rcases begun with rfl | stored
  · exact .inl rfl
  · cases i with
    | zero => exact .inl rfl
    | succ i => exact .inr (by rw [getPrefix_dropLast within]; exact stored)

theorem lookupFrom_consistent (consistent : Consistent host tree chains registry)
    (size : i + m = name.length + 1) (begun : i = 0 ∨ getPrefix name (i-1) ∈ registry.names)
    (held : parent = heldBefore registry name i) :
    ∃ after chains', lookupFrom host name (List.range' i m) tree parent =
        .ok (after,some ((((List.range' i m).foldl (fun r j => r.enter (getPrefix name j)) registry).cell name).object)) ∧
      Consistent host after chains' ((List.range' i m).foldl (fun r j => r.enter (getPrefix name j)) registry) ∧
      (HeadsNull after chains' ↔ LookupOrdered host name (List.range' i m) tree parent (HeadsNull tree chains)) := by
  induction m generalizing i tree chains registry parent with
  | zero =>
    refine ⟨tree,chains,?_,consistent,Iff.rfl⟩
    have whole : getPrefix name (i-1) = name := by
      rw [show i - 1 = name.length by omega]
      exact List.take_length
    simp [lookupFrom,held,heldBefore,show i ≠ 0 by omega,whole]
  | succ m ih =>
    have within : i ≤ name.length := by omega
    have parentIs := held.trans (heldBefore_parent within)
    have rooted := rooted_of_begun within begun
    obtain ⟨entered,chainsE,ranE,consistentE,headsE⟩ := enter_consistent consistent rooted parentIs
    obtain ⟨grown,chainsG,ranG,consistentG,headsG⟩ := grow_consistent consistentE
    have stored : getPrefix name (i+1-1) ∈ (registry.enter (getPrefix name i)).names := by
      rw [Registry.enter_names]
      exact Finset.mem_insert_self _ _
    obtain ⟨after,chains',ran,final,heads⟩ := ih (i:=i+1) consistentG (by omega) (.inr stored) rfl
    rw [List.range'_succ]
    refine ⟨after,chains',?_,final,?_⟩
    · simp only [lookupFrom,ranE,ok_bind,ranG]
      exact ran
    · rw [heads,propext headsG,propext headsE]
      simp only [LookupOrdered,ranE,yields_ok,ranG]
      exact Iff.rfl

theorem lookup_consistent (consistent : Consistent host tree chains registry) (name : Name Component) :
    ∃ after chains', tree.lookup host name = .ok (after,some ((registry.lookup name).cell name).object) ∧
      Consistent host after chains' (registry.lookup name) ∧
      (HeadsNull tree chains → (HeadsNull after chains' ↔ LookupOrdered host name (List.range (name.length+1)) tree none True)) := by
  unfold lookup Registry.lookup
  rw [List.range_eq_range']
  obtain ⟨after,chains',ran,kept,null⟩ := lookupFrom_consistent consistent (Nat.zero_add (name.length + 1)) (.inl rfl)
    (rfl : none = heldBefore registry name 0)
  refine ⟨after,chains',ran,kept,fun heads => ?_⟩
  rw [null,eq_true heads]
end Lookup

end NfdTables.NameTree
