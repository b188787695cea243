import NfdTables.NameTree.GrowthRuns
import Mathlib.Order.Bounds.Basic

namespace NfdTables.NameTree
open Machine Chain
variable {Component : Type}

section Levels
variable {capacity : Nat → Nat}

theorem level_stays (least : IsLeast {k | load ≤ capacity k} k) (more : load ≤ later) (fits : later ≤ capacity k) :
    IsLeast {k | later ≤ capacity k} k :=
  ⟨fits,fun _ enough => least.2 (Nat.le_trans more enough)⟩

theorem level_rises (grows : Monotone capacity) (full : capacity k < load) (fits : load ≤ capacity (k+1)) :
    IsLeast {k | load ≤ capacity k} (k+1) := by
  refine ⟨fits,fun j enough => ?_⟩
  by_contra below
  have early : j ≤ k := Nat.le_of_lt_succ (Nat.lt_of_not_le below)
  exact absurd full (Nat.not_lt.mpr (Nat.le_trans enough (grows early)))
end Levels

section Counters
variable {host : Host Component} {tree after : NameTree Component}

-- What the steps of lookup() do to the three counters, whatever the state.
theorem place_length {work moved : Rehash} (ran : work.place b p = .ok moved) :
    moved.newBuckets.length = work.newBuckets.length := by
  obtain ⟨head,_,ran⟩ := bind_parts ran
  obtain ⟨walked,_,ran⟩ := bind_parts ran
  cases walked with
  | leave never => cases never
  | onward state =>
    obtain ⟨pre,pp⟩ := state
    obtain ⟨nodes,_,ran⟩ := bind_parts ran
    cases pp with
    | bucket loc =>
      cases Except.ok.inj ran
      exact List.length_set
    | next last =>
      obtain ⟨linked,_,ran⟩ := bind_parts ran
      cases Except.ok.inj ran
      rfl

theorem rehashChain_length {work moved : Rehash} {entries : Heap (Entry Component)}
    (ran : rehashChain entries k fuel start work = .ok moved) : moved.newBuckets.length = work.newBuckets.length := by
  induction fuel generalizing start work with
  | zero =>
    cases start with
    | none => cases Except.ok.inj ran; rfl
    | some p => cases ran
  | succ fuel ih =>
    cases start with
    | none => cases Except.ok.inj ran; rfl
    | some p =>
      obtain ⟨node,_,ran⟩ := bind_parts ran
      cases held : node.entry with
      | none => simp [held] at ran
      | some e =>
        simp only [held] at ran
        obtain ⟨entry,_,ran⟩ := bind_parts ran
        obtain ⟨placed,put,ran⟩ := bind_parts ran
        have kept := place_length put
        exact (ih ran).trans kept

theorem rehashBuckets_length {work moved : Rehash} {entries : Heap (Entry Component)}
    (ran : rehashBuckets entries k heads work = .ok moved) : moved.newBuckets.length = work.newBuckets.length := by
  induction heads generalizing work with
  | nil => cases Except.ok.inj ran; rfl
  | cons head rest ih =>
    obtain ⟨middle,first,ran⟩ := bind_parts ran
    exact (ih ran).trans (rehashChain_length first)

theorem resize_counters (ran : tree.resize host k = .ok after) : after.nItems = tree.nItems ∧
    after.resizeThreshold = host.intOfDouble (loadLimit k) ∧ after.nBuckets = k := by
  obtain ⟨work,moved,ran⟩ := bind_parts ran
  split at ran
  · cases Except.ok.inj ran
    refine ⟨rfl,rfl,?_⟩
    rw [nBuckets,rehashBuckets_length moved,List.length_replicate]
  · cases ran

variable [DecidableEq Component]

theorem insert_counters (ran : tree.insert host name = .ok (after,e,isNew)) : after.nItems = tree.nItems ∧
    after.resizeThreshold = tree.resizeThreshold ∧ after.nBuckets = tree.nBuckets := by
  obtain ⟨head,_,ran⟩ := bind_parts ran
  obtain ⟨searched,_,ran⟩ := bind_parts ran
  cases searched with
  | leave found =>
    cases Except.ok.inj ran
    exact ⟨rfl,rfl,rfl⟩
  | onward nodePrev =>
    cases nodePrev with
    | none =>
      obtain ⟨_,made,ran⟩ := bind_parts ran
      cases Except.ok.inj made
      obtain ⟨nodes,_,ran⟩ := bind_parts ran
      cases Except.ok.inj ran
      exact ⟨rfl,rfl,List.length_set⟩
    | some p =>
      obtain ⟨linked,_,ran⟩ := bind_parts ran
      obtain ⟨_,made,ran⟩ := bind_parts ran
      cases Except.ok.inj made
      obtain ⟨nodes,_,ran⟩ := bind_parts ran
      cases Except.ok.inj ran
      exact ⟨rfl,rfl,rfl⟩

theorem enter_counters (ran : tree.enter host parent name = .ok (after,e)) :
    (after.nItems = tree.nItems ∨ after.nItems = tree.nItems + 1) ∧
    after.resizeThreshold = tree.resizeThreshold ∧ after.nBuckets = tree.nBuckets := by
  obtain ⟨result,inserted,ran⟩ := bind_parts ran
  obtain ⟨middle,f,isNew⟩ := result
  obtain ⟨items,threshold,buckets⟩ := insert_counters inserted
  cases isNew with
  | false =>
    cases Except.ok.inj ran
    exact ⟨.inl items,threshold,buckets⟩
  | true =>
    obtain ⟨entries,_,ran⟩ := bind_parts ran
    cases parent with
    | none =>
      cases Except.ok.inj ran
      exact ⟨.inr (congrArg (· + 1) items),threshold,buckets⟩
    | some p =>
      obtain ⟨linked,_,ran⟩ := bind_parts ran
      cases Except.ok.inj ran
      exact ⟨.inr (congrArg (· + 1) items),threshold,buckets⟩
end Counters

section Sized
variable {host : Host Component} {tree after : NameTree Component}

-- Below 2^32 buckets neither conversion changes the value.
theorem loadLimit_half (small : n < 2^32) : loadLimit n = n / 2 := by
  rw [loadLimit,toDouble,if_pos (Nat.lt_trans small (by decide))]

theorem intOfDouble_half (host : Host Component) (small : n < 2^32) : host.intOfDouble (loadLimit n) = n / 2 := by
  have fits : n / 2 < 2^31 := by omega
  rw [loadLimit_half small,Host.intOfDouble,if_pos fits]

-- The table has been doubled as often as its items ask for, and no more often.
structure Sized (n : Nat) (tree : NameTree Component) : Prop where
  threshold : tree.resizeThreshold = tree.nBuckets / 2
  room : tree.nItems ≤ tree.resizeThreshold
  doubled : ∃ k, IsLeast {k | tree.nItems ≤ n * 2^k / 2} k ∧ tree.nBuckets = n * 2^k

theorem halves_grow (n : Nat) : Monotone fun k => n * 2^k / 2 := by
  intro j k below
  exact Nat.div_le_div_right (Nat.mul_le_mul_left n (Nat.pow_le_pow_right (by decide) below))

theorem new_sized (small : n < 2^32) : Sized n (new n : NameTree Component) := by
  have buckets : (new n : NameTree Component).nBuckets = n := List.length_replicate
  refine ⟨?_,Nat.zero_le _,0,⟨Nat.zero_le _,fun _ _ => Nat.zero_le _⟩,?_⟩
  · rw [buckets]
    exact loadLimit_half small
  · rw [buckets,Nat.pow_zero,Nat.mul_one]

-- One item more fits, or fits after one doubling.
theorem Sized.more (sized : Sized n tree) (items : after.nItems = tree.nItems ∨ after.nItems = tree.nItems + 1)
    (threshold : after.resizeThreshold = tree.resizeThreshold) (buckets : after.nBuckets = tree.nBuckets)
    (fits : after.nItems ≤ after.resizeThreshold) : Sized n after := by
  obtain ⟨k,least,power⟩ := sized.doubled
  refine ⟨by rw [threshold,buckets,sized.threshold],fits,k,level_stays least (by omega) ?_,by rw [buckets,power]⟩
  rwa [threshold,sized.threshold,power] at fits

theorem Sized.doubling (sized : Sized n tree) (positive : 1 ≤ n) (items : after.nItems ≤ tree.nItems + 1)
    (full : tree.resizeThreshold < after.nItems) (buckets : after.nBuckets = resizeFactor * tree.nBuckets)
    (threshold : after.resizeThreshold = after.nBuckets / 2) : Sized n after := by
  obtain ⟨k,least,power⟩ := sized.doubled
  have some_bucket : 1 ≤ tree.nBuckets := by
    rw [power]
    exact Nat.mul_pos positive (Nat.two_pow_pos k)
  have twice : after.nBuckets = n * 2^(k+1) := by
    rw [buckets,power,resizeFactor,Nat.pow_succ]
    exact Nat.mul_left_comm 2 n (2^k) ▸ congrArg (n * ·) (Nat.mul_comm 2 (2^k))
  have half : after.resizeThreshold = tree.nBuckets := by
    rw [threshold,buckets,resizeFactor,Nat.mul_div_cancel_left _ (by decide)]
  have room : after.nItems ≤ after.resizeThreshold := by
    have before := sized.room
    rw [sized.threshold] at before
    omega
  refine ⟨threshold,room,k+1,level_rises (halves_grow n) ?_ ?_,twice⟩
  · rwa [sized.threshold,power] at full
  · rwa [threshold,twice] at room
end Sized

section Rounds
variable [DecidableEq Component] {host : Host Component} {tree : NameTree Component}

theorem round_sized (positive : 1 ≤ n) (sized : tree.nBuckets < 2^32 → Sized n tree)
    (entering : tree.enter host parent name = .ok (entered,e)) (growing : entered.grow host = .ok grown)
    (small : grown.nBuckets < 2^32) : Sized n grown := by
  obtain ⟨items,threshold,buckets⟩ := enter_counters entering
  unfold grow at growing
  split at growing
  · rename_i beyond
    obtain ⟨itemsG,thresholdG,bucketsG⟩ := resize_counters growing
    have twice : grown.nBuckets = resizeFactor * tree.nBuckets := by rw [bucketsG,buckets]
    have before : tree.nBuckets < 2^32 := by
      rw [twice,resizeFactor] at small
      omega
    rw [← bucketsG,intOfDouble_half host small] at thresholdG
    exact (sized before).doubling positive (by omega) (by omega) twice thresholdG
  · rename_i within
    cases Except.ok.inj growing
    exact (sized (buckets ▸ small)).more items threshold buckets (Nat.le_of_not_lt within)

theorem lookups_sized (positive : 1 ≤ n) {names : List (Name Component)}
    (ran : run (growthStep host) (new n) (names.map .lookup) = .ok tree) (small : tree.nBuckets < 2^32) : Sized n tree := by
  have start : (new n : NameTree Component).nBuckets < 2^32 → Sized n (new n : NameTree Component) := by
    intro small
    rw [nBuckets,new,List.length_replicate] at small
    exact new_sized small
  refine run_preserves (fun tree => tree.nBuckets < 2^32 → Sized n tree) ?_ start ran small
  intro tree op next member sized stepped
  obtain ⟨name,_,rfl⟩ := List.mem_map.mp member
  obtain ⟨⟨after,entry⟩,looked,kept⟩ := bind_parts stepped
  cases Except.ok.inj kept
  exact lookupFrom_preserves (fun _ _ _ _ _ _ sized entering growing small => round_sized positive sized entering growing small)
    sized looked

-- The state after round `i` of lookup(name), some lookups having gone before.
def afterRound (host : Host Component) (n : Nat) (earlier : List (Name Component)) (name : Name Component) (i : Nat) :
    Exec (NameTree Component) := do
  let before ← run (growthStep host) (new n) (earlier.map .lookup)
  let (tree,_) ← lookupFrom host name (List.range (i+1)) before none
  return tree

def storedAfter (earlier : List (Name Component)) (name : Name Component) (i : Nat) : Finset (Name Component) :=
  ((earlier ++ [getPrefix name i]).flatMap List.inits).toFinset

theorem afterRound_eq (host : Host Component) (n : Nat) (earlier : List (Name Component)) (within : i ≤ name.length) :
    afterRound host n earlier name i = run (growthStep host) (new n) ((earlier ++ [getPrefix name i]).map .lookup) := by
  rw [List.map_append,run_append,afterRound]
  cases run (growthStep host) (new n) (earlier.map .lookup) with
  | error fault => rfl
  | ok before =>
    have rounds : ∀ j ∈ List.range (i+1), j ≤ i := fun j member => Nat.le_of_lt_succ (List.mem_range.mp member)
    have looked := lookupFrom_getPrefix host name rounds before none
    simp only [ok_bind,List.map_cons,List.map_nil,run,growthStep,lookup,getPrefix_length within,looked]
    cases lookupFrom host name (List.range (i+1)) before none <;> rfl

omit [DecidableEq Component] in
theorem lookups_posed (names : List (Name Component)) : ∀ op ∈ names.map GrowthOp.lookup, op.WellPosed := by
  intro op member
  obtain ⟨_,_,rfl⟩ := List.mem_map.mp member
  trivial

theorem storedAfter_card (ran : run (growthStep host) (new n) ((earlier ++ [getPrefix name i]).map .lookup) = .ok tree)
    (positive : 1 ≤ n) : tree.nItems = (storedAfter earlier name i).card := by
  obtain ⟨other,same,chains,consistent⟩ := growth_consistent host positive (lookups_posed (earlier ++ [getPrefix name i]))
  cases Except.ok.inj (ran.symm.trans same)
  rw [consistent.counted]
  congr 1
  ext x
  rw [growth_names,storedAfter,List.mem_toFinset,List.mem_flatMap]
  simp only [lookedUp,List.filterMap_map,Function.comp_def,List.filterMap_some,List.mem_inits,Registry.empty,
    Finset.notMem_empty,false_or]

-- The last part compares with any other lookups that store as many names.
theorem lookup_sized (host : Host Component) (positive : 1 ≤ n) (earlier : List (Name Component)) (within : i ≤ name.length) :
    ∃ tree, afterRound host n earlier name i = .ok tree ∧ tree.nItems = (storedAfter earlier name i).card ∧
      (tree.nBuckets < 2^32 → Sized n tree ∧
        ∀ (other : Host Component) (before : List (Name Component)) (last : Name Component) (j : Nat) (again : NameTree Component),
          j ≤ last.length → afterRound other n before last j = .ok again → again.nBuckets < 2^32 →
          (storedAfter before last j).card = (storedAfter earlier name i).card → again.nBuckets = tree.nBuckets) := by
  obtain ⟨tree,ran,_⟩ := growth_consistent host positive (lookups_posed (earlier ++ [getPrefix name i]))
  have items := storedAfter_card ran positive
  refine ⟨tree,by rw [afterRound_eq host n earlier within,ran],items,fun small => ?_⟩
  have sized := lookups_sized positive ran small
  refine ⟨sized,fun other before last j again inside ranAgain smallAgain count => ?_⟩
  rw [afterRound_eq other n before inside] at ranAgain
  obtain ⟨k,least,power⟩ := sized.doubled
  obtain ⟨m,leastAgain,powerAgain⟩ := (lookups_sized positive ranAgain smallAgain).doubled
  rw [storedAfter_card ranAgain positive,count,← items] at leastAgain
  rw [power,powerAgain,least.unique leastAgain]

-- From one bucket to eight: the root fires one resize, each further name another.
theorem lookup_sized_eight : ∃ tree, afterRound collidingHost 1 [[0]] [1] 1 = .ok tree ∧
    tree.nItems = 3 ∧ tree.nBuckets = 8 ∧ Sized 1 tree := by
  obtain ⟨tree,ran,items,sized⟩ := lookup_sized collidingHost (by decide : 1 ≤ 1) [[0]] (by decide : 1 ≤ [1].length)
  have computed : (afterRound collidingHost 1 [[0]] [1] 1).toOption.map (fun tree => tree.nBuckets) = some 8 := by decide
  rw [ran] at computed
  have buckets : tree.nBuckets = 8 := Option.some.inj computed
  have stored : (storedAfter [[0]] [1] 1).card = 3 := by decide
  exact ⟨tree,ran,items.trans stored,buckets,(sized (by rw [buckets]; decide)).1⟩
end Rounds

end NfdTables.NameTree
