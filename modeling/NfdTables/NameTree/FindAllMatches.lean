import NfdTables.Foundation.Countdown
import NfdTables.NameTree.FullEnumerate

namespace NfdTables.NameTree
open Machine Chain
variable {Component : Type} [DecidableEq Component]

section Probe
variable {host : Host Component} {tree : NameTree Component} {chains : List (List NodeId)}
  {registry : Registry Component} {q : Name Component} {selector : EntrySelector Component}

-- The entry stored for the first `i` components, if the selector accepts it.
def matchAt (tree : NameTree Component) (registry : Registry Component) (q : Name Component)
    (selector : EntrySelector Component) (i : Nat) : Option EntryId :=
  (registry.find (getPrefix q i)).bind fun e => (tree.entries.read e).bind fun entry =>
    if selector e entry then some e else none

theorem matchAt_stored (named : Named host tree chains registry) (sits : Sits tree chains n e entry)
    (same : entry.namePrefix = getPrefix q i) :
    tree.matchAt registry q selector i = if selector e entry then some e else none := by
  have stored := (named.known sits).1
  have object := named.object sits
  rw [same] at stored object
  simp [matchAt,Registry.find_stored stored,object,sits.entry_live]

theorem matchAt_parts (named : Named host tree chains registry) (found : tree.matchAt registry q selector i = some e) :
    ∃ n entry, Sits tree chains n e entry ∧ entry.namePrefix = getPrefix q i ∧ selector e entry = true := by
  by_cases stored : getPrefix q i ∈ registry.names
  · obtain ⟨n,entry,sits,same⟩ := named.live stored
    rw [matchAt_stored named sits same] at found
    split at found
    · rename_i wanted
      rw [Option.some.inj found] at sits wanted
      exact ⟨n,entry,sits,same,wanted⟩
    · cases found
  · simp [matchAt,Registry.find_absent stored] at found

theorem probeDown_spec (chained : Chained tree chains) (placed : Placed tree chains) (named : Named host tree chains registry)
    (k : Nat) : tree.probeDown host q selector k = .ok ((countdown k).findSome? (tree.matchAt registry q selector)) := by
  induction k with
  | zero => rfl
  | succ k ih =>
    rw [probeDown,findExactMatch_spec chained placed named,ok_bind,countdown_succ,List.findSome?_cons]
    by_cases stored : getPrefix q k ∈ registry.names
    · obtain ⟨n,entry,sits,same⟩ := named.live stored
      rw [matchAt_stored named sits same,Registry.find_stored stored]
      dsimp only
      rw [Heap.fetch_live sits.entry_live,ok_bind]
      split
      · rfl
      · exact ih
    · have missing : tree.matchAt registry q selector k = none := by simp [matchAt,Registry.find_absent stored]
      rw [missing,Registry.find_absent stored]
      exact ih

def rounds (start : Int) : Nat := (start + 1).toNat

theorem lt_rounds {start : Int} {i : Nat} : i < rounds start ↔ (i : Int) ≤ start := by
  unfold rounds
  omega

theorem findLongestPrefixMatch_spec (chained : Chained tree chains) (placed : Placed tree chains)
    (named : Named host tree chains registry) (q : Name Component) (selector : EntrySelector Component) :
    tree.findLongestPrefixMatch host q selector =
      .ok ((countdown (rounds (toInt q.length))).findSome? (tree.matchAt registry q selector)) := by
  rw [findLongestPrefixMatch]
  generalize toInt q.length = start
  cases start with
  | ofNat i => exact probeDown_spec chained placed named (i+1)
  | negSucc i =>
    have no_round : rounds (Int.negSucc i) = 0 := by unfold rounds; omega
    rw [no_round]
    rfl

theorem toInt_le (n : Nat) : toInt n ≤ n := by
  unfold toInt Int.bmod
  have modulus : ((2^32 : Nat) : Int) = 4294967296 := rfl
  simp only [modulus]
  split <;> omega

end Probe

section Walk
variable {host : Host Component} {tree : NameTree Component} {chains : List (List NodeId)}
  {registry : Registry Component} {q : Name Component} {selector : EntrySelector Component}

omit [DecidableEq Component] in
-- Following parent pointers meets the stored prefixes one after another.
theorem parent_at (links : ParentLinks tree chains)
    (sits : Sits tree chains n e entry) (same : entry.namePrefix = getPrefix q (k+1)) (within : k+1 ≤ q.length) :
    ∃ m p object, entry.parent = some p ∧ Sits tree chains m p object ∧ object.namePrefix = getPrefix q k := by
  have filled : entry.namePrefix ≠ [] := by
    rw [same]
    exact getPrefix_filled within
  obtain ⟨m,p,object,points,sitsP,above⟩ := links.parent sits filled
  exact ⟨m,p,object,points,sitsP,by rw [above,same,getPrefix_dropLast within]⟩

theorem matchLoop_spec (named : Named host tree chains registry) (links : ParentLinks tree chains)
    (sits : Sits tree chains n e entry) (same : entry.namePrefix = getPrefix q k) (within : k ≤ q.length) (enough : k < fuel) :
    loop (ConstIterator.matchTurn tree selector) fuel e = .ok ((countdown k).findSome? (tree.matchAt registry q selector)) := by
  induction k generalizing n e entry fuel with
  | zero =>
    obtain ⟨fuel,rfl⟩ : ∃ smaller, fuel = smaller + 1 := ⟨fuel - 1,by omega⟩
    have root := links.root sits same
    refine loop_leave ?_ fuel
    simp only [ConstIterator.matchTurn,Heap.fetch_live sits.entry_live,ok_bind,root,pure_ok]
    rfl
  | succ k ih =>
    obtain ⟨fuel,rfl⟩ : ∃ smaller, fuel = smaller + 1 := ⟨fuel - 1,by omega⟩
    obtain ⟨m,p,object,points,sitsP,above⟩ := parent_at links sits same within
    have turn : ConstIterator.matchTurn tree selector e = .ok (if selector p object then .leave (some p) else .onward p) := by
      simp only [ConstIterator.matchTurn,Heap.fetch_live sits.entry_live,ok_bind,points,Heap.fetch_live sitsP.entry_live]
      split <;> rfl
    rw [countdown_succ,List.findSome?_cons,matchAt_stored named sitsP above]
    by_cases wanted : selector p object = true
    · rw [if_pos wanted] at turn ⊢
      exact loop_leave turn fuel
    · rw [if_neg wanted] at turn ⊢
      exact (loop_onward turn fuel).trans (ih sitsP above (by omega) (by omega))

theorem collectMatches_spec (named : Named host tree chains registry) (links : ParentLinks tree chains)
    {it : ConstIterator Component} (kind : it.kind = .findAllMatches) (here : it.entry = some e)
    (sits : Sits tree chains n e entry) (same : entry.namePrefix = getPrefix q k) (within : k ≤ q.length) (enough : k < fuel) :
    it.collect tree fuel = .ok (e :: (countdown k).filterMap (tree.matchAt registry q it.entrySelector)) := by
  induction fuel generalizing it n e entry k with
  | zero => exact absurd enough (Nat.not_lt_zero _)
  | succ fuel ih =>
    have depth := named.shallow (named.known sits).1
    rw [same,getPrefix_length within] at depth
    have moved : it.increment tree =
        .ok {it with entry := (countdown k).findSome? (tree.matchAt registry q it.entrySelector)} := by
      simp only [ConstIterator.increment,here,required_some,ok_bind,kind,ConstIterator.nextMatch,
        matchLoop_spec named links sits same within depth,pure_ok]
    rw [ConstIterator.collect,here]
    dsimp only
    rw [moved,ok_bind]
    cases found : (countdown k).findSome? (tree.matchAt registry q it.entrySelector) with
    | none =>
      rw [collect_end tree rfl,countdown_none found]
      rfl
    | some f =>
      obtain ⟨i,below,hitI,rest⟩ := countdown_first found
      obtain ⟨m,other,sitsM,sameM,_⟩ := matchAt_parts named hitI
      have later := @ih _ _ _ _ {it with entry := some f} kind rfl sitsM sameM (by omega) (by omega)
      rw [later,rest]
      rfl
end Walk

section Matches
variable {host : Host Component} {tree : NameTree Component} {chains : List (List NodeId)}
  {registry : Registry Component} {q : Name Component} {selector : EntrySelector Component}

-- The entry `j` parent pointers above `e`.
def ancestor (tree : NameTree Component) : Nat → EntryId → Option EntryId
  | 0,e => some e
  | j+1,e => (tree.entries.read e).bind fun entry => entry.parent.bind (ancestor tree j)

-- The hash table agrees with the parent pointers about the matches of `q`.
structure Matches (host : Host Component) (tree : NameTree Component) (chains : List (List NodeId)) (q : Name Component)
    (selector : EntrySelector Component) (first : Option EntryId) (yields : List EntryId) : Prop where
  member : ∀ e, e ∈ yields ↔ ∃ n entry, Sits tree chains n e entry ∧ entry.namePrefix <+: q ∧ selector e entry = true
  decreasing : yields.Pairwise fun e f => ∃ n entry m other, Sits tree chains n e entry ∧ Sits tree chains m f other ∧
    other.namePrefix.length < entry.namePrefix.length
  head : yields.head? = first
  none_iff : first = none ↔ ¬ ∃ n e entry, Sits tree chains n e entry ∧ entry.namePrefix <+: q ∧ selector e entry = true
  walk : ∀ {n e entry}, first = some e → Sits tree chains n e entry →
    tree.ancestor (entry.namePrefix.length + 1) e = none ∧ ∀ j ≤ entry.namePrefix.length,
      tree.findExactMatch host (getPrefix q (entry.namePrefix.length - j)) = .ok (tree.ancestor j e)

theorem findAllMatches_spec (stores : Stores host tree chains) (links : ParentLinks tree chains) (q : Name Component)
    (selector : EntrySelector Component) :
    ∃ it, tree.findAllMatches host q selector = .ok it ∧ tree.drain it =
      .ok ((countdown (rounds (toInt q.length))).filterMap (tree.matchAt (registryOf tree chains) q selector)) := by
  have named := stores.named
  unfold findAllMatches
  rw [findLongestPrefixMatch_spec stores.toChained stores.toPlaced named,ok_bind]
  cases found : (countdown (rounds (toInt q.length))).findSome? (tree.matchAt (registryOf tree chains) q selector) with
  | none =>
    refine ⟨endIterator,rfl,?_⟩
    rw [countdown_none found]
    exact collect_end tree rfl _
  | some e =>
    obtain ⟨i,below,hitI,rest⟩ := countdown_first found
    obtain ⟨n,entry,sits,same,_⟩ := matchAt_parts named hitI
    have within : i ≤ q.length := Int.ofNat_le.mp (Int.le_trans (lt_rounds.mp below) (toInt_le q.length))
    have depth := named.shallow (named.known sits).1
    rw [same,getPrefix_length within] at depth
    refine ⟨_,rfl,?_⟩
    rw [rest]
    exact collectMatches_spec named links rfl rfl sits same within depth

omit [DecidableEq Component] in
theorem ancestor_above (links : ParentLinks tree chains) (sits : Sits tree chains n e entry)
    (same : entry.namePrefix = getPrefix q k) (within : k ≤ q.length) :
    tree.ancestor (k+1) e = none ∧ ∀ j ≤ k, ∃ m f other, tree.ancestor j e = some f ∧ Sits tree chains m f other ∧
      other.namePrefix = getPrefix q (k-j) := by
  induction k generalizing n e entry with
  | zero =>
    refine ⟨by simp [ancestor,sits.entry_live,links.root sits same],fun j below => ?_⟩
    cases Nat.le_zero.mp below
    exact ⟨n,e,entry,rfl,sits,same⟩
  | succ k ih =>
    obtain ⟨m,p,object,points,sitsP,above⟩ := parent_at links sits same within
    obtain ⟨ends,between⟩ := ih sitsP above (by omega)
    have up : ∀ j, tree.ancestor (j+1) e = tree.ancestor j p := by
      intro j
      simp [ancestor,sits.entry_live,points]
    refine ⟨by rw [up,ends],fun j below => ?_⟩
    cases j with
    | zero => exact ⟨n,e,entry,rfl,sits,same⟩
    | succ j =>
      obtain ⟨m',f,other,climbed,sitsF,sameF⟩ := between j (by omega)
      exact ⟨m',f,other,by rw [up,climbed],sitsF,by rw [sameF,Nat.add_sub_add_right]⟩

theorem mem_matches (named : Named host tree chains registry) (start : Int) :
    e ∈ (countdown (rounds start)).filterMap (tree.matchAt registry q selector) ↔
      ∃ i : Nat, ∃ n entry, (i : Int) ≤ start ∧ Sits tree chains n e entry ∧ entry.namePrefix = getPrefix q i ∧
        selector e entry = true := by
  simp only [List.mem_filterMap,mem_countdown,lt_rounds]
  constructor
  · rintro ⟨i,below,hitI⟩
    obtain ⟨n,entry,sits,same,wanted⟩ := matchAt_parts named hitI
    exact ⟨i,n,entry,below,sits,same,wanted⟩
  · rintro ⟨i,n,entry,below,sits,same,wanted⟩
    exact ⟨i,below,by rw [matchAt_stored named sits same,if_pos wanted]⟩

theorem matches_decreasing (named : Named host tree chains registry) (q : Name Component) (selector : EntrySelector Component) :
    ((countdown (rounds (toInt q.length))).filterMap (tree.matchAt registry q selector)).Pairwise fun e f =>
      ∃ n entry m other, Sits tree chains n e entry ∧ Sits tree chains m f other ∧
        other.namePrefix.length < entry.namePrefix.length := by
  refine List.pairwise_filterMap.mpr ((countdown_decreasing _).imp_of_mem ?_)
  intro i j inI _ lower e hitI f hitJ
  obtain ⟨n,entry,sits,same,_⟩ := matchAt_parts named hitI
  obtain ⟨m,other,sitsM,sameM,_⟩ := matchAt_parts named hitJ
  have within : i ≤ q.length := Int.ofNat_le.mp (Int.le_trans (lt_rounds.mp (mem_countdown.mp inI)) (toInt_le q.length))
  refine ⟨n,entry,m,other,sits,sitsM,?_⟩
  rw [same,sameM,getPrefix_length within,getPrefix_length (Nat.le_trans (Nat.le_of_lt lower) within)]
  exact lower

-- Where the int loop gets to all matches, both searches are right.
theorem matches_of_reached (stores : Stores host tree chains) (links : ParentLinks tree chains)
    (reached : ∀ n e entry, Sits tree chains n e entry → entry.namePrefix <+: q → selector e entry = true →
      (entry.namePrefix.length : Int) ≤ toInt q.length) :
    ∃ first it yields, tree.findLongestPrefixMatch host q selector = .ok first ∧
      tree.findAllMatches host q selector = .ok it ∧ tree.drain it = .ok yields ∧
      Matches host tree chains q selector first yields := by
  have named := stores.named
  have longest := findLongestPrefixMatch_spec stores.toChained stores.toPlaced named q selector
  obtain ⟨it,begun,listed⟩ := findAllMatches_spec stores links q selector
  have member : ∀ e, e ∈ (countdown (rounds (toInt q.length))).filterMap (tree.matchAt (registryOf tree chains) q selector) ↔
      ∃ n entry, Sits tree chains n e entry ∧ entry.namePrefix <+: q ∧ selector e entry = true := by
    intro e
    rw [mem_matches named]
    constructor
    · rintro ⟨i,n,entry,_,sits,same,wanted⟩
      exact ⟨n,entry,sits,same ▸ List.take_prefix i q,wanted⟩
    · rintro ⟨n,entry,sits,below,wanted⟩
      exact ⟨_,n,entry,reached n e entry sits below wanted,sits,List.prefix_iff_eq_take.mp below,wanted⟩
  refine ⟨_,it,_,longest,begun,listed,⟨member,matches_decreasing named q selector,countdown_head _ _,?_,?_⟩⟩
  · rw [← countdown_head,List.head?_eq_none_iff,List.eq_nil_iff_forall_not_mem]
    simp only [member]
    push Not
    exact ⟨fun none n e entry sits => none e n entry sits,fun none e n entry sits => none n e entry sits⟩
  · intro n e entry found sits
    obtain ⟨i,below,hitI,_⟩ := countdown_first found
    obtain ⟨m,other,sitsM,same,_⟩ := matchAt_parts named hitI
    cases Option.some.inj (sits.entry_live.symm.trans sitsM.entry_live)
    have within : i ≤ q.length := Int.ofNat_le.mp (Int.le_trans (lt_rounds.mp below) (toInt_le q.length))
    have size : entry.namePrefix.length = i := by rw [same,getPrefix_length within]
    obtain ⟨ends,between⟩ := ancestor_above links sits same within
    rw [size]
    refine ⟨ends,fun j lower => ?_⟩
    obtain ⟨k,f,object,climbed,sitsF,sameF⟩ := between j lower
    rw [findExactMatch_spec stores.toChained stores.toPlaced named,climbed,← sameF,
      Registry.find_stored (named.known sitsF).1,named.object sitsF]

theorem matches_of_short (stores : Stores host tree chains) (links : ParentLinks tree chains) (short : q.length < 2^31)
    (selector : EntrySelector Component) :
    ∃ first it yields, tree.findLongestPrefixMatch host q selector = .ok first ∧
      tree.findAllMatches host q selector = .ok it ∧ tree.drain it = .ok yields ∧
      Matches host tree chains q selector first yields := by
  refine matches_of_reached stores links fun n e entry _ below _ => ?_
  rw [toInt_small short]
  exact Int.ofNat_le.mpr below.length_le

-- The condition: the int loop variable starts no lower than the longest match.
theorem findAllMatches_iff (stores : Stores host tree chains) (links : ParentLinks tree chains) (q : Name Component)
    (selector : EntrySelector Component) :
    (∃ first it yields, tree.findLongestPrefixMatch host q selector = .ok first ∧
      tree.findAllMatches host q selector = .ok it ∧ tree.drain it = .ok yields ∧
      Matches host tree chains q selector first yields) ↔
    ∀ n e entry, Sits tree chains n e entry → entry.namePrefix <+: q → selector e entry = true →
      (entry.namePrefix.length : Int) ≤ toInt q.length := by
  refine ⟨?_,matches_of_reached stores links⟩
  obtain ⟨it,begun,listed⟩ := findAllMatches_spec stores links q selector
  rintro ⟨first,it',yields,_,begun',listed',exactly⟩ n e entry sits below wanted
  cases Except.ok.inj (begun.symm.trans begun')
  cases Except.ok.inj (listed.symm.trans listed')
  obtain ⟨i,m,other,small,sitsM,same,_⟩ := (mem_matches stores.named _).mp ((exactly.member e).mpr ⟨n,entry,sits,below,wanted⟩)
  cases Option.some.inj (sits.entry_live.symm.trans sitsM.entry_live)
  have length : entry.namePrefix.length ≤ i := by
    rw [same,getPrefix,List.length_take]
    exact Nat.min_le_left _ _
  exact Int.le_trans (Int.ofNat_le.mpr length) small

theorem findAllMatches_iff_pair : ∃ (tree : NameTree Nat) (chains : List (List NodeId)),
    (new 8).lookup collidingHost [0] = .ok (tree,some 1) ∧
      ((∃ first it yields, tree.findLongestPrefixMatch collidingHost [0,5] anyEntry = .ok first ∧
        tree.findAllMatches collidingHost [0,5] anyEntry = .ok it ∧ tree.drain it = .ok yields ∧
        Matches collidingHost tree chains [0,5] anyEntry first yields) ↔
      ∀ n e entry, Sits tree chains n e entry → entry.namePrefix <+: [0,5] → anyEntry e entry = true →
        (entry.namePrefix.length : Int) ≤ toInt [0,5].length) := by
  obtain ⟨tree,chains,ran,consistent,_⟩ := lookup_consistent (new_consistent (n:=8) collidingHost (by decide)).1 [0]
  exact ⟨tree,chains,ran,findAllMatches_iff consistent.agrees.toStores consistent.agrees.toParentLinks [0,5] anyEntry⟩

-- size() of a name of 2^31 components turns into a negative int.
theorem findAllMatches_not_exact : ¬ ∀ (host : Host Nat) (tree : NameTree Nat) (chains : List (List NodeId)) (q : Name Nat)
    (selector : EntrySelector Nat), WellFormed host tree chains →
    ∃ first it yields, tree.findLongestPrefixMatch host q selector = .ok first ∧
      tree.findAllMatches host q selector = .ok it ∧ tree.drain it = .ok yields ∧
      Matches host tree chains q selector first yields := by
  intro always
  obtain ⟨start,heads⟩ := new_consistent (n:=8) collidingHost (by decide)
  obtain ⟨tree,chains,_,consistent,null⟩ := lookup_consistent start []
  have formed := consistent.wellFormed ((null heads).mpr (by decide))
  obtain ⟨first,it,yields,searched,_,_,exactly⟩ := always collidingHost tree chains (List.replicate (2^31) 0) anyEntry formed
  have negative : toInt (List.replicate (2^31) 0).length = Int.negSucc 2147483647 := by
    rw [List.length_replicate]
    decide
  rw [findLongestPrefixMatch,negative] at searched
  have missing : first = none := (Except.ok.inj searched).symm
  have stored : [] ∈ ((Registry.empty : Registry Nat).lookup []).names := by decide
  obtain ⟨n,entry,sits,root⟩ := consistent.named.live stored
  refine exactly.none_iff.mp missing ⟨n,_,entry,sits,?_,rfl⟩
  rw [root]
  exact List.nil_prefix
end Matches

end NfdTables.NameTree
