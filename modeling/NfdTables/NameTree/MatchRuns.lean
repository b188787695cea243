import NfdTables.NameTree.EnumerationRuns
import NfdTables.NameTree.FindAllMatches

namespace NfdTables.NameTree
open Machine Chain Sweep
variable {Component : Type} [DecidableEq Component]

section Lines
variable {host : Host Component} {allowed : Kind → Prop} {s t : Snapshot Component} {tree after : NameTree Component}
  {selector : EntrySelector Component}

-- An entry keeps its name and its parent, also when it has been erased.
def Inherits (tree after : NameTree Component) : Prop := ∀ e entry, tree.entries.read e = some entry →
  ∃ later, after.entries.read e = some later ∧ later.parent = entry.parent ∧ later.namePrefix = entry.namePrefix

omit [DecidableEq Component] in
theorem Inherits.trans {last : NameTree Component} (one : Inherits tree after) (two : Inherits after last) : Inherits tree last := by
  intro e entry live
  obtain ⟨later,liveL,parentL,nameL⟩ := one e entry live
  obtain ⟨final,liveF,parentF,nameF⟩ := two e later liveL
  exact ⟨final,liveF,parentF.trans parentL,nameF.trans nameL⟩

theorem Moved.inherits (moved : Moved host kind s t) : Inherits s.tree t.tree := by
  intro e entry live
  cases moved with
  | entered absent at_loc rooted above effect =>
    have read := effect.entry_old e (Nat.ne_of_lt (Heap.live_bound live))
    rw [live] at read
    split at read
    · exact ⟨_,read,rfl,rfl⟩
    · exact ⟨_,read,rfl,rfl⟩
  | resized positive ran effect => exact ⟨entry,effect.objects ▸ live,rfl,rfl⟩
  | attached ran effect =>
    have read := effect.read e
    rw [live] at read
    exact ⟨_,read,rfl,rfl⟩
  | removed sits at_loc childless taken effect =>
    have read := effect.entry_old e
    rw [live] at read
    exact ⟨_,read,disown_parent _ _ _ _,disown_namePrefix _ _ _ _⟩

theorem Path.inherits (path : Path host allowed s t) : Inherits s.tree t.tree := by
  induction path with
  | stay => exact fun e entry live => ⟨entry,live,rfl,rfl⟩
  | step path moved fits ih => exact ih.trans moved.inherits

-- The entries from `e` on up, to one that has no parent.
def Line (tree : NameTree Component) : EntryId → List EntryId → Prop
  | e,[] => ∃ entry, tree.entries.read e = some entry ∧ entry.parent = none
  | e,p :: above => (∃ entry, tree.entries.read e = some entry ∧ entry.parent = some p) ∧ Line tree p above

omit [DecidableEq Component] in
theorem Line.inherits (line : Line tree e above) (inherits : Inherits tree after) : Line after e above := by
  induction above generalizing e with
  | nil =>
    obtain ⟨entry,live,orphan⟩ := line
    obtain ⟨later,liveL,same,_⟩ := inherits e entry live
    exact ⟨later,liveL,same.trans orphan⟩
  | cons p above ih =>
    obtain ⟨⟨entry,live,points⟩,further⟩ := line
    obtain ⟨later,liveL,same,_⟩ := inherits e entry live
    exact ⟨⟨later,liveL,same.trans points⟩,ih further⟩

omit [DecidableEq Component] in
theorem Line.live (line : Line tree e above) : ∃ entry, tree.entries.read e = some entry := by
  cases above with
  | nil => exact ⟨_,line.choose_spec.1⟩
  | cons p above => exact ⟨_,line.1.choose_spec.1⟩

omit [DecidableEq Component] in
theorem Line.all_live (line : Line tree e above) : ∀ f ∈ e :: above, (tree.entries.read f).isSome := by
  induction above generalizing e with
  | nil =>
    obtain ⟨entry,live⟩ := line.live
    intro f member
    rw [List.mem_singleton.mp member,live]
    rfl
  | cons p above ih =>
    obtain ⟨entry,live⟩ := line.live
    intro f member
    rcases List.mem_cons.mp member with rfl | later
    · rw [live]
      rfl
    · exact ih line.2 f later

omit [DecidableEq Component] in
theorem Line.from (line : Line tree e (before ++ f :: rest)) : Line tree f rest := by
  induction before generalizing e with
  | nil => exact line.2
  | cons p before ih => exact ih line.2

omit [DecidableEq Component] in
-- The while loop goes up to the first entry that is accepted.
theorem matchLoop_line (line : Line tree e above) (enough : above.length < fuel) :
    loop (ConstIterator.matchTurn tree selector) fuel e = .ok (above.find? (tree.accepts selector)) := by
  obtain ⟨fuel,rfl⟩ : ∃ smaller, fuel = smaller + 1 := ⟨fuel - 1,by omega⟩
  induction above generalizing e fuel with
  | nil =>
    obtain ⟨entry,live,orphan⟩ := line
    refine loop_leave ?_ fuel
    simp only [ConstIterator.matchTurn,Heap.fetch_live live,ok_bind,orphan,pure_ok]
    rfl
  | cons p above ih =>
    obtain ⟨⟨entry,live,points⟩,further⟩ := line
    obtain ⟨object,liveP⟩ := further.live
    have same : tree.accepts selector p = selector p object := by rw [accepts,liveP]; rfl
    have turn : ConstIterator.matchTurn tree selector e = .ok (if selector p object then .leave (some p) else .onward p) := by
      simp only [ConstIterator.matchTurn,Heap.fetch_live live,ok_bind,points,Heap.fetch_live liveP]
      split <;> rfl
    rw [List.find?_cons,same]
    cases wanted : selector p object with
    | true =>
      rw [wanted,if_pos rfl] at turn
      exact loop_leave turn fuel
    | false =>
      rw [wanted,if_neg Bool.false_ne_true] at turn
      obtain ⟨fuel,rfl⟩ : ∃ smaller, fuel = smaller + 1 := ⟨fuel - 1,by rw [List.length_cons] at enough; omega⟩
      exact (loop_onward turn (fuel+1)).trans (ih further fuel (by rw [List.length_cons] at enough; omega))
end Lines

section Beginnings
variable {host : Host Component} {tree : NameTree Component} {chains : List (List NodeId)} {registry : Registry Component}
  {q : Name Component} {selector : EntrySelector Component}

def objectAt (registry : Registry Component) (q : Name Component) (i : Nat) : EntryId := (registry.cell (getPrefix q i)).object

omit [DecidableEq Component]

theorem line_at (consistent : Consistent host tree chains registry) (stored : getPrefix q i ∈ registry.names)
    (within : i ≤ q.length) : Line tree (objectAt registry q i) ((countdown i).map (objectAt registry q)) := by
  have links := consistent.agrees.toParentLinks
  induction i with
  | zero =>
    obtain ⟨n,entry,sits,same⟩ := consistent.named.live stored
    exact ⟨entry,sits.entry_live,links.root sits same⟩
  | succ i ih =>
    obtain ⟨n,entry,sits,same⟩ := consistent.named.live stored
    obtain ⟨m,p,object,points,sitsP,above⟩ := parent_at links sits same within
    have storedP := (consistent.named.known sitsP).1
    have objectP := consistent.named.object sitsP
    rw [above] at storedP objectP
    have here : objectAt registry q i = p := objectP
    rw [countdown_succ,List.map_cons]
    refine ⟨⟨entry,sits.entry_live,by rw [points,here]⟩,ih storedP (by omega)⟩

theorem prefixes_stored (consistent : Consistent host tree chains registry) (stored : getPrefix q i ∈ registry.names) (below : j ≤ i) :
    getPrefix q j ∈ registry.names := by
  refine consistent.named.closed _ stored _ ?_
  have shorter : getPrefix q j = (getPrefix q i).take j := by rw [getPrefix,getPrefix,List.take_take,Nat.min_eq_left below]
  rw [shorter]
  exact List.take_prefix _ _

theorem objects_nodup (consistent : Consistent host tree chains registry) (stored : getPrefix q i ∈ registry.names)
    (within : i ≤ q.length) : ((countdown (i+1)).map (objectAt registry q)).Nodup := by
  refine List.Nodup.map_on ?_ ((countdown_decreasing (i+1)).imp fun lower => (Nat.ne_of_lt lower).symm)
  intro j inJ k inK same
  have storedJ := prefixes_stored consistent stored (Nat.lt_succ_iff.mp (mem_countdown.mp inJ))
  have storedK := prefixes_stored consistent stored (Nat.lt_succ_iff.mp (mem_countdown.mp inK))
  have names := consistent.distinct.injective _ storedJ _ storedK same
  have size := congrArg List.length names
  rwa [getPrefix_length (by have := mem_countdown.mp inJ; omega),getPrefix_length (by have := mem_countdown.mp inK; omega)] at size
end Beginnings

section Matching
variable {host : Host Component} {selector : EntrySelector Component} {s : Enumeration Component}
  {chains : List (List NodeId)} {registry : Registry Component} {steady : EntryId → Prop} {tree : NameTree Component}
  {q : Name Component} {line : List EntryId}

def matching (host : Host Component) (tree : NameTree Component) (q : Name Component) (selector : EntrySelector Component) :
    Exec (Enumeration Component) := do
  let it ← tree.findAllMatches host q selector
  return ⟨tree,it,it.entry.toList⟩

-- Beside the iterator anything may be done that may be done to the tree at all.
def Ongoing (s : Enumeration Component) (registry : Registry Component) : EnumerationOp Component → Prop
  | .increment => s.it.entry ≠ none
  | .client op => SafeStep s.tree registry op

instance (s : Enumeration Component) (registry : Registry Component) (op : EnumerationOp Component) : Decidable (Ongoing s registry op) :=
  match op with
  | .increment => inferInstanceAs (Decidable (s.it.entry ≠ none))
  | .client op => inferInstanceAs (Decidable (SafeStep s.tree registry op))

-- From the current entry on up there are the entries ahead, and no others.
structure Climbs (host : Host Component) (selector : EntrySelector Component) (line : List EntryId) (s : Enumeration Component)
    (chains : List (List NodeId)) (registry : Registry Component) (steady : EntryId → Prop) : Prop where
  sound : Consistent host s.tree chains registry
  kind : s.it.entry.isSome → s.it.kind = .findAllMatches ∧ s.it.entrySelector = selector
  passing : ∃ ahead, Passing line ahead s.visited steady ∧ (s.it.entry = none → ahead = []) ∧
    ∀ e, s.it.entry = some e → Line s.tree e ahead ∧ (e :: ahead).Nodup

theorem Climbs.client {op : ClientOp Component} (climbs : Climbs host selector line s chains registry steady)
    (safe : SafeStep s.tree registry op) : ∃ next chains, enumerationStep host s (.client op) = .ok next ∧
      next.visited = s.visited ∧ Climbs host selector line next chains (op.apply registry) steady := by
  obtain ⟨sound,kind,ahead,passing,ended,lined⟩ := climbs
  have within : op.Within (fun _ => True) s.tree.resizeThreshold registry := by
    cases op with
    | lookup name => exact ⟨trivial,.inl trivial⟩
    | attach e change => trivial
    | erase e => exact fun _ _ _ => trivial
  obtain ⟨⟨tree,chainsT,_⟩,ran,rfl,path⟩ := client_path (s:=⟨s.tree,chains,registry⟩) sound op safe within
  have stepped : enumerationStep host s (.client op) = .ok {s with tree := tree} := by rw [enumerationStep,ran]; rfl
  refine ⟨_,chainsT,stepped,rfl,path.sound sound,kind,ahead,passing,ended,fun e here => ?_⟩
  obtain ⟨above,nodup⟩ := lined e here
  exact ⟨above.inherits path.inherits,nodup⟩

theorem Climbs.increment (climbs : Climbs host selector line s chains registry steady) (busy : s.it.entry ≠ none)
    (accepted : ∀ e, steady e → s.tree.accepts selector e = true) :
    ∃ next, enumerationStep host s .increment = .ok next ∧
      (∀ e ∈ next.visited, e ∈ s.visited ∨ next.tree.accepts selector e = true) ∧
      Climbs host selector line next chains registry steady := by
  obtain ⟨sound,kind,ahead,passing,_,lined⟩ := climbs
  obtain ⟨e,here⟩ := Option.ne_none_iff_exists'.mp busy
  obtain ⟨kindF,rfl⟩ := kind (by rw [here]; rfl)
  obtain ⟨above,nodup⟩ := lined e here
  have few : ahead.length < s.tree.entries.size := by
    have all := Heap.length_le_size nodup above.all_live
    rw [List.length_cons] at all
    exact all
  have moved : s.it.increment s.tree = .ok {s.it with entry := ahead.find? (s.tree.accepts s.it.entrySelector)} := by
    simp only [ConstIterator.increment,here,required_some,ok_bind,kindF,ConstIterator.nextMatch,matchLoop_line above few,pure_ok]
  have stepped : enumerationStep host s .increment = .ok ⟨s.tree,{s.it with entry := ahead.find? (s.tree.accepts s.it.entrySelector)},
      s.visited ++ (ahead.find? (s.tree.accepts s.it.entrySelector)).toList⟩ := by
    rw [enumerationStep,moved]
    rfl
  refine ⟨_,stepped,?_,sound,fun _ => ⟨kindF,rfl⟩,?_⟩
  · intro f member
    rcases List.mem_append.mp member with old | new
    · exact .inl old
    · exact .inr (List.find?_some (Option.mem_toList.mp new))
  · cases found : ahead.find? (s.tree.accepts s.it.entrySelector) with
    | none =>
      have skipped : ∀ i ∈ ahead, ¬ steady i := fun i member still => List.find?_eq_none.mp found i member (accepted i still)
      exact ⟨[],by simpa using passing.finish skipped,fun _ => rfl,fun _ same => (by cases same)⟩
    | some f =>
      obtain ⟨_,before,rest,rfl,refused⟩ := List.find?_eq_some_iff_append.mp found
      have skipped : ∀ i ∈ before, ¬ steady i := by
        intro i member still
        have wanted := accepted i still
        have unwanted := refused i member
        rw [wanted] at unwanted
        cases unwanted
      refine ⟨rest,passing.next skipped,fun done => (by cases done),fun g same => ?_⟩
      cases Option.some.inj same
      exact ⟨above.from,(nodup.sublist (List.sublist_cons_self _ _)).sublist (List.sublist_append_right _ _)⟩

theorem matching_spec (sound : Consistent host tree chains registry) (q : Name Component) (selector : EntrySelector Component) :
    ∃ s k, tree.matching host q selector = .ok s ∧ s.tree = tree ∧ (∀ e ∈ s.visited, tree.accepts selector e = true) ∧
      (∀ j < k, j ≤ q.length ∧ getPrefix q j ∈ registry.names) ∧
      (q.length < 2^31 → ∀ j ≤ q.length, getPrefix q j ∈ registry.names →
        tree.accepts selector (objectAt registry q j) = true → j < k) ∧
      ∀ steady : EntryId → Prop, Climbs host selector ((countdown k).map (objectAt registry q)) s chains registry steady := by
  have ran := findLongestPrefixMatch_spec sound.chained sound.placed sound.named q selector
  unfold matching findAllMatches
  rw [ran,ok_bind]
  have wanted : ∀ j, getPrefix q j ∈ registry.names → tree.accepts selector (objectAt registry q j) = true →
      tree.matchAt registry q selector j = some (objectAt registry q j) := by
    intro j stored accepted
    obtain ⟨n,entry,sits,same⟩ := sound.named.live stored
    rw [accepts,objectAt,sits.entry_live] at accepted
    rw [matchAt_stored sound.named sits same]
    exact if_pos accepted
  cases found : (countdown (rounds (toInt q.length))).findSome? (tree.matchAt registry q selector) with
  | none =>
    refine ⟨⟨tree,endIterator,[]⟩,0,rfl,rfl,fun _ member => absurd member List.not_mem_nil,fun _ below => absurd below (Nat.not_lt_zero _),
      fun short j below stored accepted => ?_,fun steady =>
      ⟨sound,fun busy => (by cases busy),[],Passing.begin [] steady,fun _ => rfl,fun _ same => (by cases same)⟩⟩
    have missing := List.findSome?_eq_none_iff.mp found j (mem_countdown.mpr (lt_rounds.mpr (by rw [toInt_small short]; omega)))
    rw [wanted j stored accepted] at missing
    cases missing
  | some e =>
    obtain ⟨i,below,hitI,highest⟩ := countdown_highest found
    obtain ⟨n,entry,sits,same,accepted⟩ := matchAt_parts sound.named hitI
    have within : i ≤ q.length := Int.ofNat_le.mp (Int.le_trans (lt_rounds.mp below) (toInt_le q.length))
    have stored := (sound.named.known sits).1
    have object := sound.named.object sits
    rw [same] at stored object
    have here : objectAt registry q i = e := object
    have start : tree.accepts selector e = true := by rw [accepts,sits.entry_live]; exact accepted
    have line := line_at sound stored within
    have nodup := objects_nodup sound stored within
    rw [countdown_succ,List.map_cons,here] at nodup
    rw [here] at line
    refine ⟨⟨tree,.new .findAllMatches (some e) selector anyEntrySubTree,[e]⟩,i+1,rfl,rfl,?_,?_,?_,fun steady => ?_⟩
    · intro f member
      rwa [List.mem_singleton.mp member]
    · intro j under
      exact ⟨by omega,prefixes_stored sound stored (by omega)⟩
    · intro short j below' storedJ acceptedJ
      refine Nat.lt_succ_of_le (Nat.not_lt.mp fun higher => ?_)
      have missing := highest j (lt_rounds.mpr (by rw [toInt_small short]; omega)) higher
      rw [wanted j storedJ acceptedJ] at missing
      cases missing
    · have begun : Passing ((countdown (i+1)).map (objectAt registry q)) ((countdown i).map (objectAt registry q)) [e] steady := by
        rw [countdown_succ,List.map_cons,here]
        have all : Passing (e :: (countdown i).map (objectAt registry q)) ([] ++ e :: (countdown i).map (objectAt registry q)) [] steady :=
          Passing.begin _ steady
        exact all.next fun _ member => absurd member List.not_mem_nil
      refine ⟨sound,fun _ => ⟨rfl,rfl⟩,_,begun,fun done => (by cases done),fun f same => ?_⟩
      cases Option.some.inj same
      exact ⟨line,nodup⟩

theorem Climbs.run {turns : List (EnumerationOp Component)} (climbs : Climbs host selector line s chains registry steady)
    (ongoing : Guarded (enumerationStep host) EnumerationOp.apply Ongoing s registry turns)
    (accepted : ∀ e, steady e → Always (enumerationStep host) (fun s => s.tree.accepts selector e = true) s turns) :
    ∃ final chains registry, run (enumerationStep host) s turns = .ok final ∧
      Climbs host selector line final chains registry steady ∧ ∀ e ∈ final.visited, e ∈ s.visited ∨
        Sometime (enumerationStep host) (fun s => s.tree.accepts selector e = true) s turns := by
  induction turns generalizing s chains registry with
  | nil => exact ⟨s,chains,registry,rfl,climbs,fun e member => .inl member⟩
  | cons op rest ih =>
    obtain ⟨allowed,later⟩ := ongoing
    obtain ⟨next,chainsN,stepped,come,climbsN⟩ : ∃ next chains, enumerationStep host s op = .ok next ∧
        (∀ e ∈ next.visited, e ∈ s.visited ∨ next.tree.accepts selector e = true) ∧
        Climbs host selector line next chains (op.apply registry) steady := by
      cases op with
      | client op =>
        obtain ⟨next,chainsN,stepped,same,climbsN⟩ := climbs.client allowed
        exact ⟨next,chainsN,stepped,fun e member => .inl (same ▸ member),climbsN⟩
      | increment =>
        obtain ⟨next,stepped,come,climbsN⟩ := climbs.increment allowed fun e still => (accepted e still).now
        exact ⟨next,chains,stepped,come,climbsN⟩
    obtain ⟨final,chainsF,registryF,ran,climbsF,visited⟩ := ih climbsN (later next stepped) fun e still => (accepted e still).tail stepped
    refine ⟨final,chainsF,registryF,by rw [Machine.run,stepped,ok_bind,ran],climbsF,fun e member => ?_⟩
    rcases visited e member with before | after
    · rcases come e before with old | new
      · exact .inl old
      · exact .inr (.later stepped (.now new))
    · exact .inr (.later stepped after)

-- It goes by the tree it has begun in, also when its current entry is erased.
theorem findAllMatches_amid_changes {n : Nat} (positive : 1 ≤ n) {ops : List (ClientOp Component)}
    {turns : List (EnumerationOp Component)} (safe : Guarded (clientStep host) ClientOp.apply SafeStep (new n) .empty ops)
    (ongoing : Yields (do let tree ← run (clientStep host) (new n) ops; tree.matching host q selector) fun s =>
      Guarded (enumerationStep host) EnumerationOp.apply Ongoing s (ops.foldl ClientOp.apply .empty) turns) :
    ∃ tree s final, run (clientStep host) (new n) ops = .ok tree ∧ tree.matching host q selector = .ok s ∧
      run (enumerationStep host) s turns = .ok final ∧
      (∃ lengths : List Nat, lengths.Pairwise (· > ·) ∧
        List.Forall₂ (fun i e => i ≤ q.length ∧ tree.findExactMatch host (getPrefix q i) = .ok (some e)) lengths final.visited) ∧
      (∀ e ∈ final.visited, Sometime (enumerationStep host) (fun s => s.tree.accepts selector e = true) s turns) ∧
      (final.it.entry = none → q.length < 2^31 → ∀ i ≤ q.length, ∀ e, tree.findExactMatch host (getPrefix q i) = .ok (some e) →
        Always (enumerationStep host) (fun s => s.tree.accepts selector e = true) s turns → e ∈ final.visited) := by
  obtain ⟨tree,reached,chains,consistent⟩ := client_consistent positive safe
  rw [reached,ok_bind] at ongoing
  obtain ⟨s,k,begun,rfl,first,stored,highest,climbs⟩ := matching_spec consistent q selector
  let steady := fun e => Always (enumerationStep host) (fun s => s.tree.accepts selector e = true) s turns
  obtain ⟨final,_,_,ran,climbsF,visited⟩ := (climbs steady).run (ongoing s begun) fun e still => still
  have found := findExactMatch_spec consistent.chained consistent.placed consistent.named
  obtain ⟨ahead,passing,ended,_⟩ := climbsF.passing
  refine ⟨_,s,final,reached,begun,ran,?_,fun e member => ?_,fun finished short i within e held still => ?_⟩
  · obtain ⟨lengths,part,same⟩ := List.sublist_map_iff.mp passing.part
    refine ⟨lengths,(countdown_decreasing k).sublist part,?_⟩
    rw [same,List.forall₂_map_right_iff,List.forall₂_same]
    intro i member
    obtain ⟨within,storedI⟩ := stored i (mem_countdown.mp (part.subset member))
    exact ⟨within,by rw [found,Registry.find_stored storedI,objectAt]⟩
  · rcases visited e member with old | later
    · exact .now (first e old)
    · exact later
  · rw [found] at held
    have inside := Except.ok.inj held
    by_cases storedI : getPrefix q i ∈ (ops.foldl ClientOp.apply Registry.empty).names
    · rw [Registry.find_stored storedI] at inside
      cases Option.some.inj inside
      rw [ended finished] at passing
      have below := highest short i within storedI still.now
      exact passing.done (List.mem_map.mpr ⟨i,mem_countdown.mpr below,rfl⟩) still
    · rw [Registry.find_absent storedI] at inside
      cases inside

-- /0/1 is erased while the iterator stands at it, and takes /0 and / with it.
theorem findAllMatches_amid_changes_erased : ∃ tree s final, run (clientStep collidingHost) (new 8) [.lookup [0,1]] = .ok tree ∧
    tree.matching collidingHost [0,1,5] anyEntry = .ok s ∧
    run (enumerationStep collidingHost) s [.client (.erase 2),.increment,.client (.lookup [0]),.increment] = .ok final ∧
    (∃ lengths : List Nat, lengths.Pairwise (· > ·) ∧ List.Forall₂ (fun i e => i ≤ [0,1,5].length ∧
      tree.findExactMatch collidingHost (getPrefix [0,1,5] i) = .ok (some e)) lengths final.visited) ∧
    (∀ e ∈ final.visited, Sometime (enumerationStep collidingHost) (fun s => s.tree.accepts anyEntry e = true) s
      [.client (.erase 2),.increment,.client (.lookup [0]),.increment]) ∧
    (final.it.entry = none → [0,1,5].length < 2^31 → ∀ i ≤ [0,1,5].length, ∀ e,
      tree.findExactMatch collidingHost (getPrefix [0,1,5] i) = .ok (some e) →
      Always (enumerationStep collidingHost) (fun s => s.tree.accepts anyEntry e = true) s
        [.client (.erase 2),.increment,.client (.lookup [0]),.increment] → e ∈ final.visited) :=
  findAllMatches_amid_changes (by decide) (by decide) (by decide)

example : (do
    let tree ← run (clientStep collidingHost) (new 8) [.lookup [0,1]]
    let s ← tree.matching collidingHost [0,1,5] anyEntry
    let final ← run (enumerationStep collidingHost) s [.client (.erase 2),.increment,.client (.lookup [0]),.increment]
    return (final.visited,(final.tree.findExactMatch collidingHost [0]).toOption)) = .ok ([2,1,0],some (some 4)) := by decide
end Matching

end NfdTables.NameTree
