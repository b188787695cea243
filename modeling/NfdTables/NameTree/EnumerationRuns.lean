import NfdTables.Foundation.Sweep
import NfdTables.NameTree.FullEnumerate
import NfdTables.NameTree.Roomy

namespace NfdTables.NameTree
open Machine Chain Sweep
variable {Component : Type} [DecidableEq Component]

section Occupants
variable {host : Host Component} {allowed : Kind → Prop} {s t : Snapshot Component} {tree after : NameTree Component}
  {chains : List (List NodeId)} {registry : Registry Component}

abbrev occupants (tree : NameTree Component) (nodes : List NodeId) : List EntryId := nodes.filterMap (tree.hit anyEntry)
abbrev Snapshot.occupants (s : Snapshot Component) : List EntryId := s.tree.occupants s.chains.flatten

omit [DecidableEq Component] in
theorem occupied (holds : tree.entryAt n = some (e,entry)) : tree.hit anyEntry n = some e := by
  rw [hit_at holds,anyEntry,if_pos rfl]

omit [DecidableEq Component] in
theorem occupants_cons (holds : tree.entryAt n = some (e,entry)) : tree.occupants (n :: rest) = e :: tree.occupants rest :=
  List.filterMap_cons_some (occupied holds)

omit [DecidableEq Component] in
theorem mem_occupants : e ∈ tree.occupants chains.flatten ↔ ∃ n entry, Sits tree chains n e entry := by
  rw [occupants,← eligible_eq]
  refine mem_eligible.trans (exists_congr fun n => exists_congr fun entry => ?_)
  simp [anyEntry]

omit [DecidableEq Component] in
theorem Snapshot.Sound.occupants_nodup (sound : s.Sound host) : s.occupants.Nodup :=
  hits_nodup sound.chained sound.pointing anyEntry

omit [DecidableEq Component] in
theorem occupant_older (member : e ∈ tree.occupants chains.flatten) : e < tree.entries.size := by
  obtain ⟨n,entry,sits⟩ := mem_occupants.mp member
  exact Heap.live_bound sits.entry_live

omit [DecidableEq Component] in
theorem Entered.edited (effect : Entered host tree after chains chain parent name) (chained : Chained tree chains)
    (at_loc : chains[(host.hashName name).toNat % tree.nBuckets]? = some chain)
    (nodup : (after.occupants (enteredChains host tree chains chain name).flatten).Nodup) :
    Edited (tree.entries.size ≤ ·) (tree.occupants chains.flatten)
      (after.occupants (enteredChains host tree chains chain name).flatten) := by
  obtain ⟨left,right,before,now⟩ := flatten_around at_loc
  have same : ∀ n ∈ chains.flatten, after.hit anyEntry n = tree.hit anyEntry n := by
    intro n member
    obtain ⟨f,entry,sits⟩ := chained.sits member
    rw [occupied sits.holds,occupied (effect.entryAt_old sits chained)]
  rw [before] at same
  have shape : after.occupants (enteredChains host tree chains chain name).flatten =
      tree.occupants (left ++ chain) ++ tree.entries.size :: tree.occupants right := by
    rw [now,← List.append_assoc,List.append_assoc,List.singleton_append]
    simp only [occupants,List.filterMap_append (l:=left ++ chain),List.filterMap_cons,occupied effect.entryAt_new]
    rw [List.filterMap_congr fun n member => same n (List.mem_append_left _ member),
      List.filterMap_congr fun n member => same n (List.mem_append_right _ member)]
  rw [shape] at nodup ⊢
  rw [before,occupants,List.filterMap_append]
  exact .insert nodup (Nat.le_refl _)

omit [DecidableEq Component] in
theorem Attached.edited (effect : Attached tree after e change) (nodup : (tree.occupants chains.flatten).Nodup) :
    Edited (tree.entries.size ≤ ·) (tree.occupants chains.flatten) (after.occupants chains.flatten) := by
  have same : after.occupants chains.flatten = tree.occupants chains.flatten := by
    refine List.filterMap_congr fun n _ => ?_
    rw [hit,hit,effect.entryAt]
    cases tree.entryAt n <;> simp [anyEntry]
  rw [same]
  exact .refl nodup

omit [DecidableEq Component] in
theorem Removed.edited (effect : Removed tree after chains loc front n behind parent rest) (chained : Chained tree chains)
    (at_loc : chains[loc]? = some (front ++ n :: behind)) (sits : Sits tree chains n e entry)
    (nodup : (tree.occupants chains.flatten).Nodup) :
    Edited (tree.entries.size ≤ ·) (tree.occupants chains.flatten)
      (after.occupants (chains.set loc (front ++ behind)).flatten) := by
  obtain ⟨left,right,before,now⟩ := flatten_around at_loc
  have same : ∀ m ∈ (chains.set loc (front ++ behind)).flatten, after.hit anyEntry m = tree.hit anyEntry m := by
    intro m member
    obtain ⟨inside,other⟩ := (mem_left chained.table at_loc).mp member
    obtain ⟨f,object,sitsM⟩ := chained.sits inside
    rw [occupied sitsM.holds,occupied (effect.entryAt_old sitsM other)]
  have shape : tree.occupants chains.flatten =
      tree.occupants (left ++ front) ++ e :: tree.occupants (behind ++ right) := by
    rw [before]
    simp [occupants,List.filterMap_append,occupied sits.holds]
  have fewer : after.occupants (chains.set loc (front ++ behind)).flatten =
      tree.occupants (left ++ front) ++ tree.occupants (behind ++ right) := by
    rw [occupants,List.filterMap_congr same,now]
    simp [occupants,List.filterMap_append]
  rw [shape] at nodup ⊢
  rw [fewer]
  exact .delete nodup

-- What a move but a resize does to the order of the entries.
theorem Moved.edited (moved : Moved host kind s t) (sound : s.Sound host) (other : kind ≠ .resized) :
    Edited (s.tree.entries.size ≤ ·) s.occupants t.occupants ∧ s.tree.entries.size ≤ t.tree.entries.size := by
  have nodupT := (moved.sound sound).occupants_nodup
  have nodupS := sound.occupants_nodup
  cases moved with
  | entered absent at_loc rooted above effect =>
    exact ⟨effect.edited sound.chained at_loc nodupT,effect.entriesSize ▸ Nat.le_succ _⟩
  | resized _ _ _ => exact absurd rfl other
  | attached ran effect => exact ⟨effect.edited nodupS,Nat.le_of_eq effect.size.symm⟩
  | removed sits at_loc childless taken effect =>
    exact ⟨effect.edited sound.chained at_loc sits nodupS,Nat.le_of_eq effect.entriesSize.symm⟩

theorem Moved.keeps (moved : Moved host kind s t) (sound : s.Sound host) (other : kind ≠ .resized) (stays : kind ≠ .removed e)
    (member : e ∈ s.occupants) : e ∈ t.occupants := by
  obtain ⟨n,entry,sits⟩ := mem_occupants.mp member
  refine mem_occupants.mpr ?_
  cases moved with
  | entered absent at_loc rooted above effect => exact ⟨n,_,effect.sits_old sound.chained at_loc sits⟩
  | resized _ _ _ => exact absurd rfl other
  | attached ran effect => exact ⟨n,_,effect.sits.mpr ⟨entry,sits,rfl⟩⟩
  | removed sitsF at_loc childless taken effect =>
    refine ⟨n,_,effect.sits_old sound.chained.table at_loc sits fun same => stays ?_⟩
    subst same
    rw [(entryAt_unique sitsF.holds sits.holds).1]

-- Fresh entries come in, and others than the current one may go.
structure Amid (cursor : Option EntryId) (s t : Snapshot Component) : Prop where
  edited : Edited (s.tree.entries.size ≤ ·) s.occupants t.occupants
  grown : s.tree.entries.size ≤ t.tree.entries.size
  current : ∀ e, cursor = some e → e ∈ s.occupants → e ∈ t.occupants

def Aside (cursor : Option EntryId) (kind : Kind) : Prop := kind ≠ .resized ∧ ∀ e, cursor = some e → kind ≠ .removed e

theorem Path.amid (path : Path host (Aside cursor) s t) (sound : s.Sound host) : Amid cursor s t := by
  induction path with
  | stay => exact ⟨.refl sound.occupants_nodup,Nat.le_refl _,fun _ _ member => member⟩
  | step path moved fits ih =>
    obtain ⟨edited,grown,current⟩ := ih
    have soundM := path.sound sound
    obtain ⟨editedM,grownM⟩ := moved.edited soundM fits.1
    refine ⟨edited.trans editedM ?_ fun i new => Nat.le_trans grown new,Nat.le_trans grown grownM,fun e at_e member => ?_⟩
    · exact fun i member new => Nat.lt_irrefl _ (Nat.lt_of_lt_of_le (occupant_older member) (Nat.le_trans grown new))
    · exact moved.keeps soundM fits.1 (fits.2 e at_e) (current e at_e member)
end Occupants

section Selection
variable {host : Host Component} {selector : EntrySelector Component} {tree : NameTree Component} {chains : List (List NodeId)}
  {registry : Registry Component}

def accepts (tree : NameTree Component) (selector : EntrySelector Component) (e : EntryId) : Bool :=
  (tree.entries.read e).any (selector e)

-- `e` is stored under its name, and the selector accepts it as it is.
def Selected (host : Host Component) (selector : EntrySelector Component) (e : EntryId) (tree : NameTree Component) : Prop :=
  ∃ entry, tree.entries.read e = some entry ∧ tree.findExactMatch host entry.namePrefix = .ok (some e) ∧ selector e entry = true

theorem selected_iff (consistent : Consistent host tree chains registry) :
    Selected host selector e tree ↔ e ∈ tree.occupants chains.flatten ∧ tree.accepts selector e = true := by
  have found := findExactMatch_spec consistent.chained consistent.placed consistent.named
  rw [mem_occupants]
  constructor
  · rintro ⟨entry,live,same,wanted⟩
    rw [found] at same
    have held := Except.ok.inj same
    by_cases stored : entry.namePrefix ∈ registry.names
    · rw [Registry.find_stored stored] at held
      cases Option.some.inj held
      obtain ⟨n,other,sits,_⟩ := consistent.named.live stored
      exact ⟨⟨n,other,sits⟩,by rw [accepts,live]; exact wanted⟩
    · rw [Registry.find_absent stored] at held
      cases held
  · rintro ⟨⟨n,entry,sits⟩,wanted⟩
    rw [accepts,sits.entry_live] at wanted
    refine ⟨entry,sits.entry_live,?_,wanted⟩
    rw [found,Registry.find_stored (consistent.named.known sits).1,consistent.named.object sits]

omit [DecidableEq Component] in
theorem findSome_hit (nodes : List NodeId) :
    nodes.findSome? (tree.hit selector) = (tree.occupants nodes).find? (tree.accepts selector) := by
  induction nodes with
  | nil => rfl
  | cons n rest ih =>
    rw [List.findSome?_cons,ih]
    cases holds : tree.entryAt n with
    | none => simp [occupants,hit,holds]
    | some pair =>
      obtain ⟨e,entry⟩ := pair
      obtain ⟨_,_,_,live⟩ := entryAt_iff.mp holds
      have same : tree.accepts selector e = selector e entry := by rw [accepts,live]; rfl
      rw [occupants_cons holds,hit_at holds,List.find?_cons,same]
      cases selector e entry <;> rfl

omit [DecidableEq Component] in
theorem occupant_place (member : e ∈ tree.occupants chains.flatten) : ∃ front n behind entry,
    chains.flatten = front ++ n :: behind ∧ Sits tree chains n e entry ∧
      tree.occupants chains.flatten = tree.occupants front ++ e :: tree.occupants behind := by
  obtain ⟨n,entry,sits⟩ := mem_occupants.mp member
  obtain ⟨front,behind,shape⟩ := List.append_of_mem sits.member
  refine ⟨front,n,behind,entry,shape,sits,?_⟩
  rw [shape,occupants,List.filterMap_append,← occupants_cons sits.holds]
end Selection

section Enumerations

-- An enumeration that has begun, with the entries it has come to.
structure Enumeration (Component : Type) where
  tree : NameTree Component
  it : ConstIterator Component
  visited : List EntryId

inductive EnumerationOp (Component : Type) where
  | client (op : ClientOp Component)
  | increment

def EnumerationOp.apply (registry : Registry Component) : EnumerationOp Component → Registry Component
  | .client op => op.apply registry
  | .increment => registry

def enumerationStep (host : Host Component) (s : Enumeration Component) : EnumerationOp Component → Exec (Enumeration Component)
  | .client op => do
    let tree ← clientStep host s.tree op
    return {s with tree := tree}
  | .increment => do
    let it ← s.it.increment s.tree
    return {s with it := it,visited := s.visited ++ it.entry.toList}

def enumerating (tree : NameTree Component) (selector : EntrySelector Component) : Exec (Enumeration Component) := do
  let it ← tree.fullEnumerate selector
  return ⟨tree,it,it.entry.toList⟩

-- Others neither resize the table nor take out the current entry.
def Undisturbed (s : Enumeration Component) (registry : Registry Component) : EnumerationOp Component → Prop
  | .increment => s.it.entry ≠ none
  | .client (.lookup name) => (registry.lookup name).names.card ≤ s.tree.resizeThreshold
  | .client (.attach e _) => registry.Holds e
  | .client (.erase e) => registry.Holds e ∧ ∀ y ∈ registry.names, registry.FallsWith e y →
      s.tree.HeadInOrder (registry.cell y).object ∧ s.it.entry ≠ some (registry.cell y).object

instance (s : Enumeration Component) (registry : Registry Component) (op : EnumerationOp Component) :
    Decidable (Undisturbed s registry op) :=
  match op with
  | .increment => inferInstanceAs (Decidable (s.it.entry ≠ none))
  | .client (.lookup _) => Nat.decLe _ _
  | .client (.attach e _) => inferInstanceAs (Decidable (registry.Holds e))
  | .client (.erase e) => inferInstanceAs (Decidable (registry.Holds e ∧ ∀ y ∈ registry.names, registry.FallsWith e y →
      s.tree.HeadInOrder (registry.cell y).object ∧ s.it.entry ≠ some (registry.cell y).object))
end Enumerations

section Amid
variable {host : Host Component} {selector : EntrySelector Component} {s : Enumeration Component}
  {chains : List (List NodeId)} {registry : Registry Component} {steady : EntryId → Prop} {tree : NameTree Component}

structure Enumerates (host : Host Component) (selector : EntrySelector Component) (s : Enumeration Component)
    (chains : List (List NodeId)) (registry : Registry Component) (steady : EntryId → Prop) : Prop where
  sound : Consistent host s.tree chains registry
  small : s.tree.nBuckets < 2^31
  kind : s.it.entry.isSome → s.it.kind = .fullEnumerate ∧ s.it.entrySelector = selector
  older : ∀ e ∈ s.visited, e < s.tree.entries.size
  swept : Swept (s.tree.occupants chains.flatten) s.it.entry s.visited steady

theorem Undisturbed.safe {op : ClientOp Component} (undisturbed : Undisturbed s registry (.client op)) :
    SafeStep s.tree registry op ∧ op.Within (Aside s.it.entry) s.tree.resizeThreshold registry := by
  cases op with
  | lookup name => exact ⟨⟨trivial,trivial⟩,⟨⟨nofun,nofun⟩,.inr undisturbed⟩⟩
  | attach e change => exact ⟨⟨undisturbed,trivial⟩,nofun,nofun⟩
  | erase e =>
    obtain ⟨held,falls⟩ := undisturbed
    refine ⟨⟨held,fun y stored fell => (falls y stored fell).1⟩,fun y stored fell => ⟨nofun,fun e at_e same => ?_⟩⟩
    cases same
    exact (falls y stored fell).2 at_e

theorem Enumerates.client {op : ClientOp Component} (enumerates : Enumerates host selector s chains registry steady)
    (undisturbed : Undisturbed s registry (.client op))
    (stays : ∀ next, enumerationStep host s (.client op) = .ok next → ∀ e, steady e → Selected host selector e next.tree) :
    ∃ next chains, enumerationStep host s (.client op) = .ok next ∧ next.visited = s.visited ∧
      Enumerates host selector next chains (op.apply registry) steady := by
  obtain ⟨sound,small,kind,older,swept⟩ := enumerates
  obtain ⟨safe,within⟩ := undisturbed.safe
  obtain ⟨⟨tree,chainsT,_⟩,ran,rfl,path⟩ := client_path (s:=⟨s.tree,chains,registry⟩) sound op safe within
  have soundT := path.sound sound
  have stepped : enumerationStep host s (.client op) = .ok {s with tree := tree} := by rw [enumerationStep,ran]; rfl
  obtain ⟨edited,grown,current⟩ := path.amid sound
  refine ⟨_,chainsT,stepped,rfl,soundT,?_,kind,fun e member => Nat.lt_of_lt_of_le (older e member) grown,?_⟩
  · exact (path.calm sound fun may => may.1 rfl).buckets ▸ small
  · refine swept.edit edited (fun c at_c => current c at_c (swept.here c at_c)) (fun i new member => ?_) fun i still => ?_
    · exact Nat.lt_irrefl _ (Nat.lt_of_lt_of_le (older i member) new)
    · exact ((selected_iff soundT).mp (stays _ stepped i still)).1

omit [DecidableEq Component] in
theorem increment_full (sound : Consistent host tree chains registry) (small : tree.nBuckets < 2^31)
    {it : ConstIterator Component} (kind : it.kind = .fullEnumerate) (here : it.entry = some e)
    (member : e ∈ tree.occupants chains.flatten) :
    ∃ front behind next, tree.occupants chains.flatten = front ++ e :: behind ∧ it.increment tree = .ok next ∧
      next.entry = behind.find? (tree.accepts it.entrySelector) ∧ next.kind = .fullEnumerate ∧
      next.entrySelector = it.entrySelector := by
  obtain ⟨front,n,behind,entry,shape,sits,order⟩ := occupant_place member
  have moved : it.increment tree = it.nextFull tree e := by
    simp only [ConstIterator.increment,here,required_some,ok_bind,kind]
  have ran := nextFull_spec sound.chained sound.placed sound.pointing small it shape sits
  exact ⟨_,_,_,order,moved.trans ran,findSome_hit behind,kind,rfl⟩

theorem Enumerates.increment (enumerates : Enumerates host selector s chains registry steady) (busy : s.it.entry ≠ none)
    (selected : ∀ e, steady e → Selected host selector e s.tree) :
    ∃ next, enumerationStep host s .increment = .ok next ∧
      (∀ e ∈ next.visited, e ∈ s.visited ∨ Selected host selector e next.tree) ∧
      Enumerates host selector next chains registry steady := by
  obtain ⟨sound,small,kind,older,swept⟩ := enumerates
  obtain ⟨e,here⟩ := Option.ne_none_iff_exists'.mp busy
  obtain ⟨kindF,rfl⟩ := kind (by rw [here]; rfl)
  obtain ⟨front,behind,it,order,moved,entry,kindN,same⟩ := increment_full sound small kindF here (swept.here e here)
  rw [here,order] at swept
  have next := swept.advance fun i still => ((selected_iff sound).mp (selected i still)).2
  rw [← order,← entry] at next
  have arrived : ∀ f ∈ it.entry.toList, f ∈ s.tree.occupants chains.flatten ∧ s.tree.accepts s.it.entrySelector f = true := by
    intro f member
    rw [Option.mem_toList,entry] at member
    exact ⟨by rw [order]; simp [List.mem_of_find?_eq_some member],List.find?_some member⟩
  refine ⟨{s with it := it,visited := s.visited ++ it.entry.toList},by rw [enumerationStep,moved]; rfl,fun f member => ?_,
    sound,small,fun _ => ⟨kindN,same⟩,fun f member => ?_,next⟩
  · rcases List.mem_append.mp member with old | new
    · exact .inl old
    · exact .inr ((selected_iff sound).mpr (arrived f new))
  · rcases List.mem_append.mp member with old | new
    · exact older f old
    · exact occupant_older (arrived f new).1

theorem enumerating_spec (sound : Consistent host tree chains registry) (selector : EntrySelector Component) :
    ∃ s, tree.enumerating selector = .ok s ∧ s.tree = tree ∧ (∀ e ∈ s.visited, Selected host selector e tree) ∧
      ∀ steady : EntryId → Prop, tree.nBuckets < 2^31 → (∀ e, steady e → Selected host selector e tree) →
        Enumerates host selector s chains registry steady := by
  have first := firstEligible_spec selector sound.chained (fun _ member => member)
  rw [← sound.chained.table.heads,findSome_hit] at first
  have begun : ∀ steady : EntryId → Prop, (∀ e, steady e → Selected host selector e tree) →
      Swept (tree.occupants chains.flatten) ((tree.occupants chains.flatten).find? (tree.accepts selector))
        ((tree.occupants chains.flatten).find? (tree.accepts selector)).toList steady := fun steady selected =>
    Swept.begin (hits_nodup sound.chained sound.pointing anyEntry)
      (fun i still => ((selected_iff sound).mp (selected i still)).1) fun i still => ((selected_iff sound).mp (selected i still)).2
  unfold enumerating fullEnumerate
  rw [first,ok_bind]
  cases found : (tree.occupants chains.flatten).find? (tree.accepts selector) with
  | none =>
    rw [found] at begun
    exact ⟨⟨tree,endIterator,[]⟩,rfl,rfl,by simp,fun steady small selected => ⟨sound,small,nofun,by simp,begun steady selected⟩⟩
  | some e =>
    rw [found] at begun
    have inside := List.mem_of_find?_eq_some found
    refine ⟨⟨tree,.new .fullEnumerate (some e) selector anyEntrySubTree,[e]⟩,rfl,rfl,?_,fun steady small selected =>
      ⟨sound,small,fun _ => ⟨rfl,rfl⟩,?_,begun steady selected⟩⟩
    · rintro f (_ | ⟨_,⟨⟩⟩)
      exact (selected_iff sound).mpr ⟨inside,List.find?_some found⟩
    · rintro f (_ | ⟨_,⟨⟩⟩)
      exact occupant_older inside

theorem Enumerates.run {turns : List (EnumerationOp Component)} (enumerates : Enumerates host selector s chains registry steady)
    (undisturbed : Guarded (enumerationStep host) EnumerationOp.apply Undisturbed s registry turns)
    (selected : ∀ e, steady e → Always (enumerationStep host) (fun s => Selected host selector e s.tree) s turns) :
    ∃ final chains registry, run (enumerationStep host) s turns = .ok final ∧
      Enumerates host selector final chains registry steady ∧ ∀ e ∈ final.visited, e ∈ s.visited ∨
        Sometime (enumerationStep host) (fun s => Selected host selector e s.tree) s turns := by
  induction turns generalizing s chains registry with
  | nil => exact ⟨s,chains,registry,rfl,enumerates,fun e member => .inl member⟩
  | cons op rest ih =>
    obtain ⟨allowed,later⟩ := undisturbed
    obtain ⟨next,chainsN,stepped,come,enumeratesN⟩ : ∃ next chains, enumerationStep host s op = .ok next ∧
        (∀ e ∈ next.visited, e ∈ s.visited ∨ Selected host selector e next.tree) ∧
        Enumerates host selector next chains (op.apply registry) steady := by
      cases op with
      | client op =>
        obtain ⟨next,chainsN,stepped,same,enumeratesN⟩ := enumerates.client allowed
          fun next stepped e still => ((selected e still).tail stepped).now
        exact ⟨next,chainsN,stepped,fun e member => .inl (same ▸ member),enumeratesN⟩
      | increment =>
        obtain ⟨next,stepped,come,enumeratesN⟩ := enumerates.increment allowed fun e still => (selected e still).now
        exact ⟨next,chains,stepped,come,enumeratesN⟩
    obtain ⟨final,chainsF,registryF,ran,enumeratesF,visited⟩ := ih enumeratesN (later next stepped)
      fun e still => (selected e still).tail stepped
    refine ⟨final,chainsF,registryF,by rw [Machine.run,stepped,ok_bind,ran],enumeratesF,fun e member => ?_⟩
    rcases visited e member with before | after
    · rcases come e before with old | new
      · exact .inl old
      · exact .inr (.later stepped (.now new))
    · exact .inr (.later stepped after)

-- Nothing comes twice, nothing that has not been there, and nothing is missed that stays.
theorem fullEnumerate_amid_changes {n : Nat} (positive : 1 ≤ n) {ops : List (ClientOp Component)}
    {selector : EntrySelector Component} {turns : List (EnumerationOp Component)}
    (safe : Guarded (clientStep host) ClientOp.apply SafeStep (new n) .empty ops)
    (undisturbed : Yields (do let tree ← run (clientStep host) (new n) ops; tree.enumerating selector) fun s =>
      s.tree.nBuckets < 2^31 ∧
        Guarded (enumerationStep host) EnumerationOp.apply Undisturbed s (ops.foldl ClientOp.apply .empty) turns) :
    ∃ tree s final, run (clientStep host) (new n) ops = .ok tree ∧ tree.enumerating selector = .ok s ∧
      run (enumerationStep host) s turns = .ok final ∧ final.visited.Nodup ∧
      (∀ e ∈ final.visited, Sometime (enumerationStep host) (fun s => Selected host selector e s.tree) s turns) ∧
      (final.it.entry = none → ∀ e, Always (enumerationStep host) (fun s => Selected host selector e s.tree) s turns →
        e ∈ final.visited) := by
  obtain ⟨tree,reached,chains,consistent⟩ := client_consistent positive safe
  rw [reached,ok_bind] at undisturbed
  obtain ⟨s,begun,rfl,first,enumerates⟩ := enumerating_spec consistent selector
  obtain ⟨small,guarded⟩ := undisturbed s begun
  let steady := fun e => Always (enumerationStep host) (fun s => Selected host selector e s.tree) s turns
  obtain ⟨final,_,_,ran,enumeratesF,visited⟩ := (enumerates steady small fun e still => still.now).run guarded fun e still => still
  refine ⟨_,s,final,reached,begun,ran,enumeratesF.swept.once,fun e member => ?_,fun ended e still => ?_⟩
  · rcases visited e member with old | later
    · exact .now (first e old)
    · exact later
  · have swept := enumeratesF.swept
    rw [ended] at swept
    exact swept.done still

-- /0/2 comes in behind the current entry and /1 goes ahead of it.
theorem fullEnumerate_amid_changes_apart : ∃ tree s final,
    run (clientStep collidingHost) (new 8) [.lookup [0],.lookup [1]] = .ok tree ∧ tree.enumerating anyEntry = .ok s ∧
      run (enumerationStep collidingHost) s [.increment,.client (.lookup [0,2]),.client (.erase 2),.increment,.increment] =
        .ok final ∧ final.visited.Nodup ∧
      (∀ e ∈ final.visited, Sometime (enumerationStep collidingHost) (fun s => Selected collidingHost anyEntry e s.tree) s
        [.increment,.client (.lookup [0,2]),.client (.erase 2),.increment,.increment]) ∧
      (final.it.entry = none → ∀ e, Always (enumerationStep collidingHost) (fun s => Selected collidingHost anyEntry e s.tree) s
        [.increment,.client (.lookup [0,2]),.client (.erase 2),.increment,.increment] → e ∈ final.visited) :=
  fullEnumerate_amid_changes (by decide) (by decide) (by decide)

-- A resize puts /1 before the current entry, and the enumeration misses it.
example : (do
    let host : Host Nat := ⟨fun name => if name = [0] then 6 else if name = [1] then 1 else 0,fun n => n⟩
    let tree ← run (clientStep host) (new 6) [.lookup [0],.lookup [1]]
    let s ← tree.enumerating anyEntry
    let final ← run (enumerationStep host) s [.increment,.client (.lookup [2]),.increment]
    return (final.visited,final.it.entry,(tree.findExactMatch host [1]).toOption)) = .ok ([0,1],none,some (some 2)) := by decide
end Amid

end NfdTables.NameTree
