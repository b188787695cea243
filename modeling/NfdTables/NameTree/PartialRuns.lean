import NfdTables.NameTree.MatchRuns
import NfdTables.NameTree.PartialEnumerate

namespace NfdTables.NameTree
open Machine Chain Sweep ForestWalk
variable {Component : Type} [DecidableEq Component]

section Growth
variable {host : Host Component} {allowed : Kind → Prop} {s t u : Snapshot Component} {tree after : NameTree Component}
  {chains : List (List NodeId)} {root : EntryId} {p : Name Component}

def Growing (kind : Kind) : Prop := ∀ e, kind ≠ .removed e

omit [DecidableEq Component] in
-- Children are added at the end, and a fresh entry has none.
theorem Entered.children (effect : Entered host tree after chains chain parent name) (e : EntryId) :
    after.childrenOf e = tree.childrenOf e ∨ after.childrenOf e = tree.childrenOf e ++ [tree.entries.size] := by
  by_cases new : e = tree.entries.size
  · subst e
    have missing : tree.entries.read tree.entries.size = none := Heap.read_beyond (Nat.le_refl _)
    exact .inl (by simp only [childrenOf,missing,effect.entry_new])
  · have read := effect.entry_old e new
    cases live : tree.entries.read e with
    | none =>
      rw [live,Option.map_none,ite_self] at read
      exact .inl (by simp only [childrenOf,read,live])
    | some entry =>
      rw [live] at read
      split at read
      · exact .inr (by simp only [childrenOf,read,live,Option.map_some])
      · exact .inl (by simp only [childrenOf,read,live])

omit [DecidableEq Component] in
theorem Attached.children (effect : Attached tree after e change) (f : EntryId) : after.childrenOf f = tree.childrenOf f := by
  have read := effect.read f
  cases live : tree.entries.read f with
  | none =>
    rw [live,Option.map_none] at read
    simp only [childrenOf,live,read]
  | some entry =>
    rw [live,Option.map_some] at read
    simp only [childrenOf,live,read,endow]

theorem Moved.children (moved : Moved host kind s t) (growing : Growing kind) (e : EntryId) :
    t.tree.childrenOf e = s.tree.childrenOf e ∨ t.tree.childrenOf e = s.tree.childrenOf e ++ [s.tree.entries.size] := by
  cases moved with
  | entered absent at_loc rooted above effect => exact effect.children e
  | resized positive ran effect => exact .inl (by simp only [childrenOf,effect.objects])
  | attached ran effect => exact .inl (effect.children e)
  | removed sits at_loc childless taken effect => exact absurd rfl (growing _)

theorem Moved.stays (moved : Moved host kind s t) (sound : s.Sound host) (growing : Growing kind)
    (stored : Stored s.tree s.chains e) : Stored t.tree t.chains e := by
  obtain ⟨n,entry,sits⟩ := stored
  cases moved with
  | entered absent at_loc rooted above effect => exact ⟨n,_,effect.sits_old sound.chained at_loc sits⟩
  | resized positive ran effect => exact ⟨n,entry,(effect.sits positive).mpr sits⟩
  | attached ran effect => exact ⟨n,_,effect.sits.mpr ⟨entry,sits,rfl⟩⟩
  | removed sitsF at_loc childless taken effect => exact absurd rfl (growing _)

-- What is stored after a move has been stored before, or is fresh and has no children.
theorem Moved.origin (moved : Moved host kind s t) (sound : s.Sound host) (growing : Growing kind)
    (stored : Stored t.tree t.chains e) :
    Stored s.tree s.chains e ∨ e = s.tree.entries.size ∧ t.tree.childrenOf e = [] := by
  obtain ⟨n,entry,sits⟩ := stored
  cases moved with
  | entered absent at_loc rooted above effect =>
    rcases effect.sits sound.chained at_loc sits with ⟨_,rfl,_⟩ | ⟨old,sitsOld,_⟩
    · right
      exact ⟨rfl,by rw [childrenOf,effect.entry_new]⟩
    · exact .inl ⟨n,old,sitsOld⟩
  | resized positive ran effect => exact .inl ⟨n,entry,(effect.sits positive).mp sits⟩
  | attached ran effect =>
    obtain ⟨old,sitsOld,_⟩ := effect.sits.mp sits
    exact .inl ⟨n,old,sitsOld⟩
  | removed sitsF at_loc childless taken effect => exact absurd rfl (growing _)

omit [DecidableEq Component] in
theorem Stored.bound (stored : Stored tree chains e) : e < tree.entries.size := by
  obtain ⟨n,entry,sits⟩ := stored
  exact Heap.live_bound sits.entry_live

omit [DecidableEq Component] in
theorem listed_stored {registry : Registry Component} (consistent : Consistent host tree chains registry)
    (stored : Stored tree chains root) (listed : Listing tree.childrenOf [root] listing) : ∀ e ∈ listing, Stored tree chains e := by
  intro e member
  obtain ⟨_,f,first,path⟩ := listed.mem_iff.mp member
  cases List.mem_singleton.mp first
  exact (Reaches.extends (child_extends consistent.agrees.toChildLinks) stored path).1

-- The pre-order of a sub-tree keeps its order as the tree grows.
theorem Moved.listed (moved : Moved host kind s t) (sound : s.Sound host) (growing : Growing kind)
    (stored : Stored s.tree s.chains root) (listed : Listing s.tree.childrenOf [root] listing) :
    ∃ later, Listing t.tree.childrenOf [root] later ∧ Edited (s.tree.entries.size ≤ ·) listing later ∧ listing ⊆ later := by
  have agreesT := (moved.sound sound).agrees
  have links := sound.agrees.toChildLinks
  have storedT := moved.stays sound growing stored
  obtain ⟨n,top,rooted⟩ := storedT
  obtain ⟨later,full,nodup,_⟩ := listing_exists agreesT.toStores agreesT.toChildLinks rooted
  have older : ∀ e, Stored s.tree s.chains e → decide (e ≠ s.tree.entries.size) = true :=
    fun e storedE => decide_eq_true (Nat.ne_of_lt storedE.bound)
  have kept : ∀ a, Stored t.tree t.chains a → decide (a ≠ s.tree.entries.size) = true →
      s.tree.childrenOf a = (t.tree.childrenOf a).filter fun e => decide (e ≠ s.tree.entries.size) := by
    intro a storedA old
    have before := (moved.origin sound growing storedA).resolve_right fun fresh => of_decide_eq_true old fresh.1
    have all : (s.tree.childrenOf a).filter (fun e => decide (e ≠ s.tree.entries.size)) = s.tree.childrenOf a :=
      List.filter_eq_self.mpr fun c member => older c (child_extends links a before c member).1
    rcases moved.children growing a with same | longer
    · rw [same,all]
    · rw [longer,List.filter_append,all]
      simp
  have fresh : ∀ a, Stored t.tree t.chains a → decide (a ≠ s.tree.entries.size) = false →
      ∀ b ∈ t.tree.childrenOf a, decide (b ≠ s.tree.entries.size) = false := by
    intro a storedA new b member
    rcases moved.origin sound growing storedA with before | ⟨_,childless⟩
    · rw [older a before] at new
      cases new
    · rw [childless] at member
      cases member
  have thinned := full.thin (fun a storedA b member => (child_extends agreesT.toChildLinks a storedA b member).1) kept fresh
    fun a member => List.mem_singleton.mp member ▸ ⟨n,top,rooted⟩
  have single : [root].filter (fun e => decide (e ≠ s.tree.entries.size)) = [root] := List.filter_cons_of_pos (older root stored)
  rw [single] at thinned
  have same := listed.unique thinned
  refine ⟨later,full,(Edited.of_filter nodup same).mono fun e new => ?_,same ▸ List.filter_sublist.subset⟩
  exact Nat.le_of_eq (Decidable.not_not.mp (of_decide_eq_false new)).symm

structure Grown (root : EntryId) (s t : Snapshot Component) : Prop where
  listed : ∀ listing, Listing s.tree.childrenOf [root] listing →
    ∃ later, Listing t.tree.childrenOf [root] later ∧ Edited (s.tree.entries.size ≤ ·) listing later ∧ listing ⊆ later
  children : ∀ e, s.tree.childrenOf e <+: t.tree.childrenOf e
  stays : ∀ e, Stored s.tree s.chains e → Stored t.tree t.chains e
  size : s.tree.entries.size ≤ t.tree.entries.size

theorem Moved.size_le (moved : Moved host kind s t) : s.tree.entries.size ≤ t.tree.entries.size := by
  cases moved with
  | entered absent at_loc rooted above effect => exact effect.entriesSize ▸ Nat.le_succ _
  | resized positive ran effect => exact effect.objects ▸ Nat.le_refl _
  | attached ran effect => exact Nat.le_of_eq effect.size.symm
  | removed sits at_loc childless taken effect => exact Nat.le_of_eq effect.entriesSize.symm

theorem Path.size_le (path : Path host allowed s t) : s.tree.entries.size ≤ t.tree.entries.size := by
  induction path with
  | stay => exact Nat.le_refl _
  | step path moved fits ih => exact Nat.le_trans ih moved.size_le

theorem Path.grown (path : Path host Growing s t) (sound : s.Sound host) (stored : Stored s.tree s.chains root) : Grown root s t := by
  induction path with
  | stay =>
    refine ⟨fun listing listed => ⟨listing,listed,.refl ?_,fun _ member => member⟩,fun _ => List.prefix_rfl,fun _ storedE => storedE,
      Nat.le_refl _⟩
    obtain ⟨n,top,rooted⟩ := stored
    obtain ⟨other,full,nodup,_⟩ := listing_exists sound.agrees.toStores sound.agrees.toChildLinks rooted
    exact listed.unique full ▸ nodup
  | step path moved growing ih =>
    obtain ⟨listedM,childrenM,staysM,sizeM⟩ := ih
    have soundM := path.sound sound
    refine ⟨fun listing listed => ?_,fun e => (childrenM e).trans ?_,fun e storedE => moved.stays soundM growing (staysM e storedE),
      Nat.le_trans sizeM moved.size_le⟩
    · obtain ⟨middle,fullM,editedM,insideM⟩ := listedM listing listed
      obtain ⟨later,full,edited,inside⟩ := moved.listed soundM growing (staysM root stored) fullM
      refine ⟨later,full,editedM.trans edited (fun e member new => ?_) fun e new => Nat.le_trans sizeM new,
        fun e member => inside (insideM member)⟩
      exact Nat.lt_irrefl _ (Nat.lt_of_lt_of_le (listed_stored sound stored listed e member).bound (Nat.le_trans sizeM new))
    · rcases moved.children growing e with same | longer
      · exact same ▸ List.prefix_rfl
      · exact longer ▸ List.prefix_append _ _
end Growth

section Places
variable {host : Host Component} {tree after : NameTree Component} {chains : List (List NodeId)} {registry : Registry Component}
  {selector : EntrySubTreeSelector Component} {root : EntryId} {p : Name Component}

omit [DecidableEq Component]

-- What the pre-order has behind the entry is what is below it, and then the rest.
theorem Behind.split (behind : Behind tree root d e todo) (listed : Listing tree.childrenOf [root] listing) :
    ∃ front rest, listing = front ++ e :: rest ∧ Listing tree.childrenOf (tree.childrenOf e ++ todo) rest := by
  induction behind with
  | root =>
    obtain ⟨below,later,inner,outer,rfl⟩ := listed.parts
    exact ⟨[],below ++ later,rfl,inner.append outer⟩
  | @child d p todo before c after above shape ih =>
    obtain ⟨front,rest,rfl,further⟩ := ih
    rw [shape,List.append_assoc] at further
    obtain ⟨early,late,rfl,_,second⟩ := further.split
    obtain ⟨below,later,inner,outer,rfl⟩ := Listing.parts second
    exact ⟨front ++ p :: early,below ++ later,by simp,inner.append outer⟩

theorem Behind.grown (behind : Behind tree root d e todo) (children : ∀ e, tree.childrenOf e <+: after.childrenOf e) :
    ∃ more, Behind after root d e more ∧ todo ⊆ more := by
  induction behind with
  | root => exact ⟨[],.root,fun _ member => member⟩
  | @child d p todo before c behind above shape ih =>
    obtain ⟨more,aboveN,inside⟩ := ih
    obtain ⟨new,longer⟩ := children p
    rw [shape,List.append_assoc] at longer
    refine ⟨_,.child aboveN longer.symm,fun a member => ?_⟩
    rcases List.mem_append.mp member with beside | further
    · exact List.mem_append_left _ (List.mem_append_left _ beside)
    · exact List.mem_append_right _ (inside further)

theorem Behind.todo_stored (consistent : Consistent host tree chains registry) (rooted : Stored tree chains root)
    (behind : Behind tree root d e todo) : Stored tree chains e ∧ tree.nameOf root <+: tree.nameOf e ∧
      ∀ a ∈ todo, Stored tree chains a ∧ tree.nameOf root <+: tree.nameOf a := by
  have below := child_extends consistent.agrees.toChildLinks
  induction behind with
  | root => exact ⟨rooted,List.prefix_rfl,nofun⟩
  | @child d p todo before c behind above shape ih =>
    obtain ⟨storedP,underP,others⟩ := ih
    have child : ∀ a ∈ tree.childrenOf p, Stored tree chains a ∧ tree.nameOf root <+: tree.nameOf a := by
      intro a member
      obtain ⟨storedA,k,same⟩ := below p storedP a member
      exact ⟨storedA,same ▸ underP.trans (List.prefix_append _ _)⟩
    obtain ⟨storedC,underC⟩ := child c (by rw [shape]; simp)
    refine ⟨storedC,underC,fun a member => ?_⟩
    rcases List.mem_append.mp member with beside | further
    · exact child a (by rw [shape]; simp [beside])
    · exact others a further

-- The entries to be visited next, and all that is below them.
theorem ahead_stored (consistent : Consistent host tree chains registry) (rooted : Stored tree chains root)
    (behind : Behind tree root d e todo) (member : a ∈ tree.down visitChildren e ++ todo) :
    Stored tree chains a ∧ tree.nameOf root <+: tree.nameOf a := by
  obtain ⟨stored,under,others⟩ := behind.todo_stored consistent rooted
  rcases List.mem_append.mp member with below | beside
  · have child : a ∈ tree.childrenOf e := by
      cases visitChildren with
      | true => exact below
      | false => cases below
    obtain ⟨storedA,k,same⟩ := child_extends consistent.agrees.toChildLinks e stored a child
    exact ⟨storedA,same ▸ under.trans (List.prefix_append _ _)⟩
  · exact others a beside

theorem Halt.parts (halted : Halt tree selector root it stops) : it.entry = stops.head? ∧ ∀ e, it.entry = some e →
    ∃ d visitChildren todo later, it = standing selector root e visitChildren ∧ Behind tree root d e todo ∧
      (visitChildren = true → tree.childrenOf e ≠ []) ∧ stops = e :: later ∧
      Walk (tree.picks selector) (tree.opens selector) (tree.down visitChildren e ++ todo) later := by
  cases halted with
  | ended finished => exact ⟨finished,fun e here => by rw [finished] at here; cases here⟩
  | here position fits =>
    refine ⟨rfl,fun e here => ?_⟩
    cases Option.some.inj here
    exact ⟨_,_,_,_,rfl,position.behind,position.filled,rfl,position.reports⟩
end Places

section Offers
variable {host : Host Component} {tree : NameTree Component} {chains : List (List NodeId)} {registry : Registry Component}
  {selector : EntrySubTreeSelector Component} {root : EntryId} {p : Name Component}

-- `e` is stored under a name below `p`, and the selector accepts it as it is.
def Offered (host : Host Component) (p : Name Component) (selector : EntrySubTreeSelector Component) (e : EntryId)
    (tree : NameTree Component) : Prop :=
  ∃ entry, tree.entries.read e = some entry ∧ tree.findExactMatch host entry.namePrefix = .ok (some e) ∧
    p <+: entry.namePrefix ∧ (selector e entry).1 = true

-- Besides, the selector has the children visited of every entry on the way to it.
def Reported (host : Host Component) (p : Name Component) (selector : EntrySubTreeSelector Component) (e : EntryId)
    (tree : NameTree Component) : Prop :=
  Offered host p selector e tree ∧ ∀ entry a object, tree.entries.read e = some entry → tree.entries.read a = some object →
    tree.findExactMatch host object.namePrefix = .ok (some a) → p <+: object.namePrefix →
    object.namePrefix <+: entry.namePrefix → object.namePrefix ≠ entry.namePrefix → (selector a object).2 = true

theorem found_iff (consistent : Consistent host tree chains registry) (live : tree.entries.read e = some entry) :
    tree.findExactMatch host entry.namePrefix = .ok (some e) ↔ Stored tree chains e := by
  rw [findExactMatch_spec consistent.chained consistent.placed consistent.named]
  constructor
  · intro same
    have held := Except.ok.inj same
    by_cases stored : entry.namePrefix ∈ registry.names
    · rw [Registry.find_stored stored] at held
      obtain ⟨n,other,sits,_⟩ := consistent.named.live stored
      rw [Option.some.inj held] at sits
      exact ⟨n,other,sits⟩
    · rw [Registry.find_absent stored] at held
      cases held
  · intro stored
    obtain ⟨n,other,sits⟩ := stored
    cases Option.some.inj (live.symm.trans sits.entry_live)
    rw [Registry.find_stored (consistent.named.known sits).1,consistent.named.object sits]

theorem offered_iff (consistent : Consistent host tree chains registry) : Offered host p selector e tree ↔
    Stored tree chains e ∧ p <+: tree.nameOf e ∧ tree.picks selector e = true := by
  constructor
  · intro offered
    obtain ⟨entry,live,found,below,wanted⟩ := offered
    refine ⟨(found_iff consistent live).mp found,?_,?_⟩
    · simpa only [nameOf,live] using below
    · simpa only [picks,live] using wanted
  · intro stored
    obtain ⟨⟨n,entry,sits⟩,below,wanted⟩ := stored
    rw [nameOf_at sits] at below
    rw [picks_at sits] at wanted
    exact ⟨entry,sits.entry_live,(found_iff consistent sits.entry_live).mpr ⟨n,entry,sits⟩,below,wanted⟩

-- The walk gets to what is reported from every entry on the way to it.
theorem reported_reached (consistent : Consistent host tree chains registry) (reported : Reported host p selector e tree)
    (stored : Stored tree chains a) (inside : p <+: tree.nameOf a) (above : tree.nameOf a <+: tree.nameOf e) :
    Reaches (tree.opens selector) a e := by
  obtain ⟨offered,way⟩ := reported
  obtain ⟨⟨n,entry,sits⟩,_,_⟩ := (offered_iff consistent).mp offered
  obtain ⟨m,object,sitsA⟩ := stored
  have agrees := consistent.agrees
  rw [nameOf_at sitsA] at inside above
  rw [nameOf_at sits] at above
  refine (reaches_iff agrees.toStores agrees.toChildLinks sitsA).mpr ⟨n,entry,sits,above,fun k b other sitsB under beyond proper => ?_⟩
  exact way entry b other sits.entry_live sitsB.entry_live ((found_iff consistent sitsB.entry_live).mpr ⟨k,other,sitsB⟩)
    (inside.trans under) beyond proper
end Offers

section Descending
variable {host : Host Component} {selector : EntrySubTreeSelector Component} {s : Enumeration Component}
  {chains : List (List NodeId)} {registry : Registry Component} {steady : EntryId → Prop} {tree after : NameTree Component}
  {p : Name Component}

def descending (host : Host Component) (tree : NameTree Component) (p : Name Component) (selector : EntrySubTreeSelector Component) :
    Exec (Enumeration Component) := do
  let it ← tree.partialEnumerate host p selector
  return ⟨tree,it,it.entry.toList⟩

-- Others look names up and attach. They erase nothing.
def Gathering (s : Enumeration Component) (registry : Registry Component) : EnumerationOp Component → Prop
  | .increment => s.it.entry ≠ none
  | .client (.lookup _) => True
  | .client (.attach e _) => registry.Holds e
  | .client (.erase _) => False

instance (s : Enumeration Component) (registry : Registry Component) (op : EnumerationOp Component) : Decidable (Gathering s registry op) :=
  match op with
  | .increment => inferInstanceAs (Decidable (s.it.entry ≠ none))
  | .client (.lookup _) => isTrue trivial
  | .client (.attach e _) => inferInstanceAs (Decidable (registry.Holds e))
  | .client (.erase _) => isFalse id

-- A steady entry has been visited or lies below an entry still to be visited.
structure Underway (tree : NameTree Component) (chains : List (List NodeId)) (p : Name Component) (selector : EntrySubTreeSelector Component)
    (it : ConstIterator Component) (visited : List EntryId) (steady : EntryId → Prop) (e root : EntryId) (d : Nat) (visitChildren : Bool)
    (todo : List EntryId) : Prop where
  stands : it = standing selector root e visitChildren
  rooted : Stored tree chains root
  named : tree.nameOf root = p
  behind : Behind tree root d e todo
  filled : visitChildren = true → tree.childrenOf e ≠ []
  waiting : ∀ x, steady x → x ∈ visited ∨ ∃ a ∈ tree.down visitChildren e ++ todo, tree.nameOf a <+: tree.nameOf x
  swept : ∃ listing, Listing tree.childrenOf [root] listing ∧ Swept listing (some e) visited steady

structure Descends (host : Host Component) (p : Name Component) (selector : EntrySubTreeSelector Component) (s : Enumeration Component)
    (chains : List (List NodeId)) (registry : Registry Component) (steady : EntryId → Prop) : Prop where
  sound : Consistent host s.tree chains registry
  once : s.visited.Nodup
  older : ∀ e ∈ s.visited, e < s.tree.entries.size
  ended : s.it.entry = none → ∀ x, steady x → x ∈ s.visited
  underway : ∀ e, s.it.entry = some e → ∃ root d visitChildren todo,
    Underway s.tree chains p selector s.it s.visited steady e root d visitChildren todo

omit [DecidableEq Component] in
theorem Inherits.nameOf (inherits : Inherits tree after) (stored : Stored tree chains e) : after.nameOf e = tree.nameOf e := by
  obtain ⟨n,entry,sits⟩ := stored
  obtain ⟨later,live,_,same⟩ := inherits e entry sits.entry_live
  simp only [NameTree.nameOf,live,sits.entry_live,same]

theorem Descends.client {op : ClientOp Component} (descends : Descends host p selector s chains registry steady)
    (gathering : Gathering s registry (.client op)) (now : ∀ x, steady x → Reported host p selector x s.tree) :
    ∃ next chains, enumerationStep host s (.client op) = .ok next ∧ next.visited = s.visited ∧
      Descends host p selector next chains (op.apply registry) steady := by
  obtain ⟨sound,once,older,ended,underway⟩ := descends
  obtain ⟨safe,within⟩ : SafeStep s.tree registry op ∧ op.Within Growing s.tree.resizeThreshold registry := by
    cases op with
    | lookup name => exact ⟨⟨trivial,trivial⟩,nofun,.inl nofun⟩
    | attach e change => exact ⟨⟨gathering,trivial⟩,nofun⟩
    | erase e => exact gathering.elim
  obtain ⟨⟨tree,chainsT,_⟩,ran,rfl,path⟩ := client_path (s:=⟨s.tree,chains,registry⟩) sound op safe within
  have stepped : enumerationStep host s (.client op) = .ok {s with tree := tree} := by rw [enumerationStep,ran]; rfl
  have wider : s.tree.entries.size ≤ tree.entries.size := path.size_le
  refine ⟨_,chainsT,stepped,rfl,path.sound sound,once,fun e member => Nat.lt_of_lt_of_le (older e member) wider,ended,fun e here => ?_⟩
  obtain ⟨root,d,visitChildren,todo,stands,rooted,named,behind,filled,waiting,listing,listed,swept⟩ := underway e here
  obtain ⟨listedN,children,stays,_⟩ := path.grown sound rooted
  obtain ⟨later,full,edited,inside⟩ := listedN listing listed
  obtain ⟨more,behindN,wide⟩ := behind.grown children
  have down : ∀ a ∈ s.tree.down visitChildren e ++ todo, a ∈ tree.down visitChildren e ++ more := by
    intro a member
    rcases List.mem_append.mp member with below | beside
    · refine List.mem_append_left _ ?_
      cases visitChildren with
      | true => exact (children e).subset below
      | false => cases below
    · exact List.mem_append_right _ (wide beside)
  refine ⟨root,d,visitChildren,more,stands,stays root rooted,(path.inherits.nameOf rooted).trans named,behindN,fun visit none => ?_,
    fun x still => (waiting x still).imp_right fun ahead => ?_,later,full,?_⟩
  · have less := children e
    rw [none] at less
    exact filled visit (List.prefix_nil.mp less)
  · obtain ⟨a,member,above⟩ := ahead
    obtain ⟨storedX,_,_⟩ := (offered_iff sound).mp (now x still).1
    obtain ⟨storedA,_⟩ := ahead_stored sound rooted behind member
    refine ⟨a,down a member,?_⟩
    rwa [path.inherits.nameOf storedA,path.inherits.nameOf storedX]
  · exact swept.edit edited (fun c same => inside (swept.here c same))
      (fun i new member => Nat.lt_irrefl _ (Nat.lt_of_lt_of_le (older i member) new))
      fun i still => inside (swept.left i still).1

theorem reached_offered (sound : Consistent host tree chains registry) (stored : Stored tree chains a) (under : p <+: tree.nameOf a)
    (picked : tree.picks selector e = true) (down : Reaches (tree.opens selector) a e) :
    Offered host p selector e tree ∧ tree.nameOf a <+: tree.nameOf e := by
  have longer : ∀ b, Stored tree chains b → ∀ c ∈ tree.opens selector b, Stored tree chains c ∧
      ∃ k, tree.nameOf c = tree.nameOf b ++ [k] := by
    intro b storedB c member
    rcases opens_pruned tree selector b with same | closed
    · exact child_extends sound.agrees.toChildLinks b storedB c (same ▸ member)
    · rw [closed] at member
      cases member
  obtain ⟨storedE,above⟩ := Reaches.extends longer stored down
  exact ⟨(offered_iff sound).mpr ⟨storedE,under.trans above,picked⟩,above⟩

theorem Halt.underway {root : EntryId} (halted : Halt tree selector root it stops) (sound : Consistent host tree chains registry)
    (rooted : Stored tree chains root) (named : tree.nameOf root = p) (listed : Listing tree.childrenOf [root] listing)
    (all : ∀ x, steady x → x ∈ visited ∨ x ∈ stops) (swept : Swept listing stops.head? (visited ++ stops.head?.toList) steady)
    (here : it.entry = some e) : ∃ d visitChildren todo,
      Underway tree chains p selector it (visited ++ it.entry.toList) steady e root d visitChildren todo := by
  obtain ⟨head,parts⟩ := halted.parts
  obtain ⟨d,visitChildren,todo,later,stands,behind,filled,rfl,reports⟩ := parts e here
  rw [List.head?_cons] at swept head
  refine ⟨d,visitChildren,todo,stands,rooted,named,behind,filled,fun x still => ?_,listing,listed,by rw [here]; exact swept⟩
  rw [head]
  rcases all x still with old | ahead
  · exact .inl (List.mem_append_left _ old)
  · rcases List.mem_cons.mp ahead with rfl | behindE
    · exact .inl (List.mem_append_right _ (by simp))
    · right
      obtain ⟨picked,a,member,down⟩ := reports.mem_iff.mp behindE
      obtain ⟨storedA,under⟩ := ahead_stored sound rooted behind member
      exact ⟨a,member,(reached_offered sound storedA under picked down).2⟩

theorem Descends.increment (descends : Descends host p selector s chains registry steady) (busy : s.it.entry ≠ none)
    (now : ∀ x, steady x → Reported host p selector x s.tree) :
    ∃ next, enumerationStep host s .increment = .ok next ∧
      (∀ e ∈ next.visited, e ∈ s.visited ∨ Offered host p selector e next.tree) ∧
      Descends host p selector next chains registry steady := by
  obtain ⟨sound,once,older,_,underway⟩ := descends
  obtain ⟨e,here⟩ := Option.ne_none_iff_exists'.mp busy
  obtain ⟨root,d,visitChildren,todo,stands,rooted,named,behind,filled,waiting,listing,listed,swept⟩ := underway e here
  have agrees := sound.agrees
  have pruned := opens_pruned s.tree selector
  obtain ⟨front,rest,rfl,further⟩ := behind.split listed
  obtain ⟨whole,part,wide⟩ : ∃ whole : List EntryId, whole.Sublist rest ∧
      Listing s.tree.childrenOf (s.tree.down visitChildren e ++ todo) whole := by
    cases visitChildren with
    | true => exact ⟨rest,List.Sublist.refl _,further⟩
    | false =>
      obtain ⟨early,late,rfl,_,second⟩ := further.split
      exact ⟨late,List.sublist_append_right _ _,second⟩
  obtain ⟨ahead,visits⟩ := wide.walk pruned fun _ => true
  obtain ⟨later,reports⟩ := wide.walk pruned (s.tree.picks selector)
  have all : ∀ x, steady x → x ∈ s.visited ∨ x ∈ later := by
    intro x still
    refine (waiting x still).imp_right fun left => ?_
    obtain ⟨a,member,above⟩ := left
    obtain ⟨storedA,under⟩ := ahead_stored sound rooted behind member
    obtain ⟨_,_,picked⟩ := (offered_iff sound).mp (now x still).1
    exact reports.mem_iff.mpr ⟨picked,a,member,reported_reached sound (now x still) storedA (named ▸ under) above⟩
  have next := swept.among ((reports.sublist pruned wide).trans part) all
  obtain ⟨n,top,sitsR⟩ := rooted
  obtain ⟨other,full,_,fits⟩ := listing_exists agrees.toStores agrees.toChildLinks sitsR
  have few : ahead.length ≤ s.tree.entries.size := by
    rw [← listed.unique full] at fits
    have size := ((visits.sublist pruned wide).trans part).length_le
    rw [List.length_append,List.length_cons] at fits
    omega
  obtain ⟨it,moved,halted⟩ := nextPartial_spec agrees.toStores agrees.toParentLinks agrees.toChildLinks sitsR
    ⟨behind,filled,visits,reports⟩ few
  have stepped : enumerationStep host s .increment = .ok ⟨s.tree,it,s.visited ++ it.entry.toList⟩ := by
    have ran : s.it.increment s.tree = .ok it := by rw [stands]; exact moved
    rw [enumerationStep,ran]
    rfl
  have head := halted.parts.1
  have arrived : ∀ f ∈ it.entry.toList, Offered host p selector f s.tree := by
    intro f member
    rw [head,Option.mem_toList] at member
    obtain ⟨picked,a,inside,down⟩ := reports.mem_iff.mp (List.mem_of_head? member)
    obtain ⟨storedA,under⟩ := ahead_stored sound ⟨n,top,sitsR⟩ behind inside
    exact (reached_offered sound storedA (named ▸ under) picked down).1
  refine ⟨_,stepped,fun f member => (List.mem_append.mp member).imp_right (arrived f),sound,head ▸ next.once,fun f member => ?_,
    fun finished x still => ?_,fun f hereF => ⟨root,halted.underway sound ⟨n,top,sitsR⟩ named listed all next hereF⟩⟩
  · rcases List.mem_append.mp member with old | new
    · exact older f old
    · exact ((offered_iff sound).mp (arrived f new)).1.bound
  · have none_left : later.head? = none := head.symm.trans finished
    rw [none_left] at next
    show x ∈ s.visited ++ it.entry.toList
    rw [head,none_left]
    exact next.done still

theorem partialEnumerate_halts (sound : Consistent host tree chains registry) (rooted : Sits tree chains n root top)
    (reports : Walk (tree.picks selector) (tree.opens selector) [root] yields) :
    ∃ it, tree.partialEnumerate host top.namePrefix selector = .ok it ∧ Halt tree selector root it yields := by
  have agrees := sound.agrees
  obtain ⟨listing,full,_,fits⟩ := listing_exists agrees.toStores agrees.toChildLinks rooted
  obtain ⟨visited,visits⟩ := full.walk (opens_pruned tree selector) fun _ => true
  have visitedFew := Nat.le_trans (visits.sublist (opens_pruned tree selector) full).length_le fits
  obtain ⟨ahead,later,position,rfl,first⟩ := landed rooted .root visits reports
  have shorter : ahead.length ≤ tree.entries.size := Nat.le_of_succ_le visitedFew
  unfold partialEnumerate
  rw [findExactMatch_spec sound.chained sound.placed sound.named,ok_bind,Registry.find_stored (sound.named.known rooted).1,
    sound.named.object rooted]
  dsimp only
  rw [Heap.fetch_live rooted.entry_live,ok_bind]
  by_cases accepted : (selector root top).1 = true
  · rw [if_pos accepted] at first ⊢
    subst first
    exact ⟨_,rfl,.here position shorter⟩
  · rw [if_neg accepted] at first ⊢
    subst first
    exact nextPartial_spec agrees.toStores agrees.toParentLinks agrees.toChildLinks rooted position shorter

theorem descending_spec (sound : Consistent host tree chains registry) (p : Name Component) (selector : EntrySubTreeSelector Component) :
    ∃ s, tree.descending host p selector = .ok s ∧ s.tree = tree ∧ (∀ e ∈ s.visited, Offered host p selector e tree) ∧
      ∀ steady : EntryId → Prop, (∀ x, steady x → Reported host p selector x tree) →
        Descends host p selector s chains registry steady := by
  unfold descending
  by_cases stored : p ∈ registry.names
  · obtain ⟨n,top,rooted,rfl⟩ := sound.named.live stored
    generalize (registry.cell top.namePrefix).object = root at rooted
    have agrees := sound.agrees
    have pruned := opens_pruned tree selector
    obtain ⟨listing,full,nodup,_⟩ := listing_exists agrees.toStores agrees.toChildLinks rooted
    obtain ⟨yields,reports⟩ := full.walk pruned (tree.picks selector)
    obtain ⟨it,begun,halted⟩ := partialEnumerate_halts sound rooted reports
    have head := halted.parts.1
    have named := nameOf_at rooted
    have isStored : Stored tree chains root := ⟨n,top,rooted⟩
    have under : top.namePrefix <+: tree.nameOf root := named ▸ List.prefix_rfl
    have arrived : ∀ f ∈ it.entry.toList, Offered host top.namePrefix selector f tree := by
      intro f member
      rw [head,Option.mem_toList] at member
      obtain ⟨picked,a,inside,down⟩ := reports.mem_iff.mp (List.mem_of_head? member)
      cases List.mem_singleton.mp inside
      exact (reached_offered sound isStored under picked down).1
    refine ⟨⟨tree,it,it.entry.toList⟩,by rw [begun]; rfl,rfl,arrived,fun steady now => ?_⟩
    have all : ∀ x, steady x → x ∈ ([] : List EntryId) ∨ x ∈ yields := by
      intro x still
      obtain ⟨_,below,picked⟩ := (offered_iff sound).mp (now x still).1
      have down := reported_reached sound (now x still) isStored under (named.symm ▸ below)
      exact .inr (reports.mem_iff.mpr ⟨picked,root,List.mem_singleton.mpr rfl,down⟩)
    have swept := Swept.start nodup (reports.sublist pruned full) fun x still => (all x still).resolve_left List.not_mem_nil
    refine ⟨sound,by rw [head]; exact swept.once,fun f member => ((offered_iff sound).mp (arrived f member)).1.bound,
      fun finished x still => ?_,fun e here => ⟨root,halted.underway sound isStored named full all swept here⟩⟩
    have none_left : yields.head? = none := head.symm.trans finished
    rw [none_left] at swept
    show x ∈ it.entry.toList
    rw [head,none_left]
    exact swept.done still
  · have missing : tree.partialEnumerate host p selector = .ok endIterator := by
      unfold partialEnumerate
      rw [findExactMatch_spec sound.chained sound.placed sound.named,ok_bind,Registry.find_absent stored]
      rfl
    refine ⟨⟨tree,endIterator,[]⟩,by rw [missing]; rfl,rfl,nofun,fun steady now =>
      ⟨sound,List.nodup_nil,nofun,fun _ x still => ?_,nofun⟩⟩
    obtain ⟨⟨m,object,sits⟩,below,_⟩ := (offered_iff sound).mp (now x still).1
    rw [nameOf_at sits] at below
    exact absurd (sound.named.closed _ (sound.named.known sits).1 _ below) stored

theorem Descends.run {turns : List (EnumerationOp Component)} (descends : Descends host p selector s chains registry steady)
    (gathering : Guarded (enumerationStep host) EnumerationOp.apply Gathering s registry turns)
    (reported : ∀ x, steady x → Always (enumerationStep host) (fun s => Reported host p selector x s.tree) s turns) :
    ∃ final chains registry, run (enumerationStep host) s turns = .ok final ∧
      Descends host p selector final chains registry steady ∧ ∀ e ∈ final.visited, e ∈ s.visited ∨
        Sometime (enumerationStep host) (fun s => Offered host p selector e s.tree) s turns := by
  induction turns generalizing s chains registry with
  | nil => exact ⟨s,chains,registry,rfl,descends,fun e member => .inl member⟩
  | cons op rest ih =>
    obtain ⟨allowed,later⟩ := gathering
    have now : ∀ x, steady x → Reported host p selector x s.tree := fun x still => (reported x still).now
    obtain ⟨next,chainsN,stepped,come,descendsN⟩ : ∃ next chains, enumerationStep host s op = .ok next ∧
        (∀ e ∈ next.visited, e ∈ s.visited ∨ Offered host p selector e next.tree) ∧
        Descends host p selector next chains (op.apply registry) steady := by
      cases op with
      | client op =>
        obtain ⟨next,chainsN,stepped,same,descendsN⟩ := descends.client allowed now
        exact ⟨next,chainsN,stepped,fun e member => .inl (same ▸ member),descendsN⟩
      | increment =>
        obtain ⟨next,stepped,come,descendsN⟩ := descends.increment allowed now
        exact ⟨next,chains,stepped,come,descendsN⟩
    obtain ⟨final,chainsF,registryF,ran,descendsF,visited⟩ := ih descendsN (later next stepped)
      fun x still => (reported x still).tail stepped
    refine ⟨final,chainsF,registryF,by rw [Machine.run,stepped,ok_bind,ran],descendsF,fun e member => ?_⟩
    rcases visited e member with before | after
    · rcases come e before with old | new
      · exact .inl old
      · exact .inr (.later stepped (.now new))
    · exact .inr (.later stepped after)

-- Resizes included, for the walk goes by the children and not by the buckets.
theorem partialEnumerate_amid_lookups {n : Nat} (positive : 1 ≤ n) {ops : List (ClientOp Component)}
    {turns : List (EnumerationOp Component)} (safe : Guarded (clientStep host) ClientOp.apply SafeStep (new n) .empty ops)
    (gathering : Yields (do let tree ← run (clientStep host) (new n) ops; tree.descending host p selector) fun s =>
      Guarded (enumerationStep host) EnumerationOp.apply Gathering s (ops.foldl ClientOp.apply .empty) turns) :
    ∃ tree s final, run (clientStep host) (new n) ops = .ok tree ∧ tree.descending host p selector = .ok s ∧
      run (enumerationStep host) s turns = .ok final ∧ final.visited.Nodup ∧
      (∀ e ∈ final.visited, Sometime (enumerationStep host) (fun s => Offered host p selector e s.tree) s turns) ∧
      (final.it.entry = none → ∀ e, Always (enumerationStep host) (fun s => Reported host p selector e s.tree) s turns →
        e ∈ final.visited) := by
  obtain ⟨tree,reached,chains,consistent⟩ := client_consistent positive safe
  rw [reached,ok_bind] at gathering
  obtain ⟨s,begun,rfl,first,descends⟩ := descending_spec consistent p selector
  let steady := fun x => Always (enumerationStep host) (fun s => Reported host p selector x s.tree) s turns
  obtain ⟨final,_,_,ran,descendsF,visited⟩ := (descends steady fun x still => still.now).run (gathering s begun) fun x still => still
  refine ⟨_,s,final,reached,begun,ran,descendsF.once,fun e member => ?_,fun finished e still => descendsF.ended finished e still⟩
  rcases visited e member with old | later
  · exact .now (first e old)
  · exact later

-- The table grows from 4 buckets to 8 and then to 16 while the walk goes on below [1].
theorem partialEnumerate_amid_lookups_grown : ∃ tree s final,
    run (clientStep collidingHost) (new 4) [.lookup [1,2],.lookup [1,3]] = .ok tree ∧
    tree.descending collidingHost [1] anyEntrySubTree = .ok s ∧
    run (enumerationStep collidingHost) s [.increment,.client (.lookup [1,3,4]),.increment,.client (.lookup [1,2,5]),.increment,.increment] =
      .ok final ∧ final.visited.Nodup ∧
    (∀ e ∈ final.visited, Sometime (enumerationStep collidingHost) (fun s => Offered collidingHost [1] anyEntrySubTree e s.tree) s
      [.increment,.client (.lookup [1,3,4]),.increment,.client (.lookup [1,2,5]),.increment,.increment]) ∧
    (final.it.entry = none → ∀ e, Always (enumerationStep collidingHost) (fun s => Reported collidingHost [1] anyEntrySubTree e s.tree) s
      [.increment,.client (.lookup [1,3,4]),.increment,.client (.lookup [1,2,5]),.increment,.increment] → e ∈ final.visited) :=
  partialEnumerate_amid_lookups (by decide) (by decide) (by decide)

-- The iterator has seen that [1] has a child, and goes there when it is gone.
example : (do
    let tree ← run (clientStep collidingHost) (new 8) [.lookup [1,2]]
    let s ← tree.descending collidingHost [1] anyEntrySubTree
    run (enumerationStep collidingHost) s [.client (.erase 2),.increment]).toOption.isNone = true := by decide
end Descending

end NfdTables.NameTree
