import NfdTables.Foundation.ForestWalk
import NfdTables.NameTree.FindAllMatches

namespace NfdTables.NameTree
open Machine Chain ForestWalk
variable {Component : Type} [DecidableEq Component]

section View
variable {host : Host Component} {tree : NameTree Component} {chains : List (List NodeId)}
  {selector : EntrySubTreeSelector Component}

def childrenOf (tree : NameTree Component) (e : EntryId) : List EntryId :=
  match tree.entries.read e with
  | some entry => entry.children
  | none => []

-- The two answers of the selector: `e` is reported, its children are visited.
def picks (tree : NameTree Component) (selector : EntrySubTreeSelector Component) (e : EntryId) : Bool :=
  match tree.entries.read e with
  | some entry => (selector e entry).1
  | none => false

def opens (tree : NameTree Component) (selector : EntrySubTreeSelector Component) (e : EntryId) : List EntryId :=
  match tree.entries.read e with
  | some entry => if (selector e entry).2 then entry.children else []
  | none => []

omit [DecidableEq Component]

theorem childrenOf_at (sits : Sits tree chains n e entry) : tree.childrenOf e = entry.children := by
  simp [childrenOf,sits.entry_live]

theorem picks_at (sits : Sits tree chains n e entry) : tree.picks selector e = (selector e entry).1 := by
  simp [picks,sits.entry_live]

theorem opens_at (sits : Sits tree chains n e entry) :
    tree.opens selector e = if (selector e entry).2 then entry.children else [] := by
  simp [opens,sits.entry_live]

theorem opens_pruned (tree : NameTree Component) (selector : EntrySubTreeSelector Component) (e : EntryId) :
    tree.opens selector e = tree.childrenOf e ∨ tree.opens selector e = [] := by
  unfold opens childrenOf
  split
  · split
    · exact .inl rfl
    · exact .inr rfl
  · exact .inl rfl

def nameOf (tree : NameTree Component) (e : EntryId) : Name Component :=
  match tree.entries.read e with
  | some entry => entry.namePrefix
  | none => []

theorem nameOf_at (sits : Sits tree chains n e entry) : tree.nameOf e = entry.namePrefix := by
  simp [nameOf,sits.entry_live]

def Stored (tree : NameTree Component) (chains : List (List NodeId)) (e : EntryId) : Prop :=
  ∃ n entry, Sits tree chains n e entry

theorem child_stored (links : ChildLinks tree chains) (sits : Sits tree chains n e entry) (member : c ∈ tree.childrenOf e) :
    ∃ k m object, Sits tree chains m c object ∧ object.namePrefix = entry.namePrefix ++ [k] := by
  rw [childrenOf_at sits] at member
  exact (links.child_iff sits c).mp member

theorem child_extends (links : ChildLinks tree chains) : ∀ e, Stored tree chains e → ∀ c ∈ tree.childrenOf e,
    Stored tree chains c ∧ ∃ k, tree.nameOf c = tree.nameOf e ++ [k] := by
  rintro e ⟨n,entry,sits⟩ c member
  obtain ⟨k,m,object,sitsC,same⟩ := child_stored links sits member
  exact ⟨⟨m,object,sitsC⟩,k,by rw [nameOf_at sitsC,nameOf_at sits,same]⟩

theorem stored_unique (stores : Stores host tree chains) (stored : Stored tree chains e) (other : Stored tree chains f)
    (same : tree.nameOf e = tree.nameOf f) : e = f := by
  obtain ⟨n,entry,sits⟩ := stored
  obtain ⟨m,object,sitsF⟩ := other
  rw [nameOf_at sits,nameOf_at sitsF] at same
  have node := stores.unique sits sitsF same
  subst m
  exact (entryAt_unique sits.holds sitsF.holds).1

-- Names of two children of an entry are equally long and differ.
theorem children_apart (stores : Stores host tree chains) (links : ChildLinks tree chains) :
    ∀ e, Stored tree chains e → (tree.childrenOf e).Pairwise (Apart tree.nameOf) := by
  rintro e ⟨n,entry,sits⟩
  have nodup : (tree.childrenOf e).Nodup := by
    rw [childrenOf_at sits]
    exact links.nodup sits
  refine List.Pairwise.imp_of_mem ?_ nodup
  intro c d inC inD differ
  obtain ⟨storedC,j,nameC⟩ := child_extends links e ⟨n,entry,sits⟩ c inC
  obtain ⟨storedD,k,nameD⟩ := child_extends links e ⟨n,entry,sits⟩ d inD
  have size : (tree.nameOf c).length = (tree.nameOf d).length := by rw [nameC,nameD]; simp
  refine ⟨fun above => differ ?_,fun above => differ ?_⟩
  · exact stored_unique stores storedC storedD (above.eq_of_length size)
  · exact stored_unique stores storedC storedD (above.eq_of_length size.symm).symm
end View

section Climb
variable {host : Host Component} {tree : NameTree Component} {chains : List (List NodeId)}
  {selector : EntrySubTreeSelector Component} {root : EntryId}

omit [DecidableEq Component]

-- The iterator has no stack: `todo` are the later siblings of the entry and of those
-- above it, up to the root `d` levels above.
inductive Behind (tree : NameTree Component) (root : EntryId) : Nat → EntryId → List EntryId → Prop where
  | root : Behind tree root 0 root []
  | child (above : Behind tree root d p todo) (shape : tree.childrenOf p = before ++ c :: after) :
      Behind tree root (d+1) c (after ++ todo)

def down (tree : NameTree Component) (visitChildren : Bool) (e : EntryId) : List EntryId :=
  if visitChildren then tree.childrenOf e else []

structure Position (tree : NameTree Component) (selector : EntrySubTreeSelector Component) (root : EntryId)
    (d : Nat) (e : EntryId) (visitChildren : Bool) (todo ahead later : List EntryId) : Prop where
  behind : Behind tree root d e todo
  filled : visitChildren = true → tree.childrenOf e ≠ []
  visits : Listing (tree.opens selector) (tree.down visitChildren e ++ todo) ahead
  reports : Walk (tree.picks selector) (tree.opens selector) (tree.down visitChildren e ++ todo) later

def standing (selector : EntrySubTreeSelector Component) (root e : EntryId) (visitChildren : Bool) :
    ConstIterator Component :=
  ⟨.partialEnumerate,some e,some root,anyEntry,selector,visitChildren⟩

theorem Behind.first (above : Behind tree root d p todo) (shape : tree.childrenOf p = c :: after) :
    Behind tree root (d+1) c (after ++ todo) :=
  .child above (shape.trans (List.nil_append _).symm)

theorem Behind.stored (links : ChildLinks tree chains) (rooted : Sits tree chains n root top)
    (behind : Behind tree root d e todo) :
    ∃ m entry, Sits tree chains m e entry ∧ entry.namePrefix.length = top.namePrefix.length + d := by
  induction behind with
  | root => exact ⟨n,top,rooted,rfl⟩
  | @child d p todo before c after above shape ih =>
    obtain ⟨m,entry,sits,size⟩ := ih
    have member : c ∈ tree.childrenOf p := by rw [shape]; simp
    obtain ⟨k,m',object,sitsC,same⟩ := child_stored links sits member
    exact ⟨m',object,sitsC,by rw [same,List.length_append,size]; rfl⟩

theorem Behind.shallow (stores : Stores host tree chains) (links : ChildLinks tree chains) (rooted : Sits tree chains n root top)
    (behind : Behind tree root d e todo) : d < tree.entries.size := by
  classical
  obtain ⟨m,entry,sits,size⟩ := behind.stored links rooted
  have depth := stores.named.shallow (stores.named.known sits).1
  omega

theorem Behind.ne_root (links : ChildLinks tree chains) (rooted : Sits tree chains n root top)
    (behind : Behind tree root (d+1) e todo) : e ≠ root := by
  rintro rfl
  obtain ⟨m,entry,sits,size⟩ := behind.stored links rooted
  have same : entry = top := Option.some.inj (sits.entry_live.symm.trans rooted.entry_live)
  rw [same] at size
  omega

-- Moving on to `c`, the first of what is to be visited next.
theorem landed (sits : Sits tree chains n c object) (behind : Behind tree root d c todo)
    (visits : Listing (tree.opens selector) (c :: todo) listing)
    (reports : Walk (tree.picks selector) (tree.opens selector) (c :: todo) yields) :
    ∃ ahead later, Position tree selector root d c ((selector c object).2 && object.hasChildren) todo ahead later ∧
      listing = c :: ahead ∧ yields = if (selector c object).1 then c :: later else later := by
  have down_eq : tree.down ((selector c object).2 && object.hasChildren) c = tree.opens selector c := by
    rw [down,childrenOf_at sits,opens_at sits]
    cases (selector c object).2 <;> cases children : object.children <;> simp [Entry.hasChildren,children]
  obtain ⟨below,beside,inner,outer,rfl⟩ := visits.parts
  cases reports with
  | @cons _ reported _ others innerWalk outerWalk =>
    refine ⟨below ++ beside,reported ++ others,⟨behind,?_,?_,?_⟩,rfl,?_⟩
    · intro visit
      rw [childrenOf_at sits]
      simpa [Entry.hasChildren] using (Bool.and_eq_true_iff.mp visit).2
    · exact down_eq ▸ inner.append outer
    · exact down_eq ▸ innerWalk.append outerWalk
    · rw [picks_at sits]
      split <;> simp

theorem arrive_spec (sits : Sits tree chains n c object) (selector : EntrySubTreeSelector Component) (root e : EntryId)
    (visitChildren : Bool) : ConstIterator.arrive tree (standing selector root e visitChildren) c =
      .ok (standing selector root c ((selector c object).2 && object.hasChildren),(selector c object).1) := by
  simp [ConstIterator.arrive,standing,Heap.fetch_live sits.entry_live]

-- How an increment leaves the iterator when `yields` are still to be reported.
inductive Halt (tree : NameTree Component) (selector : EntrySubTreeSelector Component) (root : EntryId) :
    ConstIterator Component → List EntryId → Prop where
  | ended (finished : it.entry = none) : Halt tree selector root it []
  | here (position : Position tree selector root d e visitChildren todo ahead later)
      (fits : ahead.length ≤ tree.entries.size) : Halt tree selector root (standing selector root e visitChildren) (e :: later)

theorem parent_of_child (stores : Stores host tree chains) (parents : ParentLinks tree chains) (links : ChildLinks tree chains)
    (sits : Sits tree chains n p entry) (member : c ∈ tree.childrenOf p) :
    ∃ m object, Sits tree chains m c object ∧ object.parent = some p := by
  obtain ⟨k,m,object,sitsC,same⟩ := child_stored links sits member
  obtain ⟨m',p',other,points,sitsP,above⟩ := parents.parent sitsC (by simp [same])
  have equal : tree.nameOf p' = tree.nameOf p := by
    rw [nameOf_at sitsP,nameOf_at sits,above,same,List.dropLast_concat]
  exact ⟨m,object,sitsC,stored_unique stores ⟨m',other,sitsP⟩ ⟨n,entry,sits⟩ equal ▸ points⟩

theorem turn_root (tree : NameTree Component) (selector : EntrySubTreeSelector Component) (visitChildren : Bool) :
    ConstIterator.climbTurn tree (standing selector root root visitChildren) =
      .ok (.leave {standing selector root root visitChildren with entry := NameTree.mEnd}) := by
  simp [ConstIterator.climbTurn,standing]

theorem firstChild_spec (sits : Sits tree chains n e entry) (shape : tree.childrenOf e = c :: rest) :
    ConstIterator.firstChild tree e = .ok c := by
  rw [childrenOf_at sits] at shape
  simp [ConstIterator.firstChild,Heap.fetch_live sits.entry_live,shape]

theorem turn_down (selector : EntrySubTreeSelector Component) (other : e ≠ root) (sits : Sits tree chains n e entry)
    (shape : tree.childrenOf e = c :: rest) (sitsC : Sits tree chains m c object) :
    ConstIterator.climbTurn tree (standing selector root e true) =
      .ok (if (selector c object).1 then .leave (standing selector root c ((selector c object).2 && object.hasChildren))
        else .onward (standing selector root c ((selector c object).2 && object.hasChildren))) := by
  have arrived := arrive_spec sitsC selector root e true
  unfold ConstIterator.climbTurn
  rw [if_neg (by simpa [standing] using other)]
  simp only [standing,required_some,ok_bind,if_true,firstChild_spec sits shape] at arrived ⊢
  rw [arrived]
  dsimp only [ok_bind]
  split <;> rfl

theorem idxOf_middle {items : List EntryId} (nodup : items.Nodup) (shape : items = before ++ e :: after) :
    items.idxOf e = before.length ∧ before.length < items.length ∧ items[before.length + 1]? = after.head? := by
  have absent : e ∉ before := by
    rw [shape] at nodup
    exact fun member => (List.nodup_append.mp nodup).2.2 e member e (by simp) rfl
  rw [shape]
  refine ⟨by rw [List.idxOf_append_of_notMem absent,List.idxOf_cons_self,Nat.add_zero],by simp,?_⟩
  cases after <;> simp

theorem turn_aside (selector : EntrySubTreeSelector Component) (other : e ≠ root) (sits : Sits tree chains n e entry)
    (points : entry.parent = some p) (sitsP : Sits tree chains k p above) (nodup : (tree.childrenOf p).Nodup)
    (shape : tree.childrenOf p = before ++ e :: sibling :: after) (sitsC : Sits tree chains m sibling object) :
    ConstIterator.climbTurn tree (standing selector root e false) =
      .ok (if (selector sibling object).1
        then .leave (standing selector root sibling ((selector sibling object).2 && object.hasChildren))
        else .onward (standing selector root sibling ((selector sibling object).2 && object.hasChildren))) := by
  obtain ⟨index,bound,next⟩ := idxOf_middle nodup shape
  rw [childrenOf_at sitsP] at index bound next
  have arrived := arrive_spec sitsC selector root e false
  unfold ConstIterator.climbTurn
  rw [if_neg (by simpa [standing] using other)]
  simp only [standing,required_some,ok_bind,Bool.false_eq_true,if_false,Heap.fetch_live sits.entry_live,points,
    Heap.fetch_live sitsP.entry_live,index,if_pos bound,next,List.head?_cons] at arrived ⊢
  rw [arrived]
  dsimp only [ok_bind]
  split <;> rfl

theorem turn_up (selector : EntrySubTreeSelector Component) (other : e ≠ root) (sits : Sits tree chains n e entry)
    (points : entry.parent = some p) (sitsP : Sits tree chains k p above) (nodup : (tree.childrenOf p).Nodup)
    (shape : tree.childrenOf p = before ++ [e]) :
    ConstIterator.climbTurn tree (standing selector root e false) =
      .ok (.onward (standing selector root p false)) := by
  obtain ⟨index,bound,next⟩ := idxOf_middle nodup shape
  rw [childrenOf_at sitsP] at index bound next
  unfold ConstIterator.climbTurn
  rw [if_neg (by simpa [standing] using other)]
  simp only [standing,required_some,ok_bind,Bool.false_eq_true,if_false,Heap.fetch_live sits.entry_live,points,
    Heap.fetch_live sitsP.entry_live,index,if_pos bound,next,List.head?_nil,pure_ok]

-- A round visits an entry or climbs one level, no further than it has come down.
theorem climb_spec (stores : Stores host tree chains) (parents : ParentLinks tree chains) (links : ChildLinks tree chains)
    (rooted : Sits tree chains n root top)
    (position : Position tree selector root d e visitChildren todo ahead later) (below : visitChildren = true → e ≠ root)
    (fits : ahead.length ≤ tree.entries.size) (enough : 2 * ahead.length + d < fuel) :
    ∃ it, loop (ConstIterator.climbTurn tree) fuel (standing selector root e visitChildren) = .ok it ∧
      Halt tree selector root it later := by
  induction fuel generalizing d e visitChildren todo ahead later with
  | zero => exact absurd enough (Nat.not_lt_zero _)
  | succ fuel ih =>
    obtain ⟨behind,filled,visits,reports⟩ := position
    -- Visiting `c` next: the loop leaves there or goes on from there.
    have visit : ∀ {d c rest m object}, Sits tree chains m c object → Behind tree root (d+1) c rest →
        Listing (tree.opens selector) (c :: rest) ahead →
        Walk (tree.picks selector) (tree.opens selector) (c :: rest) later → 2 * ahead.length + d < fuel + 1 →
        ConstIterator.climbTurn tree (standing selector root e visitChildren) =
          .ok (if (selector c object).1
            then .leave (standing selector root c ((selector c object).2 && object.hasChildren))
            else .onward (standing selector root c ((selector c object).2 && object.hasChildren))) →
        ∃ it, loop (ConstIterator.climbTurn tree) (fuel+1) (standing selector root e visitChildren) = .ok it ∧
          Halt tree selector root it later := by
      intro d c rest m object sitsC behindC visitsC reportsC room turn
      obtain ⟨further,others,positionC,rfl,rfl⟩ := landed sitsC behindC visitsC reportsC
      rw [List.length_cons] at fits room
      by_cases accepted : (selector c object).1 = true
      · rw [if_pos accepted] at turn ⊢
        exact ⟨_,loop_leave turn fuel,.here positionC (by omega)⟩
      · rw [if_neg accepted] at turn ⊢
        obtain ⟨it,ran,halted⟩ := ih positionC (fun _ => behindC.ne_root links rooted) (by omega) (by omega)
        exact ⟨it,(loop_onward turn fuel).trans ran,halted⟩
    cases behind with
    | root =>
      have closed : visitChildren = false := by
        cases visitChildren with
        | false => rfl
        | true => exact absurd rfl (below rfl)
      subst closed
      have nothing : later = [] := by
        simp only [down,Bool.false_eq_true,if_false,List.append_nil] at reports
        cases reports
        rfl
      subst nothing
      exact ⟨_,loop_leave (turn_root tree selector false) fuel,.ended rfl⟩
    | @child d p todo before _ after above shape =>
      have inner := (Behind.child above shape).ne_root links rooted
      obtain ⟨k,high,sitsP,_⟩ := above.stored links rooted
      obtain ⟨m,entry,sits,points⟩ := parent_of_child stores parents links sitsP (c:=e) (by rw [shape]; simp)
      cases visitChildren with
      | true =>
        cases children : tree.childrenOf e with
        | nil => exact absurd children (filled rfl)
        | cons c rest =>
          simp only [down,if_true,children,List.cons_append] at visits reports
          obtain ⟨_,m',object,sitsC,_⟩ := child_stored links sits (c:=c) (by rw [children]; simp)
          exact visit sitsC (Behind.first (.child above shape) children) visits reports (by omega)
            (turn_down selector inner sits children sitsC)
      | false =>
        simp only [down,Bool.false_eq_true,if_false,List.nil_append] at visits reports
        have nodup : (tree.childrenOf p).Nodup := by
          rw [childrenOf_at sitsP]
          exact links.nodup sitsP
        cases after with
        | nil =>
          have turn := turn_up selector inner sits points sitsP nodup shape
          obtain ⟨it,ran,halted⟩ := @ih _ p false todo ahead later ⟨above,(nomatch ·),visits,reports⟩
            (nomatch ·) fits (by omega)
          exact ⟨it,(loop_onward turn fuel).trans ran,halted⟩
        | cons sibling after =>
          obtain ⟨_,m',object,sitsC,_⟩ := child_stored links sitsP (c:=sibling) (by rw [shape]; simp)
          have moved : tree.childrenOf p = (before ++ [e]) ++ sibling :: after := by rw [shape]; simp
          exact visit sitsC (.child above moved) visits reports (by omega)
            (turn_aside selector inner sits points sitsP nodup shape sitsC)

theorem nextPartial_spec (stores : Stores host tree chains) (parents : ParentLinks tree chains) (links : ChildLinks tree chains)
    (rooted : Sits tree chains n root top) (position : Position tree selector root d e visitChildren todo ahead later)
    (fits : ahead.length ≤ tree.entries.size) :
    ∃ it, (standing selector root e visitChildren).nextPartial tree e = .ok it ∧ Halt tree selector root it later := by
  have climbs : ∀ {d e visitChildren todo ahead later},
      Position tree selector root d e visitChildren todo ahead later → (visitChildren = true → e ≠ root) →
      ahead.length ≤ tree.entries.size →
      ∃ it, loop (ConstIterator.climbTurn tree) (ConstIterator.climbFuel tree) (standing selector root e visitChildren) = .ok it ∧
        Halt tree selector root it later := by
    intro d e visitChildren todo ahead later position below fits
    have depth := position.behind.shallow stores links rooted
    exact climb_spec stores parents links rooted position below fits (by unfold ConstIterator.climbFuel; omega)
  by_cases special : some e = some root ∧ visitChildren = true
  · obtain ⟨same,rfl⟩ := special
    obtain ⟨behind,filled,visits,reports⟩ := position
    obtain ⟨m,entry,sits,_⟩ := behind.stored links rooted
    cases children : tree.childrenOf e with
    | nil => exact absurd children (filled rfl)
    | cons c rest =>
      simp only [down,if_true,children,List.cons_append] at visits reports
      obtain ⟨_,m',object,sitsC,_⟩ := child_stored links sits (c:=c) (by rw [children]; simp)
      have behindC := behind.first children
      obtain ⟨further,others,positionC,rfl,rfl⟩ := landed sitsC behindC visits reports
      rw [List.length_cons] at fits
      have next : (standing selector root e true).nextPartial tree e =
          if (selector c object).1 then .ok (standing selector root c ((selector c object).2 && object.hasChildren))
          else loop (ConstIterator.climbTurn tree) (ConstIterator.climbFuel tree)
            (standing selector root c ((selector c object).2 && object.hasChildren)) := by
        have arrived := arrive_spec sitsC selector root e true
        unfold ConstIterator.nextPartial
        rw [if_pos (by exact ⟨same,rfl⟩),firstChild_spec sits children,ok_bind,arrived,ok_bind]
        rfl
      rw [next]
      by_cases accepted : (selector c object).1 = true
      · rw [if_pos accepted,if_pos accepted]
        exact ⟨_,rfl,.here positionC (by omega)⟩
      · rw [if_neg accepted,if_neg accepted]
        exact climbs positionC (fun _ => behindC.ne_root links rooted) (by omega)
  · have next : (standing selector root e visitChildren).nextPartial tree e =
        loop (ConstIterator.climbTurn tree) (ConstIterator.climbFuel tree) (standing selector root e visitChildren) := by
      unfold ConstIterator.nextPartial
      exact if_neg special
    rw [next]
    exact climbs position (fun visit same => special ⟨congrArg some same,visit⟩) fits

theorem collectPartial_spec (stores : Stores host tree chains) (parents : ParentLinks tree chains) (links : ChildLinks tree chains)
    (rooted : Sits tree chains n root top) (halted : Halt tree selector root it yields) (enough : yields.length ≤ fuel) :
    it.collect tree fuel = .ok yields := by
  induction fuel generalizing it yields with
  | zero =>
    cases halted with
    | ended finished => exact collect_end tree finished 0
    | here position fits => exact absurd enough (Nat.not_succ_le_zero _)
  | succ fuel ih =>
    cases halted with
    | ended finished => exact collect_end tree finished _
    | @here d e visitChildren todo ahead later position fits =>
      obtain ⟨next,moved,haltedNext⟩ := nextPartial_spec stores parents links rooted position fits
      have stepped : (standing selector root e visitChildren).increment tree = .ok next := moved
      have rest := ih haltedNext (Nat.le_of_succ_le_succ enough)
      show (do let it ← (standing selector root e visitChildren).increment tree
               let later ← it.collect tree fuel
               return e :: later) = _
      rw [stepped,ok_bind,rest]
      rfl
end Climb

section Enumerate
variable {host : Host Component} {tree : NameTree Component} {chains : List (List NodeId)}
  {selector : EntrySubTreeSelector Component} {p : Name Component}

-- The entries the walk opens its way down to.
omit [DecidableEq Component] in
theorem reaches_iff (stores : Stores host tree chains) (links : ChildLinks tree chains) (rooted : Sits tree chains n root top) :
    Reaches (tree.opens selector) root e ↔ ∃ m entry, Sits tree chains m e entry ∧ top.namePrefix <+: entry.namePrefix ∧
      ∀ k a object, Sits tree chains k a object → top.namePrefix <+: object.namePrefix →
        object.namePrefix <+: entry.namePrefix → object.namePrefix ≠ entry.namePrefix → (selector a object).2 = true := by
  constructor
  · intro down
    induction down with
    | refl =>
      refine ⟨n,top,rooted,List.prefix_rfl,fun k a object _ below above proper => ?_⟩
      exact absurd (above.eq_of_length (Nat.le_antisymm above.length_le below.length_le)) proper
    | @tail b c _ opened ih =>
      obtain ⟨m,entry,sits,under,passed⟩ := ih
      rw [opens_at sits] at opened
      split at opened
      · rename_i wanted
        obtain ⟨j,m',object,sitsC,same⟩ := (links.child_iff sits c).mp opened
        refine ⟨m',object,sitsC,same ▸ under.trans (List.prefix_append _ _),fun k a other sitsA below above proper => ?_⟩
        rw [same] at above proper
        have inner := (PrefixSet.proper_iff.mp ⟨above,proper⟩).2
        rw [List.dropLast_concat] at inner
        by_cases equal : other.namePrefix = entry.namePrefix
        · have node := stores.unique sitsA sits equal
          subst node
          obtain ⟨rfl,rfl⟩ := entryAt_unique sitsA.holds sits.holds
          exact wanted
        · exact passed k a other sitsA below inner equal
      · cases opened
  · rintro ⟨m,entry,sits,⟨suffix,same⟩,passed⟩
    induction suffix using List.reverseRecOn generalizing m e entry with
    | nil =>
      rw [List.append_nil] at same
      rw [stored_unique stores ⟨m,entry,sits⟩ ⟨n,top,rooted⟩ (by rw [nameOf_at sits,nameOf_at rooted,same])]
    | append_singleton suffix j ih =>
      have above : top.namePrefix ++ suffix <+: entry.namePrefix := ⟨[j],by rw [← same,List.append_assoc]⟩
      obtain ⟨m',f,other,sitsF,sameF⟩ := stores.closed sits above
      have longer : entry.namePrefix = other.namePrefix ++ [j] := by rw [sameF,← same,List.append_assoc]
      have between : ∀ k a object, Sits tree chains k a object → top.namePrefix <+: object.namePrefix →
          object.namePrefix <+: other.namePrefix → object.namePrefix ≠ other.namePrefix → (selector a object).2 = true := by
        intro k a object sitsA below inner proper
        refine passed k a object sitsA below (inner.trans (longer ▸ List.prefix_append _ _)) fun equal => ?_
        have short := inner.length_le
        rw [equal,longer,List.length_append] at short
        exact absurd short (Nat.not_succ_le_self _)
      have climbed := ih m' other sitsF between sameF.symm
      have wanted := passed m' f other sitsF (sameF ▸ List.prefix_append _ _) (longer ▸ List.prefix_append _ _)
        (fun equal => by rw [longer] at equal; simp at equal)
      refine climbed.tail ?_
      rw [opens_at sitsF,if_pos wanted]
      exact (links.child_iff sitsF e).mpr ⟨j,m,entry,sits,longer⟩

structure SubTreeListed (tree : NameTree Component) (chains : List (List NodeId)) (p : Name Component)
    (selector : EntrySubTreeSelector Component) (yields : List EntryId) : Prop where
  member : ∀ e, e ∈ yields ↔ ∃ n entry, Sits tree chains n e entry ∧ p <+: entry.namePrefix ∧ (selector e entry).1 = true ∧
    ∀ m a object, Sits tree chains m a object → p <+: object.namePrefix → object.namePrefix <+: entry.namePrefix →
      object.namePrefix ≠ entry.namePrefix → (selector a object).2 = true
  nodup : yields.Nodup
  order : ∀ {n e entry}, Sits tree chains n e entry → entry.namePrefix = p →
    ∃ listing, Listing tree.childrenOf [e] listing ∧ listing.Nodup ∧ yields.Sublist listing
  missing : (∀ n e entry, Sits tree chains n e entry → entry.namePrefix ≠ p) → yields = []

omit [DecidableEq Component] in
theorem subTree_listed (stores : Stores host tree chains) (links : ChildLinks tree chains) (rooted : Sits tree chains n root top)
    (reports : Walk (tree.picks selector) (tree.opens selector) [root] yields)
    (full : Listing tree.childrenOf [root] listing) (nodup : listing.Nodup) :
    SubTreeListed tree chains top.namePrefix selector yields where
  member := by
    intro e
    rw [reports.mem_iff]
    simp only [List.mem_singleton,exists_eq_left,reaches_iff stores links rooted]
    constructor
    · rintro ⟨picked,m,entry,sits,below,passed⟩
      rw [picks_at sits] at picked
      exact ⟨m,entry,sits,below,picked,passed⟩
    · rintro ⟨m,entry,sits,below,picked,passed⟩
      exact ⟨by rwa [picks_at sits],m,entry,sits,below,passed⟩
  nodup := (reports.sublist (opens_pruned tree selector) full).nodup nodup
  order := by
    intro m e entry sits same
    have here : e = root := stored_unique stores ⟨m,entry,sits⟩ ⟨n,top,rooted⟩ (by rw [nameOf_at sits,nameOf_at rooted,same])
    subst e
    exact ⟨listing,full,nodup,reports.sublist (opens_pruned tree selector) full⟩
  missing := fun none_stored => absurd rfl (none_stored n root top rooted)

omit [DecidableEq Component] in
-- Every sub-tree has a pre-order, and no more entries than there are objects.
theorem listing_exists (stores : Stores host tree chains) (links : ChildLinks tree chains) (rooted : Sits tree chains n root top) :
    ∃ listing, Listing tree.childrenOf [root] listing ∧ listing.Nodup ∧ listing.length ≤ tree.entries.size := by
  classical
  have extends_name := child_extends links
  have start : ∀ e ∈ [root], Stored tree chains e := fun e member => List.mem_singleton.mp member ▸ ⟨n,top,rooted⟩
  have depth : ∀ e, Stored tree chains e → (tree.nameOf e).length < tree.entries.size := by
    rintro e ⟨m,entry,sits⟩
    rw [nameOf_at sits]
    exact stores.named.shallow (stores.named.known sits).1
  have lower : ∀ e, Stored tree chains e → ∀ c ∈ tree.childrenOf e, Stored tree chains c ∧
      tree.entries.size - (tree.nameOf c).length < tree.entries.size - (tree.nameOf e).length := by
    intro e stored c member
    obtain ⟨storedC,k,same⟩ := extends_name e stored c member
    have size := congrArg List.length same
    rw [List.length_append,List.length_singleton] at size
    have deep := depth c storedC
    exact ⟨storedC,by omega⟩
  obtain ⟨listing,full⟩ := @Walk.exists _ (fun _ => true) tree.childrenOf _ _ _
    (fun e => tree.entries.size - (tree.nameOf e).length) lower
    (fun e member => ⟨start e member,Nat.lt_succ_of_le (Nat.sub_le _ _)⟩)
  have nodup := Listing.nodup extends_name (children_apart stores links) full start (List.pairwise_singleton _ _)
  refine ⟨listing,full,nodup,Heap.length_le_size nodup fun e member => ?_⟩
  obtain ⟨_,f,first,down⟩ := full.mem_iff.mp member
  obtain ⟨⟨m,entry,sits⟩,_⟩ := Reaches.extends extends_name (start f first) down
  rw [sits.entry_live]
  rfl

theorem partialEnumerate_exact (stores : Stores host tree chains) (parents : ParentLinks tree chains)
    (links : ChildLinks tree chains) (p : Name Component) (selector : EntrySubTreeSelector Component) :
    ∃ it yields, tree.partialEnumerate host p selector = .ok it ∧ tree.drain it = .ok yields ∧
      SubTreeListed tree chains p selector yields := by
  have named := stores.named
  unfold partialEnumerate
  rw [findExactMatch_spec stores.toChained stores.toPlaced named,ok_bind]
  by_cases stored : p ∈ (registryOf tree chains).names
  · obtain ⟨n,root,top,rooted,rfl⟩ := named.stored p stored
    obtain ⟨listing,full,nodup,fits⟩ := listing_exists stores links rooted
    have pruned := opens_pruned tree selector
    obtain ⟨visited,visits⟩ := full.walk pruned (fun _ => true)
    obtain ⟨yields,reports⟩ := full.walk pruned (tree.picks selector)
    have listed := subTree_listed stores links rooted reports full nodup
    have few : yields.length ≤ tree.entries.size := Nat.le_trans (reports.sublist pruned full).length_le fits
    have visitedFew : visited.length ≤ tree.entries.size := Nat.le_trans (visits.sublist pruned full).length_le fits
    obtain ⟨ahead,later,position,rfl,first⟩ := landed rooted .root visits reports
    have shorter : ahead.length ≤ tree.entries.size := Nat.le_of_succ_le visitedFew
    rw [Registry.find_stored stored,named.object rooted]
    dsimp only
    rw [Heap.fetch_live rooted.entry_live,ok_bind]
    by_cases accepted : (selector root top).1 = true
    · rw [if_pos accepted] at first ⊢
      subst first
      exact ⟨_,_,rfl,collectPartial_spec stores parents links rooted (.here position shorter) few,listed⟩
    · rw [if_neg accepted] at first ⊢
      subst first
      obtain ⟨it,moved,halted⟩ := nextPartial_spec stores parents links rooted position shorter
      exact ⟨it,_,moved,collectPartial_spec stores parents links rooted halted few,listed⟩
  · have missing : ∀ n e entry, Sits tree chains n e entry → entry.namePrefix ≠ p := by
      rintro n e entry sits rfl
      exact stored (named.known sits).1
    rw [Registry.find_absent stored]
    refine ⟨endIterator,[],rfl,collect_end tree rfl _,⟨fun e => ?_,List.nodup_nil,fun sits same => ?_,fun _ => rfl⟩⟩
    · refine ⟨fun member => absurd member List.not_mem_nil,?_⟩
      rintro ⟨n,entry,sits,below,_⟩
      exact absurd (named.closed _ (named.known sits).1 _ below) stored
    · exact absurd same (missing _ _ _ sits)

theorem partialEnumerate_exact_below : ∃ (tree : NameTree Nat) (chains : List (List NodeId)) (it : ConstIterator Nat)
    (yields : List EntryId), (new 8).lookup collidingHost [1,2] = .ok (tree,some 2) ∧
      tree.partialEnumerate collidingHost [1] anyEntrySubTree = .ok it ∧ tree.drain it = .ok yields ∧
      SubTreeListed tree chains [1] anyEntrySubTree yields := by
  obtain ⟨tree,chains,ran,consistent,_⟩ := lookup_consistent (new_consistent (n:=8) collidingHost (by decide)).1 [1,2]
  have agrees := consistent.agrees
  obtain ⟨it,yields,begun,listed,exactly⟩ :=
    partialEnumerate_exact agrees.toStores agrees.toParentLinks agrees.toChildLinks [1] anyEntrySubTree
  exact ⟨tree,chains,it,yields,ran,begun,listed,exactly⟩

-- Below [1] the root [1] is passed over and [1,3] keeps its child to itself.
example : (do
    let (tree,_) ← (new 4).lookup collidingHost [1,2]
    let (tree,_) ← tree.lookup collidingHost [1,3,4]
    let (tree,_) ← tree.lookup collidingHost [1,5]
    let it ← tree.partialEnumerate collidingHost [1]
      fun _ entry => (entry.namePrefix ≠ [1],entry.namePrefix ≠ [1,3])
    tree.drain it) = .ok [2,3,5] := by decide
end Enumerate

end NfdTables.NameTree
