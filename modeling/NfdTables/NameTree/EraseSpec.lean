import NfdTables.NameTree.GrowthRuns
import NfdTables.NameTree.RemoveSpec

namespace NfdTables.NameTree
open Machine Chain PrefixSet
variable {Component : Type}

section Recursion
variable {host : Host Component} {tree : NameTree Component} {chains : List (List NodeId)} {registry : Registry Component}

theorem isEmpty_leaf (consistent : Consistent host tree chains registry) (sits : Sits tree chains n e entry) :
    entry.isEmpty = true ↔
      (∀ k, entry.namePrefix ++ [k] ∉ registry.names) ∧ registry.idle entry.namePrefix = true := by
  rw [entry.isEmpty_iff,Registry.idle,(consistent.named.known sits).2,List.eq_nil_iff_forall_not_mem]
  refine and_congr_left fun _ => ⟨fun none k stored => ?_,fun none c member => ?_⟩
  · exact none _ ((consistent.fostered.child_iff sits _).mpr ⟨k,stored,rfl⟩)
  · obtain ⟨k,stored,_⟩ := (consistent.fostered.child_iff sits c).mp member
    exact none k stored

theorem isEmpty_busy (consistent : Consistent host tree chains registry) (sits : Sits tree chains n e entry) :
    entry.isEmpty = false ↔
      registry.idle entry.namePrefix = false ∨ ∃ k, entry.namePrefix ++ [k] ∈ registry.names := by
  rw [← Bool.not_eq_true,isEmpty_leaf consistent sits,not_and_or]
  push Not
  rw [or_comm,ne_eq,Bool.not_eq_true]

variable [DecidableEq Component]

-- The nearest ancestor that stays loses one child.
structure Trimmed (tree after : NameTree Component) (registry : Registry Component) (name : Name Component) : Prop where
  kept : ∀ y ∈ (registry.eraseAt name).names, ¬ Nearest (registry.eraseAt name).names name y →
    after.entries.read (registry.cell y).object = tree.entries.read (registry.cell y).object
  nearest : ∀ y, Nearest (registry.eraseAt name).names name y → ∃ object child rest,
    tree.entries.read (registry.cell y).object = some object ∧ swapRemove object.children child = some rest ∧
    after.entries.read (registry.cell y).object = some {object with children := rest}

omit [DecidableEq Component] in
theorem eraseFrom_busy (live : tree.entries.read e = some entry) (busy : entry.isEmpty = false) (fuel : Nat) :
    eraseFrom (fuel+1) tree e = .ok (tree,false) := by
  simp [eraseFrom,Heap.fetch_live live,busy]

-- The last lines of eraseEntryIfEmpty(): the parent's turn, where there is one.
def eraseAbove (fuel : Nat) (tree : NameTree Component) : Option EntryId → Exec (NameTree Component)
  | none => .ok tree
  | some p => do
    let (tree,_) ← eraseFrom fuel tree p
    return tree

variable {mid after : NameTree Component} {name : Name Component}

omit [DecidableEq Component] in
theorem eraseFrom_empty (live : tree.entries.read e = some entry) (empty : entry.isEmpty = true)
    (removed : tree.removeEntry e entry = .ok mid) (above : eraseAbove fuel mid entry.parent = .ok after) :
    eraseFrom (fuel+1) tree e = .ok (after,true) := by
  rw [eraseFrom,Heap.fetch_live live,ok_bind,if_pos empty,removed,ok_bind]
  cases points : entry.parent with
  | none =>
    rw [points] at above
    cases Except.ok.inj above
    rfl
  | some p =>
    rw [points] at above
    obtain ⟨⟨last,flag⟩,climbed,kept⟩ := bind_parts above
    cases Except.ok.inj kept
    simp only [climbed,ok_bind,pure_ok]

omit [DecidableEq Component] in
theorem eraseAbove_parent (climbed : eraseFrom fuel mid p = .ok (after,flag)) : eraseAbove fuel mid (some p) = .ok after := by
  rw [eraseAbove,climbed]
  rfl

omit [DecidableEq Component] in
-- Of the stored entries only the parent changes when a node is taken out.
theorem Removed.untouched {front behind : List NodeId}
    (removed : Removed tree mid chains loc front n behind (registry.parentOf name) rest)
    (consistent : Consistent host tree chains registry) (member : name ∈ registry.names) :
    ∀ y ∈ registry.names, y ≠ name.dropLast →
      mid.entries.read (registry.cell y).object = tree.entries.read (registry.cell y).object := by
  intro y stored apart
  have elsewhere : registry.parentOf name ≠ some (registry.cell y).object := by
    unfold Registry.parentOf
    split
    · exact fun none => nomatch none
    · intro equal
      exact apart (consistent.named.injective y stored _ (consistent.named.closed.parent member) (Option.some.inj equal).symm)
  rw [removed.entry_old]
  cases tree.entries.read (registry.cell y).object <;> simp [disown,elsewhere]

theorem trimmed_root (erased : registry.eraseAt [] = registry.forget [])
    (untouched : ∀ f, mid.entries.read f = tree.entries.read f) : Trimmed tree mid registry [] := by
  refine ⟨fun y _ _ => untouched _,?_⟩
  rintro y ⟨member,below,_⟩
  rw [List.prefix_nil.mp below,erased] at member
  exact absurd rfl (Finset.mem_erase.mp member).1

-- The parent stays: it is the nearest ancestor and has lost one child.
theorem trimmed_stop (erased : registry.eraseAt name = registry.forget name)
    (stays : name.dropLast ∈ (registry.forget name).names)
    (untouched : ∀ y ∈ registry.names, y ≠ name.dropLast →
      mid.entries.read (registry.cell y).object = tree.entries.read (registry.cell y).object)
    (live : tree.entries.read (registry.cell name.dropLast).object = some object)
    (taken : swapRemove object.children child = some rest)
    (now : mid.entries.read (registry.cell name.dropLast).object = some {object with children := rest}) :
    Trimmed tree mid registry name := by
  have absent : name ∉ (registry.forget name).names := Finset.notMem_erase _ _
  constructor
  · intro y member notNearest
    rw [erased] at member notNearest
    rw [nearest_parent absent,nearest_self stays] at notNearest
    exact untouched y (Finset.mem_of_mem_erase member) notNearest
  · intro y nearest
    rw [erased,nearest_parent absent,nearest_self stays] at nearest
    subst y
    exact ⟨object,child,rest,live,taken,now⟩

-- The parent goes as well, so that what it lost is of no account.
theorem trimmed_climb (erased : registry.eraseAt name = (registry.forget name).eraseAt name.dropLast)
    (absent : name ∉ (registry.eraseAt name).names) (fallen : name.dropLast ∉ (registry.eraseAt name).names)
    (untouched : ∀ y ∈ registry.names, y ≠ name.dropLast →
      mid.entries.read (registry.cell y).object = tree.entries.read (registry.cell y).object)
    (above : Trimmed mid after (registry.forget name) name.dropLast) : Trimmed tree after registry name := by
  have inside := prune_subset registry.names registry.idle name
  have apart : ∀ y ∈ (registry.eraseAt name).names, y ≠ name.dropLast := fun y member same => fallen (same ▸ member)
  constructor
  · intro y member notNearest
    rw [nearest_parent absent,erased] at notNearest
    exact (above.kept y (erased ▸ member) notNearest).trans (untouched y (inside member) (apart y member))
  · intro y nearest
    have member := nearest.1
    rw [nearest_parent absent,erased] at nearest
    obtain ⟨old,child,rest,live,shorter,now⟩ := above.nearest y nearest
    exact ⟨old,child,rest,(untouched y (inside member) (apart y member)).symm.trans live,shorter,now⟩

omit [DecidableEq Component] in
theorem dropLast_proper (filled : name ≠ []) : name.dropLast ≠ name := by
  intro equal
  have short := congrArg List.length equal
  have long := List.length_pos_iff.mpr filled
  rw [List.length_dropLast] at short
  omega

omit [DecidableEq Component] in
theorem root_of_orphan (consistent : Consistent host tree chains registry) (sits : Sits tree chains n e entry)
    (orphan : entry.parent = none) : entry.namePrefix = [] := by
  have above := consistent.parented sits
  rw [orphan,Registry.parentOf] at above
  split at above
  · assumption
  · cases above

omit [DecidableEq Component] in
theorem parent_apart (sits : Sits tree chains n e entry) (sitsP : Sits tree chains m p object) (filled : entry.namePrefix ≠ [])
    (same : object.namePrefix = entry.namePrefix.dropLast) : m ≠ n := by
  rintro rfl
  obtain ⟨_,rfl⟩ := entryAt_unique sitsP.holds sits.holds
  exact dropLast_proper filled same.symm

theorem eraseAt_gone (closed : Closed registry.names) (quiet : registry.idle name = true)
    (childless : ∀ k, name ++ [k] ∉ registry.names) : name ∉ (registry.eraseAt name).names :=
  fun member => (mem_prune.mp member).2 (doomed_self closed quiet childless)

-- Induction on the fuel. Each level hands on a state in order to the parent, whose
-- m_prev is as good as it was before.
theorem eraseFrom_spec (consistent : Consistent host tree chains registry) (sits : Sits tree chains n e entry)
    (empty : entry.isEmpty = true) (enough : registry.names.card ≤ fuel)
    (safe : ∀ m f object, Sits tree chains m f object →
      Doomed registry.names registry.idle entry.namePrefix object.namePrefix → HeadOk tree chains m) :
    ∃ after chains', eraseFrom fuel tree e = .ok (after,true) ∧
      Consistent host after chains' (registry.eraseAt entry.namePrefix) ∧
      Trimmed tree after registry entry.namePrefix ∧ ∀ m, HeadOk tree chains m → HeadOk after chains' m := by
  induction fuel generalizing tree chains registry n e entry with
  | zero =>
    have filled := Finset.card_pos.mpr ⟨_,(consistent.named.known sits).1⟩
    exact absurd enough (Nat.not_le.mpr filled)
  | succ fuel ih =>
    have storedE := (consistent.named.known sits).1
    have above := consistent.parented sits
    have closed := consistent.named.closed
    obtain ⟨childless,quiet⟩ := (isEmpty_leaf consistent sits).mp empty
    have headOk := safe n e entry sits (doomed_self closed quiet childless)
    obtain ⟨front,behind,rest,mid,at_loc,ran,removed,taken⟩ := removeEntry_spec consistent sits headOk
    have between := removed.consistent consistent sits at_loc childless taken
    have okMid := fun m => removed.headOk (m:=m) consistent.chained.table at_loc
    have untouched := Removed.untouched (above ▸ removed) consistent storedE
    cases points : entry.parent with
    | none =>
      have root := root_of_orphan consistent sits points
      have same : ∀ f, mid.entries.read f = tree.entries.read f := by
        intro f
        rw [removed.entry_old,points]
        cases tree.entries.read f <;> rfl
      rw [root] at between childless quiet ⊢
      have erased := Registry.eraseAt_root closed quiet childless
      exact ⟨mid,_,eraseFrom_empty sits.entry_live empty ran (by rw [points]; rfl),by rwa [erased],trimmed_root erased same,okMid⟩
    | some p =>
      obtain ⟨m,object,sitsP,_,filled,same⟩ := parent_of consistent sits points
      have sitsMid := removed.sits_old consistent.chained.table at_loc sitsP (parent_apart sits sitsP filled same)
      have nameMid : (disown entry.parent rest p object).namePrefix = entry.namePrefix.dropLast := by
        rw [disown_namePrefix,same]
      have erased := Registry.eraseAt_leaf closed quiet childless
      have begun : ∀ after flag, eraseFrom fuel mid p = .ok (after,flag) → eraseFrom (fuel+1) tree e = .ok (after,true) := by
        intro after flag later
        exact eraseFrom_empty sits.entry_live empty ran (points ▸ eraseAbove_parent later)
      cases emptyP : (disown entry.parent rest p object).isEmpty with
      | true =>
        obtain ⟨after,chains',ranP,final,trimmed,okFinal⟩ := ih between sitsMid emptyP
          (by rw [Registry.forget,Finset.card_erase_of_mem storedE]; omega) (by
            intro m' f object' sitsM doomed
            obtain ⟨_,old,sitsOld,rfl⟩ := removed.sits consistent.chained at_loc sitsM
            have apart := (Finset.mem_erase.mp (between.named.known sitsM).1).1
            rw [disown_namePrefix] at apart
            rw [nameMid,disown_namePrefix] at doomed
            exact okMid m' (safe m' f old sitsOld ((doomed_parent quiet apart).mpr doomed)))
        obtain ⟨childlessP,quietP⟩ := (isEmpty_leaf between sitsMid).mp emptyP
        rw [nameMid] at final trimmed childlessP quietP
        have gone := eraseAt_gone closed quiet childless
        have fallen := eraseAt_gone between.named.closed quietP childlessP
        exact ⟨after,chains',begun _ _ ranP,erased ▸ final,trimmed_climb erased gone (erased ▸ fallen) untouched trimmed,
          fun m' ok => okFinal m' (okMid m' ok)⟩
      | false =>
        have busy := (isEmpty_busy between sitsMid).mp emptyP
        have stays := (between.named.known sitsMid).1
        rw [nameMid] at busy stays
        rw [Registry.eraseAt_busy stays busy] at erased
        obtain ⟨smaller,rfl⟩ : ∃ smaller, fuel = smaller + 1 := by
          have two := Finset.card_pos.mpr ⟨_,stays⟩
          rw [Registry.forget,Finset.card_erase_of_mem storedE] at two
          exact ⟨fuel - 1,by omega⟩
        have objectP : (registry.cell entry.namePrefix.dropLast).object = p := by rw [← same,consistent.named.object sitsP]
        refine ⟨mid,_,begun _ _ (eraseFrom_busy sitsMid.entry_live emptyP smaller),erased ▸ between,
          trimmed_stop erased stays untouched (objectP ▸ sitsP.entry_live) (taken p object points sitsP.entry_live) ?_,okMid⟩
        rw [objectP,sitsMid.entry_live,disown,if_pos points]

omit [DecidableEq Component] in
theorem Consistent.card_le (consistent : Consistent host tree chains registry) : registry.names.card ≤ tree.entries.size := by
  have inside : registry.names.image (fun name => (registry.cell name).object) ⊆ Finset.range tree.entries.size := by
    intro f member
    obtain ⟨name,stored,rfl⟩ := Finset.mem_image.mp member
    rw [Finset.mem_range,← consistent.synced]
    exact consistent.distinct.older name stored
  have small := Finset.card_le_card inside
  rwa [Finset.card_range,Finset.card_image_of_injOn (fun x hx y hy same => consistent.named.injective x hx y hy same)] at small

omit [DecidableEq Component] in
theorem erase_busy (sits : Sits tree chains n e entry) (busy : entry.isEmpty = false) :
    tree.eraseEntryIfEmpty e = .ok (tree,false) := eraseFrom_busy sits.entry_live busy _

theorem erase_empty (consistent : Consistent host tree chains registry) (sits : Sits tree chains n e entry)
    (empty : entry.isEmpty = true) (safe : ∀ m f object, Sits tree chains m f object →
      Doomed registry.names registry.idle entry.namePrefix object.namePrefix → HeadOk tree chains m) :
    ∃ after chains', tree.eraseEntryIfEmpty e = .ok (after,true) ∧
      Consistent host after chains' (registry.eraseAt entry.namePrefix) ∧
      Trimmed tree after registry entry.namePrefix ∧ ∀ m, HeadOk tree chains m → HeadOk after chains' m :=
  eraseFrom_spec consistent sits empty (Nat.le_succ_of_le consistent.card_le) safe

theorem erase_consistent (consistent : Consistent host tree chains registry) (sits : Sits tree chains n e entry)
    (safe : ∀ m f object, Sits tree chains m f object →
      Doomed registry.names registry.idle entry.namePrefix object.namePrefix → HeadOk tree chains m) :
    ∃ after chains' flag, tree.eraseEntryIfEmpty e = .ok (after,flag) ∧
      Consistent host after chains' (registry.eraseAt entry.namePrefix) := by
  cases empty : entry.isEmpty with
  | true =>
    obtain ⟨after,chains',ran,kept,_⟩ := erase_empty consistent sits empty safe
    exact ⟨after,chains',true,ran,kept⟩
  | false =>
    refine ⟨tree,chains,false,erase_busy sits empty,?_⟩
    rwa [Registry.eraseAt_busy (consistent.named.known sits).1 ((isEmpty_busy consistent sits).mp empty)]
end Recursion

section Exact
variable {host : Host Component} {tree after : NameTree Component} {chains chains' : List (List NodeId)}
  {registry : Registry Component} [DecidableEq Component]

-- `name` goes with the ancestors that fall with it.
structure ErasedExactly (host : Host Component) (tree : NameTree Component) (chains : List (List NodeId))
    (after : NameTree Component) (chains' : List (List NodeId)) (name : Name Component) : Prop where
  names : ∀ y, y ∈ (registryOf after chains').names ↔ y ∈ (registryOf tree chains).names ∧
    ¬ Falls (registryOf tree chains).names (registryOf tree chains).idle name y
  counted : after.nItems + ((registryOf tree chains).names \ (registryOf after chains').names).card = tree.nItems
  others : ∀ {m f object}, Sits tree chains m f object → object.namePrefix ∈ (registryOf after chains').names →
    after.findExactMatch host object.namePrefix = .ok (some f) ∧
      ∃ m' object', Sits after chains' m' f object' ∧ object'.namePrefix = object.namePrefix ∧
        object'.payload = object.payload ∧ object'.parent = object.parent
  kept : ∀ {m f object}, Sits tree chains m f object → object.namePrefix ∈ (registryOf after chains').names →
    ¬ Nearest (registryOf after chains').names name object.namePrefix → after.entries.read f = some object
  nearest : ∀ {m f object}, Sits tree chains m f object → Nearest (registryOf after chains').names name object.namePrefix →
    ∃ child rest, swapRemove object.children child = some rest ∧ object.children.Perm (child :: rest) ∧
      after.entries.read f = some {object with children := rest}

theorem registryOf_names (named : Named host tree chains registry) : (registryOf tree chains).names = registry.names := by
  ext name
  rw [mem_registryOf,named.stored_iff]

theorem swapRemove_parts {items rest : List EntryId} (taken : swapRemove items target = some rest) :
    items.Perm (target :: rest) := by
  have present : target ∈ items := by
    by_contra absent
    rw [swapRemove_absent absent] at taken
    cases taken
  obtain ⟨other,same,perm⟩ := swapRemove_perm present
  cases Option.some.inj (taken.symm.trans same)
  exact perm

theorem erasedExactly (formed : WellFormed host tree chains) (sits : Sits tree chains n e entry) (empty : entry.isEmpty = true)
    (final : Consistent host after chains' ((registryOf tree chains).eraseAt entry.namePrefix))
    (trimmed : Trimmed tree after (registryOf tree chains) entry.namePrefix) :
    ErasedExactly host tree chains after chains' entry.namePrefix := by
  have start := formed.consistent
  have names := registryOf_names final.named
  have closed := start.named.closed
  obtain ⟨childless,quiet⟩ := (isEmpty_leaf start sits).mp empty
  have stored := (start.named.known sits).1
  have sub := prune_subset (registryOf tree chains).names (registryOf tree chains).idle entry.namePrefix
  constructor
  · intro y
    rw [names,falls_iff closed stored quiet childless]
    exact mem_prune
  · rw [names,start.counted,final.counted,Nat.add_comm]
    exact Finset.card_sdiff_add_card_eq_card sub
  · intro m f object sitsM member
    rw [names] at member
    have object' := start.named.object sitsM
    obtain ⟨m',now,sitsNow,same⟩ := final.named.live member
    have identity : (((registryOf tree chains).eraseAt entry.namePrefix).cell object.namePrefix).object = f := object'
    rw [identity] at sitsNow
    refine ⟨?_,m',now,sitsNow,same,?_,?_⟩
    · rw [final.find,Registry.find_stored member,identity]
    · have cell := (final.named.known sitsNow).2
      rw [same] at cell
      have before := (start.named.known sitsM).2
      exact (congrArg Cell.payload (cell.symm.trans before))
    · rw [final.parented sitsNow,start.parented sitsM,same]
      rfl
  · intro m f object sitsM member notNearest
    rw [names] at member notNearest
    have same := trimmed.kept _ member notNearest
    rwa [start.named.object sitsM,sitsM.entry_live] at same
  · intro m f object sitsM nearest
    rw [names] at nearest
    obtain ⟨old,child,rest,live,taken,now⟩ := trimmed.nearest _ nearest
    rw [start.named.object sitsM] at live now
    cases Option.some.inj (sitsM.entry_live.symm.trans live)
    exact ⟨child,rest,taken,swapRemove_parts taken,now⟩

theorem eraseEntryIfEmpty_exact (formed : WellFormed host tree chains) (sits : Sits tree chains n e entry) :
    (entry.children ≠ [] ∨ entry.payload ≠ {} → tree.eraseEntryIfEmpty e = .ok (tree,false)) ∧
    (entry.children = [] ∧ entry.payload = {} → ∃ after chains', tree.eraseEntryIfEmpty e = .ok (after,true) ∧
      WellFormed host after chains' ∧ ErasedExactly host tree chains after chains' entry.namePrefix) := by
  constructor
  · intro busy
    refine erase_busy sits ?_
    rw [← Bool.not_eq_true,entry.isEmpty_iff,Payload.isEmpty_iff]
    exact fun ⟨childless,clear⟩ => busy.elim (· childless) (· clear)
  · rintro ⟨childless,clear⟩
    have empty : entry.isEmpty = true := entry.isEmpty_iff.mpr ⟨childless,(Payload.isEmpty_iff _).mpr clear⟩
    have ok : ∀ m, HeadOk tree chains m := fun m chain member first => formed.heads chain member m first
    obtain ⟨after,chains',ran,final,trimmed,okAfter⟩ := erase_empty formed.consistent sits empty (fun m _ _ _ _ => ok m)
    exact ⟨after,chains',ran,final.wellFormed (fun chain member m first => okAfter m (ok m) chain member first),
      erasedExactly formed sits empty final trimmed⟩
end Exact

section Leaf

theorem eraseEntryIfEmpty_exact_leaf : ∃ (tree after : NameTree Nat) (chains chains' : List (List NodeId)),
    (new 8).lookup collidingHost [0] = .ok (tree,some 1) ∧ tree.eraseEntryIfEmpty 1 = .ok (after,true) ∧
      WellFormed collidingHost after chains' ∧ ErasedExactly collidingHost tree chains after chains' [0] := by
  obtain ⟨start,heads⟩ := new_consistent (n:=8) collidingHost (by decide)
  obtain ⟨tree,chains,ran,consistent,null⟩ := lookup_consistent start [0]
  have formed := consistent.wellFormed ((null heads).mpr (by decide))
  have stored : [0] ∈ (Registry.empty.lookup [0] : Registry Nat).names := by decide
  obtain ⟨n,entry,sits,_⟩ := consistent.named.live stored
  have object : ((Registry.empty.lookup [0]).cell [0]).object = 1 := by decide
  rw [object] at sits ran
  have shape : ((new 8).lookup collidingHost [0]).toOption.map (fun result => result.1.entries.read 1) =
      some (some {namePrefix := [0],hash := 0,parent := some 0,node := some 1}) := by decide
  rw [ran] at shape
  cases Option.some.inj (sits.entry_live.symm.trans (Option.some.inj shape))
  obtain ⟨after,chains',erased,well,exactly⟩ := (eraseEntryIfEmpty_exact formed sits).2 ⟨rfl,rfl⟩
  exact ⟨tree,after,chains,chains',ran,erased,well,exactly⟩
end Leaf

end NfdTables.NameTree
