import NfdTables.Pit.InsertOnce

namespace NfdTables.Pit
open Machine PrefixSet
variable {Component Exclude Milliseconds Tree : Type} [DecidableEq Component]

section Tight
variable {ndn : Ndn Component Exclude Milliseconds} {registry remaining : Registry Component}
  {entries after : Heap (PitEntry Component Exclude Milliseconds)} {interest : Interest Component Exclude Milliseconds}

-- Nothing but PIT entries hangs on the tree.
def Bare (registry : Registry Component) : Prop :=
  ∀ x ∈ registry.names, (registry.cell x).payload.fib = none ∧ (registry.cell x).payload.measurements = none

-- Every name is there for an entry at or below it.
structure Tight (registry : Registry Component) : Prop where
  bare : Bare registry
  needed : ∀ x ∈ registry.names, ∃ y e, x <+: y ∧ e ∈ registry.held y

theorem Tight.names_iff (tight : Tight registry) (closed : Closed registry.names) :
    x ∈ registry.names ↔ ∃ y e, x <+: y ∧ e ∈ registry.held y := by
  refine ⟨tight.needed x,?_⟩
  rintro ⟨y,e,below,member⟩
  exact closed y (Registry.stored_of_held member) x below

theorem Bare.idle_iff (bare : Bare registry) (stored : x ∈ registry.names) : registry.idle x = true ↔ registry.held x = [] := by
  rw [Registry.held_stored stored]
  obtain ⟨noFib,noMeasurements⟩ := bare x stored
  simp [Registry.idle,Payload.isEmpty,noFib,noMeasurements]

theorem Bare.enter (bare : Bare registry) (name : Name Component) : Bare (registry.enter name) := by
  by_cases old : name ∈ registry.names
  · rwa [Registry.enter_stored old]
  · rw [Registry.enter_fresh old]
    intro x member
    by_cases same : x = name
    · simp [same]
    · simpa [same] using bare x (Finset.mem_of_mem_insert_of_ne member same)

theorem Bare.lookup (bare : Bare registry) (name : Name Component) : Bare (registry.lookup name) := by
  rw [Registry.lookup_eq]
  generalize (List.range (name.length + 1)).map (getPrefix name) = names
  induction names generalizing registry with
  | nil => exact bare
  | cons y rest ih => exact ih (bare.enter y)

omit [DecidableEq Component] in
theorem Bare.attach (bare : Bare registry) (e : EntryId) (change : Payload.Change)
    (keeps : ∀ payload : Payload, (payload.apply change).1.fib = payload.fib ∧
      (payload.apply change).1.measurements = payload.measurements) : Bare (registry.attach e change) := by
  intro x member
  obtain ⟨noFib,noMeasurements⟩ := bare x member
  simp only [Registry.attach]
  split
  · exact ⟨(keeps _).1.trans noFib,(keeps _).2.trans noMeasurements⟩
  · exact ⟨noFib,noMeasurements⟩

theorem Tight.insert (tight : Tight registry) (distinct : registry.Distinct)
    (inserted : Inserted ndn entries registry interest after remaining e isNew) : Tight remaining := by
  obtain ⟨member,_⟩ := inserted.holds distinct
  have bare : Bare remaining := by
    cases inserted with
    | existing _ _ => exact tight.bare.lookup _
    | added _ => exact (tight.bare.lookup _).attach _ _ fun _ => ⟨rfl,rfl⟩
  have names : ∀ x ∈ remaining.names, x ∈ registry.names ∨ x <+: interest.name := by
    cases inserted with
    | existing _ _ => exact fun x stored => Registry.mem_lookup.mp stored
    | added _ => exact fun x stored => Registry.mem_lookup.mp stored
  have grows : ∀ y f, f ∈ registry.held y → f ∈ remaining.held y := by
    cases inserted with
    | existing _ _ => exact fun y f inside => by rwa [Registry.held_lookup]
    | added _ =>
      intro y f inside
      rw [inserted_held distinct]
      exact mem_enlist.mpr (.inl inside)
  refine ⟨bare,fun x stored => ?_⟩
  rcases names x stored with old | below
  · obtain ⟨y,f,above,inside⟩ := tight.needed x old
    exact ⟨y,f,above,grows y f inside⟩
  · exact ⟨interest.name,e,below,member⟩

-- A name that is still there for no other entry is pruned with the one removed.
theorem Tight.remove (tight : Tight registry) (distinct : registry.Distinct) (stored : x ∈ registry.names)
    (pruned : Prunes (registry.attach (registry.cell x).object (.deletePitEntry e)) x remaining) : Tight remaining := by
  have held := removed_held distinct stored e pruned.clears
  have bare : Bare (registry.attach (registry.cell x).object (.deletePitEntry e)) :=
    tight.bare.attach _ _ fun payload => by rw [deletePitEntry_without]; exact ⟨rfl,rfl⟩
  unfold Prunes at pruned
  subst pruned
  refine ⟨fun y member => bare y (prune_subset _ _ _ member),fun y member => ?_⟩
  obtain ⟨old,kept⟩ := mem_prune.mp member
  by_contra useless
  have emptied : ∀ z, y <+: z → strike registry.held x e z = [] := by
    intro z below
    rw [← held]
    exact List.eq_nil_iff_forall_not_mem.mpr fun f inside => useless ⟨z,f,below,inside⟩
  -- Whatever a name at or below `y` was there for lies at `x`.
  have above : ∀ z ∈ registry.names, y <+: z → z <+: x := by
    intro z storedZ below
    obtain ⟨w,f,further,inside⟩ := tight.needed z storedZ
    have gone := emptied w (below.trans further)
    by_cases same : w = x
    · exact same ▸ further
    · rw [strike,if_neg same] at gone
      rw [gone] at inside
      cases inside
  refine kept ⟨above y old List.prefix_rfl,fun z storedZ below => ⟨above z storedZ below,?_⟩⟩
  rw [bare.idle_iff storedZ,Registry.held_attach distinct stored]
  have gone := emptied z below
  unfold strike at gone
  split
  · rename_i same
    rw [if_pos same,same,Registry.held_stored stored] at gone
    rwa [deletePitEntry_without]
  · rename_i other
    rwa [if_neg other] at gone

theorem Stepped.tight (distinct : registry.Distinct) (tight : Tight registry)
    (stepped : Stepped Prunes ndn entries registry op after remaining) : Tight remaining := by
  cases stepped with
  | insert inserted => exact tight.insert distinct inserted
  | remove live stored erased => exact tight.remove distinct stored erased
end Tight

section Runs
variable {calls : NameTreeCalls Component Tree} {shows : Tree → Registry Component → Prop}
  {ndn : Ndn Component Exclude Milliseconds} {pit : Pit Component Exclude Milliseconds Tree} {registry : Registry Component}

structure NothingLeaked (calls : NameTreeCalls Component Tree) (ndn : Ndn Component Exclude Milliseconds)
    (pit : Pit Component Exclude Milliseconds Tree) : Prop where
  names : ∀ x, HasName calls pit x ↔ ∃ e interest, Stored calls pit e ∧ pit.interestOf e = some interest ∧ x <+: interest.name
  inserts : ∀ interest, ∃ after e isNew, pit.insert calls ndn interest = .ok (after,e,isNew)
  removes : ∀ e, Stored calls pit e → ∃ after, pit.remove calls e = .ok after ∧ after.entries = pit.entries ∧
    ∀ x f, StoredAt calls after x f ↔ StoredAt calls pit x f ∧ f ≠ e
  undone : ∀ interest after e, pit.insert calls ndn interest = .ok (after,e,true) →
    ∃ back, after.remove calls e = .ok back ∧ (∀ x, HasName calls back x ↔ HasName calls pit x) ∧
      ∀ x f, StoredAt calls back x f ↔ StoredAt calls pit x f
  emptied : ∀ order : List PitId, order.Nodup → (∀ e, e ∈ order ↔ Stored calls pit e) →
    ∃ final, run (step calls ndn) pit (order.map .remove) = .ok final ∧ ∀ x, ¬ HasName calls final x

-- Removing a stored entry takes it out of its list and out of nothing else.
theorem remove_tight (laws : Documented calls shows Prunes) (kept : Kept shows ndn pit registry) (tight : Tight registry)
    (member : e ∈ registry.held x) :
    ∃ after remaining, pit.remove calls e = .ok after ∧ after.entries = pit.entries ∧ Kept shows ndn after remaining ∧
      Tight remaining ∧ ∀ y f, f ∈ remaining.held y ↔ f ∈ registry.held y ∧ f ≠ e := by
  obtain ⟨entry,live,rfl⟩ := kept.books.named x e member
  have stored := Registry.stored_of_held member
  have distinct := laws.distinct kept.shown
  obtain ⟨after,remaining,ran,shown,pruned⟩ := remove_spec laws kept.shown live stored
  have held := removed_held distinct stored e pruned.clears
  refine ⟨_,remaining,ran,rfl,⟨shown,held ▸ kept.books.strike _ _⟩,tight.remove distinct stored pruned,fun y f => ?_⟩
  rw [held,mem_strike kept.books]
  refine and_congr_right fun inside => ⟨fun differ same => ?_,fun differ _ => differ⟩
  exact differ (kept.books.one_name (same ▸ inside) member) same

theorem Kept.hasName_iff (laws : Documented calls shows Prunes) (kept : Kept shows ndn pit registry) (tight : Tight registry) :
    HasName calls pit x ↔ ∃ y e, x <+: y ∧ e ∈ registry.held y :=
  (Pit.hasName_iff laws kept.shown).trans (tight.names_iff (laws.closed kept.shown))

theorem Kept.emptied (laws : Documented calls shows Prunes) {order : List PitId} (kept : Kept shows ndn pit registry)
    (tight : Tight registry) (nodup : order.Nodup) (all : ∀ e, e ∈ order ↔ ∃ x, e ∈ registry.held x) :
    ∃ final, run (step calls ndn) pit (order.map .remove) = .ok final ∧ ∀ x, ¬ HasName calls final x := by
  induction order generalizing pit registry with
  | nil =>
    refine ⟨pit,rfl,fun x named => ?_⟩
    obtain ⟨y,e,_,member⟩ := (kept.hasName_iff laws tight).mp named
    exact absurd ((all e).mpr ⟨y,member⟩) List.not_mem_nil
  | cons e rest ih =>
    obtain ⟨x,member⟩ := (all e).mp (by simp)
    obtain ⟨fresh,nodupRest⟩ := List.nodup_cons.mp nodup
    obtain ⟨after,remaining,ran,_,keptAfter,tightAfter,left⟩ := remove_tight laws kept tight member
    have allRest : ∀ f, f ∈ rest ↔ ∃ y, f ∈ remaining.held y := by
      intro f
      simp only [left,exists_and_right,← all,List.mem_cons]
      constructor
      · exact fun inside => ⟨.inr inside,fun same => fresh (same ▸ inside)⟩
      · rintro ⟨either,differ⟩
        exact either.resolve_left differ
    obtain ⟨final,ranRest,bare⟩ := ih keptAfter tightAfter nodupRest allRest
    refine ⟨final,?_,bare⟩
    rw [List.map_cons,run,step,ran,ok_bind,ranRest]

theorem Kept.nothingLeaked (laws : Documented calls shows Prunes) (kept : Kept shows ndn pit registry) (tight : Tight registry) :
    NothingLeaked calls ndn pit where
  names := by
    intro x
    rw [kept.hasName_iff laws tight]
    constructor
    · rintro ⟨y,e,below,member⟩
      obtain ⟨entry,live,rfl⟩ := kept.books.named y e member
      exact ⟨e,entry.getInterest,(stored_iff laws kept.shown).mpr ⟨_,member⟩,by rw [interestOf,live]; rfl,below⟩
    · rintro ⟨e,interest,stored,isE,below⟩
      obtain ⟨y,member⟩ := (stored_iff laws kept.shown).mp stored
      obtain ⟨entry,live,rfl⟩ := kept.books.named y e member
      rw [interestOf,live] at isE
      cases Option.some.inj isE
      exact ⟨entry.getName,e,below,member⟩
  inserts := by
    intro interest
    obtain ⟨after,e,isNew,_,ran,_⟩ := insert_spec laws kept interest
    exact ⟨after,e,isNew,ran⟩
  removes := by
    rintro e ⟨y,stored⟩
    obtain ⟨after,remaining,ran,objects,keptAfter,_,left⟩ :=
      remove_tight laws kept tight ((storedAt_iff laws kept.shown).mp stored)
    refine ⟨after,ran,objects,fun x f => ?_⟩
    rw [storedAt_iff laws keptAfter.shown,storedAt_iff laws kept.shown,left]
  undone := by
    intro interest after e inserts
    obtain ⟨result,f,isNew,remaining,ran,shown,inserted⟩ := insert_spec laws kept interest
    cases Except.ok.inj (ran.symm.trans inserts)
    have distinct := laws.distinct kept.shown
    have keptAfter : Kept shows ndn after remaining := ⟨shown,inserted.books distinct kept.books⟩
    have tightAfter := tight.insert distinct inserted
    obtain ⟨back,last,undo,_,keptBack,tightBack,left⟩ := remove_tight laws keptAfter tightAfter (inserted.holds distinct).1
    have added : Added calls ndn pit interest after e := inserted.result laws kept shown
    have same : ∀ x f, f ∈ last.held x ↔ f ∈ registry.held x := by
      intro x f
      have grown := added.grown x f
      rw [storedAt_iff laws shown,storedAt_iff laws kept.shown] at grown
      rw [left,grown]
      constructor
      · rintro ⟨old | ⟨_,new⟩,differ⟩
        · exact old
        · exact absurd new differ
      · refine fun old => ⟨.inl old,fun new => ?_⟩
        obtain ⟨entry,live,_⟩ := kept.books.named x f old
        rw [new,added.fresh] at live
        cases live
    refine ⟨back,undo,fun x => ?_,fun x f => ?_⟩
    · rw [keptBack.hasName_iff laws tightBack,kept.hasName_iff laws tight]
      simp only [same]
    · rw [storedAt_iff laws keptBack.shown,storedAt_iff laws kept.shown,same]
  emptied := fun order nodup all => kept.emptied laws tight nodup fun e => (all e).trans (stored_iff laws kept.shown)

theorem remove_prunes (laws : Documented calls shows Prunes) {start : Pit Component Exclude Milliseconds Tree}
    (shown : shows start.nameTree registry) (empty : ∀ x, ¬ HasName calls start x)
    (guarded : Guarded (step calls ndn) (fun _ _ => ()) (RemovesStored calls) start () ops) :
    ∃ pit, run (step calls ndn) start ops = .ok pit ∧ NothingLeaked calls ndn pit := by
  have absent : ∀ {x}, x ∉ registry.names := fun {x} stored => empty x ((Pit.hasName_iff laws shown).mpr stored)
  have unstored : ∀ e, ¬ Stored calls start e := by
    intro e stored
    obtain ⟨x,member⟩ := (stored_iff laws shown).mp stored
    exact absent (Registry.stored_of_held member)
  have tightStart : Tight registry := ⟨fun x stored => absurd stored absent,fun x stored => absurd stored absent⟩
  have keptStart := kept_start laws shown unstored ndn
  obtain ⟨pit,ran⟩ := run_returns laws onlyEmpty_prunes keptStart guarded
  obtain ⟨reached,kept,tight⟩ := run_preserves (fun pit => ∃ registry, Kept shows ndn pit registry ∧ Tight registry) (by
      rintro before op next _ ⟨current,keptBefore,tightBefore⟩ stepped
      obtain ⟨remaining,keptNext,effect⟩ := step_kept laws onlyEmpty_prunes keptBefore stepped
      exact ⟨remaining,keptNext,effect.tight (laws.distinct keptBefore.shown) tightBefore⟩)
    ⟨registry,keptStart,tightStart⟩ ran
  exact ⟨pit,ran,kept.nothingLeaked laws tight⟩

theorem remove_prunes_ledger : ∃ pit,
    run (step Ledger.calls plainNdn) ⟨Ledger.empty,Heap.empty⟩ [.insert (plainInterest [1,2]),.insert (plainInterest [1])] =
      .ok pit ∧ NothingLeaked Ledger.calls plainNdn pit := by
  have inserts : Guarded (step Ledger.calls plainNdn) (fun _ _ => ()) (RemovesStored Ledger.calls) ⟨Ledger.empty,Heap.empty⟩ ()
      [.insert (plainInterest [1,2]),.insert (plainInterest [1])] := ⟨trivial,fun _ _ => ⟨trivial,fun _ _ => trivial⟩⟩
  refine remove_prunes Ledger.documented Ledger.empty_shows (fun x named => ?_) inserts
  exact absurd ((Pit.hasName_iff Ledger.documented Ledger.empty_shows).mp named) (Finset.notMem_empty x)

-- [1,2] and [1,3] go with the last entries below them, [1] stays for its own.
example : (do
    let pit ← run (step Ledger.calls plainNdn) ⟨Ledger.empty,Heap.empty⟩
      [.insert (plainInterest [1,2]),.insert (plainInterest [1]),.insert (plainInterest [1,3,4]),.remove 0,.remove 2]
    return [[],[1],[1,2],[1,3],[1,3,4]].map pit.nameTree.registry.find) = .ok [some 0,some 1,none,none,none] := by decide
end Runs

end NfdTables.Pit
