import NfdTables.Pit.Runs

namespace NfdTables.Pit
open Machine
variable {Component Exclude Milliseconds Tree : Type} [DecidableEq Component]

section Insert
variable {calls : NameTreeCalls Component Tree} {shows : Tree → Registry Component → Prop}
  {erases : Registry Component → Name Component → Registry Component → Prop}
  {ndn : Ndn Component Exclude Milliseconds} {pit after : Pit Component Exclude Milliseconds Tree}
  {interest : Interest Component Exclude Milliseconds} {registry remaining : Registry Component}

-- Every entry is in the list of its Interest's name alone, and no two are similar.
structure OneEach (calls : NameTreeCalls Component Tree) (ndn : Ndn Component Exclude Milliseconds)
    (pit : Pit Component Exclude Milliseconds Tree) : Prop where
  placed : ∀ {x e}, StoredAt calls pit x e → ∃ interest, pit.interestOf e = some interest ∧ interest.name = x
  nodup : ∀ {x nameTreeEntry pitEntries}, calls.lookup pit.nameTree x = .ok (some nameTreeEntry) →
    calls.getPitEntries pit.nameTree nameTreeEntry = .ok pitEntries → pitEntries.Nodup
  unique : ∀ {e f one two}, Stored calls pit e → Stored calls pit f → pit.interestOf e = some one →
    pit.interestOf f = some two → Similar ndn one two → e = f

-- The two results of an insert, in terms of what the calls show.
structure Found (calls : NameTreeCalls Component Tree) (ndn : Ndn Component Exclude Milliseconds)
    (pit : Pit Component Exclude Milliseconds Tree) (interest : Interest Component Exclude Milliseconds)
    (after : Pit Component Exclude Milliseconds Tree) (e : PitId) : Prop where
  stored : Stored calls pit e
  similar : SimilarTo ndn pit.entries e interest
  only : ∀ f, Stored calls pit f → SimilarTo ndn pit.entries f interest → f = e
  unchanged : ∀ x f, StoredAt calls after x f ↔ StoredAt calls pit x f
  objects : after.entries = pit.entries

structure Added (calls : NameTreeCalls Component Tree) (ndn : Ndn Component Exclude Milliseconds)
    (pit : Pit Component Exclude Milliseconds Tree) (interest : Interest Component Exclude Milliseconds)
    (after : Pit Component Exclude Milliseconds Tree) (e : PitId) : Prop where
  alone : ∀ f, Stored calls pit f → ¬ SimilarTo ndn pit.entries f interest
  fresh : pit.entries.read e = none
  object : after.interestOf e = some interest
  grown : ∀ x f, StoredAt calls after x f ↔ StoredAt calls pit x f ∨ (x = interest.name ∧ f = e)
  objects : ∀ f entry, pit.entries.read f = some entry → after.entries.read f = some entry

theorem similar_held (kept : Kept shows ndn pit registry) (member : e ∈ registry.held x)
    (similar : SimilarTo ndn pit.entries e interest) : e ∈ registry.held interest.name := by
  obtain ⟨entry,live,alike⟩ := similar
  obtain ⟨other,liveOther,rfl⟩ := kept.books.named x e member
  cases Option.some.inj (live.symm.trans liveOther)
  exact alike.name ▸ member

theorem similar_same (kept : Kept shows ndn pit registry) (inE : e ∈ registry.held x) (inF : f ∈ registry.held y)
    (similarE : SimilarTo ndn pit.entries e interest) (similarF : SimilarTo ndn pit.entries f interest) : f = e := by
  have here := similar_held kept inE similarE
  have there := similar_held kept inF similarF
  obtain ⟨one,liveE,alikeE⟩ := similarE
  obtain ⟨two,liveF,alikeF⟩ := similarF
  exact kept.books.unique _ f there e here two one liveF liveE (alikeF.trans alikeE.symm)

theorem Kept.oneEach (laws : Documented calls shows erases) (kept : Kept shows ndn pit registry) : OneEach calls ndn pit where
  placed := by
    intro x e stored
    obtain ⟨entry,live,same⟩ := kept.books.named x e ((storedAt_iff laws kept.shown).mp stored)
    exact ⟨entry.getInterest,by rw [interestOf,live]; rfl,same⟩
  nodup := by
    intro x nameTreeEntry pitEntries found listed
    by_cases stored : x ∈ registry.names
    · rw [laws.lookup kept.shown,Registry.find_stored stored] at found
      cases Option.some.inj (Except.ok.inj found)
      rw [laws.getPitEntries kept.shown x stored] at listed
      rw [← Except.ok.inj listed,← Registry.held_stored stored]
      exact kept.books.nodup x
    · rw [laws.lookup kept.shown,Registry.find_absent stored] at found
      cases Except.ok.inj found
  unique := by
    intro e f one two storedE storedF isE isF alike
    obtain ⟨x,inE⟩ := (stored_iff laws kept.shown).mp storedE
    obtain ⟨y,inF⟩ := (stored_iff laws kept.shown).mp storedF
    obtain ⟨entry,live,rfl⟩ := Option.map_eq_some_iff.mp isE
    obtain ⟨other,liveF,rfl⟩ := Option.map_eq_some_iff.mp isF
    exact similar_same kept inF inE ⟨other,liveF,Similar.refl ndn _⟩ ⟨entry,live,alike⟩

theorem Inserted.result (laws : Documented calls shows erases) (kept : Kept shows ndn pit registry)
    (shown : shows after.nameTree remaining)
    (inserted : Inserted ndn pit.entries registry interest after.entries remaining e isNew) :
    if isNew then Added calls ndn pit interest after e else Found calls ndn pit interest after e := by
  have held_after : ∀ x f, StoredAt calls after x f ↔ f ∈ remaining.held x := fun x f => storedAt_iff laws shown
  have held_before : ∀ x f, StoredAt calls pit x f ↔ f ∈ registry.held x := fun x f => storedAt_iff laws kept.shown
  generalize objects : after.entries = entries at inserted
  cases inserted with
  | existing member similar =>
    refine ⟨⟨_,(held_before _ _).mpr member⟩,similar,?_,?_,objects⟩
    · rintro f ⟨x,storedF⟩ similarF
      exact similar_same kept member ((held_before x f).mp storedF) similar similarF
    · intro x f
      rw [held_after,held_before,Registry.held_lookup]
  | added alone =>
    refine ⟨?_,Heap.read_beyond (Nat.le_refl _),?_,?_,?_⟩
    · rintro f ⟨x,storedF⟩ similarF
      exact alone f (similar_held kept ((held_before x f).mp storedF) similarF) similarF
    · rw [interestOf,objects,Heap.read_alloc,if_pos rfl]
      rfl
    · intro x f
      rw [held_after,held_before,inserted_held (laws.distinct kept.shown),mem_enlist]
    · intro f entry live
      rwa [objects,read_older (Heap.live_bound live)]

theorem Inserted.holds {entries objects : Heap (PitEntry Component Exclude Milliseconds)} (distinct : registry.Distinct)
    (inserted : Inserted ndn entries registry interest objects remaining e isNew) :
    e ∈ remaining.held interest.name ∧ SimilarTo ndn objects e interest := by
  cases inserted with
  | existing member similar => exact ⟨by rwa [Registry.held_lookup],similar⟩
  | added alone =>
    rw [inserted_held distinct]
    exact ⟨mem_enlist.mpr (.inr ⟨rfl,rfl⟩),⟨interest⟩,by rw [Heap.read_alloc,if_pos rfl],Similar.refl ndn interest⟩

-- The lists leave an insert no choice.
theorem Inserted.verdict {entries objects others : Heap (PitEntry Component Exclude Milliseconds)} {other : Registry Component}
    (books : Books ndn entries registry.held) (same : other.held = registry.held)
    (one : Inserted ndn entries registry interest objects remaining e isNew)
    (two : Inserted ndn entries other interest others last f old) : others = objects ∧ f = e ∧ old = isNew := by
  cases one with
  | existing member similar =>
    obtain ⟨entry,live,alike⟩ := similar
    cases two with
    | existing memberF similarF =>
      obtain ⟨object,liveF,alikeF⟩ := similarF
      rw [same] at memberF
      exact ⟨rfl,books.unique _ f memberF e member object entry liveF live (alikeF.trans alike.symm),rfl⟩
    | added alone => exact absurd ⟨entry,live,alike⟩ (alone e (same ▸ member))
  | added alone =>
    cases two with
    | existing memberF similarF => exact absurd similarF (alone _ (same ▸ memberF))
    | added _ => exact ⟨rfl,rfl,rfl⟩

theorem Inserted.remaining_eq {entries objects : Heap (PitEntry Component Exclude Milliseconds)}
    (inserted : Inserted ndn entries registry interest objects remaining e isNew) :
    remaining = if isNew then (registry.lookup interest.name).attach ((registry.lookup interest.name).cell interest.name).object
      (.insertPitEntry e) else registry.lookup interest.name := by
  cases inserted <;> rfl

theorem Inserted.held {entries objects : Heap (PitEntry Component Exclude Milliseconds)} (distinct : registry.Distinct)
    (inserted : Inserted ndn entries registry interest objects remaining e isNew) :
    remaining.held = if isNew then enlist registry.held interest.name e else registry.held := by
  rw [inserted.remaining_eq]
  cases isNew with
  | false => exact funext (Registry.held_lookup registry interest.name)
  | true => exact funext (inserted_held distinct interest.name e)

theorem insert_stays (laws : Documented calls shows erases)
    (only : OnlyEmpty erases)
    (kept : Kept shows ndn pit registry) (inserts : pit.insert calls ndn interest = .ok (after,e,isNew))
    (ran : run (step calls ndn) after later = .ok final) (never : .remove e ∉ later) :
    ∃ last, Kept shows ndn final last ∧ e ∈ last.held interest.name ∧ SimilarTo ndn final.entries e interest := by
  obtain ⟨result,f,new,remaining,same,shown,inserted⟩ := insert_spec laws kept interest
  cases Except.ok.inj (same.symm.trans inserts)
  have distinct := laws.distinct kept.shown
  obtain ⟨member,entry,live,similar⟩ := inserted.holds distinct
  obtain ⟨last,keptLast,memberLast,liveLast⟩ :=
    run_stays laws only ⟨shown,inserted.books distinct kept.books⟩ member live ran never
  exact ⟨last,keptLast,memberLast,entry,liveLast,similar⟩

-- While a similar entry is stored, an insert returns that entry.
theorem insert_again (laws : Documented calls shows erases) (kept : Kept shows ndn pit registry) (member : e ∈ registry.held x)
    (similar : SimilarTo ndn pit.entries e interest) : ∃ result, pit.insert calls ndn interest = .ok (result,e,false) := by
  obtain ⟨result,f,isNew,remaining,ran,_,inserted⟩ := insert_spec laws kept interest
  generalize result.entries = entries at inserted
  cases inserted with
  | existing memberF similarF => exact ⟨_,similar_same kept member memberF similar similarF ▸ ran⟩
  | added alone => exact absurd similar (alone e (similar_held kept member similar))

theorem insert_once (laws : Documented calls shows ClearsEmpty) {start : Pit Component Exclude Milliseconds Tree}
    (shown : shows start.nameTree registry) (empty : ∀ e, ¬ Stored calls start e)
    (ran : run (step calls ndn) start ops = .ok pit) :
    OneEach calls ndn pit ∧ ∀ interest, ∃ after e isNew, pit.insert calls ndn interest = .ok (after,e,isNew) ∧
      (if isNew then Added calls ndn pit interest after e else Found calls ndn pit interest after e) ∧
      ∀ later final other, run (step calls ndn) after later = .ok final → .remove e ∉ later → Similar ndn interest other →
        ∃ result, final.insert calls ndn other = .ok (result,e,false) := by
  obtain ⟨reached,kept⟩ := run_kept laws onlyEmpty_clears (kept_start laws shown empty ndn) ran
  refine ⟨kept.oneEach laws,fun interest => ?_⟩
  obtain ⟨after,e,isNew,remaining,inserts,shownAfter,inserted⟩ := insert_spec laws kept interest
  refine ⟨after,e,isNew,inserts,inserted.result laws kept shownAfter,fun later final other ranLater never alike => ?_⟩
  obtain ⟨last,keptLast,member,entry,live,similar⟩ := insert_stays laws onlyEmpty_clears kept inserts ranLater never
  exact insert_again laws keptLast member ⟨entry,live,similar.trans alike⟩

theorem insert_once_ledger : ∃ pit,
    run (step Ledger.calls plainNdn) ⟨Ledger.empty,Heap.empty⟩
      [.insert (plainInterest [1,2]),.insert {plainInterest [1,2] with mustBeFresh := true},.remove 0] = .ok pit ∧
    OneEach Ledger.calls plainNdn pit ∧ ∀ interest, ∃ after e isNew, pit.insert Ledger.calls plainNdn interest = .ok (after,e,isNew) ∧
      (if isNew then Added Ledger.calls plainNdn pit interest after e else Found Ledger.calls plainNdn pit interest after e) ∧
      ∀ later final other, run (step Ledger.calls plainNdn) after later = .ok final → .remove e ∉ later →
        Similar plainNdn interest other → ∃ result, final.insert Ledger.calls plainNdn other = .ok (result,e,false) := by
  have returns : (run (step Ledger.calls plainNdn) ⟨Ledger.empty,Heap.empty⟩
      [.insert (plainInterest [1,2]),.insert {plainInterest [1,2] with mustBeFresh := true},.remove 0]).isOk = true := by decide
  obtain ⟨pit,ran⟩ := returns_of_isOk returns
  exact ⟨pit,ran,insert_once (Ledger.documented.weaken onlyEmpty_prunes) Ledger.empty_shows ledger_stores_nothing ran⟩
end Insert

end NfdTables.Pit
