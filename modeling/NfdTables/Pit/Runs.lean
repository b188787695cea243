import NfdTables.Pit.Books

namespace NfdTables.Pit
open Machine PrefixSet
variable {Component Exclude Milliseconds Tree : Type} [DecidableEq Component]

section Steps
variable {calls : NameTreeCalls Component Tree} {shows : Tree → Registry Component → Prop}
  {erases : Registry Component → Name Component → Registry Component → Prop}
  {ndn : Ndn Component Exclude Milliseconds} {pit : Pit Component Exclude Milliseconds Tree} {registry : Registry Component}

-- A table over a tree that shows `registry`, with its lists in order.
structure Kept (shows : Tree → Registry Component → Prop) (ndn : Ndn Component Exclude Milliseconds)
    (pit : Pit Component Exclude Milliseconds Tree) (registry : Registry Component) : Prop where
  shown : shows pit.nameTree registry
  books : Books ndn pit.entries registry.held

def SimilarTo (ndn : Ndn Component Exclude Milliseconds) (entries : Heap (PitEntry Component Exclude Milliseconds)) (e : PitId)
    (interest : Interest Component Exclude Milliseconds) : Prop :=
  ∃ entry, entries.read e = some entry ∧ Similar ndn entry.getInterest interest

theorem findSimilar_spec {entries : Heap (PitEntry Component Exclude Milliseconds)} (items : List PitId)
    (live : ∀ e ∈ items, ∃ entry, entries.read e = some entry) (interest : Interest Component Exclude Milliseconds) :
    ∃ found, findSimilar ndn entries interest items = .ok found ∧
      match found with
      | some e => e ∈ items ∧ SimilarTo ndn entries e interest
      | none => ∀ e ∈ items, ¬ SimilarTo ndn entries e interest := by
  induction items with
  | nil => exact ⟨none,rfl,fun e member => absurd member List.not_mem_nil⟩
  | cons e rest ih =>
    obtain ⟨entry,readE⟩ := live e (by simp)
    simp only [findSimilar,Heap.fetch_live readE,ok_bind,predicatePitEntrySimilarInterest_spec,decide_eq_true_iff]
    by_cases similar : Similar ndn entry.getInterest interest
    · rw [if_pos similar]
      exact ⟨some e,rfl,by simp,entry,readE,similar⟩
    · rw [if_neg similar]
      obtain ⟨found,ran,meaning⟩ := ih fun f member => live f (List.mem_cons_of_mem _ member)
      refine ⟨found,ran,?_⟩
      cases found with
      | some f => exact ⟨List.mem_cons_of_mem _ meaning.1,meaning.2⟩
      | none =>
        intro f member
        rcases List.mem_cons.mp member with rfl | later
        · rintro ⟨other,readOther,alike⟩
          rw [Option.some.inj (readOther.symm.trans readE)] at alike
          exact similar alike
        · exact meaning f later

inductive Inserted (ndn : Ndn Component Exclude Milliseconds) (entries : Heap (PitEntry Component Exclude Milliseconds))
    (registry : Registry Component) (interest : Interest Component Exclude Milliseconds) :
    Heap (PitEntry Component Exclude Milliseconds) → Registry Component → PitId → Bool → Prop where
  | existing (member : e ∈ registry.held interest.name) (similar : SimilarTo ndn entries e interest) :
      Inserted ndn entries registry interest entries (registry.lookup interest.name) e false
  | added (alone : ∀ f ∈ registry.held interest.name, ¬ SimilarTo ndn entries f interest) :
      Inserted ndn entries registry interest (entries.alloc ⟨interest⟩)
        ((registry.lookup interest.name).attach ((registry.lookup interest.name).cell interest.name).object
          (.insertPitEntry entries.size)) entries.size true

theorem inserted_held (distinct : registry.Distinct) (x : Name Component) (e : PitId) (y : Name Component) :
    ((registry.lookup x).attach ((registry.lookup x).cell x).object (.insertPitEntry e)).held y = enlist registry.held x e y := by
  have stored : x ∈ (registry.lookup x).names := Registry.mem_lookup.mpr (.inr List.prefix_rfl)
  rw [Registry.held_attach (distinct.lookup x) stored]
  unfold enlist
  split
  · rename_i same
    rw [same,← Registry.held_lookup registry x x,Registry.held_stored stored]
    rfl
  · exact Registry.held_lookup registry x y

theorem insert_spec (laws : Documented calls shows erases) (kept : Kept shows ndn pit registry)
    (interest : Interest Component Exclude Milliseconds) :
    ∃ after e isNew remaining, pit.insert calls ndn interest = .ok (after,e,isNew) ∧ shows after.nameTree remaining ∧
      Inserted ndn pit.entries registry interest after.entries remaining e isNew := by
  obtain ⟨sought,ranSeek,shownSeek⟩ := laws.seek kept.shown interest.name
  have stored : interest.name ∈ (registry.lookup interest.name).names := Registry.mem_lookup.mpr (.inr List.prefix_rfl)
  have list : registry.held interest.name = ((registry.lookup interest.name).cell interest.name).payload.pitEntries := by
    rw [← Registry.held_lookup registry interest.name,Registry.held_stored stored]
  have live : ∀ e ∈ registry.held interest.name, ∃ entry, pit.entries.read e = some entry := by
    intro e member
    obtain ⟨entry,readE,_⟩ := kept.books.named interest.name e member
    exact ⟨entry,readE⟩
  obtain ⟨found,searched,meaning⟩ := findSimilar_spec (registry.held interest.name) live interest
  have begun : pit.insert calls ndn interest = (do
      match found with
      | some e => return ({pit with nameTree := sought},e,false)
      | none => do
        let nameTree ← calls.attach sought ((registry.lookup interest.name).cell interest.name).object
          (.insertPitEntry pit.entries.size)
        return (⟨nameTree,pit.entries.alloc ⟨interest⟩⟩,pit.entries.size,true)) := by
    unfold insert
    rw [ranSeek,ok_bind]
    dsimp only [asserted]
    rw [ok_bind,laws.getPitEntries shownSeek _ stored,ok_bind,← list,searched]
    rfl
  rw [begun]
  cases found with
  | some e => exact ⟨{pit with nameTree := sought},e,false,_,rfl,shownSeek,.existing meaning.1 meaning.2⟩
  | none =>
    obtain ⟨attached,ranAttach,shownAttach⟩ := laws.attach shownSeek _ stored (.insertPitEntry pit.entries.size)
    refine ⟨⟨attached,pit.entries.alloc ⟨interest⟩⟩,pit.entries.size,true,_,?_,shownAttach,.added meaning⟩
    dsimp only
    rw [ranAttach]
    rfl

theorem Inserted.books {entries after : Heap (PitEntry Component Exclude Milliseconds)} (distinct : registry.Distinct) (books : Books ndn entries registry.held)
    (inserted : Inserted ndn entries registry interest after remaining e isNew) : Books ndn after remaining.held := by
  cases inserted with
  | existing member similar =>
    rwa [funext (Registry.held_lookup registry interest.name)]
  | added alone =>
    rw [funext (inserted_held distinct interest.name entries.size)]
    exact books.enlist interest fun f member entry readF similar => alone f member ⟨entry,readF,similar⟩

theorem removed_held (distinct : registry.Distinct) (stored : x ∈ registry.names) (e : PitId)
    (clears : ClearsEmpty (registry.attach (registry.cell x).object (.deletePitEntry e)) x remaining) :
    remaining.held = strike registry.held x e := by
  funext y
  rw [clears.held,Registry.held_attach distinct stored]
  unfold strike
  split
  · rename_i same
    rw [same,Registry.held_stored stored,deletePitEntry_without]
  · rfl

theorem remove_spec (laws : Documented calls shows erases) (shown : shows pit.nameTree registry)
    (live : pit.entries.read e = some entry) (stored : entry.getName ∈ registry.names) :
    ∃ after remaining, pit.remove calls e = .ok {pit with nameTree := after} ∧ shows after remaining ∧
      erases (registry.attach (registry.cell entry.getName).object (.deletePitEntry e)) entry.getName remaining := by
  obtain ⟨attached,ranAttach,shownAttach⟩ := laws.attach shown _ stored (.deletePitEntry e)
  obtain ⟨after,remaining,ranDelete,shownDelete,erased⟩ := laws.deleteEntryIfEmpty shownAttach entry.getName stored
  rw [Registry.attach_object] at ranDelete
  refine ⟨after,remaining,?_,shownDelete,erased⟩
  unfold remove
  rw [Heap.fetch_live live,ok_bind,laws.lookup shown,ok_bind,Registry.find_stored stored]
  dsimp only [asserted]
  rw [ok_bind,ranAttach,ok_bind,ranDelete]
  rfl

-- A remove that returns was asked for an entry whose name is stored.
theorem remove_parts (laws : Documented calls shows erases) (shown : shows pit.nameTree registry)
    (ran : pit.remove calls e = .ok after) :
    ∃ entry, pit.entries.read e = some entry ∧ entry.getName ∈ registry.names := by
  unfold remove at ran
  obtain ⟨entry,fetched,ran⟩ := bind_parts ran
  have live : pit.entries.read e = some entry := by
    unfold Heap.fetch at fetched
    split at fetched
    · rename_i value readE
      rw [readE,Except.ok.inj fetched]
    · cases fetched
  refine ⟨entry,live,?_⟩
  by_contra absent
  rw [laws.lookup shown,ok_bind,Registry.find_absent absent] at ran
  cases ran

inductive Stepped (erases : Registry Component → Name Component → Registry Component → Prop)
    (ndn : Ndn Component Exclude Milliseconds) (entries : Heap (PitEntry Component Exclude Milliseconds))
    (registry : Registry Component) : Op Component Exclude Milliseconds →
    Heap (PitEntry Component Exclude Milliseconds) → Registry Component → Prop where
  | insert (inserted : Inserted ndn entries registry interest after remaining e isNew) :
      Stepped erases ndn entries registry (.insert interest) after remaining
  | remove (live : entries.read e = some entry) (stored : entry.getName ∈ registry.names)
      (erased : erases (registry.attach (registry.cell entry.getName).object (.deletePitEntry e)) entry.getName remaining) :
      Stepped erases ndn entries registry (.remove e) entries remaining

theorem step_cases (laws : Documented calls shows erases) (kept : Kept shows ndn pit registry)
    (stepped : pit.step calls ndn op = .ok after) :
    ∃ remaining, shows after.nameTree remaining ∧ Stepped erases ndn pit.entries registry op after.entries remaining := by
  cases op with
  | insert interest =>
    obtain ⟨result,e,isNew,remaining,ran,shown,inserted⟩ := insert_spec laws kept interest
    rw [step,ran,ok_bind] at stepped
    cases Except.ok.inj stepped
    exact ⟨remaining,shown,.insert inserted⟩
  | remove e =>
    obtain ⟨entry,live,stored⟩ := remove_parts laws kept.shown stepped
    obtain ⟨result,remaining,ran,shown,erased⟩ := remove_spec laws kept.shown live stored
    cases Except.ok.inj (ran.symm.trans stepped)
    exact ⟨remaining,shown,.remove live stored erased⟩

section Stepped
variable {entries after : Heap (PitEntry Component Exclude Milliseconds)} {remaining : Registry Component}

theorem Stepped.books (only : OnlyEmpty erases)
    (distinct : registry.Distinct) (books : Books ndn entries registry.held)
    (stepped : Stepped erases ndn entries registry op after remaining) : Books ndn after remaining.held := by
  cases stepped with
  | insert inserted => exact inserted.books distinct books
  | remove live stored erased =>
    rw [removed_held distinct stored _ (only _ _ _ erased)]
    exact books.strike _ _

-- Objects stay what they are, and an entry stays in its list until it is removed.
theorem Stepped.older (stepped : Stepped erases ndn entries registry op after remaining) (live : entries.read e = some entry) :
    after.read e = some entry := by
  cases stepped with
  | insert inserted =>
    cases inserted with
    | existing _ _ => exact live
    | added _ => rwa [read_older (Heap.live_bound live)]
  | remove _ _ _ => exact live

theorem Stepped.stays (only : OnlyEmpty erases)
    (distinct : registry.Distinct) (books : Books ndn entries registry.held)
    (stepped : Stepped erases ndn entries registry op after remaining) (other : op ≠ .remove e) (member : e ∈ registry.held x) :
    e ∈ remaining.held x := by
  cases stepped with
  | @insert interest _ _ _ _ inserted =>
    cases inserted with
    | existing _ _ => rwa [Registry.held_lookup]
    | added _ =>
      rw [inserted_held distinct]
      exact mem_enlist.mpr (.inl member)
  | @remove f _ _ live stored erased =>
    rw [removed_held distinct stored _ (only _ _ _ erased)]
    refine (mem_strike books).mpr ⟨member,fun _ same => other ?_⟩
    rw [same]
end Stepped

theorem hasName_iff (laws : Documented calls shows erases) (shown : shows pit.nameTree registry) :
    HasName calls pit x ↔ x ∈ registry.names := by
  unfold HasName
  rw [laws.lookup shown]
  by_cases stored : x ∈ registry.names
  · rw [Registry.find_stored stored]
    exact ⟨fun _ => stored,fun _ => ⟨_,rfl⟩⟩
  · rw [Registry.find_absent stored]
    exact ⟨fun ⟨_,found⟩ => (nomatch Except.ok.inj found),fun member => absurd member stored⟩

theorem storedAt_iff (laws : Documented calls shows erases) (shown : shows pit.nameTree registry) :
    StoredAt calls pit x e ↔ e ∈ registry.held x := by
  unfold StoredAt
  rw [laws.lookup shown]
  by_cases stored : x ∈ registry.names
  · rw [Registry.find_stored stored,Registry.held_stored stored]
    constructor
    · rintro ⟨_,_,found,listed,member⟩
      cases Option.some.inj (Except.ok.inj found)
      cases Except.ok.inj ((laws.getPitEntries shown x stored).symm.trans listed)
      exact member
    · exact fun member => ⟨_,_,rfl,laws.getPitEntries shown x stored,member⟩
  · rw [Registry.find_absent stored,Registry.held_absent stored]
    exact ⟨fun ⟨_,_,found,_⟩ => (nomatch Except.ok.inj found),fun member => absurd member List.not_mem_nil⟩

theorem stored_iff (laws : Documented calls shows erases) (shown : shows pit.nameTree registry) :
    Stored calls pit e ↔ ∃ x, e ∈ registry.held x :=
  exists_congr fun _ => storedAt_iff laws shown

end Steps

section Runs
variable {calls : NameTreeCalls Component Tree} {shows : Tree → Registry Component → Prop}
  {erases : Registry Component → Name Component → Registry Component → Prop}
  {ndn : Ndn Component Exclude Milliseconds} {pit : Pit Component Exclude Milliseconds Tree} {registry : Registry Component}

theorem step_kept (laws : Documented calls shows erases)
    (only : OnlyEmpty erases)
    (kept : Kept shows ndn pit registry) (stepped : pit.step calls ndn op = .ok after) :
    ∃ remaining, Kept shows ndn after remaining ∧ Stepped erases ndn pit.entries registry op after.entries remaining := by
  obtain ⟨remaining,shown,effect⟩ := step_cases laws kept stepped
  exact ⟨remaining,⟨shown,effect.books only (laws.distinct kept.shown) kept.books⟩,effect⟩

theorem run_kept (laws : Documented calls shows erases)
    (only : OnlyEmpty erases)
    (kept : Kept shows ndn pit registry) (ran : run (step calls ndn) pit ops = .ok after) :
    ∃ remaining, Kept shows ndn after remaining := by
  refine run_preserves (fun pit => ∃ registry, Kept shows ndn pit registry) ?_ ⟨registry,kept⟩ ran
  rintro before op next _ ⟨current,keptBefore⟩ stepped
  obtain ⟨remaining,keptNext,_⟩ := step_kept laws only keptBefore stepped
  exact ⟨remaining,keptNext⟩

-- An entry is where it was for as long as nobody removes it.
theorem run_stays (laws : Documented calls shows erases)
    (only : OnlyEmpty erases)
    (kept : Kept shows ndn pit registry) (member : e ∈ registry.held x) (live : pit.entries.read e = some entry)
    (ran : run (step calls ndn) pit ops = .ok after) (never : .remove e ∉ ops) :
    ∃ remaining, Kept shows ndn after remaining ∧ e ∈ remaining.held x ∧ after.entries.read e = some entry := by
  refine run_preserves (fun pit => ∃ registry, Kept shows ndn pit registry ∧ e ∈ registry.held x ∧
    pit.entries.read e = some entry) ?_ ⟨registry,kept,member,live⟩ ran
  rintro before op next inside ⟨current,keptBefore,memberBefore,liveBefore⟩ stepped
  obtain ⟨remaining,keptNext,effect⟩ := step_kept laws only keptBefore stepped
  have other : op ≠ .remove e := fun same => never (same ▸ inside)
  exact ⟨remaining,keptNext,effect.stays only (laws.distinct keptBefore.shown) keptBefore.books other memberBefore,
    effect.older liveBefore⟩

-- A table that holds no entry yet, whatever else hangs on the tree.
theorem kept_start (laws : Documented calls shows erases) (shown : shows pit.nameTree registry)
    (empty : ∀ e, ¬ Stored calls pit e) (ndn : Ndn Component Exclude Milliseconds) : Kept shows ndn pit registry := by
  have nothing : ∀ {e x}, e ∉ registry.held x := fun {e x} member => empty e ((stored_iff laws shown).mpr ⟨x,member⟩)
  refine ⟨shown,⟨fun x e member => absurd member nothing,fun x => ?_,fun x e member => absurd member nothing⟩⟩
  rw [List.eq_nil_iff_forall_not_mem.mpr fun e => @nothing e x]
  exact List.nodup_nil

-- An insert always returns, and so does such a remove.
def RemovesStored (calls : NameTreeCalls Component Tree) (pit : Pit Component Exclude Milliseconds Tree) (_ : Unit) :
    Op Component Exclude Milliseconds → Prop
  | .insert _ => True
  | .remove e => Stored calls pit e

theorem step_returns (laws : Documented calls shows erases) (kept : Kept shows ndn pit registry)
    (allowed : RemovesStored calls pit () op) : ∃ after, pit.step calls ndn op = .ok after := by
  cases op with
  | insert interest =>
    obtain ⟨after,e,isNew,_,ran,_⟩ := insert_spec laws kept interest
    exact ⟨after,by rw [step,ran]; rfl⟩
  | remove e =>
    obtain ⟨x,member⟩ := (stored_iff laws kept.shown).mp allowed
    obtain ⟨entry,live,rfl⟩ := kept.books.named x e member
    obtain ⟨after,_,ran,_⟩ := remove_spec laws kept.shown live (Registry.stored_of_held member)
    exact ⟨_,ran⟩

theorem run_returns (laws : Documented calls shows erases) (only : OnlyEmpty erases) (kept : Kept shows ndn pit registry)
    (guarded : Guarded (step calls ndn) (fun _ _ => ()) (RemovesStored calls) pit () ops) :
    ∃ after, run (step calls ndn) pit ops = .ok after := by
  have simulated : ∀ pit (nothing : Unit) op, (∃ registry, Kept shows ndn pit registry) → RemovesStored calls pit nothing op →
      ∃ next, pit.step calls ndn op = .ok next ∧ ∃ registry, Kept shows ndn next registry := by
    rintro before _ op ⟨current,keptBefore⟩ allowed
    obtain ⟨next,stepped⟩ := step_returns laws keptBefore allowed
    obtain ⟨remaining,keptNext,_⟩ := step_kept laws only keptBefore stepped
    exact ⟨next,stepped,remaining,keptNext⟩
  obtain ⟨after,ran,_⟩ := run_simulates (fun pit _ => ∃ registry, Kept shows ndn pit registry) simulated ⟨registry,kept⟩ guarded
  exact ⟨after,ran⟩

theorem ledger_stores_nothing (e : PitId) :
    ¬ Stored Ledger.calls (⟨Ledger.empty,Heap.empty⟩ : Pit Component Exclude Milliseconds (Ledger Component)) e := by
  intro stored
  obtain ⟨x,member⟩ := (stored_iff Ledger.documented Ledger.empty_shows).mp stored
  exact absurd (Registry.stored_of_held member) (Finset.notMem_empty x)
end Runs

end NfdTables.Pit
