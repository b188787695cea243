import NfdTables.Foundation.Lockstep
import NfdTables.Pit.DataMatches

namespace NfdTables
open Machine PrefixSet
variable {Component Exclude Milliseconds Tree : Type}

namespace Payload

-- The changes other tables make to an entry: to anything but its PIT entries.
def Change.Foreign : Change → Prop
  | .setFibEntry _ => True
  | .deleteFibEntry _ => True
  | .insertPitEntry _ => False
  | .deletePitEntry _ => False
  | .setMeasurementsEntry _ => True

instance (change : Change) : Decidable change.Foreign := by
  cases change <;> (unfold Change.Foreign; infer_instance)

structure Others where
  fib : Option FibId := none
  measurements : Option MeasurementsId := none
deriving DecidableEq,Repr

def others (payload : Payload) : Others := ⟨payload.fib,payload.measurements⟩

def Others.apply (kept : Others) (change : Change) : Others :=
  (({fib := kept.fib,measurements := kept.measurements} : Payload).apply change).1.others

theorem apply_foreign (foreign : Change.Foreign change) (payload : Payload) :
    (payload.apply change).1.pitEntries = payload.pitEntries ∧ (payload.apply change).1.others = payload.others.apply change := by
  cases change with
  | setFibEntry fib => exact ⟨rfl,rfl⟩
  | deleteFibEntry fib =>
    by_cases same : payload.fib = fib <;> simp [Others.apply,apply,deleteFibEntry,others,same]
  | insertPitEntry pit => exact foreign.elim
  | deletePitEntry pit => exact foreign.elim
  | setMeasurementsEntry measurements => exact ⟨rfl,rfl⟩

theorem apply_own (own : ¬ Change.Foreign change) (payload : Payload) : (payload.apply change).1.others = payload.others := by
  cases change with
  | setFibEntry fib => exact absurd trivial own
  | deleteFibEntry fib => exact absurd trivial own
  | insertPitEntry pit => rfl
  | deletePitEntry pit =>
    simp only [apply,deletePitEntry]
    split <;> rfl
  | setMeasurementsEntry measurements => exact absurd trivial own
end Payload

namespace Registry
variable [DecidableEq Component] {registry : Registry Component}

-- What other tables keep at a name; nothing where it is not stored.
def others (registry : Registry Component) (x : Name Component) : Payload.Others :=
  if x ∈ registry.names then (registry.cell x).payload.others else {}

theorem others_enter (registry : Registry Component) (name x : Name Component) : (registry.enter name).others x = registry.others x := by
  by_cases old : name ∈ registry.names
  · rw [enter_stored old]
  · rw [enter_fresh old]
    by_cases same : x = name
    · subst x
      simp [others,old,Payload.others]
    · simp [others,same]

theorem others_lookup (registry : Registry Component) (name : Name Component) : (registry.lookup name).others = registry.others := by
  rw [lookup_eq]
  generalize (List.range (name.length + 1)).map (getPrefix name) = names
  induction names generalizing registry with
  | nil => rfl
  | cons y rest ih => rw [List.foldl_cons,ih,funext (others_enter registry y)]

theorem others_attach (distinct : registry.Distinct) (stored : x ∈ registry.names) (change : Payload.Change) (y : Name Component) :
    (registry.attach (registry.cell x).object change).others y =
      if y = x then ((registry.cell x).payload.apply change).1.others else registry.others y := by
  by_cases same : y = x
  · subst y
    simp [others,attach,stored]
  · rw [if_neg same]
    by_cases other : y ∈ registry.names
    · have apart : (registry.cell y).object ≠ (registry.cell x).object := fun equal =>
        same (distinct.injective y other x stored equal)
      simp [others,attach,other,apart]
    · simp [others,attach,other]

-- A change of the PIT entries leaves the rest alone.
theorem others_own (distinct : registry.Distinct) (stored : x ∈ registry.names) (own : ¬ change.Foreign) :
    (registry.attach (registry.cell x).object change).others = registry.others := by
  funext y
  rw [others_attach distinct stored,Payload.apply_own own]
  split
  · rename_i same
    rw [same,others,if_pos stored]
  · rfl

theorem held_foreign (distinct : registry.Distinct) (stored : x ∈ registry.names) (foreign : change.Foreign) :
    (registry.attach (registry.cell x).object change).held = registry.held := by
  funext y
  rw [held_attach distinct stored,(Payload.apply_foreign foreign _).1]
  split
  · rename_i same
    rw [same,held_stored stored]
  · rfl
end Registry

theorem ClearsEmpty.others [DecidableEq Component] {registry after : Registry Component} (clears : ClearsEmpty registry x after) :
    after.others = registry.others := by
  funext y
  unfold Registry.others
  by_cases kept : y ∈ after.names
  · rw [if_pos kept,if_pos (clears.names kept),clears.cell y kept]
  · rw [if_neg kept]
    by_cases stored : y ∈ registry.names
    · rw [if_pos stored,(Payload.isEmpty_iff _).mp (clears.idle y stored kept)]
      rfl
    · rw [if_neg stored]

namespace Pit
variable [DecidableEq Component]

-- Operations of the table, and calls of others, which find their entry by its name.
inductive SharedOp (Component Exclude Milliseconds : Type) where
  | own (op : Op Component Exclude Milliseconds)
  | seek (x : Name Component)
  | attach (x : Name Component) (change : {change : Payload.Change // change.Foreign})
  | deleteEntryIfEmpty (x : Name Component)

def sharedStep (calls : NameTreeCalls Component Tree) (ndn : Ndn Component Exclude Milliseconds)
    (pit : Pit Component Exclude Milliseconds Tree) :
    SharedOp Component Exclude Milliseconds → Exec (Pit Component Exclude Milliseconds Tree)
  | .own op => pit.step calls ndn op
  | .seek x => do
    let (nameTree,_) ← calls.seek pit.nameTree x
    return {pit with nameTree := nameTree}
  | .attach x change => do
    let found ← calls.lookup pit.nameTree x
    let nameTreeEntry ← asserted found
    let nameTree ← calls.attach pit.nameTree nameTreeEntry change.1
    return {pit with nameTree := nameTree}
  | .deleteEntryIfEmpty x => do
    let found ← calls.lookup pit.nameTree x
    let nameTreeEntry ← asserted found
    let nameTree ← calls.deleteEntryIfEmpty pit.nameTree nameTreeEntry
    return {pit with nameTree := nameTree}

namespace SharedOp

def toOwn : SharedOp Component Exclude Milliseconds → Option (Op Component Exclude Milliseconds)
  | .own op => some op
  | _ => none

-- What the other tables have kept, by their own changes alone.
def others (kept : Name Component → Payload.Others) : SharedOp Component Exclude Milliseconds → Name Component → Payload.Others
  | .attach x change => fun y => if y = x then (kept y).apply change.1 else kept y
  | _ => kept

def OnStored (calls : NameTreeCalls Component Tree) (pit : Pit Component Exclude Milliseconds Tree)
    (_ : Name Component → Payload.Others) : SharedOp Component Exclude Milliseconds → Prop
  | .own (.insert _) => True
  | .own (.remove e) => Listed calls pit e
  | .seek _ => True
  | .attach x _ => HasName calls pit x
  | .deleteEntryIfEmpty x => HasName calls pit x

instance (calls : NameTreeCalls Component Tree) (pit : Pit Component Exclude Milliseconds Tree)
    (others : Name Component → Payload.Others) (op : SharedOp Component Exclude Milliseconds) :
    Decidable (op.OnStored calls pit others) :=
  match op with
  | .own (.insert _) => isTrue trivial
  | .own (.remove e) => inferInstanceAs (Decidable (Listed calls pit e))
  | .seek _ => isTrue trivial
  | .attach x _ => inferInstanceAs (Decidable (HasName calls pit x))
  | .deleteEntryIfEmpty x => inferInstanceAs (Decidable (HasName calls pit x))
end SharedOp

section Sharing
variable {calls : NameTreeCalls Component Tree} {shows : Tree → Registry Component → Prop}
  {erases : Registry Component → Name Component → Registry Component → Prop}
  {ndn : Ndn Component Exclude Milliseconds} {pit alone : Pit Component Exclude Milliseconds Tree}
  {registry : Registry Component}

-- Two tables over name trees that may differ in everything but the PIT entries.
structure SameBooks (shows : Tree → Registry Component → Prop) (ndn : Ndn Component Exclude Milliseconds)
    (pit alone : Pit Component Exclude Milliseconds Tree) (kept : Name Component → Payload.Others) : Prop where
  entries : alone.entries = pit.entries
  shared : ∃ registry other, Kept shows ndn pit registry ∧ Kept shows ndn alone other ∧ other.held = registry.held ∧
    registry.others = kept

theorem insert_beside (laws : Documented calls shows erases) (kept : Kept shows ndn pit registry) (beside : Kept shows ndn alone other)
    (entries : alone.entries = pit.entries) (same : other.held = registry.held) (interest : Interest Component Exclude Milliseconds) :
    ∃ after aloneAfter e isNew remaining last, pit.insert calls ndn interest = .ok (after,e,isNew) ∧
      alone.insert calls ndn interest = .ok (aloneAfter,e,isNew) ∧ aloneAfter.entries = after.entries ∧
      Kept shows ndn after remaining ∧ Kept shows ndn aloneAfter last ∧ last.held = remaining.held ∧
      remaining.others = registry.others := by
  have distinct := laws.distinct kept.shown
  obtain ⟨after,e,isNew,remaining,ran,shown,inserted⟩ := insert_spec laws kept interest
  obtain ⟨aloneAfter,f,old,last,aloneRan,aloneShown,aloneInserted⟩ := insert_spec laws beside interest
  rw [entries] at aloneInserted
  obtain ⟨objects,rfl,rfl⟩ := inserted.verdict kept.books same aloneInserted
  have booksAlone := aloneInserted.books (laws.distinct beside.shown) (entries ▸ beside.books)
  refine ⟨after,aloneAfter,f,old,remaining,last,ran,aloneRan,objects,⟨shown,inserted.books distinct kept.books⟩,
    ⟨aloneShown,booksAlone⟩,?_,?_⟩
  · rw [inserted.held distinct,aloneInserted.held (laws.distinct beside.shown),same]
  · rw [inserted.remaining_eq]
    cases old with
    | false => exact Registry.others_lookup _ _
    | true =>
      have stored : interest.name ∈ (registry.lookup interest.name).names := Registry.mem_lookup.mpr (.inr List.prefix_rfl)
      exact (Registry.others_own (distinct.lookup _) stored id).trans (Registry.others_lookup _ _)

theorem remove_beside (laws : Documented calls shows erases) (only : OnlyEmpty erases) (kept : Kept shows ndn pit registry)
    (beside : Kept shows ndn alone other) (entries : alone.entries = pit.entries) (same : other.held = registry.held)
    (member : e ∈ registry.held x) :
    ∃ after aloneAfter remaining last, pit.remove calls e = .ok after ∧ alone.remove calls e = .ok aloneAfter ∧
      aloneAfter.entries = after.entries ∧ Kept shows ndn after remaining ∧ Kept shows ndn aloneAfter last ∧
      last.held = remaining.held ∧ remaining.others = registry.others := by
  obtain ⟨entry,live,rfl⟩ := kept.books.named x e member
  have stored := Registry.stored_of_held member
  have storedAlone := Registry.stored_of_held (same ▸ member)
  have distinct := laws.distinct kept.shown
  have distinctAlone := laws.distinct beside.shown
  obtain ⟨tree,remaining,ran,shown,erased⟩ := remove_spec laws kept.shown live stored
  obtain ⟨aloneTree,last,aloneRan,aloneShown,aloneErased⟩ := remove_spec laws beside.shown (entries ▸ live) storedAlone
  have held := removed_held distinct stored e (only _ _ _ erased)
  have heldAlone := removed_held distinctAlone storedAlone e (only _ _ _ aloneErased)
  refine ⟨_,_,remaining,last,ran,aloneRan,entries,⟨shown,held ▸ kept.books.strike _ _⟩,
    ⟨aloneShown,heldAlone ▸ beside.books.strike _ _⟩,by rw [held,heldAlone,same],?_⟩
  rw [(only _ _ _ erased).others,Registry.others_own distinct stored id]

theorem own_beside (laws : Documented calls shows erases) (only : OnlyEmpty erases) (sharing : SameBooks shows ndn pit alone others)
    (allowed : (SharedOp.own op).OnStored calls pit others) :
    ∃ after aloneAfter, pit.step calls ndn op = .ok after ∧ alone.step calls ndn op = .ok aloneAfter ∧
      SameBooks shows ndn after aloneAfter others := by
  obtain ⟨entries,registry,other,kept,beside,same,rfl⟩ := sharing
  cases op with
  | insert interest =>
    obtain ⟨after,aloneAfter,e,isNew,remaining,last,ran,aloneRan,objects,keptAfter,besideAfter,held,others⟩ :=
      insert_beside laws kept beside entries same interest
    exact ⟨after,aloneAfter,by rw [step,ran]; rfl,by rw [step,aloneRan]; rfl,objects,remaining,last,keptAfter,besideAfter,held,others⟩
  | remove e =>
    obtain ⟨entry,_,stored⟩ := allowed
    obtain ⟨after,aloneAfter,remaining,last,ran,aloneRan,objects,keptAfter,besideAfter,held,others⟩ :=
      remove_beside laws only kept beside entries same ((storedAt_iff laws kept.shown).mp stored)
    exact ⟨after,aloneAfter,ran,aloneRan,objects,remaining,last,keptAfter,besideAfter,held,others⟩

-- The calls of other tables: the PIT entries stay, whatever becomes of the tree.
theorem foreign_beside (laws : Documented calls shows erases) (only : OnlyEmpty erases) (sharing : SameBooks shows ndn pit alone others)
    (foreign : op.toOwn = none) (allowed : op.OnStored calls pit others) :
    ∃ after, sharedStep calls ndn pit op = .ok after ∧ SameBooks shows ndn after alone (op.others others) := by
  obtain ⟨entries,registry,other,⟨shown,books⟩,beside,same,rfl⟩ := sharing
  have distinct := laws.distinct shown
  cases op with
  | own op => cases foreign
  | seek x =>
    obtain ⟨tree,ran,shownAfter⟩ := laws.seek shown x
    have held := funext (Registry.held_lookup registry x)
    exact ⟨{pit with nameTree := tree},by rw [sharedStep,ran]; rfl,entries,_,other,⟨shownAfter,held ▸ books⟩,beside,
      same.trans held.symm,Registry.others_lookup registry x⟩
  | attach x change =>
    have stored := (hasName_iff laws shown).mp allowed
    obtain ⟨tree,ran,shownAfter⟩ := laws.attach shown x stored change.1
    have held := Registry.held_foreign distinct stored change.2
    refine ⟨{pit with nameTree := tree},?_,entries,_,other,⟨shownAfter,held ▸ books⟩,beside,same.trans held.symm,?_⟩
    · rw [sharedStep,laws.lookup shown,ok_bind,Registry.find_stored stored]
      dsimp only [asserted]
      rw [ok_bind,ran]
      rfl
    · funext y
      change _ = if y = x then (registry.others y).apply change.1 else registry.others y
      rw [Registry.others_attach distinct stored,(Payload.apply_foreign change.2 _).2]
      split
      · rename_i here
        rw [here,Registry.others,if_pos stored]
      · rfl
  | deleteEntryIfEmpty x =>
    have stored := (hasName_iff laws shown).mp allowed
    obtain ⟨tree,remaining,ran,shownAfter,erased⟩ := laws.deleteEntryIfEmpty shown x stored
    have clears := only _ _ _ erased
    have held := funext clears.held
    refine ⟨{pit with nameTree := tree},?_,entries,_,other,⟨shownAfter,held ▸ books⟩,beside,same.trans held.symm,clears.others⟩
    rw [sharedStep,laws.lookup shown,ok_bind,Registry.find_stored stored]
    dsimp only [asserted]
    rw [ok_bind,ran]
    rfl

-- What two tables show that hold the same entries.
structure SameTable (calls : NameTreeCalls Component Tree) (ndn : Ndn Component Exclude Milliseconds)
    (pit alone : Pit Component Exclude Milliseconds Tree) : Prop where
  entries : alone.entries = pit.entries
  stored : ∀ x e, StoredAt calls alone x e ↔ StoredAt calls pit x e
  inserts : ∀ interest, ∃ after aloneAfter e isNew, pit.insert calls ndn interest = .ok (after,e,isNew) ∧
    alone.insert calls ndn interest = .ok (aloneAfter,e,isNew)
  finds : ∀ data fuel, data.name.length < fuel → ∃ result, pit.findAllDataMatches calls ndn data fuel = .ok result ∧
    alone.findAllDataMatches calls ndn data fuel = .ok result

theorem SameBooks.sameTable (laws : Documented calls shows erases) (sharing : SameBooks shows ndn pit alone others) :
    SameTable calls ndn pit alone := by
  obtain ⟨entries,registry,other,kept,beside,same,_⟩ := sharing
  refine ⟨entries,fun x e => ?_,fun interest => ?_,fun data fuel enough => ?_⟩
  · rw [storedAt_iff laws kept.shown,storedAt_iff laws beside.shown,same]
  · obtain ⟨after,aloneAfter,e,isNew,_,_,ran,aloneRan,_⟩ := insert_beside laws kept beside entries same interest
    exact ⟨after,aloneAfter,e,isNew,ran,aloneRan⟩
  · have lists : matchesAt ndn alone other = matchesAt ndn pit registry := by
      unfold matchesAt
      rw [entries,same]
    have found := findAllDataMatches_spec laws beside data enough
    rw [lists] at found
    exact ⟨_,findAllDataMatches_spec laws kept data enough,found⟩

theorem pit_shares (laws : Documented calls shows ClearsEmpty) {start : Pit Component Exclude Milliseconds Tree}
    (shown : shows start.nameTree registry) (empty : ∀ e, ¬ Stored calls start e)
    (guarded : Guarded (sharedStep calls ndn) SharedOp.others (fun pit others op => op.OnStored calls pit others) start
      registry.others ops) :
    ∃ pit alone reached, run (sharedStep calls ndn) start ops = .ok pit ∧
      run (step calls ndn) start (ops.filterMap SharedOp.toOwn) = .ok alone ∧ SameTable calls ndn pit alone ∧
      shows pit.nameTree reached ∧ reached.others = ops.foldl SharedOp.others registry.others := by
  have kept := kept_start laws shown empty ndn
  obtain ⟨pit,alone,ran,aloneRan,sharing⟩ := run_shadows (step calls ndn) SharedOp.toOwn
    (fun pit others alone => SameBooks shows ndn pit alone others) ⟨rfl,registry,registry,kept,kept,rfl,rfl⟩ guarded (by
      intro pit others alone op sharing allowed
      cases own : op.toOwn with
      | none =>
        obtain ⟨after,stepped,sharingAfter⟩ := foreign_beside laws onlyEmpty_clears sharing own allowed
        exact ⟨after,stepped,sharingAfter⟩
      | some mine =>
        cases op with
        | own op =>
          cases Option.some.inj own
          obtain ⟨after,aloneAfter,stepped,aloneStepped,sharingAfter⟩ := own_beside laws onlyEmpty_clears sharing allowed
          exact ⟨after,stepped,aloneAfter,aloneStepped,sharingAfter⟩
        | _ => cases own)
  obtain ⟨_,reached,_,⟨shownReached,_⟩,_,_,others⟩ := id sharing
  exact ⟨pit,alone,reached,ran,aloneRan,sharing.sameTable laws,shownReached,others⟩

-- Someone keeps a FIB entry at [1] and tries to erase [1,2] under the table's feet.
theorem pit_shares_ledger : ∃ pit alone reached,
    run (sharedStep Ledger.calls plainNdn) ⟨Ledger.empty,Heap.empty⟩ [.seek [1,2],.attach [1] ⟨.setFibEntry (some 4),trivial⟩,
      .own (.insert (plainInterest [1,2])),.deleteEntryIfEmpty [1,2],.own (.insert (plainInterest [1])),.own (.remove 0)] = .ok pit ∧
    run (step Ledger.calls plainNdn) ⟨Ledger.empty,Heap.empty⟩
      [.insert (plainInterest [1,2]),.insert (plainInterest [1]),.remove 0] = .ok alone ∧
    SameTable Ledger.calls plainNdn pit alone ∧ Ledger.Shows pit.nameTree reached ∧
    reached.others = fun y => if y = [1] then ⟨some 4,none⟩ else {} := by
  have safe : Guarded (sharedStep Ledger.calls plainNdn) SharedOp.others (fun pit others op => op.OnStored Ledger.calls pit others)
      ⟨Ledger.empty,Heap.empty⟩ (Registry.empty : Registry Nat).others [.seek [1,2],.attach [1] ⟨.setFibEntry (some 4),trivial⟩,
      .own (.insert (plainInterest [1,2])),.deleteEntryIfEmpty [1,2],.own (.insert (plainInterest [1])),.own (.remove 0)] := by decide
  obtain ⟨pit,alone,reached,ran,aloneRan,same,shown,others⟩ := pit_shares (Ledger.documented.weaken onlyEmpty_prunes)
    Ledger.empty_shows ledger_stores_nothing safe
  exact ⟨pit,alone,reached,ran,aloneRan,same,shown,others⟩
end Sharing
end Pit

end NfdTables
