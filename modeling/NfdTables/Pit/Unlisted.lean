import NfdTables.Pit.OnNameTree
import NfdTables.Pit.Prune

namespace NfdTables.Pit
open Machine PrefixSet
variable {Component Exclude Milliseconds : Type} [DecidableEq Component]

section Removals
variable {host : Host Component} {ndn : Ndn Component Exclude Milliseconds}
  {pit : Pit Component Exclude Milliseconds (NameTree Component)} {plain : Pit Component Exclude Milliseconds (Ledger Component)}

-- Removing an entry that is not listed does nothing while the name is stored.
def carefulStep (ndn : Ndn Component Exclude Milliseconds) (plain : Pit Component Exclude Milliseconds (Ledger Component)) :
    Op Component Exclude Milliseconds → Exec (Pit Component Exclude Milliseconds (Ledger Component))
  | .insert interest => plain.step Ledger.calls ndn (.insert interest)
  | .remove e => do
    let entry ← plain.entries.fetch e
    if Listed Ledger.calls plain e then plain.remove Ledger.calls e
    else if HasName Ledger.calls plain entry.getName then return plain
    else .error .assertion

-- Any entry an insert has ever returned may be removed, once more or not.
def HandlesSafely (host : Host Component) (pit : Pit Component Exclude Milliseconds (NameTree Component))
    (plain : Pit Component Exclude Milliseconds (Ledger Component)) : Op Component Exclude Milliseconds → Prop
  | .insert _ => True
  | .remove e => (pit.entries.read e).isSome = true ∧
      (Listed (NameTree.calls host) pit e → SafeRemoval pit plain.nameTree.registry e)

instance (host : Host Component) (pit : Pit Component Exclude Milliseconds (NameTree Component))
    (plain : Pit Component Exclude Milliseconds (Ledger Component)) (op : Op Component Exclude Milliseconds) :
    Decidable (HandlesSafely host pit plain op) :=
  match op with
  | .insert _ => isTrue trivial
  | .remove e => by
    unfold HandlesSafely SafeRemoval
    infer_instance

theorem listed_iff (mirrors : Mirrors host ndn pit plain) (live : pit.entries.read e = some entry) :
    Listed (NameTree.calls host) pit e ↔ e ∈ plain.nameTree.registry.held entry.getName := by
  unfold Listed
  rw [live]
  constructor
  · intro listed
    obtain ⟨_,same,stored⟩ := listed
    cases Option.some.inj same
    exact (storedAt_real mirrors).mp stored
  · exact fun member => ⟨entry,rfl,(storedAt_real mirrors).mpr member⟩

-- An entry still listed keeps the name and all above it: nothing is erased.
theorem remove_unlisted (mirrors : Mirrors host ndn pit plain) (tight : Tight plain.nameTree.registry)
    (live : pit.entries.read e = some entry) (absent : e ∉ plain.nameTree.registry.held entry.getName) :
    pit.remove (NameTree.calls host) e =
      if entry.getName ∈ plain.nameTree.registry.names then .ok pit else .error .assertion := by
  obtain ⟨chains,consistent⟩ := mirrors.tree
  have found : (NameTree.calls host).lookup pit.nameTree entry.getName = .ok (plain.nameTree.registry.find entry.getName) :=
    consistent.find _
  rw [remove,Heap.fetch_live live,ok_bind,found,ok_bind]
  split
  · rename_i stored
    rw [Registry.find_stored stored]
    obtain ⟨n,object,sits,same⟩ := consistent.named.live stored
    have cleared : (NameTree.calls host).attach pit.nameTree (plain.nameTree.registry.cell entry.getName).object (.deletePitEntry e) =
        .ok pit.nameTree := by
      have list := (consistent.named.known sits).2
      rw [same] at list
      rw [Registry.held_stored stored,list] at absent
      have payload := deletePitEntry_without object.payload e
      rw [without_absent absent] at payload
      change NameTree.attach _ _ _ = _
      rw [NameTree.attach,Heap.update_live sits.entry_live,payload,Heap.write_same sits.entry_live]
      rfl
    have needed : object.isEmpty = false := by
      obtain ⟨y,f,below,member⟩ := tight.needed _ stored
      rw [NameTree.isEmpty_busy consistent sits,same]
      by_cases here : entry.getName = y
      · left
        rw [← here] at member
        rw [Bool.eq_false_iff]
        intro idle
        rw [(tight.bare.idle_iff stored).mp idle] at member
        cases member
      · right
        obtain ⟨rest,rfl⟩ := below
        cases rest with
        | nil => exact absurd (List.append_nil _).symm here
        | cons k rest =>
          exact ⟨k,consistent.named.closed _ (Registry.stored_of_held member) _ ⟨rest,by simp⟩⟩
    have erased : (NameTree.calls host).deleteEntryIfEmpty pit.nameTree (plain.nameTree.registry.cell entry.getName).object =
        .ok pit.nameTree := by
      simp only [NameTree.calls,NameTree.erase_busy sits needed,ok_bind,pure_ok]
    dsimp only [asserted]
    rw [ok_bind,cleared,ok_bind,erased]
    rfl
  · rename_i gone
    rw [Registry.find_absent gone]
    rfl

theorem careful_together (mirrors : Mirrors host ndn pit plain) (tight : Tight plain.nameTree.registry)
    (allowed : HandlesSafely host pit plain op) :
    (∃ after plainAfter, pit.step (NameTree.calls host) ndn op = .ok after ∧ carefulStep ndn plain op = .ok plainAfter ∧
      Mirrors host ndn after plainAfter ∧ Tight plainAfter.nameTree.registry) ∨
    (pit.step (NameTree.calls host) ndn op = .error .assertion ∧ carefulStep ndn plain op = .error .assertion) := by
  have mirrored := mirrors.kept
  have tightly : ∀ {plainAfter}, plain.step Ledger.calls ndn op = .ok plainAfter → Tight plainAfter.nameTree.registry := by
    intro plainAfter stepped
    obtain ⟨remaining,shown,effect⟩ := step_cases Ledger.documented mirrored stepped
    rw [shown.same]
    exact effect.tight mirrored.shown.distinct tight
  cases op with
  | insert interest =>
    obtain ⟨after,plainAfter,ran,plainRan,kept⟩ := step_alike mirrors (show RemovesSafely host pit plain (.insert interest) from trivial)
    exact .inl ⟨after,plainAfter,ran,plainRan,kept,tightly plainRan⟩
  | remove e =>
    obtain ⟨handed,safe⟩ := allowed
    obtain ⟨entry,live⟩ := Option.isSome_iff_exists.mp handed
    have plainLive : plain.entries.read e = some entry := mirrors.entries ▸ live
    have onReal := listed_iff mirrors live
    have onPlain : Listed Ledger.calls plain e ↔ e ∈ plain.nameTree.registry.held entry.getName := by
      unfold Listed
      rw [plainLive]
      simp [storedAt_iff Ledger.documented mirrored.shown]
    simp only [carefulStep,Heap.fetch_live plainLive,ok_bind,onPlain,hasName_iff Ledger.documented mirrored.shown]
    by_cases member : e ∈ plain.nameTree.registry.held entry.getName
    · rw [if_pos member]
      obtain ⟨after,plainAfter,ran,plainRan,kept⟩ := remove_alike mirrors member (safe (onReal.mpr member))
      exact .inl ⟨after,plainAfter,ran,plainRan,kept,tightly plainRan⟩
    · have verdict := remove_unlisted mirrors tight live member
      rw [if_neg member,step,verdict]
      by_cases stored : entry.getName ∈ plain.nameTree.registry.names
      · rw [if_pos stored,if_pos stored]
        exact .inl ⟨pit,plain,rfl,rfl,mirrors,tight⟩
      · rw [if_neg stored,if_neg stored]
        exact .inr ⟨rfl,rfl⟩

-- Whatever is removed again, or too late.
theorem pit_refines_careful {n : Nat} (positive : 1 ≤ n) {ops : List (Op Component Exclude Milliseconds)}
    (safe : Guarded (step (NameTree.calls host) ndn) (asSpec (carefulStep ndn)) (HandlesSafely host)
      ⟨NameTree.new n,Heap.empty⟩ ⟨Ledger.empty,Heap.empty⟩ ops) :
    (∃ pit plain, run (step (NameTree.calls host) ndn) ⟨NameTree.new n,Heap.empty⟩ ops = .ok pit ∧
      run (carefulStep ndn) ⟨Ledger.empty,Heap.empty⟩ ops = .ok plain ∧ AnswersAlike host ndn pit plain ∧
      NothingLeaked Ledger.calls ndn plain) ∨
    (run (step (NameTree.calls host) ndn) ⟨NameTree.new n,Heap.empty⟩ ops = .error .assertion ∧
      run (carefulStep ndn) ⟨Ledger.empty,Heap.empty⟩ ops = .error .assertion) := by
  have tight : Tight (Registry.empty : Registry Component) :=
    ⟨fun x stored => absurd stored (Finset.notMem_empty x),fun x stored => absurd stored (Finset.notMem_empty x)⟩
  have outcome := run_together .assertion (fun pit plain => Mirrors host ndn pit plain ∧ Tight plain.nameTree.registry)
    ⟨new_mirrors host ndn positive,tight⟩ safe fun pit plain op related allowed => careful_together related.1 related.2 allowed
  refine outcome.imp_left fun returned => ?_
  obtain ⟨pit,plain,ran,plainRan,mirrors,tightEnd⟩ := returned
  exact ⟨pit,plain,ran,plainRan,mirrors.answersAlike,mirrors.kept.nothingLeaked Ledger.documented tightEnd⟩

-- Entry 0 is removed twice, while entry 1 is listed at its name.
theorem pit_refines_careful_twice :
    (∃ pit plain, run (step (NameTree.calls NameTree.collidingHost) plainNdn) ⟨NameTree.new 8,Heap.empty⟩
      [.insert (plainInterest [1]),.insert {plainInterest [1] with mustBeFresh := true},.remove 0,.remove 0] = .ok pit ∧
      run (carefulStep plainNdn) ⟨Ledger.empty,Heap.empty⟩
      [.insert (plainInterest [1]),.insert {plainInterest [1] with mustBeFresh := true},.remove 0,.remove 0] = .ok plain ∧
      AnswersAlike NameTree.collidingHost plainNdn pit plain ∧ NothingLeaked Ledger.calls plainNdn plain) ∨
    (run (step (NameTree.calls NameTree.collidingHost) plainNdn) ⟨NameTree.new 8,Heap.empty⟩
      [.insert (plainInterest [1]),.insert {plainInterest [1] with mustBeFresh := true},.remove 0,.remove 0] = .error .assertion ∧
      run (carefulStep plainNdn) ⟨Ledger.empty,Heap.empty⟩
      [.insert (plainInterest [1]),.insert {plainInterest [1] with mustBeFresh := true},.remove 0,.remove 0] = .error .assertion) :=
  pit_refines_careful (by decide) (by decide)

-- Once entry 1 is gone too, nothing is left at [1].
example : (do
    let pit ← run (step (NameTree.calls NameTree.collidingHost) plainNdn) ⟨NameTree.new 8,Heap.empty⟩
      [.insert (plainInterest [1]),.insert {plainInterest [1] with mustBeFresh := true},.remove 0,.remove 0,.remove 1,.remove 0]
    return pit.entries.size) = .error .assertion := by decide
end Removals

end NfdTables.Pit
