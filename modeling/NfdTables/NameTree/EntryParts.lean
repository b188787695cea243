import NfdTables.NameTree.Table
import Mathlib.Data.Multiset.AddSub

namespace NfdTables.Nt
open Machine
variable {Component : Type}

-- The entry of namespace nt. No member keeps m_children in step with the list.
structure Entry (Component : Type) where
  hash : UInt32
  namePrefix : Name Component
  parent : Option EntryId
  children : UInt32
  childrenList : List EntryId
  payload : Payload
  node : Option NodeId
deriving DecidableEq

namespace Entry

-- m_measurements and m_node are not initialised: they are what the storage held.
def new (name : Name Component) (measurements : Option MeasurementsId) (node : Option NodeId) : Entry Component where
  hash := 0
  namePrefix := name
  parent := none
  children := 0
  childrenList := []
  payload := {fib := none,pitEntries := [],measurements := measurements}
  node := node

def change (entry : Entry Component) (change : Payload.Change) : Entry Component × Bool :=
  let (payload,result) := entry.payload.apply change
  ({entry with payload := payload},result)

def setFibEntry (entry : Entry Component) (fib : Option FibId) : Entry Component × Bool := entry.change (.setFibEntry fib)
def deleteFibEntry (entry : Entry Component) (fib : Option FibId) : Entry Component × Bool := entry.change (.deleteFibEntry fib)
def insertPitEntry (entry : Entry Component) (pit : PitId) : Entry Component × Bool := entry.change (.insertPitEntry pit)
def deletePitEntry (entry : Entry Component) (pit : PitId) : Entry Component × Bool := entry.change (.deletePitEntry pit)
def setMeasurementsEntry (entry : Entry Component) (measurements : Option MeasurementsId) : Entry Component × Bool :=
  entry.change (.setMeasurementsEntry measurements)

def getChildrenList (entry : Entry Component) : List EntryId := entry.childrenList
def getFibEntry (entry : Entry Component) : Option FibId := entry.payload.fib
def getPITList (entry : Entry Component) : List PitId := entry.payload.pitEntries
def getMeasurementsEntry (entry : Entry Component) : Option MeasurementsId := entry.payload.measurements

-- It is the size of m_pitList that is converted, not that of m_childrenList.
def getChildrenListSize (entry : Entry Component) : Int := toInt entry.payload.pitEntries.length

end Entry

-- The mutators, and insert() and erase() on the vector getChildrenList() refers to.
inductive Op where
  | setFibEntry (fib : Option FibId)
  | deleteFibEntry (fib : Option FibId)
  | insertPitEntry (pit : PitId)
  | deletePitEntry (pit : PitId)
  | setMeasurementsEntry (measurements : Option MeasurementsId)
  | insertChild (position : Nat) (child : EntryId)
  | eraseChild (position : Nat)
deriving DecidableEq,Repr

def answering (result : Entry Component × Bool) : Exec (Entry Component × Option Bool) := .ok (result.1,some result.2)

def Entry.perform (entry : Entry Component) : Op → Exec (Entry Component × Option Bool)
  | .setFibEntry fib => answering (entry.setFibEntry fib)
  | .deleteFibEntry fib => answering (entry.deleteFibEntry fib)
  | .insertPitEntry pit => answering (entry.insertPitEntry pit)
  | .deletePitEntry pit => answering (entry.deletePitEntry pit)
  | .setMeasurementsEntry measurements => answering (entry.setMeasurementsEntry measurements)
  | .insertChild position child =>
    if position ≤ entry.childrenList.length then
      return ({entry with childrenList := entry.childrenList.insertIdx position child},none)
    else .error .outOfBounds
  | .eraseChild position =>
    if position < entry.childrenList.length then
      return ({entry with childrenList := entry.childrenList.eraseIdx position},none)
    else .error .outOfBounds

def step (entry : Entry Component) (op : Op) : Exec (Entry Component) := do
  let (entry,_) ← entry.perform op
  return entry

structure Parts where
  children : List EntryId
  fib : Option FibId
  pit : Multiset PitId
  measurements : Option MeasurementsId
deriving DecidableEq

namespace Parts

def empty : Parts := ⟨[],none,0,none⟩

def apply (parts : Parts) : Op → Parts × Option Bool
  | .setFibEntry fib => ({parts with fib := fib},some true)
  | .deleteFibEntry fib => if fib = parts.fib then ({parts with fib := none},some true) else (parts,some false)
  | .insertPitEntry pit => ({parts with pit := pit ::ₘ parts.pit},some true)
  | .deletePitEntry pit => if pit ∈ parts.pit then ({parts with pit := parts.pit.erase pit},some true) else (parts,some false)
  | .setMeasurementsEntry measurements => ({parts with measurements := measurements},some true)
  | .insertChild position child => ({parts with children := parts.children.insertIdx position child},none)
  | .eraseChild position => ({parts with children := parts.children.eraseIdx position},none)

def after (parts : Parts) (op : Op) : Parts := (parts.apply op).1

-- Positions outside the vector are undefined behaviour.
def InRange (parts : Parts) : Op → Prop
  | .insertChild position _ => position ≤ parts.children.length
  | .eraseChild position => position < parts.children.length
  | _ => True

instance (parts : Parts) (op : Op) : Decidable (parts.InRange op) := by
  cases op <;> (unfold InRange; infer_instance)

end Parts

section Tracking
variable {entry : Entry Component} {parts : Parts} {leftover : Option MeasurementsId}

-- Until the Measurements entry is set the member is what the storage held.
structure Tracks (leftover : Option MeasurementsId) (entry : Entry Component) (parts : Parts) : Prop where
  children : entry.getChildrenList = parts.children
  fib : entry.getFibEntry = parts.fib
  pit : (entry.getPITList : Multiset PitId) = parts.pit
  measurements : entry.getMeasurementsEntry = parts.measurements ∨
    parts.measurements = none ∧ entry.getMeasurementsEntry = leftover

theorem new_tracks (name : Name Component) (leftover : Option MeasurementsId) (node : Option NodeId) :
    Tracks leftover (Entry.new name leftover node) .empty :=
  ⟨rfl,rfl,rfl,.inr ⟨rfl,rfl⟩⟩

theorem deletePitEntry_tracks (tracks : Tracks leftover entry parts) (pit : PitId) :
    Tracks leftover (entry.deletePitEntry pit).1 (parts.apply (.deletePitEntry pit)).1 ∧
      some (entry.deletePitEntry pit).2 = (parts.apply (.deletePitEntry pit)).2 := by
  have same : pit ∈ parts.pit ↔ pit ∈ entry.payload.pitEntries := by
    rw [← tracks.pit]
    exact Multiset.mem_coe
  by_cases present : pit ∈ entry.payload.pitEntries
  · obtain ⟨rest,taken,erased⟩ := swapRemove_erase present
    have deleted : entry.deletePitEntry pit =
        ({entry with payload := {entry.payload with pitEntries := rest}},true) := by
      simp [Entry.deletePitEntry,Entry.change,Payload.apply,Payload.deletePitEntry,taken]
    rw [deleted,Parts.apply,if_pos (same.mpr present)]
    refine ⟨⟨tracks.children,tracks.fib,?_,tracks.measurements⟩,rfl⟩
    rw [← tracks.pit]
    exact erased
  · have refused : entry.deletePitEntry pit = (entry,false) := by
      simp [Entry.deletePitEntry,Entry.change,Payload.apply,Payload.deletePitEntry,swapRemove_absent present]
    rw [refused,Parts.apply,if_neg (fun member => present (same.mp member))]
    exact ⟨tracks,rfl⟩

theorem deleteFibEntry_tracks (tracks : Tracks leftover entry parts) (fib : Option FibId) :
    Tracks leftover (entry.deleteFibEntry fib).1 (parts.apply (.deleteFibEntry fib)).1 ∧
      some (entry.deleteFibEntry fib).2 = (parts.apply (.deleteFibEntry fib)).2 := by
  have held : entry.payload.fib = parts.fib := tracks.fib
  by_cases current : fib = parts.fib
  · have deleted : entry.deleteFibEntry fib = ({entry with payload := {entry.payload with fib := none}},true) := by
      simp [Entry.deleteFibEntry,Entry.change,Payload.apply,Payload.deleteFibEntry,held,current]
    rw [deleted,Parts.apply,if_pos current]
    exact ⟨⟨tracks.children,rfl,tracks.pit,tracks.measurements⟩,rfl⟩
  · have refused : entry.deleteFibEntry fib = (entry,false) := by
      simp [Entry.deleteFibEntry,Entry.change,Payload.apply,Payload.deleteFibEntry,held,Ne.symm current]
    rw [refused,Parts.apply,if_neg current]
    exact ⟨tracks,rfl⟩

theorem perform_tracks (tracks : Tracks leftover entry parts) (inRange : parts.InRange op) :
    ∃ next, entry.perform op = .ok (next,(parts.apply op).2) ∧ Tracks leftover next (parts.after op) := by
  have listed : entry.childrenList = parts.children := tracks.children
  cases op with
  | setFibEntry fib => exact ⟨_,rfl,tracks.children,rfl,tracks.pit,tracks.measurements⟩
  | deleteFibEntry fib =>
    obtain ⟨kept,answer⟩ := deleteFibEntry_tracks tracks fib
    exact ⟨_,by rw [Entry.perform,answering,answer],kept⟩
  | insertPitEntry pit =>
    refine ⟨_,rfl,tracks.children,tracks.fib,?_,tracks.measurements⟩
    rw [Parts.after,Parts.apply,← tracks.pit]
    exact Multiset.coe_eq_coe.mpr (List.perm_append_singleton pit _)
  | deletePitEntry pit =>
    obtain ⟨kept,answer⟩ := deletePitEntry_tracks tracks pit
    exact ⟨_,by rw [Entry.perform,answering,answer],kept⟩
  | setMeasurementsEntry measurements => exact ⟨_,rfl,tracks.children,tracks.fib,tracks.pit,.inl rfl⟩
  | insertChild position child =>
    have within : position ≤ entry.childrenList.length := listed ▸ inRange
    refine ⟨{entry with childrenList := entry.childrenList.insertIdx position child},if_pos within,?_,tracks.fib,tracks.pit,
      tracks.measurements⟩
    exact congrArg (List.insertIdx · position child) listed
  | eraseChild position =>
    have within : position < entry.childrenList.length := listed ▸ inRange
    refine ⟨{entry with childrenList := entry.childrenList.eraseIdx position},if_pos within,?_,tracks.fib,tracks.pit,
      tracks.measurements⟩
    exact congrArg (List.eraseIdx · position) listed
end Tracking

section Runs
variable {ops : List Op} {name : Name Component} {leftover : Option MeasurementsId} {node : Option NodeId}

structure Observes (entry : Entry Component) (parts : Parts) : Prop where
  children : entry.getChildrenList = parts.children
  size : entry.getChildrenListSize = parts.children.length
  fib : entry.getFibEntry = parts.fib
  pit : (entry.getPITList : Multiset PitId) = parts.pit
  measurements : entry.getMeasurementsEntry = parts.measurements

-- After every step the getters show the parts.
structure Refines (name : Name Component) (leftover : Option MeasurementsId) (node : Option NodeId) (ops : List Op) : Prop where
  observed : ∀ earlier, earlier <+: ops → ∃ entry, run step (Entry.new name leftover node) earlier = .ok entry ∧
    Observes entry (earlier.foldl Parts.after .empty)
  answered : ∀ earlier op later, ops = earlier ++ op :: later → ∃ entry next,
    run step (Entry.new name leftover node) earlier = .ok entry ∧
      entry.perform op = .ok (next,((earlier.foldl Parts.after .empty).apply op).2)

abbrev WellPosed (name : Name Component) (leftover : Option MeasurementsId) (node : Option NodeId) (ops : List Op) : Prop :=
  Guarded step Parts.after (fun _ parts op => parts.InRange op) (Entry.new name leftover node) .empty ops

theorem step_tracks {entry : Entry Component} {parts : Parts} {op : Op} (tracks : Tracks leftover entry parts)
    (inRange : parts.InRange op) : ∃ next, step entry op = .ok next ∧ Tracks leftover next (parts.after op) := by
  obtain ⟨next,performed,kept⟩ := perform_tracks tracks inRange
  exact ⟨next,by rw [step,performed]; rfl,kept⟩

theorem run_tracks (posed : WellPosed name leftover node ops) : ∃ entry,
    run step (Entry.new name leftover node) ops = .ok entry ∧ Tracks leftover entry (ops.foldl Parts.after .empty) :=
  run_simulates (Tracks leftover) (fun _ _ _ tracks inRange => step_tracks tracks inRange) (new_tracks name leftover node) posed

def Op.Inserts : Op → Prop
  | .insertPitEntry _ => True
  | .insertChild _ _ => True
  | _ => False

theorem Observes.balanced {entry : Entry Component} {parts : Parts} (observes : Observes entry parts) :
    toInt parts.pit.card = parts.children.length := by
  rw [← observes.size,← observes.pit]
  rfl

theorem Refines.no_insert (refines : Refines name leftover node ops) (posed : WellPosed name leftover node ops) :
    ∀ op ∈ ops, ¬ op.Inserts := by
  intro op member inserts
  obtain ⟨earlier,later,rfl⟩ := List.append_of_mem member
  obtain ⟨entry,ran,before⟩ := refines.observed earlier (List.prefix_append _ _)
  obtain ⟨_,_,after⟩ := refines.observed (earlier ++ [op]) ⟨later,by simp⟩
  rw [List.foldl_append,List.foldl_cons,List.foldl_nil] at after
  have inRange := guarded_next posed ran
  generalize earlier.foldl Parts.after .empty = parts at before after inRange
  have balanced := before.balanced
  have later := after.balanced
  cases op with
  | insertPitEntry pit =>
    rw [Parts.after,Parts.apply,Multiset.card_cons] at later
    exact toInt_succ _ (later.trans balanced.symm)
  | insertChild position child =>
    have longer : toInt parts.pit.card = (parts.children.insertIdx position child).length := later
    rw [List.length_insertIdx_of_le_length inRange] at longer
    omega
  | _ => exact inserts

theorem bare_parts (bare : parts.children = [] ∧ parts.pit = 0) (quiet : ∀ op ∈ ops, ¬ op.Inserts) :
    (ops.foldl Parts.after parts).children = [] ∧ (ops.foldl Parts.after parts).pit = 0 := by
  induction ops generalizing parts with
  | nil => exact bare
  | cons op rest ih =>
    obtain ⟨childless,clear⟩ := bare
    refine ih ?_ fun other member => quiet other (List.mem_cons_of_mem _ member)
    have here := quiet op (by simp)
    cases op with
    | setFibEntry fib => exact ⟨childless,clear⟩
    | deleteFibEntry fib =>
      rw [Parts.after,Parts.apply]
      split <;> exact ⟨childless,clear⟩
    | insertPitEntry pit => exact absurd trivial here
    | deletePitEntry pit =>
      rw [Parts.after,Parts.apply,clear,if_neg (Multiset.notMem_zero pit)]
      exact ⟨childless,clear⟩
    | setMeasurementsEntry measurements => exact ⟨childless,clear⟩
    | insertChild position child => exact absurd trivial here
    | eraseChild position =>
      rw [Parts.after,Parts.apply,childless]
      exact ⟨rfl,clear⟩

theorem Tracks.observes {entry : Entry Component} {parts : Parts} (tracks : Tracks none entry parts)
    (bare : parts.children = [] ∧ parts.pit = 0) : Observes entry parts := by
  refine ⟨tracks.children,?_,tracks.fib,tracks.pit,?_⟩
  · have listed : entry.payload.pitEntries = [] := (Multiset.coe_eq_zero _).mp (tracks.pit.trans bare.2)
    rw [Entry.getChildrenListSize,listed,bare.1]
    rfl
  · rcases tracks.measurements with set | ⟨unset,null⟩
    · exact set
    · rw [null,unset]

-- getChildrenListSize() counts the PIT entries, m_measurements starts with what the
-- storage held, and all else is right.
theorem entry_refines_iff (posed : WellPosed name leftover node ops) :
    Refines name leftover node ops ↔ leftover = none ∧ ∀ op ∈ ops, ¬ op.Inserts := by
  constructor
  · intro refines
    obtain ⟨entry,ran,observes⟩ := refines.observed [] (List.nil_prefix)
    cases Except.ok.inj ran
    exact ⟨observes.measurements,refines.no_insert posed⟩
  · rintro ⟨rfl,quiet⟩
    constructor
    · rintro earlier ⟨later,rfl⟩
      obtain ⟨entry,ran,tracks⟩ := run_tracks (guarded_earlier posed)
      refine ⟨entry,ran,tracks.observes (bare_parts ⟨rfl,rfl⟩ ?_)⟩
      exact fun op member => quiet op (List.mem_append_left _ member)
    · rintro earlier op later rfl
      obtain ⟨entry,ran,tracks⟩ := run_tracks (guarded_earlier posed)
      obtain ⟨next,performed,_⟩ := perform_tracks tracks (guarded_next posed ran)
      exact ⟨entry,next,ran,performed⟩

theorem entry_refines_iff_quiet :
    Refines [0] none none [.setFibEntry (some 1),.deletePitEntry 2,.setMeasurementsEntry (some 3),.deleteFibEntry (some 1)] ↔
      none = (none : Option MeasurementsId) ∧
        ∀ op ∈ [Op.setFibEntry (some 1),.deletePitEntry 2,.setMeasurementsEntry (some 3),.deleteFibEntry (some 1)], ¬ op.Inserts :=
  entry_refines_iff (show WellPosed [0] none none
    [.setFibEntry (some 1),.deletePitEntry 2,.setMeasurementsEntry (some 3),.deleteFibEntry (some 1)] by decide)

-- One PIT entry and no child: the size reported is 1.
theorem entry_not_refines : ¬ ∀ (name : Name Nat) (leftover : Option MeasurementsId) (node : Option NodeId) (ops : List Op),
    WellPosed name leftover node ops → Refines name leftover node ops := by
  intro always
  obtain ⟨entry,ran,observes⟩ := (always [0] none none [.insertPitEntry 7] (by decide)).observed _ List.prefix_rfl
  cases Except.ok.inj ran
  have size := observes.size
  revert size
  decide
end Runs

end NfdTables.Nt
