import NfdTables.Foundation.Machine
import NfdTables.NameTree.Entry

namespace NfdTables
open Machine

structure Interest (Component Exclude Milliseconds : Type) where
  name : Name Component
  minSuffixComponents : Int
  maxSuffixComponents : Int
  exclude : Exclude
  childSelector : Int
  mustBeFresh : Bool
  scope : Int
  interestLifetime : Milliseconds
  nonce : UInt32

-- What pit.cpp calls in the ndn library: the bytes of an Exclude's wire encoding,
-- and whether an Interest's name and selectors match a name.
structure Ndn (Component Exclude Milliseconds : Type) where
  wireEncode : Exclude → List UInt8
  matchesName : Interest Component Exclude Milliseconds → Name Component → Bool

-- pit::Entry, of which the table uses the Interest it was made for.
structure PitEntry (Component Exclude Milliseconds : Type) where
  interest : Interest Component Exclude Milliseconds

section
variable {Component Exclude Milliseconds : Type}

def PitEntry.getInterest (entry : PitEntry Component Exclude Milliseconds) : Interest Component Exclude Milliseconds :=
  entry.interest

def PitEntry.getName (entry : PitEntry Component Exclude Milliseconds) : Name Component := entry.interest.name

-- The library relies on nothing of an Exclude but its encoding.
structure MatchesBySelectors (ndn : Ndn Component Exclude Milliseconds) : Prop where
  alike : ∀ a b name, a.name = b.name → a.minSuffixComponents = b.minSuffixComponents →
    a.maxSuffixComponents = b.maxSuffixComponents → ndn.wireEncode a.exclude = ndn.wireEncode b.exclude →
    ndn.matchesName a name = ndn.matchesName b name
  below : ∀ a name, ndn.matchesName a name = true → a.name <+: name

def memcmp : List UInt8 → List UInt8 → Nat → Exec Int
  | _,_,0 => .ok 0
  | a :: as,b :: bs,size+1 => if a = b then memcmp as bs size else .ok (if a < b then -1 else 1)
  | _,_,_+1 => .error .outOfBounds

def excludeEquals (ndn : Ndn Component Exclude Milliseconds) (a b : Exclude) : Exec Bool :=
  let aBlock := ndn.wireEncode a
  let bBlock := ndn.wireEncode b
  if aBlock.length = bBlock.length then do
    let order ← memcmp aBlock bBlock aBlock.length
    return decide (0 = order)
  else .ok false

variable [DecidableEq Component]

def predicatePitEntrySimilarInterest (ndn : Ndn Component Exclude Milliseconds)
    (entry : PitEntry Component Exclude Milliseconds) (interest : Interest Component Exclude Milliseconds) : Exec Bool :=
  let pi := entry.getInterest
  if pi.name = interest.name ∧ pi.minSuffixComponents = interest.minSuffixComponents ∧
      pi.maxSuffixComponents = interest.maxSuffixComponents then do
    let same ← excludeEquals ndn pi.exclude interest.exclude
    return same && decide (pi.childSelector = interest.childSelector) && decide (pi.mustBeFresh = interest.mustBeFresh)
  else .ok false

structure Similar (ndn : Ndn Component Exclude Milliseconds) (a b : Interest Component Exclude Milliseconds) : Prop where
  name : a.name = b.name
  minSuffixComponents : a.minSuffixComponents = b.minSuffixComponents
  maxSuffixComponents : a.maxSuffixComponents = b.maxSuffixComponents
  exclude : ndn.wireEncode a.exclude = ndn.wireEncode b.exclude
  childSelector : a.childSelector = b.childSelector
  mustBeFresh : a.mustBeFresh = b.mustBeFresh

omit [DecidableEq Component] in
theorem Similar.refl (ndn : Ndn Component Exclude Milliseconds) (a : Interest Component Exclude Milliseconds) :
    Similar ndn a a := ⟨rfl,rfl,rfl,rfl,rfl,rfl⟩

omit [DecidableEq Component] in
theorem Similar.symm {ndn : Ndn Component Exclude Milliseconds} (similar : Similar ndn a b) : Similar ndn b a :=
  ⟨similar.name.symm,similar.minSuffixComponents.symm,similar.maxSuffixComponents.symm,similar.exclude.symm,
    similar.childSelector.symm,similar.mustBeFresh.symm⟩

omit [DecidableEq Component] in
theorem Similar.trans {ndn : Ndn Component Exclude Milliseconds} (one : Similar ndn a b) (two : Similar ndn b c) :
    Similar ndn a c :=
  ⟨one.name.trans two.name,one.minSuffixComponents.trans two.minSuffixComponents,
    one.maxSuffixComponents.trans two.maxSuffixComponents,one.exclude.trans two.exclude,
    one.childSelector.trans two.childSelector,one.mustBeFresh.trans two.mustBeFresh⟩

omit [DecidableEq Component] in
theorem Similar.matches {ndn : Ndn Component Exclude Milliseconds} (byName : MatchesBySelectors ndn)
    (similar : Similar ndn a b) (name : Name Component) : ndn.matchesName a name = ndn.matchesName b name :=
  byName.alike a b name similar.name similar.minSuffixComponents similar.maxSuffixComponents similar.exclude

theorem memcmp_spec (a b : List UInt8) (same : a.length = b.length) :
    ∃ order, memcmp a b a.length = .ok order ∧ (0 = order ↔ a = b) := by
  induction a generalizing b with
  | nil =>
    cases b with
    | nil => exact ⟨0,rfl,by simp⟩
    | cons y bs => cases same
  | cons x as ih =>
    cases b with
    | nil => cases same
    | cons y bs =>
      by_cases equal : x = y
      · obtain ⟨order,ran,zero⟩ := ih bs (Nat.succ.inj same)
        subst y
        exact ⟨order,by simpa [memcmp] using ran,by simpa using zero⟩
      · refine ⟨if x < y then -1 else 1,by simp [memcmp,equal],?_⟩
        split <;> simp [equal]

omit [DecidableEq Component] in
theorem excludeEquals_spec (ndn : Ndn Component Exclude Milliseconds) (a b : Exclude) :
    excludeEquals ndn a b = .ok (decide (ndn.wireEncode a = ndn.wireEncode b)) := by
  unfold excludeEquals
  by_cases size : (ndn.wireEncode a).length = (ndn.wireEncode b).length
  · obtain ⟨order,ran,zero⟩ := memcmp_spec _ _ size
    simp only [if_pos size,ran,ok_bind,pure_ok,zero]
  · have differ : ndn.wireEncode a ≠ ndn.wireEncode b := fun same => size (congrArg List.length same)
    simp [size,differ]

instance (ndn : Ndn Component Exclude Milliseconds) (a b : Interest Component Exclude Milliseconds) :
    Decidable (Similar ndn a b) :=
  decidable_of_iff (a.name = b.name ∧ a.minSuffixComponents = b.minSuffixComponents ∧
    a.maxSuffixComponents = b.maxSuffixComponents ∧ ndn.wireEncode a.exclude = ndn.wireEncode b.exclude ∧
    a.childSelector = b.childSelector ∧ a.mustBeFresh = b.mustBeFresh)
    ⟨fun ⟨one,two,three,four,five,six⟩ => ⟨one,two,three,four,five,six⟩,
      fun similar => ⟨similar.name,similar.minSuffixComponents,similar.maxSuffixComponents,similar.exclude,
        similar.childSelector,similar.mustBeFresh⟩⟩

theorem predicatePitEntrySimilarInterest_spec (ndn : Ndn Component Exclude Milliseconds)
    (entry : PitEntry Component Exclude Milliseconds) (interest : Interest Component Exclude Milliseconds) :
    predicatePitEntrySimilarInterest ndn entry interest = .ok (decide (Similar ndn entry.getInterest interest)) := by
  unfold predicatePitEntrySimilarInterest
  by_cases first : entry.getInterest.name = interest.name ∧
      entry.getInterest.minSuffixComponents = interest.minSuffixComponents ∧
      entry.getInterest.maxSuffixComponents = interest.maxSuffixComponents
  · simp only [if_pos first,excludeEquals_spec,ok_bind,pure_ok,← Bool.decide_and]
    congr 2
    refine propext ⟨?_,?_⟩
    · rintro ⟨⟨four,five⟩,six⟩
      exact ⟨first.1,first.2.1,first.2.2,four,five,six⟩
    · exact fun similar => ⟨⟨similar.exclude,similar.childSelector⟩,similar.mustBeFresh⟩
  · have differ : ¬ Similar ndn entry.getInterest interest := fun similar =>
      first ⟨similar.name,similar.minSuffixComponents,similar.maxSuffixComponents⟩
    simp [first,differ]
end

section Plain

-- A library in which an Exclude is its own encoding and excludes nothing.
def plainNdn : Ndn Nat (List UInt8) Unit where
  wireEncode := fun exclude => exclude
  matchesName := fun interest name => decide (interest.name <+: name ∧
    (interest.minSuffixComponents < 0 ∨ interest.minSuffixComponents ≤ name.length + 1 - interest.name.length) ∧
    (interest.maxSuffixComponents < 0 ∨ (name.length : Int) + 1 - interest.name.length ≤ interest.maxSuffixComponents))

def plainInterest (name : Name Nat) : Interest Nat (List UInt8) Unit := ⟨name,-1,-1,[],-1,false,-1,(),0⟩

theorem plainNdn_matches : MatchesBySelectors plainNdn where
  alike := by
    intro a b name same minimum maximum _
    simp only [plainNdn,same,minimum,maximum]
  below := by
    intro a name matched
    exact (decide_eq_true_iff.mp matched).1
end Plain

end NfdTables
