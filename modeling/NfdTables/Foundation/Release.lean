import NfdTables.Foundation.ChainTable

namespace NfdTables.Chain
open Machine
variable {α : Type}

-- `delete` of an object whose destructor does nothing. Deleting twice is a fault.
def releaseOne (heap : Heap α) (key : Nat) : Exec (Heap α) := do
  let _ ← heap.fetch key
  return heap.free key

-- `delete` of an object whose destructor deletes the next one.
def releaseChain (next : α → Option Nat) : Nat → Heap α → Option Nat → Exec (Heap α)
  | _,heap,none => .ok heap
  | 0,_,some _ => .error .endless
  | fuel+1,heap,some key => do
    let object ← heap.fetch key
    let heap ← releaseChain next fuel heap (next object)
    return heap.free key

-- `if (slot != 0) delete slot` for every slot of an array.
def releaseSlots (release : Heap α → Nat → Exec (Heap α)) : List (Option Nat) → Heap α → Exec (Heap α)
  | [],heap => .ok heap
  | none :: rest,heap => releaseSlots release rest heap
  | some key :: rest,heap => do
    let heap ← release heap key
    releaseSlots release rest heap

def Released (heap after : Heap α) (gone : List Nat) : Prop :=
  ∀ key, after.read key = if key ∈ gone then none else heap.read key

theorem Released.links {heap after : Heap α} (released : Released heap after gone) (next : α → Option Nat) (kept : key ∉ gone) :
    links after next key = links heap next key := by
  unfold Chain.links
  rw [released key,if_neg kept]

theorem Released.trans {heap middle after : Heap α} (one : Released heap middle earlier) (two : Released middle after later) :
    Released heap after (earlier ++ later) := by
  intro key
  rw [two key,one key]
  by_cases inEarlier : key ∈ earlier <;> by_cases inLater : key ∈ later <;> simp [inEarlier,inLater]

theorem releaseOne_spec {heap : Heap α} (live : (heap.read key).isSome) :
    ∃ after, releaseOne heap key = .ok after ∧ Released heap after [key] := by
  obtain ⟨object,read⟩ := Option.isSome_iff_exists.mp live
  refine ⟨heap.free key,by simp [releaseOne,Heap.fetch_live read],fun other => ?_⟩
  rw [Heap.read_free]
  simp

-- Induction on the chain, from its end: the first object goes last.
theorem releaseChain_spec {heap : Heap α} {next : α → Option Nat} (seg : Seg (links heap next) keys none)
    (fits : keys.length ≤ fuel) : ∃ after, releaseChain next fuel heap keys.head? = .ok after ∧ Released heap after keys := by
  induction keys generalizing fuel with
  | nil =>
    refine ⟨heap,?_,fun key => by simp⟩
    cases fuel <;> rfl
  | cons key rest ih =>
    obtain ⟨fuel,rfl⟩ : ∃ smaller, fuel = smaller + 1 := ⟨fuel - 1,by simp only [List.length_cons] at fits; omega⟩
    obtain ⟨object,live,points⟩ := Option.map_eq_some_iff.mp seg.1
    rw [Option.or_none] at points
    obtain ⟨after,ran,released⟩ := ih seg.2 (by simpa using fits)
    refine ⟨after.free key,?_,fun other => ?_⟩
    · simp only [List.head?_cons,releaseChain,Heap.fetch_live live,ok_bind,points,ran]
      rfl
    · rw [Heap.read_free,released other]
      by_cases same : other = key <;> simp [same]

theorem releaseSlots_spec {heap : Heap α} {next : α → Option Nat} {chains : List (List Nat)} (gone : List Nat → List Nat)
    {release : Heap α → Nat → Exec (Heap α)} (within : ∀ chain, ∀ key ∈ gone chain, key ∈ chain) (empty : gone [] = [])
    (linked : ∀ chain ∈ chains, Seg (links heap next) chain none) (disjoint : chains.flatten.Nodup)
    (releases : ∀ heap : Heap α, ∀ key rest, Seg (links heap next) (key :: rest) none → (key :: rest).Nodup →
      ∃ after, release heap key = .ok after ∧ Released heap after (gone (key :: rest))) :
    ∃ after, releaseSlots release (chains.map List.head?) heap = .ok after ∧ Released heap after (chains.flatMap gone) := by
  induction chains generalizing heap with
  | nil => exact ⟨heap,rfl,fun key => by simp⟩
  | cons chain others ih =>
    rw [List.flatten_cons,List.nodup_append] at disjoint
    obtain ⟨nodup,later,apart⟩ := disjoint
    cases chain with
    | nil =>
      obtain ⟨after,ran,released⟩ := ih (fun other member => linked other (by simp [member])) later
      exact ⟨after,ran,by simpa [empty] using released⟩
    | cons key rest =>
      obtain ⟨middle,ranOne,releasedOne⟩ := releases heap key rest (linked _ (by simp)) nodup
      have still : ∀ other ∈ others, Seg (links middle next) other none := by
        intro other member
        refine (linked other (by simp [member])).congr fun key' inside => ?_
        refine releasedOne.links next fun taken => ?_
        exact apart key' (within _ key' taken) key' (List.mem_flatten.mpr ⟨other,member,inside⟩) rfl
      obtain ⟨after,ran,released⟩ := ih still later
      exact ⟨after,by rw [List.map_cons,List.head?_cons,releaseSlots,ranOne,ok_bind,ran],releasedOne.trans released⟩

section Live

def liveKeys (heap : Heap α) : List Nat := (List.range heap.size).filter fun key => (heap.read key).isSome

theorem mem_liveKeys {heap : Heap α} : key ∈ liveKeys heap ↔ (heap.read key).isSome := by
  rw [liveKeys,List.mem_filter,List.mem_range]
  refine ⟨And.right,fun here => ⟨?_,here⟩⟩
  obtain ⟨object,read⟩ := Option.isSome_iff_exists.mp here
  exact Heap.live_bound read

theorem liveKeys_nodup (heap : Heap α) : (liveKeys heap).Nodup := List.nodup_range.filter _
end Live

end NfdTables.Chain
