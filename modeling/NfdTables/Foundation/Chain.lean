import NfdTables.Foundation.Heap

namespace NfdTables.Chain
open Machine

-- The next pointer of each object: `none` where no object lives, `some none` where
-- the pointer is null.
abbrev Links := Nat → Option (Option Nat)

def links (heap : Heap α) (next : α → Option Nat) : Links := fun key => (heap.read key).map next

-- The objects in order, the last one pointing to `stop`.
def Seg (next : Links) : List Nat → Option Nat → Prop
  | [],_ => True
  | key :: rest,stop => next key = some (rest.head?.or stop) ∧ Seg next rest stop

-- The back pointers of the objects in order, `before` being the first one's.
def Back (prev : Links) : Option Nat → List Nat → Prop
  | _,[] => True
  | before,key :: rest => prev key = some before ∧ Back prev (some key) rest

-- As `Back`, with nothing said about the first object's pointer.
def BackTail (prev : Links) : List Nat → Prop
  | [] => True
  | key :: rest => Back prev (some key) rest

theorem Seg.congr (agree : ∀ key ∈ keys, after key = before key) (seg : Seg before keys stop) :
    Seg after keys stop := by
  induction keys with
  | nil => trivial
  | cons key rest ih =>
    exact ⟨(agree key (by simp)).trans seg.1,ih (fun other member => agree other (by simp [member])) seg.2⟩

theorem Back.congr (agree : ∀ key ∈ keys, after key = before key) (back : Back before first keys) :
    Back after first keys := by
  induction keys generalizing first with
  | nil => trivial
  | cons key rest ih =>
    exact ⟨(agree key (by simp)).trans back.1,ih (fun other member => agree other (by simp [member])) back.2⟩

theorem BackTail.congr (agree : ∀ key ∈ keys, after key = before key) (back : BackTail before keys) :
    BackTail after keys := by
  cases keys with
  | nil => trivial
  | cons key rest => exact Back.congr (fun other member => agree other (by simp [member])) back

theorem seg_append : Seg next (earlier ++ later) stop ↔
    Seg next earlier (later.head?.or stop) ∧ Seg next later stop := by
  induction earlier with
  | nil => simp [Seg]
  | cons key rest ih => cases rest <;> simp_all [Seg,and_assoc]

theorem back_append : Back prev before (earlier ++ later) ↔
    Back prev before earlier ∧ Back prev (earlier.getLast?.or before) later := by
  induction earlier generalizing before with
  | nil => simp [Back]
  | cons key rest ih =>
    simp only [List.cons_append,Back,ih,and_assoc]
    cases rest <;> simp [List.getLast?_cons]

theorem Back.tail (back : Back prev before keys) : BackTail prev keys := by
  cases keys with
  | nil => trivial
  | cons key rest => exact back.2

theorem backTail_iff : BackTail prev (key :: rest) ↔ Back prev (some key) rest := Iff.rfl

theorem Seg.redirect (seg : Seg before keys stop) (nodup : keys.Nodup)
    (inner : ∀ key ∈ keys, keys.getLast? ≠ some key → after key = before key)
    (outer : ∀ key, keys.getLast? = some key → after key = some target) : Seg after keys target := by
  induction keys with
  | nil => trivial
  | cons key rest ih =>
    obtain ⟨here,further⟩ := seg
    obtain ⟨fresh,nodup⟩ := List.nodup_cons.mp nodup
    cases rest with
    | nil => exact ⟨outer key rfl,trivial⟩
    | cons second rest =>
      refine ⟨?_,ih further nodup ?_ ?_⟩
      · have notLast : (key :: second :: rest).getLast? ≠ some key := by
          intro last
          rw [List.getLast?_cons_cons] at last
          exact fresh (List.mem_of_getLast? last)
        rw [inner key (by simp) notLast,here]
        simp
      · intro other member notLast
        exact inner other (by simp [member]) (by rwa [List.getLast?_cons_cons])
      · intro other last
        exact outer other (by rwa [List.getLast?_cons_cons])

section Walk
variable {α σ ρ : Type}

-- `for (p = start; p != 0; p = p->next) body`
def forChain (heap : Heap α) (next : α → Option Nat) (body : σ → Nat → α → Exec (Turn σ ρ)) :
    Nat → Option Nat → σ → Exec (Turn σ ρ)
  | _,none,s => .ok (.onward s)
  | 0,some _,_ => .error .endless
  | fuel+1,some p,s => do
    let object ← heap.fetch p
    match ← body s p object with
    | .leave result => return .leave result
    | .onward s => forChain heap next body fuel (next object) s

def forNodes (heap : Heap α) (body : σ → Nat → α → Exec (Turn σ ρ)) : List Nat → σ → Exec (Turn σ ρ)
  | [],s => .ok (.onward s)
  | p :: rest,s => do
    let object ← heap.fetch p
    match ← body s p object with
    | .leave result => return .leave result
    | .onward s => forNodes heap body rest s

theorem forChain_nodes {heap : Heap α} {body : σ → Nat → α → Exec (Turn σ ρ)}
    (seg : Seg (links heap next) keys none) (fits : keys.length ≤ fuel) (s : σ) :
    forChain heap next body fuel keys.head? s = forNodes heap body keys s := by
  induction keys generalizing fuel s with
  | nil => cases fuel <;> rfl
  | cons key rest ih =>
    obtain ⟨fuel,rfl⟩ : ∃ smaller, fuel = smaller + 1 := ⟨fuel - 1,by simp only [List.length_cons] at fits; omega⟩
    obtain ⟨here,further⟩ := seg
    obtain ⟨object,live,points⟩ := Option.map_eq_some_iff.mp here
    have later : ∀ s, forChain heap next body fuel rest.head? s = forNodes heap body rest s :=
      fun s => ih further (by simpa using fits) s
    rw [Option.or_none] at points
    simp only [List.head?_cons,forChain,forNodes,Heap.fetch_live live,ok_bind,points]
    cases body s key object with
    | error fault => rfl
    | ok flow => cases flow with
      | leave result => rfl
      | onward s => exact later s

theorem chain_live {heap : Heap α} (seg : Seg (links heap next) keys stop) :
    ∀ key ∈ keys, (heap.read key).isSome := by
  induction keys with
  | nil => simp
  | cons key rest ih =>
    intro other member
    rcases List.mem_cons.mp member with rfl | later
    · obtain ⟨object,live,_⟩ := Option.map_eq_some_iff.mp seg.1
      simp [live]
    · exact ih seg.2 other later

theorem chain_fits {heap : Heap α} (seg : Seg (links heap next) keys stop) (nodup : keys.Nodup) :
    keys.length ≤ heap.size := Heap.length_le_size nodup (chain_live seg)

-- The objects behind `start`, as far as the fuel goes.
def follow (heap : Heap α) (next : α → Option Nat) : Nat → Option Nat → List Nat
  | fuel+1,some p => p :: follow heap next fuel ((heap.read p).bind next)
  | _,_ => []

theorem follow_seg {heap : Heap α} (seg : Seg (links heap next) keys none) (fits : keys.length ≤ fuel) :
    follow heap next fuel keys.head? = keys := by
  induction keys generalizing fuel with
  | nil => cases fuel <;> rfl
  | cons key rest ih =>
    obtain ⟨fuel,rfl⟩ : ∃ smaller, fuel = smaller + 1 := ⟨fuel - 1,by simp only [List.length_cons] at fits; omega⟩
    obtain ⟨object,live,points⟩ := Option.map_eq_some_iff.mp seg.1
    rw [Option.or_none] at points
    rw [List.head?_cons,follow,live,Option.bind_some,points,ih seg.2 (by simpa using fits)]

theorem links_write {heap : Heap α} (live : heap.read key = some old) (next : α → Option Nat) (value : α) (other : Nat) :
    links (heap.write key value) next other = if other = key then some (next value) else links heap next other := by
  simp only [links,Heap.read_write live]
  split <;> rfl

end Walk

end NfdTables.Chain
