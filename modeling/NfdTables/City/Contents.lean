import NfdTables.City.Hash32
import NfdTables.City.Hash128

namespace NfdTables.City
open Machine Footprint Words
variable {d p q s : Int} {len : Nat}

-- The same machine, with its memory moved down by `d`.
def carry (d : Int) (platform : Platform) : Platform := { platform with memory := fun p => platform.memory (p + d) }

abbrev Moved (d : Int) (one two : Reading α) : Prop := Together (carry d) Eq one two

theorem readByte_moved (place : q = p + d) : Moved d (readByte q) (readByte p) := by
  cases place
  intro platform
  show Alike Eq (readByte (p + d) platform) (readByte (p + d) platform)
  cases readByte (p + d) platform with
  | ok byte => exact .returned rfl
  | error fault => exact .faulted fault

theorem readBytes_moved (n : Nat) (place : q = p + d) : Moved d (readBytes n q) (readBytes n p) := by
  induction n generalizing p q with
  | zero => exact Together.pure rfl
  | succ n ih => exact (readByte_moved place).then fun byte => (ih (by omega)).then fun rest => Together.pure rfl

theorem fetch_moved (n : Nat) (place : q = p + d) : Moved d (fetch n q) (fetch n p) :=
  Together.then ((readBytes_moved n place).then fun _ _ => .returned rfl) fun _ _ => .returned rfl

theorem fetch64_moved (place : q = p + d) : Moved d (fetch64 q) (fetch64 p) := fetch_moved 8 place
theorem fetch32_moved (place : q = p + d) : Moved d (fetch32 q) (fetch32 p) := fetch_moved 4 place

section Hash32

-- States of the loops that differ in the pointer, by `d`.
def Below (d : Int) (one two : Int × α) : Prop := one.1 = two.1 + d ∧ one.2 = two.2

theorem blocks_moved {turn : Int × α → Reading (Turn (Int × α) ρ)} {results : ρ → ρ → Prop}
    (step : ∀ q rest, Together (carry d) (TurnsAlike (Below d) results) (turn (q + d,rest)) (turn (q,rest)))
    (s : Int) (rest : α) (fuel : Nat) : Together (carry d) results (rounds turn fuel (s + d,rest)) (rounds turn fuel (s,rest)) := by
  refine Together.loop (fun one two (below : Below d one two) => ?_) (show Below d (s + d,rest) (s,rest) from ⟨rfl,rfl⟩) fuel
  have moved : one = (two.1 + d,two.2) := Prod.ext below.1 below.2
  cases moved
  exact step two.1 two.2

theorem hash32Len13to24_moved (s : Int) (len : Nat) : Moved d (hash32Len13to24 (s + d) len) (hash32Len13to24 s len) :=
  (fetch32_moved (by omega)).then fun a => (fetch32_moved (by omega)).then fun b => (fetch32_moved (by omega)).then fun c =>
  (fetch32_moved (by omega)).then fun d => (fetch32_moved (by omega)).then fun e => (fetch32_moved (by omega)).then fun f => Together.pure rfl

theorem hash32Len5to12_moved (s : Int) (len : Nat) : Moved d (hash32Len5to12 (s + d) len) (hash32Len5to12 s len) :=
  (fetch32_moved (by omega)).then fun a => (fetch32_moved (by omega)).then fun b => (fetch32_moved (by omega)).then fun c => Together.pure rfl

theorem hash32Len0to4_moved (s : Int) (len : Nat) : Moved d (hash32Len0to4 (s + d) len) (hash32Len0to4 s len) := by
  refine Together.then (Together.loop (fun one two (same : one = two) => ?_) rfl (len + 1)) fun lanes => Together.pure rfl
  obtain ⟨i,b,c⟩ := one
  cases same
  rw [hash32Len0to4Turn,hash32Len0to4Turn]
  exact Together.ite (fun more => (readByte_moved (by omega)).then fun v => Together.pure (.onward rfl)) fun ended => Together.pure (.leave rfl)

theorem round32_moved (s : Int) (lanes : Lanes32) : Moved d (round32 (s + d) lanes) (round32 s lanes) :=
  (fetch32_moved (by omega)).then fun a0 => (fetch32_moved (by omega)).then fun a1 => (fetch32_moved (by omega)).then fun a2 =>
  (fetch32_moved (by omega)).then fun a3 => (fetch32_moved (by omega)).then fun a4 => Together.pure rfl

theorem begin32_moved (s : Int) (len : Nat) : Moved d (begin32 (s + d) len) (begin32 s len) :=
  (fetch32_moved (by omega)).then fun a0 => (fetch32_moved (by omega)).then fun a1 => (fetch32_moved (by omega)).then fun a2 =>
  (fetch32_moved (by omega)).then fun a3 => (fetch32_moved (by omega)).then fun a4 => Together.pure rfl

theorem blocks32_moved (s : Int) (iters : Nat) (lanes : Lanes32) (fuel : Nat) :
    Moved d (rounds hash32Turn fuel (s + d,iters,lanes)) (rounds hash32Turn fuel (s,iters,lanes)) := by
  refine blocks_moved (fun q rest => ?_) s _ fuel
  obtain ⟨iters,lanes⟩ := rest
  rw [hash32Turn,hash32Turn]
  refine (round32_moved q lanes).then fun lanes => Together.ite (fun more => ?_) fun ended => Together.pure (.leave rfl)
  exact Together.pure (.onward ⟨show q + d + 20 = q + 20 + d by omega,rfl⟩)

theorem cityHash32_moved (s : Int) (len : Nat) : Moved d (cityHash32 (s + d) len) (cityHash32 s len) := by
  rw [cityHash32,cityHash32]
  refine Together.ite (fun short => ?_) fun long => ?_
  · refine Together.ite (fun shorter => ?_) fun longer => hash32Len13to24_moved s len
    exact Together.ite (fun shortest => hash32Len0to4_moved s len) fun longer => hash32Len5to12_moved s len
  · exact (begin32_moved s len).then fun lanes => (blocks32_moved s _ lanes _).then fun lanes => Together.pure rfl

end Hash32

section Hash64

theorem hashLen0to16_moved (s : Int) (len : Nat) : Moved d (hashLen0to16 (s + d) len) (hashLen0to16 s len) := by
  rw [hashLen0to16,hashLen0to16]
  refine Together.ite (fun eight => ?_) fun fewer => Together.ite (fun four => ?_) fun fewer => Together.ite (fun some => ?_) fun none =>
    Together.pure rfl
  · exact (fetch64_moved (by omega)).then fun a => (fetch64_moved (by omega)).then fun b => Together.pure rfl
  · exact (fetch32_moved (by omega)).then fun a => (fetch32_moved (by omega)).then fun b => Together.pure rfl
  · exact (readByte_moved (by omega)).then fun a => (readByte_moved (by omega)).then fun b => (readByte_moved (by omega)).then fun c =>
      Together.pure rfl

theorem hashLen17to32_moved (s : Int) (len : Nat) : Moved d (hashLen17to32 (s + d) len) (hashLen17to32 s len) :=
  (fetch64_moved (by omega)).then fun a => (fetch64_moved (by omega)).then fun b => (fetch64_moved (by omega)).then fun c =>
  (fetch64_moved (by omega)).then fun d => Together.pure rfl

theorem weakHashLen32WithSeedsAt_moved (place : q = p + d) (a b : BitVec 64) :
    Moved d (weakHashLen32WithSeedsAt q a b) (weakHashLen32WithSeedsAt p a b) :=
  (fetch64_moved (by omega)).then fun w => (fetch64_moved (by omega)).then fun x => (fetch64_moved (by omega)).then fun y =>
  (fetch64_moved (by omega)).then fun z => Together.pure rfl

theorem hashLen33to64_moved (s : Int) (len : Nat) : Moved d (hashLen33to64 (s + d) len) (hashLen33to64 s len) :=
  (fetch64_moved (by omega)).then fun a => (fetch64_moved (by omega)).then fun b => (fetch64_moved (by omega)).then fun c =>
  (fetch64_moved (by omega)).then fun d => (fetch64_moved (by omega)).then fun e => (fetch64_moved (by omega)).then fun f =>
  (fetch64_moved (by omega)).then fun g => (fetch64_moved (by omega)).then fun h => Together.pure rfl

theorem round64_moved (place : q = p + d) (lanes : Lanes) : Moved d (round64 q lanes) (round64 p lanes) :=
  (fetch64_moved (by omega)).then fun one => (fetch64_moved (by omega)).then fun six => (fetch64_moved (by omega)).then fun five =>
  (weakHashLen32WithSeedsAt_moved place _ _).then fun v => (fetch64_moved (by omega)).then fun two =>
  (weakHashLen32WithSeedsAt_moved (by omega) _ _).then fun w => Together.pure rfl

theorem begin64_moved (s : Int) (len : Nat) : Moved d (begin64 (s + d) len) (begin64 s len) :=
  (fetch64_moved (by omega)).then fun x => (fetch64_moved (by omega)).then fun y1 => (fetch64_moved (by omega)).then fun y2 =>
  (fetch64_moved (by omega)).then fun z1 => (fetch64_moved (by omega)).then fun z2 =>
  (weakHashLen32WithSeedsAt_moved (by omega) _ _).then fun v => (weakHashLen32WithSeedsAt_moved (by omega) _ _).then fun w =>
  (fetch64_moved (by omega)).then fun x1 => Together.pure rfl

theorem blocks64_moved (s : Int) (len : Nat) (lanes : Lanes) (fuel : Nat) :
    Moved d (rounds hash64Turn fuel (s + d,len,lanes)) (rounds hash64Turn fuel (s,len,lanes)) := by
  refine blocks_moved (fun q rest => ?_) s _ fuel
  obtain ⟨left,lanes⟩ := rest
  rw [hash64Turn,hash64Turn]
  refine (round64_moved rfl lanes).then fun lanes => Together.ite (fun more => ?_) fun ended => Together.pure (.leave rfl)
  exact Together.pure (.onward ⟨show q + d + 64 = q + 64 + d by omega,rfl⟩)

theorem cityHash64_moved (s : Int) (len : Nat) : Moved d (cityHash64 (s + d) len) (cityHash64 s len) := by
  rw [cityHash64,cityHash64]
  refine Together.ite (fun short => ?_) fun long => Together.ite (fun short => hashLen33to64_moved s len) fun longer => ?_
  · exact Together.ite (fun shorter => hashLen0to16_moved s len) fun longer => hashLen17to32_moved s len
  · exact (begin64_moved s len).then fun lanes => (blocks64_moved s _ lanes _).then fun lanes => Together.pure rfl

end Hash64

section Hash128

theorem roundMurmur_moved (s : Int) (lanes : LanesMurmur) : Moved d (roundMurmur (s + d) lanes) (roundMurmur s lanes) :=
  (fetch64_moved (by omega)).then fun a => (fetch64_moved (by omega)).then fun c => Together.pure rfl

theorem blocksMurmur_moved (s l : Int) (lanes : LanesMurmur) (fuel : Nat) :
    Moved d (rounds murmurTurn fuel (s + d,l,lanes)) (rounds murmurTurn fuel (s,l,lanes)) := by
  refine blocks_moved (fun q rest => ?_) s _ fuel
  obtain ⟨left,lanes⟩ := rest
  rw [murmurTurn,murmurTurn]
  refine (roundMurmur_moved q lanes).then fun lanes => Together.ite (fun more => ?_) fun ended => Together.pure (.leave rfl)
  exact Together.pure (.onward ⟨show q + d + 16 = q + 16 + d by omega,rfl⟩)

theorem cityMurmur_moved (s : Int) (len : Nat) (seed : Uint128) : Moved d (cityMurmur (s + d) len seed) (cityMurmur s len seed) := by
  simp only [cityMurmur]
  refine Together.ite (fun short => ?_) fun long => ?_
  · refine (hashLen0to16_moved s len).then fun c => Together.ite (fun eight => ?_) fun fewer => ?_
    · exact (fetch64_moved rfl).then fun d => Together.pure rfl
    · exact Together.pure rfl
  · exact (fetch64_moved (by omega)).then fun c => (fetch64_moved (by omega)).then fun d =>
      (blocksMurmur_moved s _ _ _).then fun lanes => Together.pure rfl

theorem begin128_moved (s : Int) (len : Nat) (seed : Uint128) : Moved d (begin128 (s + d) len seed) (begin128 s len seed) :=
  (fetch64_moved (by omega)).then fun v1 => (fetch64_moved (by omega)).then fun v2 => (fetch64_moved (by omega)).then fun w2 =>
  Together.pure rfl

theorem blocks128_moved (s : Int) (len : Nat) (lanes : Lanes) (fuel : Nat) :
    Together (carry d) (Below d) (rounds hash128Turn fuel (s + d,len,lanes)) (rounds hash128Turn fuel (s,len,lanes)) := by
  refine blocks_moved (fun q rest => ?_) s _ fuel
  obtain ⟨left,lanes⟩ := rest
  have place : q + d + 64 + 64 = q + 64 + 64 + d := by omega
  rw [hash128Turn,hash128Turn]
  refine (round64_moved rfl lanes).then fun lanes => (round64_moved (by omega) lanes).then fun lanes => ?_
  exact Together.ite (fun more => Together.pure (.onward ⟨place,rfl⟩)) fun ended => Together.pure (.leave ⟨place,rfl⟩)

theorem tail_moved (s : Int) (len : Nat) (lanes : Lanes) (fuel : Nat) :
    Moved d (rounds (tailTurn (s + d) len) fuel (0,lanes)) (rounds (tailTurn s len) fuel (0,lanes)) := by
  refine Together.loop (fun one two (same : one = two) => ?_) rfl fuel
  obtain ⟨tailDone,x,y,z,v,w⟩ := one
  cases same
  rw [tailTurn,tailTurn]
  refine Together.ite (fun more => ?_) fun ended => Together.pure (.leave rfl)
  exact (fetch64_moved (by omega)).then fun w1 => (fetch64_moved (by omega)).then fun z1 =>
    (weakHashLen32WithSeedsAt_moved (by omega) _ _).then fun v => Together.pure (.onward rfl)

theorem cityHash128WithSeed_moved (s : Int) (len : Nat) (seed : Uint128) :
    Moved d (cityHash128WithSeed (s + d) len seed) (cityHash128WithSeed s len seed) := by
  rw [cityHash128WithSeed,cityHash128WithSeed]
  refine Together.ite (fun short => cityMurmur_moved s len seed) fun long => ?_
  refine (begin128_moved s len seed).then fun lanes => (blocks128_moved s len lanes _).bind fun one two below => ?_
  obtain ⟨q,left,lanes⟩ := two
  obtain ⟨_,_⟩ := one
  obtain ⟨rfl,rfl⟩ := below
  exact (tail_moved q left _ _).then fun lanes => Together.pure rfl

theorem cityHash128_moved (s : Int) (len : Nat) : Moved d (cityHash128 (s + d) len) (cityHash128 s len) := by
  have place : s + d + 16 = s + 16 + d := by omega
  rw [cityHash128,cityHash128]
  refine Together.ite (fun sixteen => ?_) fun fewer => cityHash128WithSeed_moved s len _
  rw [place]
  exact (fetch64_moved (by omega)).then fun low => (fetch64_moved (by omega)).then fun high => cityHash128WithSeed_moved _ _ _

end Hash128

section Contents
variable {platform other : Platform} {s t : Int}

theorem same_contents {hash : Int → Nat → Reading α} (reads : ∀ s len, ReadsAll (hash s len) (span s (s + len)))
    (moved : ∀ (d s : Int) (len : Nat), Moved d (hash (s + d) len) (hash s len)) (fair : platforms.fair platform)
    (fairOther : platforms.fair other) (same : ∀ i < len, platform.memory (s + i) = other.memory (t + i)) :
    hash s len platform = hash t len other := by
  have there : t = s + (t - s) := by omega
  have carried := ((moved (t - s) s len) other).same
  rw [← there] at carried
  rw [carried]
  refine (reads s len).decided fairOther fair fun p inside => ?_
  have byte := same (p - s).toNat (by obtain ⟨low,high⟩ := inside; omega)
  have here : s + (p - s).toNat = p := by obtain ⟨low,high⟩ := inside; omega
  have moved : t + (p - s).toNat = p + (t - s) := by obtain ⟨low,high⟩ := inside; omega
  rwa [here,moved] at byte

-- Neither where the bytes lie nor the byte order makes a difference.
theorem hashes_of_contents (fair : platforms.fair platform) (fairOther : platforms.fair other)
    (same : ∀ i < len, platform.memory (s + i) = other.memory (t + i)) :
    cityHash32 s len platform = cityHash32 t len other ∧ cityHash64 s len platform = cityHash64 t len other ∧
      cityHash128 s len platform = cityHash128 t len other :=
  ⟨same_contents cityHash32_reads (fun _ => cityHash32_moved) fair fairOther same,
    same_contents cityHash64_reads (fun _ => cityHash64_moved) fair fairOther same,
    same_contents cityHash128_reads (fun _ => cityHash128_moved) fair fairOther same⟩

theorem hashes_of_contents_30 : cityHash32 0 30 (counting true) = cityHash32 256 30 (counting false) ∧
    cityHash64 0 30 (counting true) = cityHash64 256 30 (counting false) ∧
    cityHash128 0 30 (counting true) = cityHash128 256 30 (counting false) :=
  hashes_of_contents rfl rfl (by decide)

end Contents

end NfdTables.City
