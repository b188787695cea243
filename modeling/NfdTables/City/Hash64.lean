import NfdTables.City.Fetch

namespace NfdTables.City
open Machine Footprint Words

def k0 : BitVec 64 := 0xc3a5c85c97cb3127
def k1 : BitVec 64 := 0xb492b66fbe98f273
def k2 : BitVec 64 := 0x9ae16a3b2f90404f

def kMul : BitVec 64 := 0x9ddfea08eb382d69

abbrev Uint128 := BitVec 64 × BitVec 64

def hash128to64 (x : Uint128) : BitVec 64 :=
  let a := (x.1 ^^^ x.2) * kMul
  let a := a ^^^ (a >>> 47)
  let b := (x.2 ^^^ a) * kMul
  let b := b ^^^ (b >>> 47)
  b * kMul

def rotate (val : BitVec 64) (shift : Nat) : BitVec 64 :=
  if shift = 0 then val else (val >>> shift) ||| (val <<< (64 - shift))

def shiftMix (val : BitVec 64) : BitVec 64 := val ^^^ (val >>> 47)

def hashLen16 (u v : BitVec 64) : BitVec 64 := hash128to64 (u,v)

def hashLen16Mul (u v mul : BitVec 64) : BitVec 64 :=
  let a := (u ^^^ v) * mul
  let a := a ^^^ (a >>> 47)
  let b := (v ^^^ a) * mul
  let b := b ^^^ (b >>> 47)
  b * mul

abbrev size (len : Nat) : BitVec 64 := BitVec.ofNat 64 len

def hashLen0to16 (s : Int) (len : Nat) : Reading (BitVec 64) :=
  if len ≥ 8 then do
    let mul := k2 + size len * 2
    let a := (← fetch64 s) + k2
    let b ← fetch64 (s + len - 8)
    let c := rotate b 37 * mul + a
    let d := (rotate a 25 + b) * mul
    return hashLen16Mul c d mul
  else if len ≥ 4 then do
    let mul := k2 + size len * 2
    let a := (← fetch32 s).setWidth 64
    return hashLen16Mul (size len + (a <<< 3)) ((← fetch32 (s + len - 4)).setWidth 64) mul
  else if len > 0 then do
    let a ← readByte s
    let b ← readByte (s + (len / 2 : Nat))
    let c ← readByte (s + len - 1)
    let y := a.setWidth 32 + (b.setWidth 32 <<< 8)
    let z := BitVec.ofNat 32 len + (c.setWidth 32 <<< 2)
    return shiftMix (y.setWidth 64 * k2 ^^^ z.setWidth 64 * k0) * k2
  else return k2

def hashLen17to32 (s : Int) (len : Nat) : Reading (BitVec 64) := do
  let mul := k2 + size len * 2
  let a := (← fetch64 s) * k1
  let b ← fetch64 (s + 8)
  let c := (← fetch64 (s + len - 8)) * mul
  let d := (← fetch64 (s + len - 16)) * k2
  return hashLen16Mul (rotate (a + b) 43 + rotate c 30 + d) (a + rotate (b + k2) 18 + c) mul

-- Returns a 16-byte hash for 48 bytes.
def weakHashLen32WithSeeds (w x y z a b : BitVec 64) : Uint128 :=
  let a := a + w
  let b := rotate (b + a + z) 21
  let c := a
  let a := a + x
  let a := a + y
  let b := b + rotate a 44
  (a + z,b + c)

def weakHashLen32WithSeedsAt (s : Int) (a b : BitVec 64) : Reading Uint128 := do
  let w ← fetch64 s
  let x ← fetch64 (s + 8)
  let y ← fetch64 (s + 16)
  let z ← fetch64 (s + 24)
  return weakHashLen32WithSeeds w x y z a b

def hashLen33to64 (s : Int) (len : Nat) : Reading (BitVec 64) := do
  let mul := k2 + size len * 2
  let a := (← fetch64 s) * k2
  let b ← fetch64 (s + 8)
  let c ← fetch64 (s + len - 24)
  let d ← fetch64 (s + len - 32)
  let e := (← fetch64 (s + 16)) * k2
  let f := (← fetch64 (s + 24)) * 9
  let g ← fetch64 (s + len - 8)
  let h := (← fetch64 (s + len - 16)) * mul
  let u := rotate (a + g) 43 + (rotate b 30 + c) * 9
  let v := ((a + g) ^^^ d) + f + 1
  let w := bswap64 ((u + v) * mul) + h
  let x := rotate (e + f) 42 + c
  let y := (bswap64 ((v + w) * mul) + g) * mul
  let z := e + f + c
  let a := bswap64 ((x + z) * mul + y) + b
  let b := shiftMix ((z + a) * mul + d + h) * mul
  return b + x

-- The 56 bytes of state of the loops.
structure Lanes where
  x : BitVec 64
  y : BitVec 64
  z : BitVec 64
  v : Uint128
  w : Uint128
deriving DecidableEq

-- The body of the loop of cityHash64, over the 64 bytes at `s`.
def round64 (s : Int) (lanes : Lanes) : Reading Lanes := do
  let ⟨x,y,z,v,w⟩ := lanes
  let x := rotate (x + y + v.1 + (← fetch64 (s + 8))) 37 * k1
  let y := rotate (y + v.2 + (← fetch64 (s + 48))) 42 * k1
  let x := x ^^^ w.2
  let y := y + (v.1 + (← fetch64 (s + 40)))
  let z := rotate (z + w.1) 33 * k1
  let v ← weakHashLen32WithSeedsAt s (v.2 * k1) (x + w.1)
  let w ← weakHashLen32WithSeedsAt (s + 32) (z + w.2) (y + (← fetch64 (s + 16)))
  return ⟨z,y,x,v,w⟩

-- `do { .. s += 64; len -= 64; } while (len != 0)`
def hash64Turn : Int × Nat × Lanes → Reading (Turn (Int × Nat × Lanes) Lanes)
  | (s,len,lanes) => do
    let lanes ← round64 s lanes
    let len := len - 64
    if len ≠ 0 then return .onward (s + 64,len,lanes) else return .leave lanes

def begin64 (s : Int) (len : Nat) : Reading Lanes := do
  let x ← fetch64 (s + len - 40)
  let y := (← fetch64 (s + len - 16)) + (← fetch64 (s + len - 56))
  let z := hashLen16 ((← fetch64 (s + len - 48)) + size len) (← fetch64 (s + len - 24))
  let v ← weakHashLen32WithSeedsAt (s + len - 64) (size len) z
  let w ← weakHashLen32WithSeedsAt (s + len - 32) (y + k1) x
  let x := x * k1 + (← fetch64 s)
  return ⟨x,y,z,v,w⟩

def finish64 : Lanes → BitVec 64
  | ⟨x,y,z,v,w⟩ => hashLen16 (hashLen16 v.1 w.1 + shiftMix y * k1 + z) (hashLen16 v.2 w.2 + x)

-- The length goes down to a multiple of 64 for the loop.
def cityHash64 (s : Int) (len : Nat) : Reading (BitVec 64) :=
  if len ≤ 32 then
    if len ≤ 16 then hashLen0to16 s len else hashLen17to32 s len
  else if len ≤ 64 then hashLen33to64 s len
  else do
    let lanes ← begin64 s len
    let len := (len - 1) / 64 * 64
    let lanes ← rounds hash64Turn len (s,len,lanes)
    return finish64 lanes

def cityHash64WithSeeds (s : Int) (len : Nat) (seed0 seed1 : BitVec 64) : Reading (BitVec 64) := do
  let hash ← cityHash64 s len
  return hashLen16 (hash - seed0) seed1

def cityHash64WithSeed (s : Int) (len : Nat) (seed : BitVec 64) : Reading (BitVec 64) := cityHash64WithSeeds s len k2 seed

section Footprints
variable {s : Int} {len : Nat}

theorem hashLen0to16_reads (short : len ≤ 16) : ReadsAll (hashLen0to16 s len) (span s (s + len)) := by
  rw [hashLen0to16]
  refine Reads.ite (fun eight => ?_) fun fewer => Reads.ite (fun four => ?_) fun fewer => Reads.ite (fun some => ?_) fun none => ?_
  · refine Reads.across ((fetch64_reads _).bind fun a _ => (fetch64_reads _).bind fun b _ => Reads.pure _ trivial) fun p => ?_
    simp only [Set.mem_union,mem_span,Set.mem_empty_iff_false,or_false]
    omega
  · refine Reads.across ((fetch32_reads _).bind fun a _ => (fetch32_reads _).bind fun b _ => Reads.pure _ trivial) fun p => ?_
    simp only [Set.mem_union,mem_span,Set.mem_empty_iff_false,or_false]
    omega
  · refine Reads.across ((readByte_reads _).bind fun a _ => (readByte_reads _).bind fun b _ => (readByte_reads _).bind fun c _ =>
      Reads.pure _ trivial) fun p => ?_
    simp only [Set.mem_union,Set.mem_singleton_iff,mem_span,Set.mem_empty_iff_false,or_false]
    omega
  · refine Reads.across (Reads.pure _ trivial) fun p => ?_
    simp only [mem_span,Set.mem_empty_iff_false,iff_false]
    omega

theorem hashLen17to32_reads (long : 16 < len) (short : len ≤ 32) : ReadsAll (hashLen17to32 s len) (span s (s + len)) := by
  refine Reads.across ((fetch64_reads _).bind fun a _ => (fetch64_reads _).bind fun b _ => (fetch64_reads _).bind fun c _ =>
    (fetch64_reads _).bind fun d _ => Reads.pure _ trivial) fun p => ?_
  simp only [Set.mem_union,mem_span,Set.mem_empty_iff_false,or_false]
  omega

theorem weakHashLen32WithSeedsAt_reads (s : Int) (a b : BitVec 64) :
    ReadsAll (weakHashLen32WithSeedsAt s a b) (span s (s + 32)) := by
  refine Reads.across ((fetch64_reads _).bind fun w _ => (fetch64_reads _).bind fun x _ => (fetch64_reads _).bind fun y _ =>
    (fetch64_reads _).bind fun z _ => Reads.pure _ trivial) fun p => ?_
  simp only [Set.mem_union,mem_span,Set.mem_empty_iff_false,or_false]
  omega

theorem hashLen33to64_reads (long : 32 < len) (short : len ≤ 64) : ReadsAll (hashLen33to64 s len) (span s (s + len)) := by
  refine Reads.across ((fetch64_reads _).bind fun a _ => (fetch64_reads _).bind fun b _ => (fetch64_reads _).bind fun c _ =>
    (fetch64_reads _).bind fun d _ => (fetch64_reads _).bind fun e _ => (fetch64_reads _).bind fun f _ =>
    (fetch64_reads _).bind fun g _ => (fetch64_reads _).bind fun h _ => Reads.pure _ trivial) fun p => ?_
  simp only [Set.mem_union,mem_span,Set.mem_empty_iff_false,or_false]
  omega

theorem round64_reads (s : Int) (lanes : Lanes) : ReadsAll (round64 s lanes) (span s (s + 64)) := by
  refine Reads.across ((fetch64_reads _).bind fun one _ => (fetch64_reads _).bind fun six _ => (fetch64_reads _).bind fun five _ =>
    (weakHashLen32WithSeedsAt_reads _ _ _).bind fun v _ => (fetch64_reads _).bind fun two _ =>
    (weakHashLen32WithSeedsAt_reads _ _ _).bind fun w _ => Reads.pure _ trivial) fun p => ?_
  simp only [Set.mem_union,mem_span,Set.mem_empty_iff_false,or_false]
  omega

theorem begin64_reads (s : Int) (len : Nat) : ReadsAll (begin64 s len) (span (s + len - 64) (s + len) ∪ span s (s + 8)) := by
  refine Reads.across ((fetch64_reads _).bind fun x _ => (fetch64_reads _).bind fun y1 _ => (fetch64_reads _).bind fun y2 _ =>
    (fetch64_reads _).bind fun z1 _ => (fetch64_reads _).bind fun z2 _ => (weakHashLen32WithSeedsAt_reads _ _ _).bind fun v _ =>
    (weakHashLen32WithSeedsAt_reads _ _ _).bind fun w _ => (fetch64_reads _).bind fun x1 _ => Reads.pure _ trivial) fun p => ?_
  simp only [Set.mem_union,mem_span,Set.mem_empty_iff_false,or_false]
  omega

theorem blocks64_reads (s : Int) (n : Nat) (lanes : Lanes) :
    ReadsAll (rounds hash64Turn (64 * (n + 1)) (s,64 * (n + 1),lanes)) (span s (s + (64 * (n + 1) : Nat))) := by
  have step : ∀ n state, state.2.1 = 64 * (n + 1) → Reads platforms (hash64Turn state) (span state.1 (state.1 + (64 : Nat)))
      (Continues (fun m next => next.2.1 = 64 * (m + 1) ∧ next.1 = state.1 + (64 : Nat)) Anything n) := by
    intro n state count
    obtain ⟨q,left,now⟩ := state
    obtain rfl : left = 64 * (n + 1) := count
    have less : 64 * (n + 1) - 64 = 64 * n := by omega
    simp only [hash64Turn,less]
    refine Reads.across ((round64_reads q now).bind fun lanes _ => Reads.ite (fun more => Reads.onward ⟨n - 1,by omega,?_⟩)
      fun last => Reads.leave (by omega) trivial) fun p => by simp
    exact ⟨show 64 * n = 64 * (n - 1 + 1) by omega,rfl⟩
  exact blocks_reads 64 Prod.fst (fun n state => state.2.1 = 64 * (n + 1)) Anything step (s:=(s,64 * (n + 1),lanes)) rfl (by omega)

theorem cityHash64_reads (s : Int) (len : Nat) : ReadsAll (cityHash64 s len) (span s (s + len)) := by
  rw [cityHash64]
  refine Reads.ite (fun short => ?_) fun long => Reads.ite (fun short => hashLen33to64_reads (by omega) short) fun longer => ?_
  · exact Reads.ite (fun shorter => hashLen0to16_reads shorter) fun longer => hashLen17to32_reads (by omega) short
  · obtain ⟨n,whole⟩ : ∃ n, (len - 1) / 64 = n + 1 := ⟨(len - 1) / 64 - 1,by omega⟩
    rw [whole,Nat.mul_comm (n + 1)]
    refine Reads.across ((begin64_reads s len).bind fun lanes _ => (blocks64_reads s n lanes).bind fun lanes _ =>
      Reads.pure _ trivial) fun p => ?_
    simp only [Set.mem_union,mem_span,Set.mem_empty_iff_false,or_false]
    omega

end Footprints

section Seeds
variable {x y u v : BitVec 64}

theorem kMul_odd : kMul.toNat % 2 = 1 := by decide

theorem hashLen16_inj : hashLen16 u v = hashLen16 x v ↔ u = x := by
  show xorShift 47 ((v ^^^ xorShift 47 ((u ^^^ v) * kMul)) * kMul) * kMul =
    xorShift 47 ((v ^^^ xorShift 47 ((x ^^^ v) * kMul)) * kMul) * kMul ↔ u = x
  rw [mul_odd_inj kMul_odd,xorShift_inj (by decide),mul_odd_inj kMul_odd,BitVec.xor_right_inj,xorShift_inj (by decide),
    mul_odd_inj kMul_odd,BitVec.xor_left_inj]

theorem seeded_inj (seed0 seed1 : BitVec 64) : Function.Injective fun hash => hashLen16 (hash - seed0) seed1 := by
  intro one two same
  exact (BitVec.sub_left_inj _).mp (hashLen16_inj.mp same)

-- Inputs that collide under some pair of seeds collide under every pair, and without.
theorem cityHash64WithSeeds_collide (s t : Int) (len m : Nat) (seed0 seed1 : BitVec 64) (platform other : Platform) :
    cityHash64WithSeeds s len seed0 seed1 platform = cityHash64WithSeeds t m seed0 seed1 other ↔
      cityHash64 s len platform = cityHash64 t m other := by
  simp only [cityHash64WithSeeds,ReaderT.bind,Bind.bind,Except.bind]
  cases cityHash64 s len platform with
  | error fault => cases cityHash64 t m other with
    | error fault' => rfl
    | ok hash' => exact ⟨nofun,nofun⟩
  | ok hash => cases cityHash64 t m other with
    | error fault' => exact ⟨nofun,nofun⟩
    | ok hash' =>
      simp only [Except.ok.injEq]
      constructor
      · intro same
        exact seeded_inj seed0 seed1 (Except.ok.inj same)
      · intro same
        cases same
        rfl
end Seeds

section Merging
variable {x y a b a' b' : BitVec 64} {lanes other : Lanes} {platform : Platform} {s : Int}

theorem rotate_eq (within : shift < 64) : rotate x shift = x.rotateRight shift := by
  rw [rotate,BitVec.rotateRight_def,Nat.mod_eq_of_lt within]
  by_cases none : shift = 0
  · cases none
    simp
  · rw [if_neg none]

theorem rotate_inj (within : shift < 64) : rotate x shift = rotate y shift ↔ x = y := by
  rw [rotate_eq within,rotate_eq within,rotateRight_inj within]

theorem k1_odd : k1.toNat % 2 = 1 := by decide

theorem weakHashLen32_inj : weakHashLen32WithSeeds w0 w1 w2 w3 a b = weakHashLen32WithSeeds w0 w1 w2 w3 a' b' ↔ a = a' ∧ b = b' := by
  simp only [weakHashLen32WithSeeds,Prod.mk.injEq,BitVec.add_left_inj]
  constructor
  · intro same
    obtain ⟨rfl,same⟩ := same
    simp only [BitVec.add_left_inj,rotate_inj (show 21 < 64 by decide)] at same
    exact ⟨rfl,same⟩
  · intro same
    obtain ⟨rfl,rfl⟩ := same
    exact ⟨rfl,rfl⟩

-- What round64 does once it has its eight words.
def mix64 (w0 w1 w2 w3 w4 w5 w6 w7 : BitVec 64) : Lanes → Lanes
  | ⟨x,y,z,v,w⟩ =>
    let x := rotate (x + y + v.1 + w1) 37 * k1 ^^^ w.2
    let y := rotate (y + v.2 + w6) 42 * k1 + (v.1 + w5)
    let z := rotate (z + w.1) 33 * k1
    ⟨z,y,x,weakHashLen32WithSeeds w0 w1 w2 w3 (v.2 * k1) (x + w.1),weakHashLen32WithSeeds w4 w5 w6 w7 (z + w.2) (y + w2)⟩

theorem mix64_same : mix64 w0 w1 w2 w3 w4 w5 w6 w7 lanes = mix64 w0 w1 w2 w3 w4 w5 w6 w7 other ↔
    lanes.z = other.z ∧ lanes.w = other.w ∧ lanes.v.2 = other.v.2 ∧ lanes.x + lanes.y + lanes.v.1 = other.x + other.y + other.v.1 ∧
      rotate (lanes.y + lanes.v.2 + w6) 42 * k1 + lanes.v.1 = rotate (other.y + other.v.2 + w6) 42 * k1 + other.v.1 := by
  obtain ⟨x,y,z,⟨v1,v2⟩,w1,w2⟩ := lanes
  obtain ⟨x',y',z',⟨v1',v2'⟩,w1',w2'⟩ := other
  simp only [mix64,Lanes.mk.injEq,Prod.mk.injEq,weakHashLen32_inj,mul_odd_inj k1_odd,BitVec.add_left_inj,← BitVec.add_assoc,
    rotate_inj (show 33 < 64 by decide)]
  constructor
  · intro same
    obtain ⟨sameZ,sameY,sameX,⟨rfl,sameW1⟩,sameW2,_⟩ := same
    rw [sameX,BitVec.add_right_inj] at sameW1
    cases sameW1
    rw [BitVec.add_left_inj] at sameZ
    cases sameZ
    rw [BitVec.add_right_inj] at sameW2
    cases sameW2
    rw [BitVec.xor_left_inj,mul_odd_inj k1_odd,rotate_inj (by decide),BitVec.add_left_inj] at sameX
    exact ⟨rfl,⟨rfl,rfl⟩,rfl,sameX,sameY⟩
  · intro same
    obtain ⟨rfl,⟨rfl,rfl⟩,rfl,sameX,sameY⟩ := same
    rw [sameX,sameY]
    exact ⟨rfl,rfl,rfl,⟨rfl,rfl⟩,rfl,rfl⟩

-- The state with the given y that goes where the lanes go.
def merge64 (w6 : BitVec 64) (lanes : Lanes) (y : BitVec 64) : Lanes :=
  let v1 := rotate (lanes.y + lanes.v.2 + w6) 42 * k1 + lanes.v.1 - rotate (y + lanes.v.2 + w6) 42 * k1
  ⟨lanes.x + lanes.y + lanes.v.1 - v1 - y,y,lanes.z,(v1,lanes.v.2),lanes.w⟩

theorem mix64_merge : mix64 w0 w1 w2 w3 w4 w5 w6 w7 lanes = mix64 w0 w1 w2 w3 w4 w5 w6 w7 other ↔ lanes = merge64 w6 other lanes.y := by
  obtain ⟨x,y,z,⟨v1,v2⟩,w1,w2⟩ := lanes
  obtain ⟨x',y',z',⟨v1',v2'⟩,w1',w2'⟩ := other
  simp only [mix64_same,merge64,Lanes.mk.injEq,Prod.mk.injEq,true_and]
  constructor
  · intro same
    obtain ⟨rfl,⟨rfl,rfl⟩,rfl,sameX,sameY⟩ := same
    rw [← sameX,← sameY]
    grind
  · intro same
    obtain ⟨rfl,rfl,⟨rfl,rfl⟩,rfl,rfl⟩ := same
    grind

theorem round64_ran (fair : platforms.fair platform) (readable : Readable platform s 64) : ∃ w0 w1 w2 w3 w4 w5 w6 w7,
    ∀ lanes, round64 s lanes platform = .ok (mix64 w0 w1 w2 w3 w4 w5 w6 w7 lanes) := by
  obtain ⟨w0,fetched0⟩ := readable.returns fair (fetch64_reads s) (by omega) (by omega)
  obtain ⟨w1,fetched1⟩ := readable.returns fair (fetch64_reads (s + 8)) (by omega) (by omega)
  obtain ⟨w2,fetched2⟩ := readable.returns fair (fetch64_reads (s + 16)) (by omega) (by omega)
  obtain ⟨w3,fetched3⟩ := readable.returns fair (fetch64_reads (s + 24)) (by omega) (by omega)
  obtain ⟨w4,fetched4⟩ := readable.returns fair (fetch64_reads (s + 32)) (by omega) (by omega)
  obtain ⟨w5,fetched5⟩ := readable.returns fair (fetch64_reads (s + 32 + 8)) (by omega) (by omega)
  obtain ⟨w6,fetched6⟩ := readable.returns fair (fetch64_reads (s + 32 + 16)) (by omega) (by omega)
  obtain ⟨w7,fetched7⟩ := readable.returns fair (fetch64_reads (s + 32 + 24)) (by omega) (by omega)
  have five : s + 40 = s + 32 + 8 := by omega
  have six : s + 48 = s + 32 + 16 := by omega
  refine ⟨w0,w1,w2,w3,w4,w5,w6,w7,fun lanes => ?_⟩
  simp only [round64,weakHashLen32WithSeedsAt,ReaderT.bind,Bind.bind,Except.bind,five,six,fetched0,fetched1,fetched2,fetched3,fetched4,
    fetched5,fetched6,fetched7]
  rfl

-- A round gives 64 bits away: where any state goes, exactly one state goes for each y.
theorem round64_merges (fair : platforms.fair platform) (readable : Readable platform s 64) (lanes : Lanes) (y : BitVec 64) :
    ∃! other : Lanes, other.y = y ∧ round64 s other platform = round64 s lanes platform := by
  obtain ⟨w0,w1,w2,w3,w4,w5,w6,w7,ran⟩ := round64_ran fair readable
  simp only [ran,Except.ok.injEq,mix64_merge]
  refine ⟨merge64 w6 lanes y,⟨rfl,rfl⟩,fun other fits => ?_⟩
  obtain ⟨rfl,same⟩ := fits
  exact same

theorem round64_merges_zeros : ∃! other : Lanes, other.y = 1 ∧
    round64 0 other (counting false) = round64 0 ⟨0,0,0,(0,0),(0,0)⟩ (counting false) :=
  round64_merges (show platforms.fair (counting false) from rfl) (fun _ _ => rfl) ⟨0,0,0,(0,0),(0,0)⟩ 1
end Merging

end NfdTables.City
