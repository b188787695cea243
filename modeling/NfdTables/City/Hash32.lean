import Mathlib.Data.Finite.Prod
import Mathlib.Data.Fintype.EquivFin
import Mathlib.Tactic.IntervalCases
import NfdTables.City.Fetch

namespace NfdTables.City
open Machine Footprint Words

def c1 : BitVec 32 := 0xcc9e2d51
def c2 : BitVec 32 := 0x1b873593

def fmix (h : BitVec 32) : BitVec 32 :=
  let h := h ^^^ (h >>> 16)
  let h := h * 0x85ebca6b
  let h := h ^^^ (h >>> 13)
  let h := h * 0xc2b2ae35
  h ^^^ (h >>> 16)

def rotate32 (val : BitVec 32) (shift : Nat) : BitVec 32 :=
  if shift = 0 then val else (val >>> shift) ||| (val <<< (32 - shift))

def mur (a h : BitVec 32) : BitVec 32 :=
  let a := a * c1
  let a := rotate32 a 17
  let a := a * c2
  let h := h ^^^ a
  let h := rotate32 h 19
  h * 5 + 0xe6546b64

def hash32Len13to24 (s : Int) (len : Nat) : Reading (BitVec 32) := do
  let a ← fetch32 (s - 4 + (len / 2 : Nat))
  let b ← fetch32 (s + 4)
  let c ← fetch32 (s + len - 8)
  let d ← fetch32 (s + (len / 2 : Nat))
  let e ← fetch32 s
  let f ← fetch32 (s + len - 4)
  let h := BitVec.ofNat 32 len
  return fmix (mur f (mur e (mur d (mur c (mur b (mur a h))))))

-- The bytes are signed characters.
def hash32Len0to4Turn (s : Int) (len : Nat) : Nat × BitVec 32 × BitVec 32 →
    Reading (Turn (Nat × BitVec 32 × BitVec 32) (BitVec 32 × BitVec 32))
  | (i,b,c) =>
    if i < len then do
      let v ← readByte (s + i)
      let b := b * c1 + v.signExtend 32
      let c := c ^^^ b
      return .onward (i + 1,b,c)
    else return .leave (b,c)

def hash32Len0to4 (s : Int) (len : Nat) : Reading (BitVec 32) := do
  let (b,c) ← rounds (hash32Len0to4Turn s len) (len + 1) (0,0,9)
  return fmix (mur b (mur (BitVec.ofNat 32 len) c))

def hash32Len5to12 (s : Int) (len : Nat) : Reading (BitVec 32) := do
  let a := BitVec.ofNat 32 len
  let b := BitVec.ofNat 32 (len * 5)
  let c : BitVec 32 := 9
  let d := b
  let a := a + (← fetch32 s)
  let b := b + (← fetch32 (s + len - 4))
  let c := c + (← fetch32 (s + (len / 2 &&& 4 : Nat)))
  return fmix (mur c (mur b (mur a d)))

structure Lanes32 where
  f : BitVec 32
  g : BitVec 32
  h : BitVec 32
deriving DecidableEq

-- The body of the loop of cityHash32. PERMUTE3(f, h, g) is at its end.
def round32 (s : Int) (lanes : Lanes32) : Reading Lanes32 := do
  let ⟨f,g,h⟩ := lanes
  let a0 := rotate32 ((← fetch32 s) * c1) 17 * c2
  let a1 ← fetch32 (s + 4)
  let a2 := rotate32 ((← fetch32 (s + 8)) * c1) 17 * c2
  let a3 := rotate32 ((← fetch32 (s + 12)) * c1) 17 * c2
  let a4 ← fetch32 (s + 16)
  let h := h ^^^ a0
  let h := rotate32 h 18
  let h := h * 5 + 0xe6546b64
  let f := f + a1
  let f := rotate32 f 19
  let f := f * c1
  let g := g + a2
  let g := rotate32 g 18
  let g := g * 5 + 0xe6546b64
  let h := h ^^^ (a3 + a1)
  let h := rotate32 h 19
  let h := h * 5 + 0xe6546b64
  let g := g ^^^ a4
  let g := bswap32 g * 5
  let h := h + a4 * 5
  let h := bswap32 h
  let f := f + a0
  return ⟨g,h,f⟩

-- `do { .. } while (--iters != 0)`, entered with one iteration or more.
def hash32Turn : Int × Nat × Lanes32 → Reading (Turn (Int × Nat × Lanes32) Lanes32)
  | (s,iters,lanes) => do
    let lanes ← round32 s lanes
    let iters := iters - 1
    if iters ≠ 0 then return .onward (s + 20,iters,lanes) else return .leave lanes

-- The last 20 bytes, before the loop.
def begin32 (s : Int) (len : Nat) : Reading Lanes32 := do
  let h := BitVec.ofNat 32 len
  let g := c1 * BitVec.ofNat 32 len
  let f := g
  let a0 := rotate32 ((← fetch32 (s + len - 4)) * c1) 17 * c2
  let a1 := rotate32 ((← fetch32 (s + len - 8)) * c1) 17 * c2
  let a2 := rotate32 ((← fetch32 (s + len - 16)) * c1) 17 * c2
  let a3 := rotate32 ((← fetch32 (s + len - 12)) * c1) 17 * c2
  let a4 := rotate32 ((← fetch32 (s + len - 20)) * c1) 17 * c2
  let h := h ^^^ a0
  let h := rotate32 h 19
  let h := h * 5 + 0xe6546b64
  let h := h ^^^ a2
  let h := rotate32 h 19
  let h := h * 5 + 0xe6546b64
  let g := g ^^^ a1
  let g := rotate32 g 19
  let g := g * 5 + 0xe6546b64
  let g := g ^^^ a3
  let g := rotate32 g 19
  let g := g * 5 + 0xe6546b64
  let f := f + a4
  let f := rotate32 f 19
  let f := f * 5 + 0xe6546b64
  return ⟨f,g,h⟩

def finish32 : Lanes32 → BitVec 32
  | ⟨f,g,h⟩ =>
    let g := rotate32 g 11 * c1
    let g := rotate32 g 17 * c1
    let f := rotate32 f 11 * c1
    let f := rotate32 f 17 * c1
    let h := rotate32 (h + g) 19
    let h := h * 5 + 0xe6546b64
    let h := rotate32 h 17 * c1
    let h := rotate32 (h + f) 19
    let h := h * 5 + 0xe6546b64
    rotate32 h 17 * c1

def cityHash32 (s : Int) (len : Nat) : Reading (BitVec 32) :=
  if len ≤ 24 then
    if len ≤ 12 then
      if len ≤ 4 then hash32Len0to4 s len else hash32Len5to12 s len
    else hash32Len13to24 s len
  else do
    let lanes ← begin32 s len
    let iters := (len - 1) / 20
    let lanes ← rounds hash32Turn iters (s,iters,lanes)
    return finish32 lanes

section Footprints

-- The region is the union of the words fetched, in the order they are fetched in.
theorem hash32Len13to24_reads (long : 12 < len) (short : len ≤ 24) : ReadsAll (hash32Len13to24 s len) (span s (s + len)) := by
  have fetches : ReadsAll (hash32Len13to24 s len) _ :=
    (fetch32_reads _).bind fun a _ => (fetch32_reads _).bind fun b _ => (fetch32_reads _).bind fun c _ =>
    (fetch32_reads _).bind fun d _ => (fetch32_reads _).bind fun e _ => (fetch32_reads _).bind fun f _ => Reads.pure _ trivial
  refine fetches.across fun p => ?_
  simp only [Set.mem_union,mem_span,Set.mem_empty_iff_false,or_false]
  omega

theorem hash32Len5to12_reads (long : 4 < len) (short : len ≤ 12) : ReadsAll (hash32Len5to12 s len) (span s (s + len)) := by
  have fetches : ReadsAll (hash32Len5to12 s len) _ :=
    (fetch32_reads _).bind fun a _ => (fetch32_reads _).bind fun b _ => (fetch32_reads _).bind fun c _ => Reads.pure _ trivial
  have middle : (len / 2 &&& 4 : Nat) = if 8 ≤ len then 4 else 0 := by
    interval_cases len <;> rfl
  refine fetches.across fun p => ?_
  simp only [middle,Set.mem_union,mem_span,Set.mem_empty_iff_false,or_false]
  split <;> omega

-- With `n` bytes left the next one is `n` before the end.
theorem hash32Len0to4_reads (s : Int) (len : Nat) : ReadsAll (hash32Len0to4 s len) (span s (s + len)) := by
  let next (n : Nat) : Set Int := {p | 0 < n ∧ p = s + len - n}
  have walked : ReadsAll (rounds (hash32Len0to4Turn s len) (len + 1) (0,0,9)) {p | ∃ n ≤ len, p ∈ next n} := by
    refine Reads.loop (fun n state => state.1 + n = len) next (fun n state left => ?_) (Nat.zero_add len) (Nat.lt_succ_self len)
    obtain ⟨i,b,c⟩ := state
    have here : i + n = len := left
    rw [hash32Len0to4Turn]
    refine Reads.ite (fun more => ?_) fun ended => ?_
    · refine Reads.across ((readByte_reads _).bind fun v _ => Reads.onward ⟨n - 1,by omega,show i + 1 + (n - 1) = len by omega⟩) fun p => ?_
      simp only [next,Set.mem_ofPred_eq,Set.mem_union,Set.mem_singleton_iff,Set.mem_empty_iff_false,or_false]
      omega
    · refine Reads.across (Reads.leave (by omega) trivial) fun p => ?_
      simp only [next,Set.mem_ofPred_eq,Set.mem_empty_iff_false,iff_false]
      omega
  have whole : ReadsAll (hash32Len0to4 s len) _ := walked.bind fun lanes _ => Reads.pure _ trivial
  refine whole.across fun p => ?_
  simp only [next,Set.mem_ofPred_eq,Set.mem_union,mem_span,Set.mem_empty_iff_false,or_false]
  constructor
  · intro inside
    exact ⟨(s + len - p).toNat,by omega⟩
  · intro found
    obtain ⟨n,_⟩ := found
    omega

theorem round32_reads (s : Int) (lanes : Lanes32) : ReadsAll (round32 s lanes) (span s (s + 20)) := by
  have fetches : ReadsAll (round32 s lanes) _ :=
    (fetch32_reads _).bind fun a0 _ => (fetch32_reads _).bind fun a1 _ => (fetch32_reads _).bind fun a2 _ =>
    (fetch32_reads _).bind fun a3 _ => (fetch32_reads _).bind fun a4 _ => Reads.pure _ trivial
  refine fetches.across fun p => ?_
  simp only [Set.mem_union,mem_span,Set.mem_empty_iff_false,or_false]
  omega

theorem begin32_reads (s : Int) (len : Nat) : ReadsAll (begin32 s len) (span (s + len - 20) (s + len)) := by
  have fetches : ReadsAll (begin32 s len) _ :=
    (fetch32_reads _).bind fun a0 _ => (fetch32_reads _).bind fun a1 _ => (fetch32_reads _).bind fun a2 _ =>
    (fetch32_reads _).bind fun a3 _ => (fetch32_reads _).bind fun a4 _ => Reads.pure _ trivial
  refine fetches.across fun p => ?_
  simp only [Set.mem_union,mem_span,Set.mem_empty_iff_false,or_false]
  omega

theorem blocks32_reads (positive : 0 < iters) (s : Int) (lanes : Lanes32) :
    ReadsAll (rounds hash32Turn iters (s,iters,lanes)) (span s (s + 20 * iters)) := by
  have step : ∀ n state, state.2.1 = n + 1 → Reads platforms (hash32Turn state) (span state.1 (state.1 + (20 : Nat)))
      (Continues (fun m next => next.2.1 = m + 1 ∧ next.1 = state.1 + (20 : Nat)) Anything n) := by
    intro n state count
    obtain ⟨q,left,now⟩ := state
    obtain rfl : left = n + 1 := count
    simp only [hash32Turn,Nat.add_sub_cancel]
    refine Reads.across ((round32_reads q now).bind fun lanes _ => Reads.ite (fun more => Reads.onward ⟨n - 1,by omega,?_⟩)
      fun last => Reads.leave (by omega) trivial) fun p => by simp
    exact ⟨show n = n - 1 + 1 by omega,rfl⟩
  obtain ⟨m,rfl⟩ := Nat.exists_eq_succ_of_ne_zero (Nat.pos_iff_ne_zero.mp positive)
  have walked := blocks_reads 20 Prod.fst (fun n state => state.2.1 = n + 1) Anything step (s:=(s,m + 1,lanes)) (n:=m) rfl (Nat.lt_succ_self m)
  exact walked.across fun p => by simp

theorem cityHash32_reads (s : Int) (len : Nat) : ReadsAll (cityHash32 s len) (span s (s + len)) := by
  rw [cityHash32]
  refine Reads.ite (fun short => ?_) fun long => ?_
  · refine Reads.ite (fun shorter => ?_) fun longer => hash32Len13to24_reads (by omega) short
    refine Reads.ite (fun shortest => hash32Len0to4_reads s len) fun longer => hash32Len5to12_reads (by omega) shorter
  · refine Reads.across ((begin32_reads s len).bind fun lanes _ =>
      (blocks32_reads (show 0 < (len - 1) / 20 by omega) s lanes).bind fun lanes _ => Reads.pure _ trivial) fun p => ?_
    simp only [Set.mem_union,mem_span,Set.mem_empty_iff_false,or_false]
    omega

end Footprints

section Mixing
variable {x y a h : BitVec 32} {lanes lanes' : Lanes32} {platform : Platform} {s : Int} {len iters : Nat}

theorem rotate32_eq (within : shift < 32) : rotate32 x shift = x.rotateRight shift := by
  rw [rotate32,BitVec.rotateRight_def,Nat.mod_eq_of_lt within]
  by_cases none : shift = 0
  · cases none
    simp
  · rw [if_neg none]

theorem rotate32_inj (within : shift < 32) : rotate32 x shift = rotate32 y shift ↔ x = y := by
  rw [rotate32_eq within,rotate32_eq within,rotateRight_inj within]

theorem step32_inj : x * 5 + 0xe6546b64 = y * 5 + 0xe6546b64 ↔ x = y := by
  rw [BitVec.add_left_inj,mul_odd_inj (by decide)]

theorem fmix_inj : fmix x = fmix y ↔ x = y := by
  show xorShift 16 (xorShift 13 (xorShift 16 x * 0x85ebca6b) * 0xc2b2ae35) =
    xorShift 16 (xorShift 13 (xorShift 16 y * 0x85ebca6b) * 0xc2b2ae35) ↔ x = y
  rw [xorShift_inj (by decide),mul_odd_inj (by decide),xorShift_inj (by decide),mul_odd_inj (by decide),xorShift_inj (by decide)]

theorem c1_odd : c1.toNat % 2 = 1 := by decide
theorem c2_odd : c2.toNat % 2 = 1 := by decide

theorem mur_inj_left : mur x h = mur y h ↔ x = y := by
  rw [mur,mur,step32_inj,rotate32_inj (by decide),BitVec.xor_right_inj,mul_odd_inj c2_odd,rotate32_inj (by decide),mul_odd_inj c1_odd]

theorem mur_inj_right : mur a x = mur a y ↔ x = y := by
  rw [mur,mur,step32_inj,rotate32_inj (by decide),BitVec.xor_left_inj]

-- What round32 does once it has its five words.
def mix32 (w0 w1 w2 w3 w4 : BitVec 32) : Lanes32 → Lanes32
  | ⟨f,g,h⟩ =>
    let a0 := rotate32 (w0 * c1) 17 * c2
    let a2 := rotate32 (w2 * c1) 17 * c2
    let a3 := rotate32 (w3 * c1) 17 * c2
    ⟨bswap32 ((rotate32 (g + a2) 18 * 5 + 0xe6546b64) ^^^ w4) * 5,
      bswap32 (rotate32 ((rotate32 (h ^^^ a0) 18 * 5 + 0xe6546b64) ^^^ (a3 + w1)) 19 * 5 + 0xe6546b64 + w4 * 5),
      rotate32 (f + w1) 19 * c1 + a0⟩

theorem bswap32_inj : bswap32 x = bswap32 y ↔ x = y := bswap_inj
theorem five_inj : x * 5 = y * 5 ↔ x = y := mul_odd_inj (by decide)

theorem mix32_inj : mix32 w0 w1 w2 w3 w4 lanes = mix32 w0 w1 w2 w3 w4 lanes' ↔ lanes = lanes' := by
  obtain ⟨f,g,h⟩ := lanes
  obtain ⟨f',g',h'⟩ := lanes'
  simp only [mix32,Lanes32.mk.injEq,BitVec.add_left_inj,BitVec.xor_left_inj,bswap32_inj,five_inj,mul_odd_inj c1_odd,
    rotate32_inj (show 18 < 32 by decide),rotate32_inj (show 19 < 32 by decide)]
  exact ⟨fun ⟨sameG,sameH,sameF⟩ => ⟨sameF,sameG,sameH⟩,fun ⟨sameF,sameG,sameH⟩ => ⟨sameG,sameH,sameF⟩⟩

instance finite_word32 : Finite (BitVec 32) := Finite.of_injective BitVec.toFin fun _ _ same => BitVec.eq_of_toFin_eq same
instance finite_lanes32 : Finite Lanes32 := Finite.of_injective (fun lanes => (lanes.f,lanes.g,lanes.h)) fun one two same => by
  cases one
  cases two
  simpa using same

-- Over bytes that are there, a round is a permutation of the lanes.
theorem round32_bijective (fair : platforms.fair platform) (readable : Readable platform s 20) :
    ∃ f : Lanes32 → Lanes32, Function.Bijective f ∧ ∀ lanes, round32 s lanes platform = .ok (f lanes) := by
  obtain ⟨w0,fetched0⟩ := readable.returns fair (fetch32_reads s) (by omega) (by omega)
  obtain ⟨w1,fetched1⟩ := readable.returns fair (fetch32_reads (s + 4)) (by omega) (by omega)
  obtain ⟨w2,fetched2⟩ := readable.returns fair (fetch32_reads (s + 8)) (by omega) (by omega)
  obtain ⟨w3,fetched3⟩ := readable.returns fair (fetch32_reads (s + 12)) (by omega) (by omega)
  obtain ⟨w4,fetched4⟩ := readable.returns fair (fetch32_reads (s + 16)) (by omega) (by omega)
  refine ⟨mix32 w0 w1 w2 w3 w4,Finite.injective_iff_bijective.mp fun one two same => mix32_inj.mp same,fun lanes => ?_⟩
  simp only [round32,ReaderT.bind,Bind.bind,Except.bind,fetched0,fetched1,fetched2,fetched3,fetched4]
  rfl

theorem hash32Turn_ran {after : Lanes32} (ran : round32 s lanes platform = .ok after) : hash32Turn (s,m + 1,lanes) platform =
    .ok (if m ≠ 0 then .onward (s + 20,m,after) else .leave after) := by
  simp only [hash32Turn,ReaderT.bind,Bind.bind,Except.bind,ran,Nat.add_sub_cancel]
  split <;> rfl

theorem blocks32_bijective (fair : platforms.fair platform) (positive : 0 < iters) (readable : Readable platform s (20 * iters)) :
    ∃ f : Lanes32 → Lanes32, Function.Bijective f ∧
      ∀ lanes, rounds hash32Turn iters (s,iters,lanes) platform = .ok (f lanes) := by
  induction iters generalizing s with
  | zero => exact absurd positive (Nat.lt_irrefl 0)
  | succ m ih =>
    obtain ⟨f,bijective,ran⟩ := round32_bijective (s:=s) fair (readable.part (by omega) (by omega))
    by_cases last : m = 0
    · cases last
      refine ⟨f,bijective,fun lanes => ?_⟩
      have turned : hash32Turn (s,0 + 1,lanes) platform = .ok (.leave (f lanes)) := hash32Turn_ran (ran lanes)
      exact loop_leave turned 0
    · obtain ⟨g,further,later⟩ := ih (s:=s + 20) (Nat.pos_of_ne_zero last) (readable.part (by omega) (by omega))
      refine ⟨g ∘ f,further.comp bijective,fun lanes => ?_⟩
      have turned := hash32Turn_ran (m:=m) (ran lanes)
      rw [if_pos last] at turned
      exact (loop_onward turned m).trans (later (f lanes))

-- Only finish32 gives bits away.
theorem cityHash32_long (fair : platforms.fair platform) (long : 24 < len) (readable : Readable platform s len) :
    ∃ start, begin32 s len platform = .ok start ∧ ∃ f : Lanes32 → Lanes32, Function.Bijective f ∧
      (∀ lanes, rounds hash32Turn ((len - 1) / 20) (s,(len - 1) / 20,lanes) platform = .ok (f lanes)) ∧
      cityHash32 s len platform = .ok (finish32 (f start)) := by
  obtain ⟨start,begun⟩ := readable.returns fair (begin32_reads s len) (by omega) (by omega)
  obtain ⟨f,bijective,ran⟩ := blocks32_bijective (s:=s) fair (show 0 < (len - 1) / 20 by omega) (readable.part (by omega) (by omega))
  refine ⟨start,begun,f,bijective,ran,?_⟩
  have walked := ran start
  rw [cityHash32,if_neg (by omega)]
  simp only [ReaderT.bind,Bind.bind,Except.bind,begun,walked]
  rfl

theorem cityHash32_long_25 : ∃ start, begin32 0 25 (counting false) = .ok start ∧ ∃ f : Lanes32 → Lanes32, Function.Bijective f ∧
    (∀ lanes, rounds hash32Turn ((25 - 1) / 20) (0,(25 - 1) / 20,lanes) (counting false) = .ok (f lanes)) ∧
    cityHash32 0 25 (counting false) = .ok (finish32 (f start)) :=
  cityHash32_long rfl (by decide) fun _ _ => rfl
end Mixing

section OneWord
variable {platform other : Platform} {s t : Int} {len n : Nat} {w v : Nat → BitVec 32}

def Words32 (platform : Platform) (s : Int) (n : Nat) (w : Nat → BitVec 32) : Prop :=
  ∀ j : Nat, j < n → fetch32 (s + 4 * j) platform = .ok (w j)

theorem words32 (fair : platforms.fair platform) (readable : Readable platform s (4 * n)) : ∃ w, Words32 platform s n w := by
  have one : ∀ j : Nat, ∃ x, j < n → fetch32 (s + 4 * j) platform = .ok x := by
    intro j
    by_cases under : j < n
    · obtain ⟨x,fetched⟩ := readable.returns fair (fetch32_reads (s + 4 * j)) (by omega) (by omega)
      exact ⟨x,fun _ => fetched⟩
    · exact ⟨0,fun within => absurd within under⟩
  choose w fetched using one
  exact ⟨w,fetched⟩

theorem Words32.fetched (words : Words32 platform s n w) {q : Int} (j : Nat) (place : q = s + 4 * j) (under : j < n) :
    fetch32 q platform = .ok (w j) := by
  cases place
  exact words j under

-- What 12 and 24 bytes come to: no word of them is taken twice.
def absorb12 (w : Nat → BitVec 32) : BitVec 32 := fmix (mur (9 + w 1) (mur (60 + w 2) (mur (12 + w 0) 60)))
def absorb24 (w : Nat → BitVec 32) : BitVec 32 :=
  fmix (mur (w 5) (mur (w 0) (mur (w 3) (mur (w 4) (mur (w 1) (mur (w 2) 24))))))

theorem absorb12_inj (others : ∀ j < 3, j ≠ k → w j = v j) (under : k < 3) : absorb12 w = absorb12 v ↔ w k = v k := by
  simp only [absorb12,fmix_inj]
  interval_cases k
  · simp only [others 1 (by decide) (by decide),others 2 (by decide) (by decide),mur_inj_right,mur_inj_left,BitVec.add_right_inj]
  · simp only [others 0 (by decide) (by decide),others 2 (by decide) (by decide),mur_inj_left,BitVec.add_right_inj]
  · simp only [others 0 (by decide) (by decide),others 1 (by decide) (by decide),mur_inj_right,mur_inj_left,BitVec.add_right_inj]

theorem absorb24_inj (others : ∀ j < 6, j ≠ k → w j = v j) (under : k < 6) : absorb24 w = absorb24 v ↔ w k = v k := by
  simp only [absorb24,fmix_inj]
  interval_cases k <;>
    simp (disch := decide) only [others 0,others 1,others 2,others 3,others 4,others 5,mur_inj_right,mur_inj_left]

theorem Words32.hash24 (words : Words32 platform s 6 w) : cityHash32 s 24 platform = .ok (absorb24 w) := by
  show hash32Len13to24 s 24 platform = _
  simp only [hash32Len13to24,ReaderT.bind,Bind.bind,Except.bind,words.fetched 2 (show s - 4 + (24 / 2 : Nat) = _ by omega) (by decide),
    words.fetched 1 (show s + 4 = _ by omega) (by decide),words.fetched 4 (show s + (24 : Nat) - 8 = _ by omega) (by decide),
    words.fetched 3 (show s + (24 / 2 : Nat) = _ by omega) (by decide),words.fetched 0 (show s = _ by omega) (by decide),
    words.fetched 5 (show s + (24 : Nat) - 4 = _ by omega) (by decide)]
  rfl

theorem Words32.hash12 (words : Words32 platform s 3 w) : cityHash32 s 12 platform = .ok (absorb12 w) := by
  show hash32Len5to12 s 12 platform = _
  simp only [hash32Len5to12,ReaderT.bind,Bind.bind,Except.bind,words.fetched 0 (show s = _ by omega) (by decide),
    words.fetched 2 (show s + (12 : Nat) - 4 = _ by omega) (by decide),
    words.fetched 1 (show s + (12 / 2 &&& 4 : Nat) = s + 4 * (1 : Nat) from rfl) (by decide)]
  rfl

theorem Words32.same_iff (fair : platforms.fair platform) (fairOther : platforms.fair other) (one : Words32 platform s n w)
    (two : Words32 other t n v) (under : j < n) :
    w j = v j ↔ ∀ i : Nat, i < 4 → platform.memory (s + 4 * j + i) = other.memory (t + 4 * j + i) :=
  fetch_same (n:=4) fair fairOther (one j under) (two j under)

theorem Words32.all_iff (fair : platforms.fair platform) (fairOther : platforms.fair other) (one : Words32 platform s n w)
    (two : Words32 other t n v) :
    (∀ j < n, w j = v j) ↔ ∀ i : Nat, i < 4 * n → platform.memory (s + i) = other.memory (t + i) := by
  constructor
  · intro same i under
    have bytes := (one.same_iff fair fairOther two (show i / 4 < n by omega)).mp (same _ (by omega)) (i % 4) (by omega)
    have place : ∀ r : Int, r + 4 * (i / 4 : Nat) + (i % 4 : Nat) = r + i := fun r => by omega
    rwa [place,place] at bytes
  · intro same j under
    refine (one.same_iff fair fairOther two under).mpr fun i inside => ?_
    have bytes := same (4 * j + i) (by omega)
    have place : ∀ r : Int, r + (4 * j + i : Nat) = r + 4 * j + i := fun r => by omega
    rwa [place,place] at bytes

theorem Words32.elsewhere (fair : platforms.fair platform) (fairOther : platforms.fair other) (one : Words32 platform s n w)
    (two : Words32 other t n v) (apart : ∀ i : Nat, i < 4 * n → i / 4 ≠ k → platform.memory (s + i) = other.memory (t + i)) :
    ∀ j < n, j ≠ k → w j = v j := by
  intro j under differs
  refine (one.same_iff fair fairOther two under).mpr fun i inside => ?_
  have bytes := apart (4 * j + i) (by omega) (by omega)
  have place : ∀ r : Int, r + (4 * j + i : Nat) = r + 4 * j + i := fun r => by omega
  rwa [place,place] at bytes

theorem changed_iff {absorb : (Nat → BitVec 32) → BitVec 32} (under : k < n) (others : ∀ j < n, j ≠ k → w j = v j)
    (inj : absorb w = absorb v ↔ w k = v k) : (.ok (absorb w) : Exec (BitVec 32)) = .ok (absorb v) ↔ ∀ j < n, w j = v j := by
  rw [Except.ok.injEq,inj]
  constructor
  · intro same j inside
    by_cases here : j = k
    · cases here
      exact same
    · exact others j inside here
  · exact fun all => all k under

-- A change within one word always shows.
theorem cityHash32_one_word (fair : platforms.fair platform) (fairOther : platforms.fair other) (size : len = 12 ∨ len = 24)
    (readable : Readable platform s len) (readableOther : Readable other t len) (within : 4 * k < len)
    (apart : ∀ i : Nat, i < len → i / 4 ≠ k → platform.memory (s + i) = other.memory (t + i)) :
    cityHash32 s len platform = cityHash32 t len other ↔ ∀ i : Nat, i < len → platform.memory (s + i) = other.memory (t + i) := by
  rcases size with rfl | rfl
  · obtain ⟨w,one⟩ := words32 (n:=3) fair readable
    obtain ⟨v,two⟩ := words32 (n:=3) fairOther readableOther
    have others := one.elsewhere fair fairOther two apart
    rw [← one.all_iff fair fairOther two,one.hash12,two.hash12]
    exact changed_iff (by omega) others (absorb12_inj others (by omega))
  · obtain ⟨w,one⟩ := words32 (n:=6) fair readable
    obtain ⟨v,two⟩ := words32 (n:=6) fairOther readableOther
    have others := one.elsewhere fair fairOther two apart
    rw [← one.all_iff fair fairOther two,one.hash24,two.hash24]
    exact changed_iff (by omega) others (absorb24_inj others (by omega))

-- One byte of the counting memory is another.
def struck : Platform := { counting false with memory := fun p => if p = 5 then some 255 else (counting false).memory p }

theorem struck_differs : cityHash32 0 12 (counting false) ≠ cityHash32 0 12 struck := by
  have there : Readable struck 0 12 := by
    intro p _
    show (if p = 5 then some 255 else (counting false).memory p).isSome = true
    split <;> rfl
  have shows : cityHash32 0 12 (counting false) = cityHash32 0 12 struck ↔
      ∀ i : Nat, i < 12 → (counting false).memory (0 + i) = struck.memory (0 + i) :=
    cityHash32_one_word (k:=1) rfl rfl (.inl rfl) (fun _ _ => rfl) there (by decide) (by decide)
  intro same
  have byte := shows.mp same 5 (by decide)
  exact absurd byte (by decide)
end OneWord

end NfdTables.City
