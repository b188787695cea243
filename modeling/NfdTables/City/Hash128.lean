import NfdTables.City.Hash64

namespace NfdTables.City
open Machine Footprint Words

structure LanesMurmur where
  a : BitVec 64
  b : BitVec 64
  c : BitVec 64
  d : BitVec 64
deriving DecidableEq

def roundMurmur (s : Int) (lanes : LanesMurmur) : Reading LanesMurmur := do
  let ⟨a,b,c,d⟩ := lanes
  let a := a ^^^ shiftMix ((← fetch64 s) * k1) * k1
  let a := a * k1
  let b := b ^^^ a
  let c := c ^^^ shiftMix ((← fetch64 (s + 8)) * k1) * k1
  let c := c * k1
  let d := d ^^^ c
  return ⟨a,b,c,d⟩

-- `do { .. s += 16; l -= 16; } while (l > 0)`, where `l` is a signed long.
def murmurTurn : Int × Int × LanesMurmur → Reading (Turn (Int × Int × LanesMurmur) LanesMurmur)
  | (s,l,lanes) => do
    let lanes ← roundMurmur s lanes
    let l := l - 16
    if l > 0 then return .onward (s + 16,l,lanes) else return .leave lanes

def finishMurmur : LanesMurmur → Uint128
  | ⟨a,b,c,d⟩ =>
    let a := hashLen16 a c
    let b := hashLen16 d b
    (a ^^^ b,hashLen16 b a)

def cityMurmur (s : Int) (len : Nat) (seed : Uint128) : Reading Uint128 := do
  let a := seed.1
  let b := seed.2
  let l := (size len - 16).toInt
  if l ≤ 0 then
    let a := shiftMix (a * k1) * k1
    let c := b * k1 + (← hashLen0to16 s len)
    let d := shiftMix (a + (← if len ≥ 8 then fetch64 s else pure c))
    return finishMurmur ⟨a,b,c,d⟩
  else
    let c := hashLen16 ((← fetch64 (s + len - 8)) + k1) a
    let d := hashLen16 (b + size len) (c + (← fetch64 (s + len - 16)))
    let a := a + d
    let lanes ← rounds murmurTurn len (s,l,⟨a,b,c,d⟩)
    return finishMurmur lanes

-- The loop of cityHash64, unrolled once: `do { .. len -= 128; } while (len >= 128)`.
def hash128Turn : Int × Nat × Lanes → Reading (Turn (Int × Nat × Lanes) (Int × Nat × Lanes))
  | (s,len,lanes) => do
    let lanes ← round64 s lanes
    let s := s + 64
    let lanes ← round64 s lanes
    let s := s + 64
    let len := len - 128
    if len ≥ 128 then return .onward (s,len,lanes) else return .leave (s,len,lanes)

def begin128 (s : Int) (len : Nat) (seed : Uint128) : Reading Lanes := do
  let x := seed.1
  let y := seed.2
  let z := size len * k1
  let v1 := rotate (y ^^^ k1) 49 * k1 + (← fetch64 s)
  let v2 := rotate v1 42 * k1 + (← fetch64 (s + 8))
  let w1 := rotate (y + z) 35 * k1 + x
  let w2 := rotate (x + (← fetch64 (s + 88))) 53 * k1
  return ⟨x,y,z,(v1,v2),(w1,w2)⟩

-- Between the loop and the tail.
def turn128 : Lanes → Lanes
  | ⟨x,y,z,v,w⟩ =>
    let x := x + rotate (v.1 + z) 49 * k0
    let y := y * k0 + rotate w.2 37
    let z := z * k0 + rotate w.1 27
    ⟨x,y,z,(v.1 * k0,v.2),(w.1 * 9,w.2)⟩

-- The last chunk taken may start among the bytes the loop has taken.
def tailTurn (s : Int) (len : Nat) : Nat × Lanes → Reading (Turn (Nat × Lanes) Lanes)
  | (tailDone,⟨x,y,z,v,w⟩) =>
    if tailDone < len then do
      let tailDone := tailDone + 32
      let y := rotate (x + y) 42 * k0 + v.2
      let w1 := w.1 + (← fetch64 (s + len - tailDone + 16))
      let x := x * k0 + w1
      let z := z + (w.2 + (← fetch64 (s + len - tailDone)))
      let w2 := w.2 + v.1
      let v ← weakHashLen32WithSeedsAt (s + len - tailDone) (v.1 + z) v.2
      return .onward (tailDone,⟨x,y,z,(v.1 * k0,v.2),(w1,w2)⟩)
    else return .leave ⟨x,y,z,v,w⟩

def finish128 : Lanes → Uint128
  | ⟨x,y,z,v,w⟩ =>
    let x := hashLen16 x v.1
    let y := hashLen16 (y + z) w.1
    (hashLen16 (x + v.2) w.2 + y,hashLen16 (x + w.2) (y + v.2))

def cityHash128WithSeed (s : Int) (len : Nat) (seed : Uint128) : Reading Uint128 :=
  if len < 128 then cityMurmur s len seed
  else do
    let lanes ← begin128 s len seed
    let (s,len,lanes) ← rounds hash128Turn (len / 128) (s,len,lanes)
    let lanes ← rounds (tailTurn s len) (len / 32 + 2) (0,turn128 lanes)
    return finish128 lanes

def cityHash128 (s : Int) (len : Nat) : Reading Uint128 :=
  if len ≥ 16 then do
    let low ← fetch64 s
    let high ← fetch64 (s + 8)
    cityHash128WithSeed (s + 16) (len - 16) (low,high + k0)
  else cityHash128WithSeed s len (k0,k1)

section Footprints
variable {s : Int} {len : Nat}

-- A length that a signed long holds comes through the cast.
theorem signed_len (fits : len < 2 ^ 63) : (size len - 16).toInt = (len : Int) - 16 := by
  have whole : (size len).toInt = len := by rw [size,BitVec.toInt_ofNat',Int.bmod_eq_of_le (by omega) (by omega)]
  have sixteen : (16 : BitVec 64).toInt = 16 := rfl
  rw [BitVec.toInt_sub,whole,sixteen,Int.bmod_eq_of_le (by omega) (by omega)]

theorem roundMurmur_reads (s : Int) (lanes : LanesMurmur) : ReadsAll (roundMurmur s lanes) (span s (s + 16)) := by
  refine Reads.across ((fetch64_reads _).bind fun a _ => (fetch64_reads _).bind fun c _ => Reads.pure _ trivial) fun p => ?_
  simp only [Set.mem_union,mem_span,Set.mem_empty_iff_false,or_false]
  omega

-- The last block may be short, and then goes back into the one before it.
theorem blocksMurmur_reads {n fuel : Nat} {l : Int} (s : Int) (low : 16 * (n : Int) < l) (high : l ≤ 16 * (n + 1)) (enough : n < fuel)
    (lanes : LanesMurmur) :
    ReadsAll (rounds murmurTurn fuel (s,l,lanes)) (span s (s + (16 * (n + 1) : Nat))) := by
  have step : ∀ (n : Nat) (state : Int × Int × LanesMurmur), 16 * (n : Int) < state.2.1 ∧ state.2.1 ≤ 16 * (n + 1) →
      Reads platforms (murmurTurn state)
      (span state.1 (state.1 + (16 : Nat))) (Continues (fun (m : Nat) next => (16 * (m : Int) < next.2.1 ∧ next.2.1 ≤ 16 * (m + 1)) ∧
        next.1 = state.1 + (16 : Nat)) Anything n) := by
    intro n state left
    obtain ⟨q,l,now⟩ := state
    obtain ⟨low,high⟩ : 16 * (n : Int) < l ∧ l ≤ 16 * (n + 1) := left
    rw [murmurTurn]
    refine Reads.across ((roundMurmur_reads q now).bind fun lanes _ => Reads.ite (fun more => Reads.onward ⟨n - 1,by omega,?_⟩)
      fun last => Reads.leave (by omega) trivial) fun p => by simp
    exact ⟨show 16 * ((n - 1 : Nat) : Int) < l - 16 ∧ l - 16 ≤ 16 * ((n - 1 : Nat) + 1) by omega,rfl⟩
  exact blocks_reads 16 Prod.fst (fun n state => 16 * (n : Int) < state.2.1 ∧ state.2.1 ≤ 16 * (n + 1)) Anything step
    (s:=(s,l,lanes)) ⟨low,high⟩ enough

theorem cityMurmur_reads (seed : Uint128) (fits : len < 2 ^ 63) : ReadsAll (cityMurmur s len seed) (span s (s + len)) := by
  simp only [cityMurmur,signed_len fits]
  refine Reads.ite (fun short => ?_) fun long => ?_
  · have early : ∀ (c : BitVec 64) (finish : BitVec 64 → Uint128), ReadsAll (if len ≥ 8 then fetch64 s >>= fun d => pure (finish d) else
        pure c >>= fun d => pure (finish d)) {p | 8 ≤ len ∧ p ∈ span s (s + 8)} := by
      intro c finish
      refine Reads.ite (fun eight => ?_) fun fewer => ?_
      · exact ((fetch64_reads s).bind fun d _ => Reads.pure Anything trivial).across fun p => by simp [eight]
      · exact (Reads.pure Anything trivial).across fun p => by simp [fewer]
    refine Reads.across ((hashLen0to16_reads (by omega)).bind fun c _ => early _ _) fun p => ?_
    simp only [Set.mem_union,mem_span,Set.mem_ofPred_eq]
    omega
  · obtain ⟨n,low,high⟩ : ∃ n : Nat, 16 * (n : Int) < (len : Int) - 16 ∧ (len : Int) - 16 ≤ 16 * (n + 1) :=
      ⟨(len - 17) / 16,by omega,by omega⟩
    refine Reads.across ((fetch64_reads _).bind fun c _ => (fetch64_reads _).bind fun d _ =>
      (blocksMurmur_reads s low high (by omega) _).bind fun lanes _ => Reads.pure _ trivial) fun p => ?_
    simp only [Set.mem_union,mem_span,Set.mem_empty_iff_false,or_false]
    omega

theorem begin128_reads (s : Int) (len : Nat) (seed : Uint128) :
    ReadsAll (begin128 s len seed) (span s (s + 16) ∪ span (s + 88) (s + 96)) := by
  refine Reads.across ((fetch64_reads _).bind fun v1 _ => (fetch64_reads _).bind fun v2 _ => (fetch64_reads _).bind fun w2 _ =>
    Reads.pure _ trivial) fun p => ?_
  simp only [Set.mem_union,mem_span,Set.mem_empty_iff_false,or_false]
  omega

theorem blocks128_reads (s : Int) (n left : Nat) (few : left < 128) (lanes : Lanes) :
    Reads platforms (rounds hash128Turn (n + 1) (s,128 * (n + 1) + left,lanes)) (span s (s + (128 * (n + 1) : Nat)))
      (fun result => result.1 = s + (128 * (n + 1) : Nat) ∧ result.2.1 = left) := by
  have step : ∀ (m : Nat) state, state.2.1 = 128 * (m + 1) + left ∧ state.1 + (128 * (m + 1) : Nat) = s + (128 * (n + 1) : Nat) →
      Reads platforms (hash128Turn state) (span state.1 (state.1 + (128 : Nat)))
      (Continues (fun m next => (next.2.1 = 128 * (m + 1) + left ∧ next.1 + (128 * (m + 1) : Nat) = s + (128 * (n + 1) : Nat)) ∧
        next.1 = state.1 + (128 : Nat)) (fun result => result.1 = s + (128 * (n + 1) : Nat) ∧ result.2.1 = left) m) := by
    intro m state at_
    obtain ⟨q,now,lanes⟩ := state
    obtain ⟨rfl,place⟩ : now = 128 * (m + 1) + left ∧ q + (128 * (m + 1) : Nat) = s + (128 * (n + 1) : Nat) := at_
    have less : 128 * (m + 1) + left - 128 = 128 * m + left := by omega
    simp only [hash128Turn,less]
    refine Reads.across ((round64_reads q lanes).bind fun one _ => (round64_reads (q + 64) one).bind fun two _ =>
      Reads.ite (fun more => Reads.onward ⟨m - 1,by omega,?_⟩) fun last => Reads.leave (by omega) ?_) fun p => ?_
    · exact ⟨⟨show 128 * m + left = 128 * (m - 1 + 1) + left by omega,show q + 64 + 64 + (128 * (m - 1 + 1) : Nat) = _ by omega⟩,
        show q + 64 + 64 = q + (128 : Nat) by omega⟩
    · exact ⟨show q + 64 + 64 = _ by omega,show 128 * m + left = left by omega⟩
    · simp only [Set.mem_union,mem_span,Set.mem_empty_iff_false,or_false]
      omega
  exact blocks_reads 128 Prod.fst _ _ step (s:=(s,128 * (n + 1) + left,lanes)) ⟨rfl,rfl⟩ (Nat.lt_succ_self n)

-- The tail goes back from the end, in chunks.
theorem tail_reads (s : Int) (len : Nat) (lanes : Lanes) :
    ReadsAll (rounds (tailTurn s len) (len / 32 + 2) (0,lanes)) (span (s + len - 32 * ((len + 31) / 32 : Nat)) (s + len)) := by
  obtain ⟨chunks,all⟩ : ∃ chunks, chunks = (len + 31) / 32 := ⟨_,rfl⟩
  let chunk (n : Nat) : Set Int := {p | 0 < n ∧ s + len - 32 * (chunks - n + 1) ≤ p ∧ p < s + len - 32 * (chunks - n)}
  have walked : ReadsAll (rounds (tailTurn s len) (len / 32 + 2) (0,lanes)) {p | ∃ n ≤ chunks, p ∈ chunk n} := by
    refine Reads.loop (fun n state => state.1 + 32 * n = 32 * chunks) chunk (fun n state left => ?_)
      (show 0 + 32 * chunks = 32 * chunks by omega) (by omega)
    obtain ⟨tailDone,x,y,z,v,w⟩ := state
    have here : tailDone + 32 * n = 32 * chunks := left
    rw [tailTurn]
    refine Reads.ite (fun more => ?_) fun ended => ?_
    · refine Reads.across ((fetch64_reads _).bind fun w1 _ => (fetch64_reads _).bind fun z1 _ =>
        (weakHashLen32WithSeedsAt_reads _ _ _).bind fun v _ =>
        Reads.onward ⟨n - 1,by omega,show tailDone + 32 + 32 * (n - 1) = 32 * chunks by omega⟩) fun p => ?_
      simp only [chunk,Set.mem_ofPred_eq,Set.mem_union,mem_span,Set.mem_empty_iff_false,or_false]
      omega
    · refine Reads.across (Reads.leave (by omega) trivial) fun p => ?_
      simp only [chunk,Set.mem_ofPred_eq,Set.mem_empty_iff_false,iff_false]
      omega
  refine walked.across fun p => ?_
  simp only [chunk,Set.mem_ofPred_eq,mem_span,← all]
  constructor
  · intro inside
    exact ⟨chunks - ((s + len - 1 - p) / 32).toNat,by omega⟩
  · intro found
    obtain ⟨n,_⟩ := found
    omega

theorem cityHash128WithSeed_reads (s : Int) (len : Nat) (seed : Uint128) :
    ReadsAll (cityHash128WithSeed s len seed) (span s (s + len)) := by
  rw [cityHash128WithSeed]
  refine Reads.ite (fun short => cityMurmur_reads seed (by omega)) fun long => ?_
  obtain ⟨n,left,few,rfl⟩ : ∃ n left, left < 128 ∧ len = 128 * (n + 1) + left := ⟨len / 128 - 1,len % 128,by omega,by omega⟩
  have times : (128 * (n + 1) + left) / 128 = n + 1 := by omega
  rw [times]
  have rest : ∀ result : Int × Nat × Lanes, result.1 = s + (128 * (n + 1) : Nat) ∧ result.2.1 = left →
      ReadsAll (rounds (tailTurn result.1 result.2.1) (result.2.1 / 32 + 2) (0,turn128 result.2.2) >>= fun lanes => pure (finish128 lanes))
        (span (s + (128 * (n + 1) : Nat) + left - 32 * ((left + 31) / 32 : Nat)) (s + (128 * (n + 1) : Nat) + left) ∪ ∅) := by
    intro result there
    obtain ⟨place,few⟩ := there
    rw [← place,← few]
    exact (tail_reads _ _ _).bind fun lanes _ => Reads.pure _ trivial
  refine Reads.across ((begin128_reads s _ seed).bind fun lanes _ => (blocks128_reads s n left few lanes).bind fun result there =>
    rest result there) fun p => ?_
  simp only [Set.mem_union,mem_span,Set.mem_empty_iff_false,or_false]
  omega

theorem cityHash128_reads (s : Int) (len : Nat) : ReadsAll (cityHash128 s len) (span s (s + len)) := by
  rw [cityHash128]
  refine Reads.ite (fun sixteen => ?_) fun fewer => cityHash128WithSeed_reads s len _
  refine Reads.across ((fetch64_reads _).bind fun low _ => (fetch64_reads _).bind fun high _ =>
    cityHash128WithSeed_reads (s + 16) (len - 16) _) fun p => ?_
  simp only [Set.mem_union,mem_span]
  omega
end Footprints

section Unrolled
variable {s : Int} {n m fuel : Nat} {lanes : Lanes}

theorem pass64 : rounds hash64Turn (fuel + 1) (s,64 * (m + 1),lanes) =
    (round64 s lanes >>= fun lanes => if m = 0 then pure lanes else rounds hash64Turn fuel (s + 64,64 * m,lanes)) := by
  have less : 64 * (m + 1) - 64 = 64 * m := by omega
  simp only [rounds_succ,hash64Turn,bind_assoc,less]
  refine bind_congr fun lanes => ?_
  by_cases last : m = 0
  · simp only [last,Nat.mul_zero,ne_eq,not_true,if_false,if_true,pure_bind]
  · have more : 64 * m ≠ 0 := by omega
    simp only [last,more,ne_eq,not_false_eq_true,if_true,if_false,pure_bind]

theorem passes64 : rounds hash64Turn (fuel + 2) (s,64 * (2 * n + 2),lanes) =
    (round64 s lanes >>= fun lanes => round64 (s + 64) lanes >>= fun lanes =>
      if n = 0 then pure lanes else rounds hash64Turn fuel (s + 64 + 64,64 * (2 * n),lanes)) := by
  rw [pass64]
  refine bind_congr fun lanes => ?_
  rw [if_neg (by omega),pass64]
  refine bind_congr fun lanes => ?_
  by_cases last : n = 0
  · rw [if_pos last,if_pos (by omega)]
  · rw [if_neg last,if_neg (by omega)]

theorem pass128 (few : left < 128) : rounds hash128Turn (fuel + 1) (s,128 * (n + 1) + left,lanes) =
    (round64 s lanes >>= fun lanes => round64 (s + 64) lanes >>= fun lanes =>
      if n = 0 then pure (s + 64 + 64,left,lanes) else rounds hash128Turn fuel (s + 64 + 64,128 * n + left,lanes)) := by
  have less : 128 * (n + 1) + left - 128 = 128 * n + left := by omega
  simp only [rounds_succ,hash128Turn,bind_assoc,less]
  refine bind_congr fun lanes => bind_congr fun lanes => ?_
  by_cases last : n = 0
  · have ended : ¬ left ≥ 128 := by omega
    simp only [last,ended,Nat.mul_zero,Nat.zero_add,if_false,if_true,pure_bind]
  · have more : 128 * n + left ≥ 128 := by omega
    simp only [last,more,if_true,if_false,pure_bind]

-- The unrolled loop is the loop of cityHash64, over the blocks of 128 bytes that are whole.
theorem hash128_unrolled (s : Int) (n left : Nat) (few : left < 128) (lanes : Lanes) :
    rounds hash128Turn (n + 1) (s,128 * (n + 1) + left,lanes) =
      (rounds hash64Turn (128 * (n + 1)) (s,128 * (n + 1),lanes) >>= fun lanes => pure (s + (128 * (n + 1) : Nat),left,lanes)) := by
  have any : ∀ spare, rounds hash128Turn (n + 1) (s,128 * (n + 1) + left,lanes) =
      (rounds hash64Turn (2 * n + spare + 2) (s,64 * (2 * n + 2),lanes) >>= fun lanes => pure (s + (128 * (n + 1) : Nat),left,lanes)) := by
    intro spare
    induction n generalizing s lanes with
    | zero =>
      have place : s + 64 + 64 = s + (128 * (0 + 1) : Nat) := by omega
      rw [pass128 few,passes64,bind_assoc]
      refine bind_congr fun lanes => ?_
      rw [bind_assoc]
      refine bind_congr fun lanes => ?_
      rw [if_pos rfl,if_pos rfl,pure_bind,place]
    | succ n ih =>
      have place : s + 64 + 64 + (128 * (n + 1) : Nat) = s + (128 * (n + 1 + 1) : Nat) := by omega
      have fewer : 2 * (n + 1) + spare = 2 * n + spare + 2 := by omega
      rw [pass128 few,passes64,bind_assoc]
      refine bind_congr fun lanes => ?_
      rw [bind_assoc]
      refine bind_congr fun lanes => ?_
      rw [if_neg (Nat.succ_ne_zero n),if_neg (Nat.succ_ne_zero n),ih,place,fewer,Nat.mul_succ 2 n]
  have twice : 64 * (2 * n + 2) = 128 * (n + 1) := by omega
  have fuel : 2 * n + (126 * n + 126) + 2 = 128 * (n + 1) := by omega
  have whole := any (126 * n + 126)
  rwa [twice,fuel] at whole

theorem hash128_unrolled_300 : rounds hash128Turn (1 + 1) (0,128 * (1 + 1) + 44,⟨0,0,0,(0,0),(0,0)⟩) =
    (rounds hash64Turn (128 * (1 + 1)) (0,128 * (1 + 1),⟨0,0,0,(0,0),(0,0)⟩) >>= fun lanes =>
      pure ((0 : Int) + (128 * (1 + 1) : Nat),44,lanes)) :=
  hash128_unrolled 0 1 44 (by decide) ⟨0,0,0,(0,0),(0,0)⟩
end Unrolled

end NfdTables.City
