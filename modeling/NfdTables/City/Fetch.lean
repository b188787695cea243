import Mathlib.Data.Set.Insert
import NfdTables.Foundation.Footprint
import NfdTables.Foundation.Words

namespace NfdTables.City
open Machine Footprint Words

-- The bytes that may be read, the byte order of the machine, and what
-- WORDS_BIGENDIAN says of it.
structure Platform where
  memory : Int → Option (BitVec 8)
  bigEndian : Bool
  wordsBigEndian : Bool

abbrev Reading (α : Type) := Footprint.Reading Platform α

-- The platforms the macro is right about.
def platforms : View Platform Int (BitVec 8) := ⟨Platform.memory,fun platform => platform.wordsBigEndian = platform.bigEndian⟩

def readByte (p : Int) : Reading (BitVec 8) := fun platform =>
  match platform.memory p with
  | some byte => .ok byte
  | none => .error .outOfBounds

def readBytes : Nat → Int → Reading (List (BitVec 8))
  | 0,_ => return []
  | n+1,p => do
    let byte ← readByte p
    let rest ← readBytes n (p + 1)
    return byte :: rest

def unalignedLoad (n : Nat) (p : Int) : Reading (BitVec (8 * n)) := do
  let bytes ← readBytes n p
  fun platform => return if platform.bigEndian then word bytes.reverse n else word bytes n

def inExpectedOrder (n : Nat) (x : BitVec (8 * n)) : Reading (BitVec (8 * n)) := fun platform =>
  return if platform.wordsBigEndian then bswap n x else x

def fetch (n : Nat) (p : Int) : Reading (BitVec (8 * n)) := do
  let x ← unalignedLoad n p
  inExpectedOrder n x

def fetch64 (p : Int) : Reading (BitVec 64) := fetch 8 p
def fetch32 (p : Int) : Reading (BitVec 32) := fetch 4 p

def bswap64 (x : BitVec 64) : BitVec 64 := bswap 8 x
def bswap32 (x : BitVec 32) : BitVec 32 := bswap 4 x

def span (low high : Int) : Set Int := {p | low ≤ p ∧ p < high}

@[simp] theorem mem_span : p ∈ span low high ↔ low ≤ p ∧ p < high := Iff.rfl

theorem span_split (first : a ≤ b) (second : b ≤ c) : span a c = span a b ∪ span b c := by
  refine Set.ext fun p => ?_
  simp only [Set.mem_union,mem_span]
  omega

abbrev Anything {α : Type} (_ : α) : Prop := True

abbrev ReadsAll (compute : Reading α) (region : Set Int) : Prop := Reads platforms compute region Anything

-- Every byte is there, and is the last one of its address.
def counting (bigEndian : Bool) : Platform := ⟨fun p => some (BitVec.ofInt 8 p),bigEndian,bigEndian⟩

def Readable (platform : Platform) (s : Int) (len : Nat) : Prop := ∀ p ∈ span s (s + len), (platform.memory p).isSome

theorem Readable.part {s t : Int} {len m : Nat} (readable : Readable platform s len) (low : s ≤ t) (high : t + m ≤ s + len) :
    Readable platform t m := by
  intro p inside
  exact readable p ⟨Int.le_trans low inside.1,Int.lt_of_lt_of_le inside.2 high⟩

theorem Readable.returns {s a b : Int} {len : Nat} {compute : Reading α} (readable : Readable platform s len)
    (fair : platforms.fair platform) (reads : ReadsAll compute (span a b)) (low : s ≤ a) (high : b ≤ s + len) :
    ∃ value, compute platform = .ok value :=
  returns_of_isOk ((reads.isOk_iff fair).mpr fun p inside =>
    readable p ⟨Int.le_trans low inside.1,Int.lt_of_lt_of_le inside.2 high⟩)

theorem readByte_reads (p : Int) : Reads platforms (readByte p) {p} Anything where
  returns env _ readable := by
    obtain ⟨byte,here⟩ := Option.isSome_iff_exists.mp (readable p rfl)
    refine ⟨byte,trivial,fun other _ agree => ?_⟩
    have there : other.memory p = some byte := (agree p rfl).trans here
    simp only [readByte,there]
  faults env _ q same missing := by
    cases same
    have gone : env.memory p = none := missing
    simp only [readByte,gone]

theorem readBytes_reads (n : Nat) (p : Int) : Reads platforms (readBytes n p) (span p (p + n)) fun bytes => bytes.length = n := by
  induction n generalizing p with
  | zero =>
    have none : Reads platforms (readBytes 0 p) ∅ fun bytes => bytes.length = 0 := Reads.pure _ rfl
    exact none.across fun q => by simp
  | succ n ih =>
    have all : Reads platforms (readBytes (n+1) p) ({p} ∪ (span (p+1) (p+1+n) ∪ ∅)) fun bytes => bytes.length = n + 1 :=
      (readByte_reads p).bind fun byte _ => (ih (p + 1)).bind fun rest size => Reads.pure _ (congrArg Nat.succ size)
    refine all.across fun q => ?_
    simp only [Set.mem_union,Set.mem_singleton_iff,mem_span,Set.mem_empty_iff_false,or_false]
    omega

-- In expected order means little-endian, wherever the macro is right.
theorem expected_fair (size : bytes.length = n) (fair : platforms.fair platform) :
    inExpectedOrder n (if platform.bigEndian then word bytes.reverse n else word bytes n) platform = .ok (word bytes n) := by
  have same : platform.wordsBigEndian = platform.bigEndian := fair
  simp only [inExpectedOrder,same]
  cases platform.bigEndian with
  | false => rfl
  | true =>
    have back : bswap n (word bytes.reverse n) = word bytes n := by
      rw [bswap_word (by simpa using size),List.reverse_reverse]
    simp only [if_pos,back]
    rfl

theorem fetch_fair (size : bytes.length = n) : ReadsAll (fun platform => inExpectedOrder n
    (if platform.bigEndian then word bytes.reverse n else word bytes n) platform) ∅ :=
  Reads.congr (Reads.pure Anything trivial) fun _ fair => expected_fair size fair

theorem fetch_reads (n : Nat) (p : Int) : ReadsAll (fetch n p) (span p (p + n)) := by
  have whole := (readBytes_reads n p).bind fun bytes size => fetch_fair size
  refine (whole.congr fun platform _ => ?_).across fun q => by simp
  simp only [fetch,unalignedLoad,ReaderT.bind,Bind.bind,Except.bind]
  cases readBytes n p platform <;> rfl

theorem fetch64_reads (p : Int) : ReadsAll (fetch64 p) (span p (p + 8)) := fetch_reads 8 p
theorem fetch32_reads (p : Int) : ReadsAll (fetch32 p) (span p (p + 4)) := fetch_reads 4 p

section Blocks
variable {σ ρ : Type} {turn : σ → Reading (Turn σ ρ)}

-- A loop that takes one block after another, `n` more after the next one.
theorem blocks_reads (width : Nat) (place : σ → Int) (left : Nat → σ → Prop) (after : ρ → Prop)
    (step : ∀ n s, left n s → Reads platforms (turn s) (span (place s) (place s + width))
      (Continues (fun m next => left m next ∧ place next = place s + width) after n))
    (start : left n s) (enough : n < fuel) :
    Reads platforms (rounds turn fuel s) (span (place s) (place s + (width * (n + 1) : Nat))) after := by
  induction fuel generalizing n s with
  | zero => exact absurd enough (Nat.not_lt_zero n)
  | succ fuel ih =>
    rw [rounds_succ]
    have now := step n s start
    cases n with
    | zero =>
      have same : span (place s) (place s + (width * (0 + 1) : Nat)) = span (place s) (place s + width) ∪ ∅ := by
        rw [Nat.zero_add,Nat.mul_one,Set.union_empty]
      rw [same]
      refine now.bind fun turned holds => ?_
      cases turned with
      | onward next =>
        obtain ⟨m,none,_⟩ := holds
        cases none
      | leave result => exact Reads.pure _ holds.2
    | succ n =>
      have rest : span (place s) (place s + (width * (n + 1 + 1) : Nat)) = span (place s) (place s + width) ∪
          span (place s + width) (place s + width + (width * (n + 1) : Nat)) := by
        have longer : place s + (width * (n + 1 + 1) : Nat) = place s + width + (width * (n + 1) : Nat) := by
          have next : width * (n + 1 + 1) = width * (n + 1) + width := Nat.mul_succ _ _
          omega
        rw [longer]
        exact span_split (by omega) (by omega)
      rw [rest]
      refine now.bind fun turned holds => ?_
      cases turned with
      | onward next =>
        obtain ⟨m,same,further,there⟩ := holds
        cases same
        rw [← there]
        exact ih further (by omega)
      | leave result => exact absurd holds.1 (Nat.succ_ne_zero n)
end Blocks

section Values
variable {platform other : Platform}

def contents (platform : Platform) : Nat → Int → List (Option (BitVec 8))
  | 0,_ => []
  | n+1,p => platform.memory p :: contents platform n (p + 1)

theorem contents_eq : contents platform n p = contents other n q ↔ ∀ i < n, platform.memory (p + i) = other.memory (q + i) := by
  induction n generalizing p q with
  | zero => simp only [contents,true_iff]; exact nofun
  | succ n ih =>
    have next : ∀ (r : Int) (i : Nat), r + 1 + i = r + (i + 1 : Nat) := fun r i => by omega
    have start : ∀ r : Int, r + (0 : Nat) = r := fun r => by omega
    simp only [contents,List.cons.injEq,ih,next,start,Nat.forall_lt_succ_left]

theorem readBytes_contents (ran : readBytes n p platform = .ok bytes) :
    bytes.length = n ∧ contents platform n p = bytes.map some := by
  induction n generalizing p bytes with
  | zero =>
    cases Except.ok.inj ran
    exact ⟨rfl,rfl⟩
  | succ n ih =>
    obtain ⟨byte,first,ran⟩ := bind_parts ran
    obtain ⟨rest,later,ran⟩ := bind_parts ran
    cases Except.ok.inj ran
    obtain ⟨size,same⟩ := ih later
    have here : platform.memory p = some byte := by
      simp only [readByte] at first
      split at first
      · rename_i found
        cases Except.ok.inj first
        exact found
      · cases first
    exact ⟨congrArg Nat.succ size,by simp only [contents,here,same,List.map_cons]⟩

theorem fetch_contents {x : BitVec (8 * n)} (fair : platforms.fair platform) (ran : fetch n p platform = .ok x) :
    contents platform n p = (bytesOf n x.toNat).map some := by
  obtain ⟨loaded,ranLoad,ran⟩ := bind_parts ran
  obtain ⟨bytes,read,ranLoad⟩ := bind_parts ranLoad
  obtain ⟨size,same⟩ := readBytes_contents read
  cases Except.ok.inj ranLoad
  cases Except.ok.inj ((expected_fair size fair).symm.trans ran)
  rw [same,bytesOf_word size]

theorem fetch_same {x y : BitVec (8 * n)} (fair : platforms.fair platform) (fairOther : platforms.fair other)
    (one : fetch n p platform = .ok x) (two : fetch n q other = .ok y) :
    x = y ↔ ∀ i < n, platform.memory (p + i) = other.memory (q + i) := by
  rw [← contents_eq,fetch_contents fair one,fetch_contents fairOther two,List.map_inj_right (fun _ _ => Option.some.inj)]
  constructor
  · intro same
    cases same
    rfl
  · intro same
    rw [← word_bytesOf x,same,word_bytesOf]
end Values

end NfdTables.City
