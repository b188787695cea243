import Mathlib.Data.Nat.ModEq

namespace NfdTables.Words
variable {w : Nat}

section Mixing
variable {x y : BitVec w}

def xorShift (k : Nat) (x : BitVec w) : BitVec w := x ^^^ (x >>> k)

-- From the highest bit down.
theorem xorShift_inj (positive : 0 < k) : xorShift k x = xorShift k y ↔ x = y := by
  constructor
  · intro same
    have bits : ∀ i, (x ^^^ (x >>> k)).getLsbD i = (y ^^^ (y >>> k)).getLsbD i := fun i => congrArg (BitVec.getLsbD · i) same
    simp only [BitVec.getLsbD_xor,BitVec.getLsbD_ushiftRight] at bits
    have downwards : ∀ m i, w ≤ i + m → x.getLsbD i = y.getLsbD i := by
      intro m
      induction m with
      | zero =>
        intro i beyond
        simp only [BitVec.getLsbD_of_ge _ _ (show w ≤ i by omega)]
      | succ m ih =>
        intro i within
        have here := bits i
        simp only [ih (k + i) (by omega)] at here
        exact Bool.xor_left_inj.mp here
    exact BitVec.eq_of_getLsbD_eq fun i _ => downwards w i (by omega)
  · intro same
    cases same
    rfl

theorem rotateRight_inj (within : r < w) : x.rotateRight r = y.rotateRight r ↔ x = y := by
  constructor
  · intro same
    have bits : ∀ i, (x.rotateRight r).getLsbD i = (y.rotateRight r).getLsbD i := fun i => congrArg (BitVec.getLsbD · i) same
    simp only [BitVec.getLsbD_rotateRight_of_lt within] at bits
    refine BitVec.eq_of_getLsbD_eq fun i bound => ?_
    by_cases low : i < r
    · have here := bits (w - r + i)
      simp only [show ¬ w - r + i < w - r by omega,show w - r + i < w by omega,show w - r + i - (w - r) = i by omega,
        decide_true,cond_false,Bool.true_and,decide_false] at here
      exact here
    · have here := bits (i - r)
      simp only [show i - r < w - r by omega,show r + (i - r) = i by omega,decide_true,cond_true] at here
      exact here
  · intro same
    cases same
    rfl

-- An odd factor is prime to the modulus.
theorem mul_odd_inj {m : BitVec w} (odd : m.toNat % 2 = 1) : x * m = y * m ↔ x = y := by
  constructor
  · intro same
    have congruent : Nat.ModEq (2^w) (x.toNat * m.toNat) (y.toNat * m.toNat) := by
      have values := congrArg BitVec.toNat same
      simp only [BitVec.toNat_mul] at values
      exact values
    have prime : Nat.gcd (2^w) m.toNat = 1 := by
      refine Nat.Coprime.pow_left w ?_
      rw [Nat.coprime_iff_gcd_eq_one,Nat.gcd_rec,odd,Nat.gcd_one_left]
    have reduced : x.toNat % 2^w = y.toNat % 2^w := congruent.cancel_right_of_coprime prime
    rw [Nat.mod_eq_of_lt x.isLt,Nat.mod_eq_of_lt y.isLt] at reduced
    exact BitVec.eq_of_toNat_eq reduced
  · intro same
    cases same
    rfl
end Mixing

section Bytes

-- The number that bytes stand for, the first one being the lowest, and back.
def littleEndian : List (BitVec 8) → Nat
  | [] => 0
  | byte :: rest => byte.toNat + 256 * littleEndian rest

def bytesOf : Nat → Nat → List (BitVec 8)
  | 0,_ => []
  | n+1,value => BitVec.ofNat 8 value :: bytesOf n (value / 256)

theorem bytesOf_length (n value : Nat) : (bytesOf n value).length = n := by
  induction n generalizing value with
  | zero => rfl
  | succ n ih => simp only [bytesOf,List.length_cons,ih]

theorem littleEndian_lt (bytes : List (BitVec 8)) : littleEndian bytes < 256^bytes.length := by
  induction bytes with
  | nil => exact Nat.one_pos
  | cons byte rest ih =>
    have bound := byte.isLt
    simp only [littleEndian,List.length_cons,Nat.pow_succ]
    omega

theorem littleEndian_bytesOf (small : value < 256^n) : littleEndian (bytesOf n value) = value := by
  induction n generalizing value with
  | zero => simp only [Nat.pow_zero] at small; simp only [bytesOf,littleEndian]; omega
  | succ n ih =>
    simp only [Nat.pow_succ] at small
    simp only [bytesOf,littleEndian,ih (show value / 256 < 256^n by omega),BitVec.toNat_ofNat]
    omega

theorem bytesOf_littleEndian (bytes : List (BitVec 8)) : bytesOf bytes.length (littleEndian bytes) = bytes := by
  induction bytes with
  | nil => rfl
  | cons byte rest ih =>
    have bound := byte.isLt
    have low : BitVec.ofNat 8 (byte.toNat + 256 * littleEndian rest) = byte := by
      refine BitVec.eq_of_toNat_eq ?_
      simp only [BitVec.toNat_ofNat]
      omega
    have high : (byte.toNat + 256 * littleEndian rest) / 256 = littleEndian rest := by omega
    simp only [List.length_cons,bytesOf,littleEndian,low,high,ih]

-- The word that bytes stand for, and a word with its bytes the other way round.
def word (bytes : List (BitVec 8)) (n : Nat) : BitVec (8 * n) := BitVec.ofNat (8 * n) (littleEndian bytes)
def bswap (n : Nat) (x : BitVec (8 * n)) : BitVec (8 * n) := word (bytesOf n x.toNat).reverse n

theorem bytesOf_word (size : bytes.length = n) : bytesOf n (word bytes n).toNat = bytes := by
  have bound := littleEndian_lt bytes
  have power : 2^(8 * n) = 256^n := by rw [Nat.pow_mul]
  cases size
  have value : (word bytes bytes.length).toNat = littleEndian bytes := by
    simp only [word,BitVec.toNat_ofNat,power]
    exact Nat.mod_eq_of_lt bound
  rw [value,bytesOf_littleEndian]

theorem word_bytesOf (x : BitVec (8 * n)) : word (bytesOf n x.toNat) n = x := by
  have power : 2^(8 * n) = 256^n := by rw [Nat.pow_mul]
  have bound := x.isLt
  rw [power] at bound
  rw [word,littleEndian_bytesOf bound,BitVec.ofNat_toNat,BitVec.setWidth_eq]

theorem bswap_word (size : bytes.length = n) : bswap n (word bytes n) = word bytes.reverse n := by
  rw [bswap,bytesOf_word size]

theorem bswap_bswap (x : BitVec (8 * n)) : bswap n (bswap n x) = x := by
  have size : (bytesOf n x.toNat).reverse.length = n := by rw [List.length_reverse,bytesOf_length]
  have again : bswap n (bswap n x) = word (bytesOf n x.toNat).reverse.reverse n := bswap_word size
  rw [again,List.reverse_reverse,word_bytesOf]

theorem bswap_inj {x y : BitVec (8 * n)} : bswap n x = bswap n y ↔ x = y := by
  constructor
  · intro same
    have back := congrArg (bswap n) same
    rwa [bswap_bswap,bswap_bswap] at back
  · intro same
    cases same
    rfl
end Bytes

end NfdTables.Words
