import Mathlib.Data.Set.Basic
import NfdTables.Foundation.Machine

namespace NfdTables.Footprint
open Machine
variable {Env Address Byte α β σ ρ : Type}

abbrev Reading (Env α : Type) := ReaderT Env Exec α

-- What is to be seen of the surroundings, and the surroundings it is seen in.
structure View (Env Address Byte : Type) where
  look : Env → Address → Option Byte
  fair : Env → Prop

-- The region alone decides the value, and any missing part of it is a fault.
structure Reads (view : View Env Address Byte) (compute : Reading Env α) (region : Set Address) (post : α → Prop) : Prop where
  returns : ∀ env, view.fair env → (∀ p ∈ region, (view.look env p).isSome) →
    ∃ value, post value ∧ ∀ other, view.fair other → (∀ p ∈ region, view.look other p = view.look env p) →
      compute other = .ok value
  faults : ∀ env, view.fair env → ∀ p ∈ region, view.look env p = none → compute env = .error .outOfBounds

variable {view : View Env Address Byte} {region one two : Set Address} {post : α → Prop} {compute : Reading Env α}

section Meaning

theorem Reads.isOk_iff (reads : Reads view compute region post) (fair : view.fair env) :
    (compute env).isOk = true ↔ ∀ p ∈ region, (view.look env p).isSome := by
  constructor
  · intro returned p inside
    cases here : view.look env p with
    | some byte => rfl
    | none =>
      rw [reads.faults env fair p inside here] at returned
      cases returned
  · intro readable
    obtain ⟨value,_,same⟩ := reads.returns env fair readable
    rw [same env fair fun _ _ => rfl]
    rfl

theorem Reads.decided (reads : Reads view compute region post) (fair : view.fair env) (fairOther : view.fair other)
    (agree : ∀ p ∈ region, view.look other p = view.look env p) : compute other = compute env := by
  by_cases readable : ∀ p ∈ region, (view.look env p).isSome
  · obtain ⟨value,_,same⟩ := reads.returns env fair readable
    rw [same other fairOther agree,same env fair fun _ _ => rfl]
  · simp only [not_forall,Bool.not_eq_true,Option.isSome_eq_false_iff,Option.isNone_iff_eq_none] at readable
    obtain ⟨p,inside,missing⟩ := readable
    rw [reads.faults env fair p inside missing,reads.faults other fairOther p inside ((agree p inside).trans missing)]
end Meaning

section Rules

theorem Reads.pure (post : α → Prop) (holds : post value) : Reads view (pure value) ∅ post where
  returns _ _ _ := ⟨value,holds,fun _ _ _ => rfl⟩
  faults _ _ _ inside := inside.elim

theorem Reads.congr (reads : Reads view compute region post) (same : ∀ env, view.fair env → other env = compute env) :
    Reads view other region post where
  returns env fair readable := by
    obtain ⟨value,holds,returned⟩ := reads.returns env fair readable
    exact ⟨value,holds,fun env' fair' agree => (same env' fair').trans (returned env' fair' agree)⟩
  faults env fair p inside missing := (same env fair).trans (reads.faults env fair p inside missing)

theorem Reads.across (reads : Reads view compute one post) (same : ∀ p, p ∈ two ↔ p ∈ one) : Reads view compute two post := by
  have equal : two = one := Set.ext same
  rwa [equal]

theorem Reads.bind {first : Reading Env α} {rest : α → Reading Env β} {after : β → Prop} (before : Reads view first one post)
    (later : ∀ value, post value → Reads view (rest value) two after) : Reads view (first >>= rest) (one ∪ two) after where
  returns env fair readable := by
    obtain ⟨value,holds,returned⟩ := before.returns env fair fun p inside => readable p (.inl inside)
    obtain ⟨result,fits,came⟩ := (later value holds).returns env fair fun p inside => readable p (.inr inside)
    refine ⟨result,fits,fun other fairOther agree => ?_⟩
    have start := returned other fairOther fun p inside => agree p (.inl inside)
    have finish := came other fairOther fun p inside => agree p (.inr inside)
    simp only [ReaderT.bind,Bind.bind,Except.bind,start,finish]
  faults env fair p inside missing := by
    by_cases readable : ∀ q ∈ one, (view.look env q).isSome
    · obtain ⟨value,holds,returned⟩ := before.returns env fair readable
      have start := returned env fair fun _ _ => rfl
      rcases inside with early | late
      · have here := readable p early
        rw [missing] at here
        cases here
      · have finish := (later value holds).faults env fair p late missing
        simp only [ReaderT.bind,Bind.bind,Except.bind,start,finish]
    · simp only [not_forall,Bool.not_eq_true,Option.isSome_eq_false_iff,Option.isNone_iff_eq_none] at readable
      obtain ⟨q,early,gone⟩ := readable
      have start := before.faults env fair q early gone
      simp only [ReaderT.bind,Bind.bind,Except.bind,start]

theorem Reads.ite {decided : Prop} [Decidable decided] {other : Reading Env α} (yes : decided → Reads view compute region post)
    (no : ¬ decided → Reads view other region post) : Reads view (if decided then compute else other) region post := by
  by_cases holds : decided
  · rw [if_pos holds]
    exact yes holds
  · rw [if_neg holds]
    exact no holds
end Rules

section Loops

def rounds (body : σ → Reading Env (Turn σ ρ)) (fuel : Nat) (s : σ) : Reading Env ρ := fun env => loop (fun s => body s env) fuel s

theorem rounds_succ (body : σ → Reading Env (Turn σ ρ)) (fuel : Nat) (s : σ) : rounds body (fuel+1) s =
    (body s >>= fun turn => match turn with
      | .leave result => pure result
      | .onward next => rounds body fuel next) := by
  funext env
  show loop (fun s => body s env) (fuel+1) s = _
  rw [loop]
  simp only [ReaderT.bind,Bind.bind,Except.bind]
  cases body s env with
  | error fault => rfl
  | ok turn => cases turn <;> rfl

-- Of `n` rounds that are still to come the next one is taken.
def Continues (invariant : Nat → σ → Prop) (after : ρ → Prop) (n : Nat) : Turn σ ρ → Prop
  | .onward next => ∃ m, n = m + 1 ∧ invariant m next
  | .leave result => n = 0 ∧ after result

theorem Reads.onward {invariant : Nat → σ → Prop} {after : ρ → Prop} (holds : ∃ m, n = m + 1 ∧ invariant m next) :
    Reads view (Pure.pure (Turn.onward next)) ∅ (Continues invariant after n) := Reads.pure _ holds

theorem Reads.leave {invariant : Nat → σ → Prop} {after : ρ → Prop} (last : n = 0) (holds : after result) :
    Reads view (Pure.pure (Turn.leave result)) ∅ (Continues invariant after n) := Reads.pure _ ⟨last,holds⟩

-- A round with `n` more to come reads its block of the region.
theorem Reads.loop {body : σ → Reading Env (Turn σ ρ)} {after : ρ → Prop} (invariant : Nat → σ → Prop) (block : Nat → Set Address)
    (turn : ∀ n s, invariant n s → Reads view (body s) (block n) (Continues invariant after n)) (start : invariant n s) (enough : n < fuel) :
    Reads view (rounds body fuel s) {p | ∃ i ≤ n, p ∈ block i} after := by
  induction fuel generalizing n s with
  | zero => exact absurd enough (Nat.not_lt_zero n)
  | succ fuel ih =>
    rw [rounds_succ]
    have split : ∀ p, p ∈ {p | ∃ i ≤ n, p ∈ block i} ↔ p ∈ block n ∪ {p | ∃ i < n, p ∈ block i} := by
      intro p
      constructor
      · intro inside
        obtain ⟨i,below,here⟩ := inside
        rcases Nat.lt_or_eq_of_le below with less | same
        · exact .inr ⟨i,less,here⟩
        · exact .inl (same ▸ here)
      · intro inside
        rcases inside with here | ⟨i,less,here⟩
        · exact ⟨n,Nat.le_refl n,here⟩
        · exact ⟨i,Nat.le_of_lt less,here⟩
    refine Reads.across ((turn n s start).bind fun turned holds => ?_) split
    cases turned with
    | onward next =>
      obtain ⟨m,rfl,further⟩ := holds
      exact (ih further (by omega)).across fun p => by simp only [Set.mem_ofPred_eq,Nat.lt_succ_iff]
    | leave result =>
      obtain ⟨rfl,fits⟩ := holds
      exact (Reads.pure after fits).across fun p => by simp
end Loops

section Together
variable {σ' ρ' α' β' : Type} {change : Env → Env} {relates : α → α' → Prop} {after : β → β' → Prop}

inductive Alike (relates : α → β → Prop) : Exec α → Exec β → Prop where
  | returned (fits : relates a b) : Alike relates (.ok a) (.ok b)
  | faulted (fault : Fault) : Alike relates (.error fault) (.error fault)

theorem Alike.same {x y : Exec α} (alike : Alike Eq x y) : x = y := by
  cases alike with
  | returned fits => rw [fits]
  | faulted fault => rfl

theorem Alike.bind {x : Exec α} {y : Exec α'} {rest : α → Exec β} {later : α' → Exec β'} (alike : Alike relates x y)
    (next : ∀ a b, relates a b → Alike after (rest a) (later b)) : Alike after (x >>= rest) (y >>= later) := by
  cases alike with
  | returned fits => exact next _ _ fits
  | faulted fault => exact .faulted fault

def Together (change : Env → Env) (relates : α → β → Prop) (one : Reading Env α) (two : Reading Env β) : Prop :=
  ∀ env, Alike relates (one env) (two (change env))

theorem Together.pure (fits : relates a b) : Together change relates (pure a) (pure b) := fun _ => .returned fits

theorem Together.bind {first : Reading Env α} {second : Reading Env α'} {rest : α → Reading Env β} {later : α' → Reading Env β'}
    (before : Together change relates first second)
    (next : ∀ a b, relates a b → Together change after (rest a) (later b)) :
    Together change after (first >>= rest) (second >>= later) := fun env => (before env).bind fun a b fits => next a b fits env

theorem Together.then {first second : Reading Env α} {rest : α → Reading Env β} {later : α → Reading Env β'}
    (before : Together change Eq first second) (next : ∀ a, Together change after (rest a) (later a)) :
    Together change after (first >>= rest) (second >>= later) :=
  before.bind fun a _ same => same ▸ next a

theorem Together.ite {decided : Prop} [Decidable decided] {one other : Reading Env α} {two another : Reading Env α'}
    (yes : decided → Together change relates one two) (no : ¬ decided → Together change relates other another) :
    Together change relates (if decided then one else other) (if decided then two else another) := by
  by_cases holds : decided
  · rw [if_pos holds,if_pos holds]
    exact yes holds
  · rw [if_neg holds,if_neg holds]
    exact no holds

inductive TurnsAlike (states : σ → σ' → Prop) (results : ρ → ρ' → Prop) : Turn σ ρ → Turn σ' ρ' → Prop where
  | onward (fits : states s t) : TurnsAlike states results (.onward s) (.onward t)
  | leave (fits : results r q) : TurnsAlike states results (.leave r) (.leave q)

theorem Together.loop {body : σ → Reading Env (Turn σ ρ)} {other : σ' → Reading Env (Turn σ' ρ')} {states : σ → σ' → Prop}
    {results : ρ → ρ' → Prop} (turn : ∀ s t, states s t → Together change (TurnsAlike states results) (body s) (other t))
    (start : states s t) (fuel : Nat) : Together change results (rounds body fuel s) (rounds other fuel t) := by
  induction fuel generalizing s t with
  | zero => exact fun _ => .faulted .endless
  | succ fuel ih =>
    rw [rounds_succ,rounds_succ]
    refine (turn s t start).bind fun one two alike => ?_
    cases alike with
    | onward fits => exact ih fits
    | leave fits => exact Together.pure fits
end Together

end NfdTables.Footprint
