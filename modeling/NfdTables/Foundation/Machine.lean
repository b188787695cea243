namespace NfdTables.Machine

-- What a modelled step can run into instead of a result: a use of a pointer or an
-- index, an overflow, a failed assertion, or a loop that never leaves, so `.ok`
-- also says that the code returns. Undefined behaviour of other kinds has no case.
inductive Fault where
  | nullPointer
  | danglingPointer
  | outOfBounds
  | signedOverflow
  | assertion
  | endless
deriving DecidableEq,Repr

abbrev Exec := Except Fault

@[simp] theorem ok_bind (value : α) (rest : α → Exec β) : ((Except.ok value : Exec α) >>= rest) = rest value := rfl
@[simp] theorem pure_ok (value : α) : (pure value : Exec α) = .ok value := rfl

theorem bind_parts {first : Exec α} {rest : α → Exec β} (ran : (first >>= rest) = .ok result) :
    ∃ middle, first = .ok middle ∧ rest middle = .ok result := by
  cases first with
  | error fault => cases ran
  | ok middle => exact ⟨middle,rfl,ran⟩

theorem returns_of_isOk {computed : Exec α} (returns : computed.isOk = true) : ∃ value, computed = .ok value := by
  cases computed with
  | error fault => cases returns
  | ok value => exact ⟨value,rfl⟩

def required : Option α → Exec α
  | some value => .ok value
  | none => .error .nullPointer

@[simp] theorem required_some (value : α) : required (some value) = .ok value := rfl

section Loops
variable {σ ρ : Type}

inductive Turn (σ ρ : Type) where
  | onward (state : σ)
  | leave (result : ρ)

-- `while (true) body`. The fuel bounds the rounds.
def loop (body : σ → Exec (Turn σ ρ)) : Nat → σ → Exec ρ
  | 0,_ => .error .endless
  | fuel+1,s => do
    match ← body s with
    | .leave result => return result
    | .onward s => loop body fuel s

theorem loop_leave {body : σ → Exec (Turn σ ρ)} (left : body s = .ok (.leave result)) (fuel : Nat) :
    loop body (fuel+1) s = .ok result := by
  simp [loop,left]

theorem loop_onward {body : σ → Exec (Turn σ ρ)} (went : body s = .ok (.onward next)) (fuel : Nat) :
    loop body (fuel+1) s = loop body fuel next := by
  simp [loop,went]
end Loops

def Yields (computed : Exec α) (condition : α → Prop) : Prop := ∀ value, computed = .ok value → condition value

instance (computed : Exec α) (condition : α → Prop) [∀ value, Decidable (condition value)] :
    Decidable (Yields computed condition) :=
  match computed with
  | .ok value => decidable_of_iff (condition value)
      ⟨fun holds _ same => Except.ok.inj same ▸ holds,fun all => all value rfl⟩
  | .error _ => isTrue (fun _ same => nomatch same)

theorem yields_ok {condition : α → Prop} : Yields (.ok value) condition ↔ condition value := by
  constructor
  · exact fun yields => yields value rfl
  · intro holds other same
    cases Except.ok.inj same
    exact holds

section Runs
variable {State Spec Op : Type}

def run (step : State → Op → Exec State) : State → List Op → Exec State
  | s,[] => .ok s
  | s,op :: rest => do
    let next ← step s op
    run step next rest

theorem run_append (step : State → Op → Exec State) (s : State) (earlier later : List Op) :
    run step s (earlier ++ later) = (do let middle ← run step s earlier; run step middle later) := by
  induction earlier generalizing s with
  | nil => rfl
  | cons op rest ih =>
    simp only [List.cons_append,run]
    cases step s op with
    | error fault => rfl
    | ok next => simpa using ih next

theorem run_preserves {step : State → Op → Exec State} (invariant : State → Prop)
    (preserved : ∀ s op next, op ∈ ops → invariant s → step s op = .ok next → invariant next)
    (start : invariant s) (ran : run step s ops = .ok final) : invariant final := by
  induction ops generalizing s with
  | nil =>
    cases Except.ok.inj ran
    exact start
  | cons op rest ih =>
    obtain ⟨next,stepped,later⟩ := bind_parts ran
    exact ih (fun s op next member => preserved s op next (List.mem_cons_of_mem _ member))
      (preserved s op next (by simp) start stepped) later

-- The guard is asked of a step only where the run really gets there.
def Guarded (step : State → Op → Exec State) (spec : Spec → Op → Spec) (guard : State → Spec → Op → Prop) :
    State → Spec → List Op → Prop
  | _,_,[] => True
  | s,a,op :: rest => guard s a op ∧
      Yields (step s op) (fun next => Guarded step spec guard next (spec a op) rest)

instance decidableGuarded (step : State → Op → Exec State) (spec : Spec → Op → Spec) (guard : State → Spec → Op → Prop)
    [∀ s a op, Decidable (guard s a op)] : ∀ s a ops, Decidable (Guarded step spec guard s a ops)
  | _,_,[] => isTrue trivial
  | s,a,op :: rest =>
    have : ∀ next, Decidable (Guarded step spec guard next (spec a op) rest) :=
      fun next => decidableGuarded step spec guard next (spec a op) rest
    inferInstanceAs (Decidable (guard s a op ∧ Yields (step s op) _))

variable {step : State → Op → Exec State} {spec : Spec → Op → Spec} {guard : State → Spec → Op → Prop}

theorem run_simulates (relation : State → Spec → Prop)
    (simulated : ∀ s a op, relation s a → guard s a op →
      ∃ next, step s op = .ok next ∧ relation next (spec a op))
    (related : relation s a) (guarded : Guarded step spec guard s a ops) :
    ∃ next, run step s ops = .ok next ∧ relation next (ops.foldl spec a) := by
  induction ops generalizing s a with
  | nil => exact ⟨s,rfl,related⟩
  | cons op rest ih =>
    obtain ⟨allowed,later⟩ := guarded
    obtain ⟨next,stepped,relatedNext⟩ := simulated s a op related allowed
    obtain ⟨final,ran,relatedFinal⟩ := ih relatedNext (later next stepped)
    exact ⟨final,by simp [run,stepped,ran],relatedFinal⟩

theorem guarded_earlier (guarded : Guarded step spec guard s a (earlier ++ later)) :
    Guarded step spec guard s a earlier := by
  induction earlier generalizing s a with
  | nil => trivial
  | cons op rest ih => exact ⟨guarded.1,fun next stepped => ih (guarded.2 next stepped)⟩

theorem guarded_next (guarded : Guarded step spec guard s a (earlier ++ op :: later))
    (ran : run step s earlier = .ok middle) : guard middle (earlier.foldl spec a) op := by
  induction earlier generalizing s a with
  | nil => cases Except.ok.inj ran; exact guarded.1
  | cons first rest ih =>
    obtain ⟨next,stepped,ran⟩ := bind_parts ran
    exact ih (guarded.2 next stepped) ran

-- The guard of a run needs checking only in states the relation allows.
theorem guarded_of_related {relation : State → Spec → Prop}
    (simulated : ∀ s a op, relation s a → guard s a op →
      ∃ next, step s op = .ok next ∧ relation next (spec a op))
    (allowed : ∀ s a op, relation s a → op ∈ ops → guard s a op) (related : relation s a) :
    Guarded step spec guard s a ops := by
  induction ops generalizing s a with
  | nil => trivial
  | cons op rest ih =>
    have now := allowed s a op related (by simp)
    refine ⟨now,fun next stepped => ?_⟩
    obtain ⟨other,same,relatedNext⟩ := simulated s a op related now
    cases Except.ok.inj (stepped.symm.trans same)
    exact ih (fun s a op related member => allowed s a op related (List.mem_cons_of_mem _ member)) relatedNext

-- A guard that is exact for a step is exact for a run.
theorem guarded_iff {relation : State → Spec → Prop} {good : State → Prop}
    (exactly : ∀ s a op, op ∈ ops → relation s a → good s →
      ∃ next, step s op = .ok next ∧ relation next (spec a op) ∧ (good next ↔ guard s a op))
    (related : relation s a) (start : good s) :
    (∀ earlier, earlier <+: ops → ∃ reached, run step s earlier = .ok reached ∧ good reached) ↔
      Guarded step spec guard s a ops := by
  induction ops generalizing s a with
  | nil =>
    refine ⟨fun _ => trivial,fun _ earlier shorter => ?_⟩
    cases List.prefix_nil.mp shorter
    exact ⟨s,rfl,start⟩
  | cons op rest ih =>
    obtain ⟨next,stepped,relatedNext,good_iff⟩ := exactly s a op (by simp) related start
    have later (goodNext : good next) := ih (s:=next) (fun s a op member => exactly s a op (List.mem_cons_of_mem _ member))
      relatedNext goodNext
    have onward (earlier : List Op) : run step s (op :: earlier) = run step next earlier := by rw [run,stepped,ok_bind]
    rw [Guarded,stepped,yields_ok]
    constructor
    · intro stays
      obtain ⟨reached,ran,goodNext⟩ := stays [op] (by simp)
      rw [onward] at ran
      cases Except.ok.inj ran
      refine ⟨good_iff.mp goodNext,(later goodNext).mp fun earlier shorter => ?_⟩
      obtain ⟨reached,ran,goodReached⟩ := stays (op :: earlier) (List.cons_prefix_cons.mpr ⟨rfl,shorter⟩)
      exact ⟨reached,(onward earlier).symm.trans ran,goodReached⟩
    · intro guarded earlier shorter
      obtain ⟨allowed,guardedLater⟩ := guarded
      cases earlier with
      | nil => exact ⟨s,rfl,start⟩
      | cons first earlier =>
        obtain ⟨rfl,within⟩ := List.cons_prefix_cons.mp shorter
        rw [onward]
        exact (later (good_iff.mpr allowed)).mpr guardedLater earlier within
end Runs

section Moments
variable {State Op : Type} {step : State → Op → Exec State} {condition : State → Prop}

-- In every state, and in some state, of a run.
def Always (step : State → Op → Exec State) (condition : State → Prop) (s : State) (ops : List Op) : Prop :=
  ∀ earlier later middle, ops = earlier ++ later → run step s earlier = .ok middle → condition middle

def Sometime (step : State → Op → Exec State) (condition : State → Prop) (s : State) (ops : List Op) : Prop :=
  ∃ earlier later middle, ops = earlier ++ later ∧ run step s earlier = .ok middle ∧ condition middle

theorem Always.now (always : Always step condition s ops) : condition s := always [] ops s rfl rfl

theorem Always.tail (always : Always step condition s (op :: rest)) (stepped : step s op = .ok next) :
    Always step condition next rest :=
  fun earlier later middle shape ran =>
    always (op :: earlier) later middle (congrArg (op :: ·) shape) (by rw [run,stepped,ok_bind,ran])

theorem Sometime.now (holds : condition s) : Sometime step condition s ops := ⟨[],ops,s,rfl,rfl,holds⟩

theorem Sometime.later (stepped : step s op = .ok next) (sometime : Sometime step condition next rest) :
    Sometime step condition s (op :: rest) := by
  obtain ⟨earlier,later,middle,rfl,ran,holds⟩ := sometime
  exact ⟨op :: earlier,later,middle,rfl,by rw [run,stepped,ok_bind,ran],holds⟩
end Moments

end NfdTables.Machine
