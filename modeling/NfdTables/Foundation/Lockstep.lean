import NfdTables.Foundation.Machine

namespace NfdTables.Machine
variable {State Spec Shadow Op SeenOp : Type} {step : State → Op → Exec State}

section Lockstep
variable {follow : Spec → Op → Exec Spec} {guard : State → Spec → Op → Prop}

-- Where a step of the machine does not return, it stays where it is.
def asSpec (follow : Spec → Op → Exec Spec) (a : Spec) (op : Op) : Spec :=
  match follow a op with
  | .ok next => next
  | .error _ => a

theorem asSpec_ok (followed : follow a op = .ok b) : asSpec follow a op = b := by
  rw [asSpec,followed]

-- Two machines that take the same operations, each over its own run.
theorem run_lockstep (relation : State → Spec → Prop) (related : relation s a)
    (guarded : Guarded step (asSpec follow) guard s a ops)
    (together : ∀ s a op, relation s a → guard s a op →
      ∃ s' b, step s op = .ok s' ∧ follow a op = .ok b ∧ relation s' b) :
    ∃ s' b, run step s ops = .ok s' ∧ run follow a ops = .ok b ∧ relation s' b := by
  induction ops generalizing s a with
  | nil => exact ⟨s,a,rfl,rfl,related⟩
  | cons op rest ih =>
    obtain ⟨allowed,later⟩ := guarded
    obtain ⟨s',b,stepped,followed,relatedNext⟩ := together s a op related allowed
    have further := later s' stepped
    rw [asSpec_ok followed] at further
    obtain ⟨final,last,ran,ranFollow,relatedFinal⟩ := ih relatedNext further
    exact ⟨final,last,by rw [run,stepped,ok_bind,ran],by rw [run,followed,ok_bind,ranFollow],relatedFinal⟩

-- Two machines that may also fail, each where the other one does.
theorem run_together (fault : Fault) (relation : State → Spec → Prop) (related : relation s a)
    (guarded : Guarded step (asSpec follow) guard s a ops)
    (together : ∀ s a op, relation s a → guard s a op →
      (∃ s' b, step s op = .ok s' ∧ follow a op = .ok b ∧ relation s' b) ∨
      (step s op = .error fault ∧ follow a op = .error fault)) :
    (∃ s' b, run step s ops = .ok s' ∧ run follow a ops = .ok b ∧ relation s' b) ∨
      (run step s ops = .error fault ∧ run follow a ops = .error fault) := by
  induction ops generalizing s a with
  | nil => exact .inl ⟨s,a,rfl,rfl,related⟩
  | cons op rest ih =>
    obtain ⟨allowed,later⟩ := guarded
    simp only [run]
    cases together s a op related allowed with
    | inl both =>
      obtain ⟨s',b,stepped,followed,relatedNext⟩ := both
      have further := later s' stepped
      rw [asSpec_ok followed] at further
      rw [stepped,followed]
      exact ih relatedNext further
    | inr neither =>
      rw [neither.1,neither.2]
      exact .inr ⟨rfl,rfl⟩
end Lockstep

section Shadow
variable {spec : Spec → Op → Spec} {guard : State → Spec → Op → Prop}

-- A machine beside another one that sees some of its operations only.
theorem run_shadows (follow : Shadow → SeenOp → Exec Shadow) (seen : Op → Option SeenOp)
    (relation : State → Spec → Shadow → Prop) (related : relation s a t)
    (guarded : Guarded step spec guard s a ops)
    (together : ∀ s a t op, relation s a t → guard s a op → ∃ s', step s op = .ok s' ∧
      match seen op with
      | some visible => ∃ t', follow t visible = .ok t' ∧ relation s' (spec a op) t'
      | none => relation s' (spec a op) t) :
    ∃ s' t', run step s ops = .ok s' ∧ run follow t (ops.filterMap seen) = .ok t' ∧ relation s' (ops.foldl spec a) t' := by
  induction ops generalizing s a t with
  | nil => exact ⟨s,t,rfl,rfl,related⟩
  | cons op rest ih =>
    obtain ⟨allowed,later⟩ := guarded
    obtain ⟨s',stepped,beside⟩ := together s a t op related allowed
    cases visible : seen op with
    | some other =>
      rw [visible] at beside
      obtain ⟨t',followed,relatedNext⟩ := beside
      obtain ⟨final,last,ran,ranFollow,relatedFinal⟩ := ih relatedNext (later s' stepped)
      refine ⟨final,last,by rw [run,stepped,ok_bind,ran],?_,relatedFinal⟩
      rw [List.filterMap_cons_some visible,run,followed,ok_bind,ranFollow]
    | none =>
      rw [visible] at beside
      obtain ⟨final,last,ran,ranFollow,relatedFinal⟩ := ih beside (later s' stepped)
      refine ⟨final,last,by rw [run,stepped,ok_bind,ran],?_,relatedFinal⟩
      rw [List.filterMap_cons_none visible,ranFollow]
end Shadow

end NfdTables.Machine
