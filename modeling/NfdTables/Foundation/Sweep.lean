import Mathlib.Data.List.Nodup
import Mathlib.Data.List.Basic

namespace NfdTables.Sweep
open List
variable {ι : Type}

section Order
variable {items : List ι}

-- `[i,j] <+ items` says that `j` comes somewhere after `i`.
theorem after_iff (nodup : (front ++ c :: rest).Nodup) : [c,i] <+ front ++ c :: rest ↔ i ∈ rest := by
  constructor
  · intro ordered
    obtain ⟨earlier,later,shape,first,second⟩ := cons_sublist_iff.mp ordered
    rw [singleton_sublist] at second
    rw [append_eq_append_iff] at shape
    rcases shape with ⟨between,rfl,shape⟩ | ⟨between,rfl,rfl⟩
    · cases between with
      | nil =>
        have here : c ∈ later := by
          rw [nil_append] at shape
          rw [← shape]
          simp
        rw [append_nil] at first
        exact absurd rfl ((nodup_append.mp nodup).2.2 c first c (by simp))
      | cons d between =>
        obtain ⟨rfl,rfl⟩ := List.cons.inj shape
        exact mem_append_right _ second
    · rw [nodup_append,nodup_append] at nodup
      exact absurd rfl (nodup.2.2 c (mem_append_left _ first) c (by simp))
  · intro member
    exact (cons_sublist_cons.mpr (singleton_sublist.mpr member)).trans (sublist_append_right _ _)

theorem after_asymm (nodup : items.Nodup) (one : [i,j] <+ items) : ¬ [j,i] <+ items := by
  intro two
  obtain ⟨front,rest,rfl⟩ := append_of_mem (one.subset (mem_cons_self))
  have later := (after_iff nodup).mp one
  obtain ⟨between,further,rfl⟩ := append_of_mem later
  have shape : front ++ i :: (between ++ j :: further) = (front ++ i :: between) ++ j :: further := by simp
  rw [shape] at nodup two
  have again := (after_iff nodup).mp two
  rw [append_assoc,nodup_append] at nodup
  exact absurd again ((nodup_cons.mp nodup.2.1).1 ∘ fun deep => by simp [deep])

theorem after_total (inI : i ∈ items) (inJ : j ∈ items) (apart : i ≠ j) : [i,j] <+ items ∨ [j,i] <+ items := by
  obtain ⟨front,rest,rfl⟩ := append_of_mem inI
  rcases mem_append.mp inJ with before | behind
  · obtain ⟨further,between,rfl⟩ := append_of_mem before
    right
    rw [append_assoc]
    exact (cons_sublist_cons.mpr (singleton_sublist.mpr (by simp))).trans (sublist_append_right _ _)
  · left
    have later : j ∈ rest := (mem_cons.mp behind).resolve_left (Ne.symm apart)
    exact (cons_sublist_cons.mpr (singleton_sublist.mpr later)).trans (sublist_append_right _ _)
end Order

section Edits
variable {fresh later : ι → Prop} {items middle after : List ι}

-- What is new is fresh, and what has been there before keeps its order.
structure Edited (fresh : ι → Prop) (items after : List ι) : Prop where
  nodup : after.Nodup
  origin : ∀ i ∈ after, i ∈ items ∨ fresh i
  order : ∀ i ∈ items, ∀ j ∈ items, [i,j] <+ after → [i,j] <+ items

theorem Edited.refl (nodup : items.Nodup) : Edited fresh items items :=
  ⟨nodup,fun _ member => .inl member,fun _ _ _ _ ordered => ordered⟩

theorem Edited.trans (one : Edited fresh items middle) (two : Edited later middle after)
    (old : ∀ i ∈ items, ¬ later i) (wider : ∀ i, later i → fresh i) : Edited fresh items after := by
  have through : ∀ i ∈ items, i ∈ after → i ∈ middle := fun i member deep => (two.origin i deep).resolve_right (old i member)
  refine ⟨two.nodup,fun i member => ?_,fun i inI j inJ ordered => ?_⟩
  · rcases two.origin i member with inside | new
    · exact one.origin i inside
    · exact .inr (wider i new)
  · have middleI := through i inI (ordered.subset (by simp))
    have middleJ := through j inJ (ordered.subset (by simp))
    exact one.order i inI j inJ (two.order i middleI j middleJ ordered)

theorem Edited.insert {front rest : List ι} (nodup : (front ++ x :: rest).Nodup) (new : fresh x) :
    Edited fresh (front ++ rest) (front ++ x :: rest) := by
  classical
  have absent : x ∉ front ++ rest := (nodup_cons.mp (perm_middle.nodup_iff.mp nodup)).1
  refine ⟨nodup,fun i member => ?_,fun i inI j inJ ordered => ?_⟩
  · rcases mem_cons.mp (perm_middle.mem_iff.mp member) with rfl | old
    · exact .inr new
    · exact .inl old
  · have otherI : i ≠ x := fun same => absent (same ▸ inI)
    have otherJ : j ≠ x := fun same => absent (same ▸ inJ)
    have kept : ∀ list : List ι, x ∉ list → list.filter (· ≠ x) = list := by
      intro list outside
      exact filter_eq_self.mpr fun y inside => by simpa using fun same : y = x => outside (same ▸ inside)
    have fewer := ordered.filter fun y => decide (y ≠ x)
    have dropped : (x :: rest).filter (· ≠ x) = rest.filter (· ≠ x) := filter_cons_of_neg (by simp)
    rw [filter_append,dropped,kept front (fun inside => absent (mem_append_left _ inside)),
      kept rest (fun inside => absent (mem_append_right _ inside)),kept [i,j] (by simp [otherI.symm,otherJ.symm])] at fewer
    exact fewer

theorem Edited.delete {front rest : List ι} (nodup : (front ++ x :: rest).Nodup) :
    Edited fresh (front ++ x :: rest) (front ++ rest) := by
  have fewer : front ++ rest <+ front ++ x :: rest := (Sublist.refl front).append (sublist_cons_self x rest)
  exact ⟨nodup.sublist fewer,fun i member => .inl (fewer.subset member),fun _ _ _ _ ordered => ordered.trans fewer⟩

theorem Edited.of_filter {old : ι → Bool} (nodup : after.Nodup) (same : items = after.filter old) :
    Edited (fun i => old i = false) items after := by
  subst items
  refine ⟨nodup,fun i member => ?_,fun i inI j inJ ordered => ?_⟩
  · cases kept : old i with
    | true => exact .inl (mem_filter.mpr ⟨member,kept⟩)
    | false => exact .inr rfl
  · have fewer := ordered.filter old
    rwa [filter_cons_of_pos (mem_filter.mp inI).2,filter_cons_of_pos (mem_filter.mp inJ).2] at fewer

theorem Edited.mono {wider : ι → Prop} (edited : Edited fresh items after) (within : ∀ i, fresh i → wider i) :
    Edited wider items after :=
  ⟨edited.nodup,fun i member => (edited.origin i member).imp_right (within i),edited.order⟩
end Edits

section Sweeps
variable {items after rest : List ι} {cursor : Option ι} {seen : List ι} {steady : ι → Prop}

-- What is ahead of the cursor has not been seen; a steady item has been or is ahead.
structure Swept (items : List ι) (cursor : Option ι) (seen : List ι) (steady : ι → Prop) : Prop where
  nodup : items.Nodup
  once : seen.Nodup
  here : ∀ c, cursor = some c → c ∈ items
  ahead : ∀ c, cursor = some c → ∀ i, [c,i] <+ items → i ∉ seen
  left : ∀ i, steady i → i ∈ items ∧ (i ∈ seen ∨ ∃ c, cursor = some c ∧ [c,i] <+ items)

theorem Swept.done (swept : Swept items none seen steady) (still : steady i) : i ∈ seen := by
  rcases (swept.left i still).2 with done | ⟨c,none,_⟩
  · exact done
  · cases none

theorem Swept.edit (swept : Swept items cursor seen steady) (edited : Edited fresh items after)
    (kept : ∀ c, cursor = some c → c ∈ after) (unseen : ∀ i, fresh i → i ∉ seen) (stay : ∀ i, steady i → i ∈ after) :
    Swept after cursor seen steady := by
  refine ⟨edited.nodup,swept.once,kept,fun c at_c i ordered => ?_,fun i still => ⟨stay i still,?_⟩⟩
  · rcases edited.origin i (ordered.subset (by simp)) with old | new
    · exact swept.ahead c at_c i (edited.order c (swept.here c at_c) i old ordered)
    · exact unseen i new
  · obtain ⟨old,seen | ⟨c,at_c,ordered⟩⟩ := swept.left i still
    · exact .inl seen
    · right
      have apart : c ≠ i := by
        rintro rfl
        exact after_asymm swept.nodup ordered ordered
      refine ⟨c,at_c,(after_total (kept c at_c) (stay i still) apart).resolve_right fun back => ?_⟩
      exact after_asymm swept.nodup ordered (edited.order i old c (swept.here c at_c) back)

-- No steady item is passed over.
theorem land (front seen : List ι) {stops : List ι} (nodup : (front ++ rest).Nodup) (once : seen.Nodup) (unseen : ∀ i ∈ rest, i ∉ seen)
    (part : stops <+ rest) (left : ∀ i, steady i → i ∈ front ++ rest ∧ (i ∈ seen ∨ i ∈ stops)) :
    Swept (front ++ rest) stops.head? (seen ++ stops.head?.toList) steady := by
  cases stops with
  | nil =>
    rw [head?_nil,Option.toList_none,append_nil]
    exact ⟨nodup,once,nofun,nofun,fun i still => ⟨(left i still).1,.inl ((left i still).2.resolve_right not_mem_nil)⟩⟩
  | cons f further =>
    have inside : f ∈ rest := part.subset mem_cons_self
    have stranger : f ∉ seen := unseen f inside
    rw [head?_cons,Option.toList_some]
    refine ⟨nodup,?_,?_,?_,fun i still => ⟨(left i still).1,?_⟩⟩
    · exact nodup_append.mpr ⟨once,by simp,fun i inside j same => by
        rw [mem_singleton.mp same]
        exact fun equal => stranger (equal ▸ inside)⟩
    · rintro c ⟨rfl⟩
      exact mem_append_right _ inside
    · rintro c ⟨rfl⟩ i ordered member
      rcases mem_append.mp member with old | same
      · obtain ⟨before,behind,rfl⟩ := append_of_mem inside
        rw [← append_assoc] at nodup ordered
        exact unseen i (by simp [(after_iff nodup).mp ordered]) old
      · rw [mem_singleton.mp same] at ordered
        exact after_asymm nodup ordered ordered
    · rcases (left i still).2 with old | ahead
      · exact .inl (mem_append_left _ old)
      · rcases mem_cons.mp ahead with rfl | behind
        · exact .inl (by simp)
        · exact .inr ⟨f,rfl,((cons_sublist_cons.mpr (singleton_sublist.mpr behind)).trans part).trans (sublist_append_right _ _)⟩

theorem Swept.among {front stops : List ι} (swept : Swept (front ++ c :: rest) (some c) seen steady) (part : stops <+ rest)
    (all : ∀ i, steady i → i ∈ seen ∨ i ∈ stops) :
    Swept (front ++ c :: rest) stops.head? (seen ++ stops.head?.toList) steady := by
  obtain ⟨nodup,once,_,ahead,left⟩ := swept
  have after : ∀ i, [c,i] <+ front ++ c :: rest ↔ i ∈ rest := fun i => after_iff nodup
  have shape : front ++ c :: rest = (front ++ [c]) ++ rest := by simp
  simp only [after,Option.some.injEq,forall_eq'] at ahead
  rw [shape] at nodup left ⊢
  exact land _ _ nodup once ahead part fun i still => ⟨(left i still).1,all i still⟩

-- The stops may be the items that are accepted.
theorem Swept.advance {front : List ι} {accepted : ι → Bool} (swept : Swept (front ++ c :: rest) (some c) seen steady)
    (accepts : ∀ i, steady i → accepted i = true) :
    Swept (front ++ c :: rest) (rest.find? accepted) (seen ++ (rest.find? accepted).toList) steady := by
  rw [← head?_filter]
  refine swept.among filter_sublist fun i still => (swept.left i still).2.imp_right fun ahead => ?_
  obtain ⟨_,⟨rfl⟩,ordered⟩ := ahead
  exact mem_filter.mpr ⟨(after_iff swept.nodup).mp ordered,accepts i still⟩

theorem Swept.start {stops : List ι} (nodup : items.Nodup) (part : stops <+ items) (all : ∀ i, steady i → i ∈ stops) :
    Swept items stops.head? stops.head?.toList steady :=
  land [] [] nodup nodup_nil (fun _ _ => not_mem_nil) part fun i still => ⟨part.subset (all i still),.inr (all i still)⟩

theorem Swept.begin {accepted : ι → Bool} (nodup : items.Nodup) (stored : ∀ i, steady i → i ∈ items)
    (accepts : ∀ i, steady i → accepted i = true) :
    Swept items (items.find? accepted) (items.find? accepted).toList steady := by
  rw [← head?_filter]
  exact Swept.start nodup filter_sublist fun i still => mem_filter.mpr ⟨stored i still,accepts i still⟩
end Sweeps

section Passes
variable {items ahead seen : List ι} {steady : ι → Prop} {accepted : ι → Bool}

-- One pass over a list that stays as it is, in its order.
structure Passing (items ahead seen : List ι) (steady : ι → Prop) : Prop where
  seenOf : ∃ passed, items = passed ++ ahead ∧ seen <+ passed ∧ ∀ i ∈ passed, steady i → i ∈ seen

theorem Passing.begin (items : List ι) (steady : ι → Prop) : Passing items items [] steady :=
  ⟨[],rfl,Sublist.refl _,fun _ member => absurd member not_mem_nil⟩

theorem Passing.next (passing : Passing items (before ++ f :: rest) seen steady) (skipped : ∀ i ∈ before, ¬ steady i) :
    Passing items rest (seen ++ [f]) steady := by
  obtain ⟨passed,rfl,part,all⟩ := passing.seenOf
  refine ⟨passed ++ (before ++ [f]),by simp,part.append (sublist_append_right _ _),fun i member still => ?_⟩
  rcases mem_append.mp member with old | new
  · exact mem_append_left _ (all i old still)
  · rcases mem_append.mp new with skip | here
    · exact absurd still (skipped i skip)
    · exact mem_append_right _ here

theorem Passing.finish (passing : Passing items ahead seen steady) (skipped : ∀ i ∈ ahead, ¬ steady i) :
    Passing items [] seen steady := by
  obtain ⟨passed,rfl,part,all⟩ := passing.seenOf
  refine ⟨passed ++ ahead,by simp,part.trans (sublist_append_left _ _),fun i member still => ?_⟩
  rcases mem_append.mp member with old | new
  · exact all i old still
  · exact absurd still (skipped i new)

theorem Passing.part (passing : Passing items ahead seen steady) : seen <+ items := by
  obtain ⟨passed,rfl,part,_⟩ := passing.seenOf
  exact part.trans (sublist_append_left _ _)

theorem Passing.done (passing : Passing items [] seen steady) (member : i ∈ items) (still : steady i) : i ∈ seen := by
  obtain ⟨passed,rfl,_,all⟩ := passing.seenOf
  exact all i (by simpa using member) still
end Passes

end NfdTables.Sweep
