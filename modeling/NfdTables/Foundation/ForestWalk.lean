import Mathlib.Data.List.Pairwise
import Mathlib.Logic.Relation

namespace NfdTables.ForestWalk
variable {α β : Type} {keep : α → Bool} {opens : α → List α}

-- A depth-first walk over a forest. It opens each item into the forest below it,
-- which it walks before what comes next, and it reports the items it keeps.
inductive Walk (keep : α → Bool) (opens : α → List α) : List α → List α → Prop where
  | nil : Walk keep opens [] []
  | cons (inner : Walk keep opens (opens a) below) (outer : Walk keep opens rest later) :
      Walk keep opens (a :: rest) ((if keep a then [a] else []) ++ below ++ later)

-- The pre-order of a forest: the walk that reports everything it meets.
abbrev Listing (opens : α → List α) : List α → List α → Prop := Walk (fun _ => true) opens

abbrev Reaches (opens : α → List α) : α → α → Prop := Relation.ReflTransGen fun a b => b ∈ opens a

theorem Listing.item (inner : Listing opens (opens a) below) (outer : Listing opens rest later) :
    Listing opens (a :: rest) (a :: (below ++ later)) :=
  Walk.cons inner outer

theorem Listing.parts (walk : Listing opens (a :: rest) listing) :
    ∃ below later, Listing opens (opens a) below ∧ Listing opens rest later ∧ listing = a :: (below ++ later) := by
  cases walk with
  | cons inner outer => exact ⟨_,_,inner,outer,rfl⟩

theorem Walk.append (first : Walk keep opens front yields) (second : Walk keep opens back others) :
    Walk keep opens (front ++ back) (yields ++ others) := by
  induction first with
  | nil => exact second
  | cons inner _ _ ih =>
    rw [List.append_assoc]
    exact .cons inner ih

-- Walks exist where every opening leads further down.
theorem Walk.exists {good : α → Prop} (height : α → Nat)
    (lower : ∀ a, good a → ∀ b ∈ opens a, good b ∧ height b < height a)
    (small : ∀ a ∈ items, good a ∧ height a < bound) : ∃ yields, Walk keep opens items yields := by
  induction bound generalizing items with
  | zero =>
    cases items with
    | nil => exact ⟨[],.nil⟩
    | cons a rest => exact absurd (small a (by simp)).2 (Nat.not_lt_zero _)
  | succ bound deeper =>
    induction items with
    | nil => exact ⟨[],.nil⟩
    | cons a rest wider =>
      obtain ⟨fine,high⟩ := small a (by simp)
      obtain ⟨below,inner⟩ := @deeper (opens a) fun b member =>
        ⟨(lower a fine b member).1,Nat.lt_of_lt_of_le (lower a fine b member).2 (Nat.le_of_lt_succ high)⟩
      obtain ⟨later,outer⟩ := wider fun b member => small b (List.mem_cons_of_mem _ member)
      exact ⟨_,.cons inner outer⟩

theorem Walk.mem_iff (walk : Walk keep opens items yields) :
    b ∈ yields ↔ keep b = true ∧ ∃ a ∈ items, Reaches opens a b := by
  induction walk with
  | nil => simp
  | @cons a below rest later _ _ deeper wider =>
    have here : b ∈ (if keep a then [a] else []) ↔ keep b = true ∧ b = a := by
      by_cases kept : keep a = true
      · rw [if_pos kept,List.mem_singleton]
        exact ⟨fun same => ⟨same ▸ kept,same⟩,And.right⟩
      · rw [if_neg kept]
        exact ⟨fun member => absurd member List.not_mem_nil,fun ⟨other,same⟩ => absurd (same ▸ other) kept⟩
    rw [List.mem_append,List.mem_append,here,deeper,wider,← and_or_left,← and_or_left]
    refine and_congr_right fun _ => ?_
    constructor
    · rintro ((rfl | ⟨c,member,down⟩) | ⟨c,member,down⟩)
      · exact ⟨b,by simp,.refl⟩
      · exact ⟨a,by simp,.head member down⟩
      · exact ⟨c,List.mem_cons_of_mem _ member,down⟩
    · rintro ⟨c,member,down⟩
      rcases List.mem_cons.mp member with rfl | other
      · rcases down.cases_head with rfl | ⟨d,opened,further⟩
        · exact .inl (.inl rfl)
        · exact .inl (.inr ⟨d,opened,further⟩)
      · exact .inr ⟨c,other,down⟩

-- A walk that leaves some items closed reports part of the listing.
theorem Listing.walk {wide : α → List α} (pruned : ∀ a, opens a = wide a ∨ opens a = [])
    (full : Listing wide items listing) (keep : α → Bool) : ∃ yields, Walk keep opens items yields := by
  induction full with
  | nil => exact ⟨[],.nil⟩
  | @cons a _ _ _ _ _ deeper wider =>
    obtain ⟨below,inner⟩ := deeper
    obtain ⟨later,outer⟩ := wider
    rcases pruned a with same | closed
    · exact ⟨_,.cons (same ▸ inner) outer⟩
    · have empty : Walk keep opens (opens a) [] := by rw [closed]; exact .nil
      exact ⟨_,.cons empty outer⟩

theorem Walk.sublist {wide : α → List α} (pruned : ∀ a, opens a = wide a ∨ opens a = [])
    (walk : Walk keep opens items yields) (full : Listing wide items listing) : yields.Sublist listing := by
  induction walk generalizing listing with
  | nil => exact List.nil_sublist _
  | @cons a below rest later inner _ deeper wider =>
    obtain ⟨whole,others,fullBelow,fullLater,rfl⟩ := full.parts
    have head : (if keep a then [a] else []).Sublist [a] := by
      split
      · exact List.Sublist.refl _
      · exact List.nil_sublist _
    have inside : below.Sublist whole := by
      rcases pruned a with same | closed
      · exact deeper (same ▸ fullBelow)
      · rw [closed] at inner
        cases inner
        exact List.nil_sublist _
    rw [List.append_assoc]
    exact head.append (inside.append (wider fullLater))

theorem Walk.unique (one : Walk keep opens items yields) (two : Walk keep opens items others) : yields = others := by
  induction one generalizing others with
  | nil =>
    cases two
    rfl
  | cons _ _ deeper wider =>
    cases two with
    | cons inner outer => rw [deeper inner,wider outer]

theorem Walk.split (walk : Walk keep opens (front ++ back) yields) :
    ∃ early late, yields = early ++ late ∧ Walk keep opens front early ∧ Walk keep opens back late := by
  induction front generalizing yields with
  | nil => exact ⟨[],yields,rfl,.nil,walk⟩
  | cons a front ih =>
    cases walk with
    | cons inner outer =>
      obtain ⟨early,late,rfl,first,second⟩ := ih outer
      exact ⟨_,late,(List.append_assoc ..).symm,.cons inner first,second⟩

-- A grown forest keeps the order of the old listing, if nothing old is below what is new.
theorem Listing.thin {grown : α → List α} {old : α → Bool} {good : α → Prop} (listed : Listing grown items listing)
    (down : ∀ a, good a → ∀ b ∈ grown a, good b) (kept : ∀ a, good a → old a = true → opens a = (grown a).filter old)
    (fresh : ∀ a, good a → old a = false → ∀ b ∈ grown a, old b = false) (fine : ∀ a ∈ items, good a) :
    Listing opens (items.filter old) (listing.filter old) := by
  induction listed with
  | nil => exact .nil
  | @cons a below rest later inner outer deeper wider =>
    have fineA := fine a List.mem_cons_self
    have under := deeper (down a fineA)
    have beside := wider fun b member => fine b (List.mem_cons_of_mem _ member)
    rw [if_pos rfl,List.filter_append,List.filter_append]
    cases stays : old a with
    | true =>
      rw [← kept a fineA stays] at under
      rw [List.filter_cons_of_pos stays,List.filter_cons_of_pos stays]
      exact Listing.item under beside
    | false =>
      have none_old : below.filter old = [] := by
        refine List.filter_eq_nil_iff.mpr fun b member => ?_
        obtain ⟨_,c,opened,path⟩ := inner.mem_iff.mp member
        have newer : good b ∧ old b = false := by
          clear member
          induction path with
          | refl => exact ⟨down a fineA c opened,fresh a fineA stays c opened⟩
          | tail _ further ih => exact ⟨down _ ih.1 _ further,fresh _ ih.1 ih.2 _ further⟩
        simp [newer.2]
      have gone : ¬ old a = true := by simp [stays]
      rw [List.filter_cons_of_neg gone,List.filter_cons_of_neg gone,none_old]
      exact beside

-- Items labelled by sequences, each opening adding an element.
section Labelled
variable {good : α → Prop} {label : α → List β}

theorem Reaches.extends (longer : ∀ a, good a → ∀ b ∈ opens a, good b ∧ ∃ k, label b = label a ++ [k])
    (fine : good a) (down : Reaches opens a b) : good b ∧ label a <+: label b := by
  induction down with
  | refl => exact ⟨fine,List.prefix_rfl⟩
  | tail _ opened ih =>
    obtain ⟨further,k,same⟩ := longer _ ih.1 _ opened
    exact ⟨further,same ▸ ih.2.trans (List.prefix_append _ _)⟩

def Apart (label : α → List β) (a b : α) : Prop := ¬ label a <+: label b ∧ ¬ label b <+: label a

theorem Listing.nodup (longer : ∀ a, good a → ∀ b ∈ opens a, good b ∧ ∃ k, label b = label a ++ [k])
    (siblings : ∀ a, good a → (opens a).Pairwise (Apart label))
    (listed : Listing opens items listing) (fine : ∀ a ∈ items, good a) (apart : items.Pairwise (Apart label)) :
    listing.Nodup := by
  induction listed with
  | nil => exact List.nodup_nil
  | @cons a below rest later inner outer deeper wider =>
    have fineA := fine a (by simp)
    obtain ⟨apartA,apartRest⟩ := List.pairwise_cons.mp apart
    have nodupBelow := deeper (fun b member => (longer a fineA b member).1) (siblings a fineA)
    have nodupLater := wider (fun b member => fine b (List.mem_cons_of_mem _ member)) apartRest
    have under : ∀ b ∈ below, ∃ k, label a ++ [k] <+: label b := by
      intro b member
      obtain ⟨_,c,opened,down⟩ := inner.mem_iff.mp member
      obtain ⟨fineC,k,same⟩ := longer a fineA c opened
      exact ⟨k,same ▸ (Reaches.extends longer fineC down).2⟩
    have beside : ∀ b ∈ later, ∃ c, c ∈ rest ∧ label c <+: label b := by
      intro b member
      obtain ⟨_,c,inRest,down⟩ := outer.mem_iff.mp member
      exact ⟨c,inRest,(Reaches.extends longer (fine c (List.mem_cons_of_mem _ inRest)) down).2⟩
    -- What lies below `a` does not lie below an item beside `a`.
    have split : ∀ b, label a <+: label b → b ∉ later := by
      intro b below member
      obtain ⟨c,inRest,above⟩ := beside b member
      rcases List.prefix_or_prefix_of_prefix below above with one | other
      · exact (apartA c inRest).1 one
      · exact (apartA c inRest).2 other
    simp only [if_true,List.cons_append,List.nil_append]
    refine List.nodup_cons.mpr ⟨?_,List.nodup_append.mpr ⟨nodupBelow,nodupLater,?_⟩⟩
    · intro member
      rcases List.mem_append.mp member with inside | outside
      · obtain ⟨k,further⟩ := under a inside
        have short := further.length_le
        rw [List.length_append] at short
        exact absurd short (Nat.not_succ_le_self _)
      · exact split a List.prefix_rfl outside
    · rintro b inside c outside rfl
      obtain ⟨k,further⟩ := under b inside
      exact split b ((List.prefix_append _ _).trans further) outside
end Labelled

end NfdTables.ForestWalk
