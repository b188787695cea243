import Mathlib

namespace NfdTables.Lines

section Text

-- Lines as a stream gets them, each with a newline at its end.
def text (lines : List String) : String := String.join (lines.map (· ++ "\n"))

@[simp] theorem text_nil : text [] = "" := String.join_nil

@[simp] theorem text_cons (line : String) (rest : List String) : text (line :: rest) = line ++ "\n" ++ text rest := by
  simp only [text,List.map_cons,String.join_cons]

@[simp] theorem text_append (earlier later : List String) : text (earlier ++ later) = text earlier ++ text later := by
  simp only [text,List.map_append,String.join_append]

-- A line that has no newline inside.
def OneLine (line : String) : Prop := '\n' ∉ line.toList

theorem OneLine.append (first : OneLine s) (second : OneLine t) : OneLine (s ++ t) := by
  unfold OneLine
  rw [String.toList_append,List.mem_append]
  exact not_or.mpr ⟨first,second⟩

theorem number_digits (n : Nat) : ∀ c ∈ (toString n).toList, c.isDigit = true := fun _ inside =>
  Nat.isDigit_of_mem_toDigits (b:=10) (by decide) (by decide) (Nat.toList_repr ▸ inside)

theorem number_inj {n m : Nat} (same : (toString n).toList = (toString m).toList) : n = m :=
  Nat.repr_injective (String.toList_injective same)

theorem oneLine_number (n : Nat) : OneLine (toString n) := fun inside => by cases number_digits n _ inside

theorem cut_unique {stop : α} {one two rest other : List α} (clean : stop ∉ one) (cleanTwo : stop ∉ two)
    (same : one ++ stop :: rest = two ++ stop :: other) : one = two ∧ rest = other := by
  induction one generalizing two with
  | nil =>
    cases two with
    | nil => exact ⟨rfl,(List.cons.inj same).2⟩
    | cons a two =>
      obtain ⟨rfl,_⟩ := List.cons.inj same
      exact absurd List.mem_cons_self cleanTwo
  | cons a one ih =>
    cases two with
    | nil =>
      obtain ⟨rfl,_⟩ := List.cons.inj same
      exact absurd List.mem_cons_self clean
    | cons b two =>
      obtain ⟨rfl,further⟩ := List.cons.inj same
      obtain ⟨rfl,left⟩ := ih (fun inside => clean (List.mem_cons_of_mem _ inside))
        (fun inside => cleanTwo (List.mem_cons_of_mem _ inside)) further
      exact ⟨rfl,left⟩

theorem text_inj {one two : List String} (clean : ∀ line ∈ one, OneLine line) (cleanTwo : ∀ line ∈ two, OneLine line)
    (same : text one = text two) : one = two := by
  induction one generalizing two with
  | nil =>
    cases two with
    | nil => rfl
    | cons line two =>
      have chars := congrArg String.toList same
      simp at chars
  | cons line one ih =>
    cases two with
    | nil =>
      have chars := congrArg String.toList same
      simp at chars
    | cons other two =>
      have chars : line.toList ++ '\n' :: (text one).toList = other.toList ++ '\n' :: (text two).toList := by
        have whole := congrArg String.toList same
        simpa using whole
      obtain ⟨here,further⟩ := cut_unique (clean line List.mem_cons_self) (cleanTwo other List.mem_cons_self) chars
      rw [String.toList_injective here,ih (fun l member => clean l (List.mem_cons_of_mem _ member))
        (fun l member => cleanTwo l (List.mem_cons_of_mem _ member)) (String.toList_injective further)]
end Text

section Paragraphs
variable {α : Type} {indented : α → Prop}

-- A first line and the indented lines below it.
structure Paragraph (α : Type) where
  first : α
  below : List α

def Paragraph.lines (paragraph : Paragraph α) : List α := paragraph.first :: paragraph.below

def Paragraph.Laid (indented : α → Prop) (paragraph : Paragraph α) : Prop :=
  ¬ indented paragraph.first ∧ ∀ line ∈ paragraph.below, indented line

theorem below_unique {one two rest other : List α} (inside : ∀ line ∈ one, indented line) (insideTwo : ∀ line ∈ two, indented line)
    (stops : ∀ line ∈ rest.head?, ¬ indented line) (stopsTwo : ∀ line ∈ other.head?, ¬ indented line)
    (same : one ++ rest = two ++ other) : one = two ∧ rest = other := by
  induction one generalizing two with
  | nil =>
    cases two with
    | nil => exact ⟨rfl,same⟩
    | cons a two =>
      change rest = _ at same
      subst same
      exact absurd (insideTwo a List.mem_cons_self) (stops a rfl)
  | cons a one ih =>
    cases two with
    | nil =>
      change _ = other at same
      subst same
      exact absurd (inside a List.mem_cons_self) (stopsTwo a rfl)
    | cons b two =>
      obtain ⟨rfl,further⟩ := List.cons.inj same
      obtain ⟨rfl,left⟩ := ih (fun line member => inside line (List.mem_cons_of_mem _ member))
        (fun line member => insideTwo line (List.mem_cons_of_mem _ member)) further
      exact ⟨rfl,left⟩

theorem paragraphs_start {paragraphs : List (Paragraph α)} (laid : ∀ p ∈ paragraphs, p.Laid indented) :
    ∀ line ∈ (paragraphs.flatMap Paragraph.lines).head?, ¬ indented line := by
  cases paragraphs with
  | nil => exact fun line none => by cases none
  | cons p rest =>
    intro line here
    cases Option.some.inj here
    exact (laid p List.mem_cons_self).1

-- The lines tell where each paragraph ends.
theorem paragraphs_inj {one two : List (Paragraph α)} (laid : ∀ p ∈ one, p.Laid indented) (laidTwo : ∀ p ∈ two, p.Laid indented)
    (same : one.flatMap Paragraph.lines = two.flatMap Paragraph.lines) : one = two := by
  induction one generalizing two with
  | nil =>
    cases two with
    | nil => rfl
    | cons q two => cases same
  | cons p one ih =>
    cases two with
    | nil => cases same
    | cons q two =>
      obtain ⟨⟨_,inside⟩,later⟩ := List.forall_mem_cons.mp laid
      obtain ⟨⟨_,insideTwo⟩,laterTwo⟩ := List.forall_mem_cons.mp laidTwo
      rw [List.flatMap_cons,List.flatMap_cons] at same
      obtain ⟨first,further⟩ := List.cons.inj same
      obtain ⟨below,left⟩ := below_unique inside insideTwo (paragraphs_start later) (paragraphs_start laterTwo) further
      rw [ih later laterTwo left]
      cases p
      cases q
      cases first
      cases below
      rfl
end Paragraphs

end NfdTables.Lines
