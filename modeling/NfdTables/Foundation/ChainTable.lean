import NfdTables.Foundation.Chain
import Mathlib.Data.List.Nodup

namespace NfdTables.Chain

-- An array of chains as separate chaining keeps it: the heads, and the objects
-- behind each head, no object in two places.
structure Table (next : Links) (slots : List (Option Nat)) (chains : List (List Nat)) : Prop where
  heads : slots = chains.map List.head?
  linked : ∀ chain ∈ chains, Seg next chain none
  disjoint : chains.flatten.Nodup

variable {next before after : Links} {slots : List (Option Nat)} {chains : List (List Nat)}
  {chain other fresh front behind : List Nat} {n gone loc loc' : Nat}

theorem split_at (at_loc : chains[loc]? = some chain) :
    ∃ before after, chains = before ++ chain :: after ∧ before.length = loc := by
  obtain ⟨bound,got⟩ := List.getElem?_eq_some_iff.mp at_loc
  refine ⟨chains.take loc,chains.drop (loc+1),?_,by simp; omega⟩
  rw [← got,List.getElem_cons_drop,List.take_append_drop]

theorem set_split (before after : List (List Nat)) (chain fresh : List Nat) :
    (before ++ chain :: after).set before.length fresh = before ++ fresh :: after := by
  simp

theorem mem_flatten_at (at_loc : chains[loc]? = some chain) (member : n ∈ chain) :
    n ∈ chains.flatten := List.mem_flatten.mpr ⟨chain,List.mem_of_getElem? at_loc,member⟩

-- What comes later is the rest of the chain and then the chains behind it.
theorem flatten_place (shape : chains.flatten = front ++ n :: behind) :
    ∃ loc before after, chains[loc]? = some (before ++ n :: after) ∧ behind = after ++ (chains.drop (loc+1)).flatten := by
  induction chains generalizing front with
  | nil => cases front <;> simp at shape
  | cons chain rest ih =>
    rw [List.flatten_cons,List.append_eq_append_iff] at shape
    rcases shape with ⟨inner,rfl,later⟩ | ⟨inner,rfl,later⟩
    · obtain ⟨loc,before,after,at_loc,shape⟩ := ih later
      exact ⟨loc+1,before,after,at_loc,shape⟩
    · cases inner with
      | nil =>
        obtain ⟨loc,before,after,at_loc,shape⟩ := ih (show rest.flatten = [] ++ n :: behind from later.symm)
        exact ⟨loc+1,before,after,at_loc,shape⟩
      | cons head inner =>
        obtain ⟨rfl,rfl⟩ := List.cons.inj later
        exact ⟨0,front,inner,rfl,by simp⟩

-- A change of one chain leaves alone what comes before it and behind it.
theorem flatten_around (at_loc : chains[loc]? = some chain) : ∃ left right : List Nat, chains.flatten = left ++ chain ++ right ∧
    ∀ other, (chains.set loc other).flatten = left ++ other ++ right := by
  obtain ⟨before,after,rfl,rfl⟩ := split_at at_loc
  exact ⟨before.flatten,after.flatten,by simp,fun other => by rw [set_split]; simp⟩

theorem flatten_set_concat (at_loc : chains[loc]? = some chain) (fresh : Nat) :
    (chains.set loc (chain ++ [fresh])).flatten.Perm (fresh :: chains.flatten) := by
  obtain ⟨before,after,rfl,rfl⟩ := split_at at_loc
  rw [set_split]
  simp only [List.flatten_append,List.flatten_cons,List.append_assoc,List.singleton_append]
  rw [← List.append_assoc,← List.append_assoc]
  exact List.perm_middle

theorem flatten_set_remove (at_loc : chains[loc]? = some (front ++ gone :: behind)) :
    chains.flatten.Perm (gone :: (chains.set loc (front ++ behind)).flatten) := by
  obtain ⟨before,after,rfl,rfl⟩ := split_at at_loc
  rw [set_split]
  simp only [List.flatten_append,List.flatten_cons,List.append_assoc,List.cons_append]
  rw [← List.append_assoc,← List.append_assoc]
  exact List.perm_middle

theorem heads_keep (at_loc : chains[loc]? = some chain) (same : fresh.head? = chain.head?) :
    (chains.set loc fresh).map List.head? = chains.map List.head? := by
  obtain ⟨before,after,rfl,rfl⟩ := split_at at_loc
  rw [set_split]
  simp [same]

theorem mem_set (member : other ∈ chains.set loc fresh) : other = fresh ∨ other ∈ chains := by
  rcases List.mem_or_eq_of_mem_set member with old | new
  · exact .inr old
  · exact .inl new

theorem Table.chain_nodup (table : Table next slots chains) (member : chain ∈ chains) : chain.Nodup :=
  (List.nodup_flatten.mp table.disjoint).1 chain member

theorem Table.head_at (table : Table next slots chains) (at_loc : chains[loc]? = some chain) :
    slots[loc]? = some chain.head? := by
  rw [table.heads,List.getElem?_map,at_loc]
  rfl

theorem Table.length (table : Table next slots chains) : slots.length = chains.length := by
  rw [table.heads,List.length_map]

theorem Table.chain_at (table : Table next slots chains) (bound : loc < slots.length) :
    ∃ chain, chains[loc]? = some chain :=
  ⟨_,List.getElem?_eq_getElem (table.length ▸ bound)⟩

theorem disjoint_other (nodup : chains.flatten.Nodup) (at_loc : chains[loc]? = some chain)
    (inside : n ∈ chain) (elsewhere : chains[loc']? = some other) (also : n ∈ other) : loc' = loc := by
  obtain ⟨before,after,rfl,rfl⟩ := split_at at_loc
  rw [List.flatten_append,List.flatten_cons,List.nodup_append] at nodup
  obtain ⟨_,rest,apart⟩ := nodup
  rcases Nat.lt_trichotomy loc' before.length with older | same | newer
  · rw [List.getElem?_append_left older] at elsewhere
    exact absurd rfl (apart n (mem_flatten_at elsewhere also) n (List.mem_append_left _ inside))
  · exact same
  · rw [List.getElem?_append_right (Nat.le_of_lt newer)] at elsewhere
    obtain ⟨k,hk⟩ : ∃ k, loc' - before.length = k + 1 := ⟨loc' - before.length - 1,by omega⟩
    rw [hk,List.getElem?_cons_succ] at elsewhere
    exact absurd rfl ((List.nodup_append.mp rest).2.2 n inside n (mem_flatten_at elsewhere also))

-- A new object is linked behind the last one of its chain, or becomes the head.
theorem Table.append (table : Table before slots chains) (at_loc : chains[loc]? = some chain)
    (fresh : n ∉ chains.flatten) (here : after n = some none)
    (tail : ∀ last, chain.getLast? = some last → after last = some (some n))
    (frame : ∀ m ∈ chains.flatten, chain.getLast? ≠ some m → after m = before m) :
    Table after ((chains.set loc (chain ++ [n])).map List.head?) (chains.set loc (chain ++ [n])) := by
  have inside : chain ∈ chains := List.mem_of_getElem? at_loc
  refine ⟨rfl,?_,?_⟩
  · intro other member
    obtain ⟨loc',got⟩ := List.mem_iff_getElem?.mp member
    by_cases same : loc' = loc
    · subst loc'
      rw [List.getElem?_set_self (List.getElem?_eq_some_iff.mp at_loc).1] at got
      cases Option.some.inj got
      refine seg_append.mpr ⟨?_,here,trivial⟩
      refine (table.linked chain inside).redirect (table.chain_nodup inside) ?_ tail
      exact fun m deep notLast => frame m (mem_flatten_at at_loc deep) notLast
    · rw [List.getElem?_set_ne (Ne.symm same)] at got
      refine (table.linked other (List.mem_of_getElem? got)).congr (fun m deep => ?_)
      refine frame m (mem_flatten_at got deep) (fun last => same ?_)
      exact disjoint_other table.disjoint at_loc (List.mem_of_getLast? last) got deep
  · exact (flatten_set_concat at_loc n).nodup_iff.mpr (List.nodup_cons.mpr ⟨fresh,table.disjoint⟩)

theorem backTail_append (back : ∀ chain ∈ chains, BackTail before chain) (at_loc : chains[loc]? = some chain)
    (here : chain ≠ [] → after n = some chain.getLast?)
    (frame : ∀ m ∈ chains.flatten, after m = before m) :
    ∀ other ∈ chains.set loc (chain ++ [n]), BackTail after other := by
  have keep : ∀ other ∈ chains, BackTail after other := fun other member =>
    (back other member).congr (fun m deep => frame m (List.mem_flatten.mpr ⟨other,member,deep⟩))
  intro other member
  rcases mem_set member with rfl | old
  · cases chain with
    | nil => trivial
    | cons first rest =>
      have old := keep _ (List.mem_of_getElem? at_loc)
      rw [List.cons_append,backTail_iff,back_append]
      refine ⟨old,?_,trivial⟩
      rw [here (by simp),List.getLast?_cons]
      cases rest <;> simp [List.getLast?_cons]
  · exact keep other old

-- An object is taken out: the one before it, or the head, skips it.
theorem Table.remove (table : Table before slots chains) (at_loc : chains[loc]? = some (front ++ gone :: behind))
    (skip : ∀ last, front.getLast? = some last → after last = some behind.head?)
    (frame : ∀ m ∈ chains.flatten, m ≠ gone → front.getLast? ≠ some m → after m = before m) :
    Table after ((chains.set loc (front ++ behind)).map List.head?) (chains.set loc (front ++ behind)) := by
  have inside := List.mem_of_getElem? at_loc
  have nodup := table.chain_nodup inside
  have moved := (flatten_set_remove at_loc).nodup_iff.mp table.disjoint
  have deepOf : ∀ m ∈ front ++ gone :: behind, m ∈ chains.flatten := fun m => mem_flatten_at at_loc
  refine ⟨rfl,?_,(List.nodup_cons.mp moved).2⟩
  intro other member
  obtain ⟨loc',got⟩ := List.mem_iff_getElem?.mp member
  have notGone : gone ∉ other := fun deep =>
    (List.nodup_cons.mp moved).1 (List.mem_flatten.mpr ⟨other,member,deep⟩)
  by_cases same : loc' = loc
  · subst loc'
    rw [List.getElem?_set_self (List.getElem?_eq_some_iff.mp at_loc).1] at got
    cases Option.some.inj got
    obtain ⟨ahead,_,rest⟩ := seg_append.mp (table.linked _ inside)
    obtain ⟨nodupFront,nodupRest,apart⟩ := List.nodup_append.mp nodup
    rw [seg_append,Option.or_none]
    refine ⟨ahead.redirect nodupFront ?_ skip,rest.congr ?_⟩
    · intro m deep notLast
      exact frame m (deepOf m (by simp [deep])) (apart m deep gone (by simp)) notLast
    · intro m deep
      have other : m ≠ gone := fun equal => notGone (by simp [← equal,deep])
      refine frame m (deepOf m (by simp [deep])) other (fun last => ?_)
      exact apart m (List.mem_of_getLast? last) m (by simp [deep]) rfl
  · rw [List.getElem?_set_ne (Ne.symm same)] at got
    refine (table.linked other (List.mem_of_getElem? got)).congr (fun m deep => ?_)
    refine frame m (mem_flatten_at got deep) (fun equal => notGone (equal ▸ deep)) (fun last => same ?_)
    exact disjoint_other table.disjoint at_loc (List.mem_append_left _ (List.mem_of_getLast? last)) got deep

theorem back_remove (back : Back before first (front ++ gone :: behind)) (nodup : (front ++ gone :: behind).Nodup)
    (join : ∀ m, behind.head? = some m → after m = some (front.getLast?.or first))
    (frame : ∀ m ∈ front ++ behind, behind.head? ≠ some m → after m = before m) :
    Back after first (front ++ behind) := by
  obtain ⟨ahead,_,rest⟩ := back_append.mp back
  obtain ⟨_,nodupRest,apart⟩ := List.nodup_append.mp nodup
  refine back_append.mpr ⟨ahead.congr ?_,?_⟩
  · intro m deep
    refine frame m (by simp [deep]) (fun head => ?_)
    exact apart m deep m (List.mem_cons_of_mem _ (List.mem_of_mem_head? head)) rfl
  · cases behind with
    | nil => trivial
    | cons m further =>
      refine ⟨join m rfl,rest.2.congr (fun other deep => frame other (by simp [deep]) ?_)⟩
      intro head
      have nodupTail := (List.nodup_cons.mp (List.nodup_cons.mp nodupRest).2).1
      cases Option.some.inj head
      exact nodupTail deep

end NfdTables.Chain
