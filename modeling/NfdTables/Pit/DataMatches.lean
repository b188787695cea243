import NfdTables.Pit.InsertOnce

namespace NfdTables.Pit
open Machine PrefixSet
variable {Component Exclude Milliseconds Tree : Type} [DecidableEq Component]

section Match
variable {calls : NameTreeCalls Component Tree} {shows : Tree → Registry Component → Prop}
  {erases : Registry Component → Name Component → Registry Component → Prop}
  {ndn : Ndn Component Exclude Milliseconds} {pit : Pit Component Exclude Milliseconds Tree} {registry : Registry Component}

def matched (ndn : Ndn Component Exclude Milliseconds) (entries : Heap (PitEntry Component Exclude Milliseconds))
    (name : Name Component) (e : PitId) : Bool :=
  match entries.read e with
  | some entry => ndn.matchesName entry.getInterest name
  | none => false

omit [DecidableEq Component] in
theorem pushMatches_spec {entries : Heap (PitEntry Component Exclude Milliseconds)} (name : Name Component) (result items : List PitId)
    (live : ∀ e ∈ items, ∃ entry, entries.read e = some entry) :
    pushMatches ndn entries name result items = .ok (result ++ items.filter (matched ndn entries name)) := by
  induction items generalizing result with
  | nil => rw [List.filter_nil,List.append_nil]; rfl
  | cons e rest ih =>
    obtain ⟨entry,readE⟩ := live e (by simp)
    rw [pushMatches,Heap.fetch_live readE,ok_bind,ih _ fun f member => live f (List.mem_cons_of_mem _ member)]
    by_cases wanted : ndn.matchesName entry.getInterest name = true
    · rw [if_pos wanted,List.filter_cons_of_pos (by simpa [matched,readE] using wanted)]
      simp
    · rw [if_neg wanted,List.filter_cons_of_neg (by simpa [matched,readE] using wanted)]

-- The matches in the lists of the prefixes of `name`, longest prefix first.
def matchesAt (ndn : Ndn Component Exclude Milliseconds) (pit : Pit Component Exclude Milliseconds Tree)
    (registry : Registry Component) (name : Name Component) (i : Nat) : List PitId :=
  (registry.held (getPrefix name i)).filter (matched ndn pit.entries name)

theorem ascend_round (laws : Documented calls shows erases) (kept : Kept shows ndn pit registry) (name : Name Component)
    (stored : x ∈ registry.names) (fuel : Nat) (result : List PitId) :
    ascend calls ndn pit name (fuel+1) (some (registry.cell x).object) result =
      ascend calls ndn pit name fuel (registry.parentOf x)
        (result ++ (registry.held x).filter (matched ndn pit.entries name)) := by
  have live : ∀ e ∈ registry.held x, ∃ entry, pit.entries.read e = some entry := by
    intro e member
    obtain ⟨entry,readE,_⟩ := kept.books.named x e member
    exact ⟨entry,readE⟩
  rw [ascend,laws.getPitEntries kept.shown x stored,ok_bind,← Registry.held_stored stored,
    pushMatches_spec name result _ live,ok_bind,laws.getParent kept.shown x stored,ok_bind]

-- From the entry of the first `k` components upwards.
theorem ascend_spec (laws : Documented calls shows erases) (kept : Kept shows ndn pit registry) (name : Name Component)
    (within : k ≤ name.length) (stored : getPrefix name k ∈ registry.names) (enough : k < fuel) (result : List PitId) :
    ascend calls ndn pit name fuel (some (registry.cell (getPrefix name k)).object) result =
      .ok (result ++ (countdown (k+1)).flatMap (matchesAt ndn pit registry name)) := by
  induction k generalizing fuel result with
  | zero =>
    obtain ⟨fuel,rfl⟩ : ∃ smaller, fuel = smaller + 1 := ⟨fuel - 1,by omega⟩
    have root : registry.parentOf (getPrefix name 0) = none := if_pos (List.take_zero ..)
    rw [ascend_round laws kept name stored,root,ascend,countdown_succ,List.flatMap_cons,countdown_zero,List.flatMap_nil,
      List.append_nil]
    rfl
  | succ k ih =>
    obtain ⟨fuel,rfl⟩ : ∃ smaller, fuel = smaller + 1 := ⟨fuel - 1,by omega⟩
    have above : getPrefix name k ∈ registry.names := by
      rw [← getPrefix_dropLast within]
      exact (laws.closed kept.shown).parent stored
    rw [ascend_round laws kept name stored,Registry.parentOf_getPrefix registry within,ih (by omega) above (by omega),countdown_succ (k+1),List.flatMap_cons,
      List.append_assoc]
    rfl

-- One hit and the chain above it reach the lists of all prefixes.
theorem findAllDataMatches_spec (laws : Documented calls shows erases) (kept : Kept shows ndn pit registry)
    (data : Data Component) (enough : data.name.length < fuel) :
    pit.findAllDataMatches calls ndn data fuel =
      .ok ((countdown (data.name.length + 1)).flatMap (matchesAt ndn pit registry data.name)) := by
  have empty : ∀ i, getPrefix data.name i ∉ registry.names → matchesAt ndn pit registry data.name i = [] := by
    intro i absent
    rw [matchesAt,Registry.held_absent absent,List.filter_nil]
  obtain ⟨found,probed,meaning⟩ := laws.longestPrefixMatch kept.shown data.name
  rw [findAllDataMatches,probed,ok_bind]
  cases found with
  | none =>
    have quiet : (countdown (data.name.length + 1)).flatMap (matchesAt ndn pit registry data.name) = [] :=
      countdown_quiet (Nat.zero_le _) fun i _ _ => empty i fun stored => meaning _ stored (List.take_prefix i data.name)
    rw [quiet,ascend]
  | some e =>
    obtain ⟨y,⟨stored,below,longest⟩,rfl⟩ := meaning
    have same := getPrefix_prefix below
    have quiet := countdown_quiet (n:=data.name.length + 1) (Nat.succ_le_succ below.length_le) fun i above inside =>
      empty i fun other => by
        have short := (longest _ other (List.take_prefix i data.name)).length_le
        rw [getPrefix_length (Nat.le_of_lt_succ inside)] at short
        exact absurd short (Nat.not_le.mpr above)
    have climbed := ascend_spec laws kept data.name below.length_le (same.symm ▸ stored)
      (Nat.lt_of_le_of_lt below.length_le enough) []
    rw [same] at climbed
    rw [climbed,quiet,List.nil_append]

-- The matching entries of the table, each once, the longest names first.
structure DataMatched (calls : NameTreeCalls Component Tree) (ndn : Ndn Component Exclude Milliseconds)
    (pit : Pit Component Exclude Milliseconds Tree) (data : Data Component) (result : List PitId) : Prop where
  member : ∀ e, e ∈ result ↔ Stored calls pit e ∧ ∃ interest, pit.interestOf e = some interest ∧
    ndn.matchesName interest data.name = true
  nodup : result.Nodup
  order : result.Pairwise fun e f => ∀ one two, pit.interestOf e = some one → pit.interestOf f = some two →
    two.name.length ≤ one.name.length

theorem mem_matchesAt (kept : Kept shows ndn pit registry) : e ∈ matchesAt ndn pit registry name i ↔
    e ∈ registry.held (getPrefix name i) ∧ ∃ entry, pit.entries.read e = some entry ∧ entry.getName = getPrefix name i ∧
      ndn.matchesName entry.getInterest name = true := by
  rw [matchesAt,List.mem_filter]
  refine and_congr_right fun member => ?_
  obtain ⟨entry,live,same⟩ := kept.books.named _ e member
  rw [matched,live]
  constructor
  · exact fun wanted => ⟨entry,rfl,same,wanted⟩
  · rintro ⟨other,found,_,wanted⟩
    cases Option.some.inj found
    exact wanted

theorem Kept.dataMatched (laws : Documented calls shows erases) (kept : Kept shows ndn pit registry)
    (byName : MatchesBySelectors ndn) (data : Data Component) :
    DataMatched calls ndn pit data ((countdown (data.name.length + 1)).flatMap (matchesAt ndn pit registry data.name)) where
  member := by
    intro e
    rw [stored_iff laws kept.shown,List.mem_flatMap]
    constructor
    · rintro ⟨i,_,member⟩
      obtain ⟨inside,entry,live,_,wanted⟩ := (mem_matchesAt kept).mp member
      exact ⟨⟨_,inside⟩,entry.getInterest,by rw [interestOf,live]; rfl,wanted⟩
    · rintro ⟨⟨x,inside⟩,interest,isE,wanted⟩
      obtain ⟨entry,live,rfl⟩ := Option.map_eq_some_iff.mp isE
      obtain ⟨other,liveOther,rfl⟩ := kept.books.named x e inside
      cases Option.some.inj (live.symm.trans liveOther)
      have below : entry.getName <+: data.name := byName.below _ _ wanted
      have same := getPrefix_prefix below
      refine ⟨entry.getName.length,mem_countdown.mpr (Nat.lt_succ_of_le below.length_le),(mem_matchesAt kept).mpr ?_⟩
      rw [same]
      exact ⟨inside,entry,live,rfl,wanted⟩
  nodup := by
    refine List.pairwise_flatMap.mpr ⟨fun i _ => (kept.books.nodup _).filter _,(countdown_decreasing _).imp_of_mem ?_⟩
    intro i j inI inJ lower e inE f inF same
    have one := ((mem_matchesAt kept).mp inE).1
    have two := ((mem_matchesAt kept).mp inF).1
    have names := congrArg List.length (kept.books.one_name one (same ▸ two))
    rw [getPrefix_length (Nat.le_of_lt_succ (mem_countdown.mp inI)),
      getPrefix_length (Nat.le_of_lt_succ (mem_countdown.mp inJ))] at names
    exact absurd names (Nat.ne_of_gt lower)
  order := by
    have named : ∀ {i e interest}, e ∈ matchesAt ndn pit registry data.name i → pit.interestOf e = some interest →
        interest.name = getPrefix data.name i := by
      intro i e interest member isE
      obtain ⟨_,entry,live,same,_⟩ := (mem_matchesAt kept).mp member
      rw [interestOf,live] at isE
      cases Option.some.inj isE
      exact same
    refine List.pairwise_flatMap.mpr ⟨fun i _ => ?_,(countdown_decreasing _).imp ?_⟩
    · refine List.Pairwise.imp_of_mem ?_ ((kept.books.nodup (getPrefix data.name i)).filter (matched ndn pit.entries data.name))
      intro e f inE inF _ one two isE isF
      rw [named inE isE,named inF isF]
    · intro i j lower e inE f inF one two isE isF
      rw [named inE isE,named inF isF,getPrefix,getPrefix,List.length_take,List.length_take]
      omega

theorem findAllDataMatches_exact (laws : Documented calls shows ClearsEmpty) (byName : MatchesBySelectors ndn)
    {start : Pit Component Exclude Milliseconds Tree} (shown : shows start.nameTree registry)
    (empty : ∀ e, ¬ Stored calls start e)
    (guarded : Guarded (step calls ndn) (fun _ _ => ()) (RemovesStored calls) start () ops)
    (data : Data Component) (enough : data.name.length < fuel) :
    ∃ pit result, run (step calls ndn) start ops = .ok pit ∧ pit.findAllDataMatches calls ndn data fuel = .ok result ∧
      DataMatched calls ndn pit data result ∧
      ∀ earlier interest later before after e isNew, ops = earlier ++ .insert interest :: later →
        run (step calls ndn) start earlier = .ok before → before.insert calls ndn interest = .ok (after,e,isNew) →
        .remove e ∉ later → ndn.matchesName interest data.name = true →
        e ∈ result ∧ SimilarTo ndn pit.entries e interest ∧ ∀ f ∈ result, SimilarTo ndn pit.entries f interest → f = e := by
  have keptStart := kept_start laws shown empty ndn
  obtain ⟨pit,ran⟩ := run_returns laws onlyEmpty_clears keptStart guarded
  obtain ⟨reached,kept⟩ := run_kept laws onlyEmpty_clears keptStart ran
  have exactly := kept.dataMatched laws byName data
  refine ⟨pit,_,ran,findAllDataMatches_spec laws kept data enough,exactly,?_⟩
  rintro earlier interest later before after e isNew rfl ranEarlier inserts never wanted
  obtain ⟨earlierRegistry,keptBefore⟩ := run_kept laws onlyEmpty_clears keptStart ranEarlier
  have ranLater : run (step calls ndn) after later = .ok pit := by
    rw [run_append,ranEarlier,ok_bind,run,step,inserts] at ran
    exact ran
  obtain ⟨last,keptLast,member,similar⟩ := insert_stays laws onlyEmpty_clears keptBefore inserts ranLater never
  have stored : Stored calls pit e := (stored_iff laws keptLast.shown).mpr ⟨_,member⟩
  refine ⟨(exactly.member e).mpr ⟨stored,?_⟩,similar,fun f inside similarF => ?_⟩
  · obtain ⟨entry,live,alike⟩ := similar
    exact ⟨entry.getInterest,by rw [interestOf,live]; rfl,by rwa [alike.matches byName]⟩
  · obtain ⟨x,memberF⟩ := (stored_iff laws keptLast.shown).mp ((exactly.member f).mp inside).1
    exact similar_same keptLast member memberF similar similarF

theorem findAllDataMatches_exact_ledger : ∃ pit result,
    run (step Ledger.calls plainNdn) ⟨Ledger.empty,Heap.empty⟩
      [.insert (plainInterest [1]),.insert (plainInterest [1,2]),.insert (plainInterest [4])] = .ok pit ∧
    pit.findAllDataMatches Ledger.calls plainNdn ⟨[1,2,3]⟩ 4 = .ok result ∧ DataMatched Ledger.calls plainNdn pit ⟨[1,2,3]⟩ result := by
  have inserts : Guarded (step Ledger.calls plainNdn) (fun _ _ => ()) (RemovesStored Ledger.calls) ⟨Ledger.empty,Heap.empty⟩ ()
      [.insert (plainInterest [1]),.insert (plainInterest [1,2]),.insert (plainInterest [4])] :=
    ⟨trivial,fun _ _ => ⟨trivial,fun _ _ => ⟨trivial,fun _ _ => trivial⟩⟩⟩
  obtain ⟨pit,result,ran,found,exactly,_⟩ := findAllDataMatches_exact (Ledger.documented.weaken onlyEmpty_prunes)
    plainNdn_matches Ledger.empty_shows ledger_stores_nothing inserts ⟨[1,2,3]⟩ (by decide : 3 < 4)
  exact ⟨pit,result,ran,found,exactly⟩

example : (do
    let pit ← run (step Ledger.calls plainNdn) ⟨Ledger.empty,Heap.empty⟩
      [.insert (plainInterest [1]),.insert (plainInterest [1,2]),.insert (plainInterest [4])]
    pit.findAllDataMatches Ledger.calls plainNdn ⟨[1,2,3]⟩ 4) = .ok [1,0] := by decide
end Match

end NfdTables.Pit
