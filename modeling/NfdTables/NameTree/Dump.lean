import NfdTables.Foundation.Lines
import NfdTables.NameTree.PartialEnumerate
import NfdTables.NameTree.Refinement

namespace NfdTables.NameTree
open Machine Chain Lines
variable {Component : Type}

-- toUri() of a name of the ndn library, and its operator << for streams.
structure Printing (Component : Type) where
  toUri : Name Component → String
  put : Name Component → String

section Output
variable (printing : Printing Component) (tree : NameTree Component)

def dumpChildren : Nat → List EntryId → String → Exec String
  | _,[],output => .ok output
  | j,child :: rest,output => do
    let entry ← tree.entries.fetch child
    dumpChildren (j+1) rest (output ++ "\t\t\tChild " ++ toString j ++ " " ++ printing.put entry.namePrefix ++ "\n")

def dumpParent (output : String) : Option EntryId → Exec String
  | some p => do
    let parent ← tree.entries.fetch p
    return output ++ "\t\tparent->" ++ printing.toUri parent.namePrefix
  | none => .ok (output ++ "\t\tROOT")

def dumpEntry (i : Nat) (entry : Entry Component) (output : String) : Exec String := do
  let output := output ++ "Bucket" ++ toString i ++ "\t" ++ printing.toUri entry.namePrefix ++ "\n"
  let output := output ++ "\t\tHash " ++ toString entry.hash.toNat ++ "\n"
  let output ← dumpParent printing tree output entry.parent
  let output := output ++ "\n"
  if entry.children.length ≠ 0 then
    dumpChildren printing tree 0 entry.children (output ++ "\t\tchildren = " ++ toString entry.children.length ++ "\n")
  else return output

def dumpTurn (i : Nat) (output : String) (_ : NodeId) (node : Node) : Exec (Turn String Empty) :=
  match node.entry with
  | none => .ok (.onward output)
  | some e => do
    let entry ← tree.entries.fetch e
    let output ← dumpEntry printing tree i entry output
    return .onward output

def dumpBuckets : Nat → List (Option NodeId) → String → Exec String
  | _,[],output => .ok output
  | i,head :: rest,output => do
    match ← forChain tree.nodes Node.next (dumpTurn printing tree i) tree.nodes.size head output with
    | .leave never => nomatch never
    | .onward output => dumpBuckets (i+1) rest output

def dump (output : String) : Exec String := do
  let output ← dumpBuckets printing tree 0 tree.buckets output
  let output := output ++ "Bucket count = " ++ toString tree.nBuckets ++ "\n"
  let output := output ++ "Stored item = " ++ toString tree.nItems ++ "\n"
  return output ++ "--------------------------\n"
end Output

section Format

structure Printed (Component : Type) where
  bucket : Nat
  name : Name Component
  hash : Nat
  parent : Option (Name Component)
  children : List (Name Component)

variable (printing : Printing Component)

def childLines : Nat → List (Name Component) → List String
  | _,[] => []
  | j,name :: rest => ("\t\t\tChild " ++ toString j ++ " " ++ printing.put name) :: childLines (j+1) rest

def Printed.parentLine (printed : Printed Component) : String :=
  match printed.parent with
  | some name => "\t\tparent->" ++ printing.toUri name
  | none => "\t\tROOT"

def Printed.childrenLines (printed : Printed Component) : List String :=
  match printed.children with
  | [] => []
  | name :: rest => ("\t\tchildren = " ++ toString (name :: rest).length) :: childLines printing 0 (name :: rest)

def Printed.paragraph (printed : Printed Component) : Paragraph String where
  first := "Bucket" ++ toString printed.bucket ++ "\t" ++ printing.toUri printed.name
  below := ("\t\tHash " ++ toString printed.hash) :: printed.parentLine printing :: printed.childrenLines printing

def trailer (nBuckets nItems : Nat) : List (Paragraph String) :=
  [⟨"Bucket count = " ++ toString nBuckets,[]⟩,⟨"Stored item = " ++ toString nItems,[]⟩,⟨"--------------------------",[]⟩]

def dumped (nBuckets nItems : Nat) (printed : List (Printed Component)) : String :=
  text ((printed.map (Printed.paragraph printing) ++ trailer nBuckets nItems).flatMap Paragraph.lines)
end Format

section Contents
variable {host : Host Component} {printing : Printing Component} {tree : NameTree Component} {chains : List (List NodeId)}
  {registry : Registry Component}

def printedOf (tree : NameTree Component) (i : Nat) (entry : Entry Component) : Printed Component :=
  ⟨i,entry.namePrefix,entry.hash.toNat,entry.parent.map tree.nameOf,entry.children.map tree.nameOf⟩

def printedIn (tree : NameTree Component) (i : Nat) (chain : List NodeId) : List (Printed Component) :=
  (chain.filterMap tree.entryAt).map fun held => tree.printedOf i held.2

def printedFrom (tree : NameTree Component) : Nat → List (List NodeId) → List (Printed Component)
  | _,[] => []
  | i,chain :: rest => tree.printedIn i chain ++ tree.printedFrom (i+1) rest

theorem dumpChildren_spec {children : List EntryId} (live : ∀ c ∈ children, ∃ entry, tree.entries.read c = some entry)
    (j : Nat) (output : String) :
    dumpChildren printing tree j children output = .ok (output ++ text (childLines printing j (children.map tree.nameOf))) := by
  induction children generalizing j output with
  | nil => simp [dumpChildren,childLines]
  | cons c rest ih =>
    obtain ⟨⟨entry,liveC⟩,later⟩ := List.forall_mem_cons.mp live
    have named : tree.nameOf c = entry.namePrefix := by simp [nameOf,liveC]
    rw [dumpChildren,Heap.fetch_live liveC,ok_bind,ih later]
    simp only [List.map_cons,childLines,text_cons,named,String.append_assoc]

theorem dumpParent_spec (agrees : Agrees host tree chains) (sits : Sits tree chains n e entry) (i : Nat) (output : String) :
    dumpParent printing tree output entry.parent = .ok (output ++ (tree.printedOf i entry).parentLine printing) := by
  by_cases empty : entry.namePrefix = []
  · simp [dumpParent,Printed.parentLine,printedOf,agrees.root sits empty]
  · obtain ⟨_,_,object,points,sitsP,_⟩ := agrees.parent sits empty
    simp only [dumpParent,Printed.parentLine,printedOf,points,Heap.fetch_live sitsP.entry_live,ok_bind,pure_ok,Option.map_some,
      nameOf_at sitsP,String.append_assoc]

theorem dumpEntry_spec (agrees : Agrees host tree chains) (sits : Sits tree chains n e entry) (i : Nat) (output : String) :
    dumpEntry printing tree i entry output = .ok (output ++ text ((tree.printedOf i entry).paragraph printing).lines) := by
  have children : ∀ c ∈ entry.children, ∃ object, tree.entries.read c = some object := by
    intro c member
    obtain ⟨_,_,object,sitsC,_⟩ := (agrees.child_iff sits c).mp member
    exact ⟨object,sitsC.entry_live⟩
  unfold dumpEntry
  dsimp only
  rw [dumpParent_spec agrees sits i,ok_bind]
  cases listed : entry.children with
  | nil =>
    rw [if_neg (by simp)]
    simp only [Printed.paragraph,Paragraph.lines,Printed.childrenLines,printedOf,listed,List.map_nil,text_cons,text_nil,
      pure_ok,String.append_assoc,String.append_empty]
  | cons c rest =>
    rw [if_pos (by simp),← listed,dumpChildren_spec children]
    simp only [Printed.paragraph,Paragraph.lines,Printed.childrenLines,printedOf,listed,List.map_cons,List.length_cons,
      List.length_map,text_cons,String.append_assoc]

theorem dumpChain_spec (agrees : Agrees host tree chains) {keys : List NodeId} (inside : ∀ n ∈ keys, n ∈ chains.flatten)
    (i : Nat) (output : String) :
    forNodes tree.nodes (dumpTurn printing tree i) keys output =
      .ok (.onward (output ++ text ((tree.printedIn i keys).flatMap fun printed => (printed.paragraph printing).lines))) := by
  induction keys generalizing output with
  | nil => simp [forNodes,printedIn]
  | cons n rest ih =>
    obtain ⟨member,later⟩ := List.forall_mem_cons.mp inside
    obtain ⟨e,entry,sits⟩ := agrees.toChained.sits member
    obtain ⟨node,live,points⟩ := sits.node_live
    have turned : dumpTurn printing tree i output n node =
        .ok (.onward (output ++ text ((tree.printedOf i entry).paragraph printing).lines)) := by
      rw [dumpTurn,points]
      dsimp only
      rw [Heap.fetch_live sits.entry_live,ok_bind,dumpEntry_spec agrees sits]
      rfl
    rw [forNodes,Heap.fetch_live live,ok_bind,turned,ok_bind]
    dsimp only
    rw [ih later]
    simp only [printedIn,List.filterMap_cons_some sits.holds,List.map_cons,List.flatMap_cons,text_append,String.append_assoc]

theorem dumpBuckets_spec (agrees : Agrees host tree chains) {groups : List (List NodeId)} (sub : ∀ chain ∈ groups, chain ∈ chains)
    (i : Nat) (output : String) :
    dumpBuckets printing tree i (groups.map List.head?) output =
      .ok (output ++ text ((tree.printedFrom i groups).flatMap fun printed => (printed.paragraph printing).lines)) := by
  induction groups generalizing i output with
  | nil => simp [dumpBuckets,printedFrom]
  | cons chain rest ih =>
    obtain ⟨member,later⟩ := List.forall_mem_cons.mp sub
    have table := agrees.table
    have seg := table.linked _ member
    rw [List.map_cons,dumpBuckets,forChain_nodes seg (chain_fits seg (table.chain_nodup member)),
      dumpChain_spec agrees fun n deep => List.mem_flatten.mpr ⟨chain,member,deep⟩,ok_bind]
    dsimp only
    rw [ih later]
    simp only [printedFrom,List.flatMap_append,text_append,String.append_assoc]

theorem dump_spec (agrees : Agrees host tree chains) (output : String) :
    tree.dump printing output = .ok (output ++ dumped printing tree.nBuckets tree.nItems (tree.printedFrom 0 chains)) := by
  unfold dump
  rw [agrees.table.heads,dumpBuckets_spec agrees fun _ member => member,ok_bind]
  simp only [dumped,trailer,List.flatMap_append,List.flatMap_map,List.flatMap_cons,List.flatMap_nil,Paragraph.lines,
    text_append,text_cons,text_nil,pure_ok,String.append_assoc,String.append_empty,List.append_nil,List.cons_append,List.nil_append]
  rfl

theorem printedFrom_names (i : Nat) (groups : List (List NodeId)) :
    (tree.printedFrom i groups).map Printed.name = (groups.flatten.filterMap tree.entryAt).map fun held => held.2.namePrefix := by
  induction groups generalizing i with
  | nil => rfl
  | cons chain rest ih =>
    rw [printedFrom,List.map_append,ih,List.flatten_cons,List.filterMap_append,List.map_append,printedIn,List.map_map]
    rfl

theorem mem_printedFrom {groups : List (List NodeId)} (member : printed ∈ tree.printedFrom i groups) :
    ∃ loc chain n e entry, groups[loc]? = some chain ∧ n ∈ chain ∧ tree.entryAt n = some (e,entry) ∧
      printed = tree.printedOf (i+loc) entry := by
  induction groups generalizing i with
  | nil => cases member
  | cons chain rest ih =>
    rcases List.mem_append.mp member with here | later
    · obtain ⟨⟨e,entry⟩,held,rfl⟩ := List.mem_map.mp here
      obtain ⟨n,inside,holds⟩ := List.mem_filterMap.mp held
      exact ⟨0,chain,n,e,entry,rfl,inside,holds,rfl⟩
    · obtain ⟨loc,other,n,e,entry,at_loc,inside,holds,rfl⟩ := ih later
      exact ⟨loc+1,other,n,e,entry,at_loc,inside,holds,by rw [Nat.add_assoc,Nat.add_comm 1 loc]⟩

theorem printedFrom_ordered (i : Nat) (groups : List (List NodeId)) :
    ((tree.printedFrom i groups).map Printed.bucket).Pairwise (· ≤ ·) := by
  induction groups generalizing i with
  | nil => exact .nil
  | cons chain rest ih =>
    have here : ∀ b ∈ (tree.printedIn i chain).map Printed.bucket, b = i := by
      intro b member
      obtain ⟨printed,inside,rfl⟩ := List.mem_map.mp member
      obtain ⟨held,_,rfl⟩ := List.mem_map.mp inside
      rfl
    have later : ∀ b ∈ (tree.printedFrom (i+1) rest).map Printed.bucket, i ≤ b := by
      intro b member
      obtain ⟨printed,inside,rfl⟩ := List.mem_map.mp member
      obtain ⟨loc,_,_,_,entry,_,_,_,rfl⟩ := mem_printedFrom inside
      change i ≤ i + 1 + loc
      omega
    rw [printedFrom,List.map_append,List.pairwise_append]
    refine ⟨List.pairwise_of_forall_mem_list fun a inA b inB => ?_,ih (i+1),fun a inA b inB => ?_⟩
    · rw [here a inA,here b inB]
    · rw [here a inA]
      exact later b inB
end Contents

section Runs
variable [DecidableEq Component] {host : Host Component} {tree : NameTree Component} {chains : List (List NodeId)}
  {registry : Registry Component}

-- Every stored name once, bucket by bucket, with the names next to it.
structure PrintsAll (host : Host Component) (registry : Registry Component) (nBuckets : Nat) (printed : List (Printed Component)) :
    Prop where
  once : (printed.map Printed.name).Nodup
  stored : ∀ x, x ∈ printed.map Printed.name ↔ x ∈ registry.names
  ordered : (printed.map Printed.bucket).Pairwise (· ≤ ·)
  hashed : ∀ p ∈ printed, p.hash = (host.hashName p.name).toNat ∧ p.bucket = p.hash % nBuckets
  above : ∀ p ∈ printed, p.parent = if p.name = [] then none else some p.name.dropLast
  below : ∀ p ∈ printed, p.children.Nodup ∧ ∀ x, x ∈ p.children ↔ x ∈ registry.names ∧ ∃ k, x = p.name ++ [k]

omit [DecidableEq Component] in
theorem Consistent.printsAll (consistent : Consistent host tree chains registry) :
    PrintsAll host registry tree.nBuckets (tree.printedFrom 0 chains) := by
  have agrees := consistent.agrees
  have parts : ∀ p ∈ tree.printedFrom 0 chains, ∃ loc n e entry, p = tree.printedOf loc entry ∧ Sits tree chains n e entry ∧
      entry.hash.toNat % tree.nBuckets = loc := by
    intro p member
    obtain ⟨loc,chain,n,e,entry,at_loc,inside,holds,same⟩ := mem_printedFrom member
    rw [Nat.zero_add] at same
    exact ⟨loc,n,e,entry,same,⟨mem_flatten_at at_loc inside,holds⟩,consistent.placed.bucket at_loc inside holds⟩
  refine ⟨?_,fun x => ?_,printedFrom_ordered 0 chains,fun p member => ?_,fun p member => ?_,fun p member => ?_⟩
  · rw [printedFrom_names,List.map_filterMap]
    refine List.pairwise_filterMap.mpr (consistent.chained.table.disjoint.imp_of_mem ?_)
    intro n m inN inM apart x gotN y gotM same
    obtain ⟨⟨e,entry⟩,holdsN,rfl⟩ := Option.map_eq_some_iff.mp gotN
    obtain ⟨⟨f,other⟩,holdsM,rfl⟩ := Option.map_eq_some_iff.mp gotM
    exact apart (consistent.named.unique ⟨inN,holdsN⟩ ⟨inM,holdsM⟩ same)
  · rw [printedFrom_names,List.mem_map,consistent.named.stored_iff]
    constructor
    · intro inside
      obtain ⟨⟨e,entry⟩,held,same⟩ := inside
      obtain ⟨n,sits⟩ := mem_held.mp held
      exact ⟨n,e,entry,sits,same⟩
    · intro stored
      obtain ⟨n,e,entry,sits,same⟩ := stored
      exact ⟨(e,entry),mem_held.mpr ⟨n,sits⟩,same⟩
  · obtain ⟨loc,n,e,entry,rfl,sits,here⟩ := parts p member
    exact ⟨congrArg UInt32.toNat (consistent.named.hashed sits),here.symm⟩
  · obtain ⟨loc,n,e,entry,rfl,sits,_⟩ := parts p member
    by_cases empty : entry.namePrefix = []
    · simp [printedOf,empty,agrees.root sits empty]
    · obtain ⟨_,_,object,points,sitsP,same⟩ := agrees.parent sits empty
      simp [printedOf,empty,points,nameOf_at sitsP,same]
  · obtain ⟨loc,n,e,entry,rfl,sits,_⟩ := parts p member
    have child : ∀ c ∈ entry.children, ∃ k m object, Sits tree chains m c object ∧ object.namePrefix = entry.namePrefix ++ [k] :=
      fun c inside => (agrees.child_iff sits c).mp inside
    constructor
    · refine List.Nodup.map_on (fun c inC d inD same => ?_) (agrees.nodup sits)
      obtain ⟨_,m,object,sitsC,_⟩ := child c inC
      obtain ⟨_,m',other,sitsD,_⟩ := child d inD
      rw [nameOf_at sitsC,nameOf_at sitsD] at same
      have node := consistent.named.unique sitsC sitsD same
      subst m'
      exact (entryAt_unique sitsC.holds sitsD.holds).1
    · intro x
      refine List.mem_map.trans ⟨fun inside => ?_,fun stored => ?_⟩
      · obtain ⟨c,inC,rfl⟩ := inside
        obtain ⟨k,m,object,sitsC,same⟩ := child c inC
        rw [nameOf_at sitsC]
        exact ⟨(consistent.named.known sitsC).1,k,same⟩
      · obtain ⟨storedX,k,rfl⟩ := stored
        obtain ⟨m,object,sitsX,same⟩ := consistent.named.live storedX
        exact ⟨_,(agrees.child_iff sits _).mpr ⟨k,m,object,sitsX,same⟩,by rw [nameOf_at sitsX,same]⟩

theorem client_dumped {n : Nat} (positive : 1 ≤ n) {ops : List (ClientOp Component)}
    (safe : Guarded (clientStep host) ClientOp.apply SafeStep (new n) .empty ops) (printing : Printing Component) :
    ∃ tree printed, run (clientStep host) (new n) ops = .ok tree ∧
      PrintsAll host (ops.foldl ClientOp.apply .empty) tree.nBuckets printed ∧
      ∀ output, tree.dump printing output =
        .ok (output ++ dumped printing tree.nBuckets (ops.foldl ClientOp.apply .empty).names.card printed) := by
  obtain ⟨tree,ran,chains,consistent⟩ := client_consistent positive safe
  refine ⟨tree,_,ran,consistent.printsAll,fun output => ?_⟩
  rw [dump_spec consistent.agrees,consistent.counted]

-- A name of numbers as the ndn library writes it.
def plainUri (name : Name Nat) : String :=
  if name = [] then "/" else String.join (name.map fun c => "/" ++ toString c)

def plainPrinting : Printing Nat := ⟨plainUri,plainUri⟩

theorem client_dumped_apart : ∃ tree printed,
    run (clientStep collidingHost) (new 8) [.lookup [1,2],.lookup [3],.erase 2,.lookup [3,1]] = .ok tree ∧
    PrintsAll collidingHost ([ClientOp.lookup [1,2],.lookup [3],.erase 2,.lookup [3,1]].foldl ClientOp.apply .empty) tree.nBuckets printed ∧
    ∀ output, tree.dump plainPrinting output = .ok (output ++ dumped plainPrinting tree.nBuckets
      ([ClientOp.lookup [1,2],.lookup [3],.erase 2,.lookup [3,1]].foldl ClientOp.apply .empty).names.card printed) :=
  client_dumped (by decide) (by decide) plainPrinting

example : (do
    let tree ← run (clientStep collidingHost) (new 8) [.lookup [1]]
    tree.dump plainPrinting "") = .ok (text ["Bucket0\t/","\t\tHash 0","\t\tROOT","\t\tchildren = 1","\t\t\tChild 0 /1",
      "Bucket1\t/1","\t\tHash 1","\t\tparent->/","Bucket count = 8","Stored item = 2","--------------------------"]) := by decide +kernel
end Runs

section Reading
variable {printing : Printing Component}

-- A name is written on one line, and no other name is written the same.
structure Legible (printing : Printing Component) : Prop where
  toUri_injective : Function.Injective printing.toUri
  toUri_oneLine : ∀ name, OneLine (printing.toUri name)
  put_injective : Function.Injective printing.put
  put_oneLine : ∀ name, OneLine (printing.put name)

def Indented (line : String) : Prop := line.toList.head? = some '\t'

theorem childLines_inj (legible : Legible printing) {one two : List (Name Component)}
    (same : childLines printing j one = childLines printing j two) : one = two := by
  induction one generalizing j two with
  | nil =>
    cases two with
    | nil => rfl
    | cons y two => cases same
  | cons x one ih =>
    cases two with
    | nil => cases same
    | cons y two =>
      obtain ⟨line,further⟩ := List.cons.inj same
      rw [legible.put_injective ((String.append_right_inj _).mp line),ih further]

theorem childrenLines_inj (legible : Legible printing) {one two : Printed Component}
    (same : one.childrenLines printing = two.childrenLines printing) : one.children = two.children := by
  unfold Printed.childrenLines at same
  split at same
  · rename_i none
    split at same
    · rename_i noneTwo
      rw [none,noneTwo]
    · cases same
  · rename_i x rest some
    split at same
    · cases same
    · rename_i y other someTwo
      rw [some,someTwo]
      exact childLines_inj legible (List.cons.inj same).2

theorem parentLine_inj (legible : Legible printing) {one two : Printed Component}
    (same : one.parentLine printing = two.parentLine printing) : one.parent = two.parent := by
  unfold Printed.parentLine at same
  split at same
  · rename_i x some
    split at same
    · rename_i y someTwo
      rw [some,someTwo,legible.toUri_injective ((String.append_right_inj _).mp same)]
    · have chars := congrArg String.toList same
      simp at chars
  · rename_i none
    split at same
    · have chars := congrArg String.toList same
      simp at chars
    · rename_i noneTwo
      rw [none,noneTwo]

theorem paragraph_inj (legible : Legible printing) : Function.Injective (Printed.paragraph printing) := by
  intro one two same
  obtain ⟨first,below⟩ := Paragraph.mk.inj same
  obtain ⟨hashLine,below⟩ := List.cons.inj below
  obtain ⟨parentLine,childrenLines⟩ := List.cons.inj below
  have head : (toString one.bucket).toList ++ '\t' :: (printing.toUri one.name).toList =
      (toString two.bucket).toList ++ '\t' :: (printing.toUri two.name).toList := by
    have chars := congrArg String.toList first
    simpa using chars
  have noTab : ∀ n : Nat, '\t' ∉ (toString n).toList := fun n inside => by cases number_digits n _ inside
  obtain ⟨bucket,name⟩ := cut_unique (noTab _) (noTab _) head
  have hash := (String.append_right_inj _).mp hashLine
  have above := parentLine_inj legible parentLine
  have children := childrenLines_inj legible childrenLines
  cases one
  cases two
  cases number_inj bucket
  cases legible.toUri_injective (String.toList_injective name)
  cases Nat.repr_injective hash
  cases above
  cases children
  rfl

theorem paragraph_laid (printed : Printed Component) : (printed.paragraph printing).Laid Indented := by
  have children : ∀ (names : List (Name Component)) (j : Nat), ∀ line ∈ childLines printing j names, Indented line := by
    intro names
    induction names with
    | nil => exact fun j line member => absurd member List.not_mem_nil
    | cons x rest ih =>
      intro j line member
      rcases List.mem_cons.mp member with rfl | later
      · simp [Indented]
      · exact ih (j+1) line later
  refine ⟨by simp [Indented,Printed.paragraph],fun line member => ?_⟩
  rcases List.mem_cons.mp member with rfl | member
  · simp [Indented]
  · rcases List.mem_cons.mp member with rfl | member
    · unfold Printed.parentLine
      split <;> simp [Indented]
    · unfold Printed.childrenLines at member
      split at member
      · cases member
      · rcases List.mem_cons.mp member with rfl | member
        · simp [Indented]
        · exact children _ 0 line member

theorem trailer_laid (nBuckets nItems : Nat) : ∀ p ∈ trailer nBuckets nItems, p.Laid Indented := by
  simp [trailer,Paragraph.Laid,Indented]

theorem paragraph_oneLine (legible : Legible printing) (printed : Printed Component) :
    ∀ line ∈ (printed.paragraph printing).lines, OneLine line := by
  have plain : ∀ {s}, '\n' ∉ s.toList → OneLine s := fun clean => clean
  have children : ∀ (names : List (Name Component)) (j : Nat), ∀ line ∈ childLines printing j names, OneLine line := by
    intro names
    induction names with
    | nil => exact fun j line member => absurd member List.not_mem_nil
    | cons x rest ih =>
      intro j line member
      rcases List.mem_cons.mp member with rfl | later
      · exact (((plain (by simp)).append (oneLine_number j)).append (plain (by simp))).append (legible.put_oneLine x)
      · exact ih (j+1) line later
  intro line member
  rcases List.mem_cons.mp member with rfl | member
  · exact (((plain (by simp)).append (oneLine_number _)).append (plain (by simp))).append (legible.toUri_oneLine _)
  · rcases List.mem_cons.mp member with rfl | member
    · exact (plain (by simp)).append (oneLine_number _)
    · rcases List.mem_cons.mp member with rfl | member
      · unfold Printed.parentLine
        split
        · exact (plain (by simp)).append (legible.toUri_oneLine _)
        · exact plain (by simp)
      · unfold Printed.childrenLines at member
        split at member
        · cases member
        · rcases List.mem_cons.mp member with rfl | member
          · exact (plain (by simp)).append (oneLine_number _)
          · exact children _ 0 line member

theorem trailer_oneLine (nBuckets nItems : Nat) : ∀ line ∈ (trailer nBuckets nItems).flatMap Paragraph.lines, OneLine line := by
  intro line member
  have plain : ∀ {s}, '\n' ∉ s.toList → OneLine s := fun clean => clean
  simp only [trailer,Paragraph.lines,List.flatMap_cons,List.flatMap_nil,List.append_nil,List.cons_append,List.nil_append,
    List.mem_cons,List.not_mem_nil,or_false] at member
  rcases member with rfl | rfl | rfl
  · exact (plain (by simp)).append (oneLine_number _)
  · exact (plain (by simp)).append (oneLine_number _)
  · exact plain (by simp)

-- The text can be read in one way only.
theorem dumped_inj (legible : Legible printing) {one two : List (Printed Component)}
    (same : dumped printing n i one = dumped printing m j two) : n = m ∧ i = j ∧ one = two := by
  have clean : ∀ n i (printed : List (Printed Component)),
      ∀ line ∈ (printed.map (Printed.paragraph printing) ++ trailer n i).flatMap Paragraph.lines, OneLine line := by
    intro n i printed line member
    rw [List.flatMap_append,List.flatMap_map,List.mem_append,List.mem_flatMap] at member
    rcases member with block | foot
    · obtain ⟨p,_,inside⟩ := block
      exact paragraph_oneLine legible p line inside
    · exact trailer_oneLine n i line foot
  have laid : ∀ n i (printed : List (Printed Component)),
      ∀ p ∈ printed.map (Printed.paragraph printing) ++ trailer n i, p.Laid Indented := by
    intro n i printed p member
    rcases List.mem_append.mp member with block | foot
    · obtain ⟨_,_,rfl⟩ := List.mem_map.mp block
      exact paragraph_laid _
    · exact trailer_laid n i p foot
  have lines := text_inj (clean n i one) (clean m j two) same
  obtain ⟨blocks,foot⟩ := List.append_inj' (paragraphs_inj (laid n i one) (laid m j two) lines) rfl
  obtain ⟨buckets,rest⟩ := List.cons.inj foot
  obtain ⟨items,_⟩ := List.cons.inj rest
  have count := (String.append_right_inj _).mp (Paragraph.mk.inj buckets).1
  have stored := (String.append_right_inj _).mp (Paragraph.mk.inj items).1
  exact ⟨Nat.repr_injective count,Nat.repr_injective stored,(List.map_injective_iff.mpr (paragraph_inj legible)) blocks⟩

-- Whatever has been done to the trees before.
theorem client_dump_tells [DecidableEq Component] {host other : Host Component} {n m : Nat} (positive : 1 ≤ n) (positiveM : 1 ≤ m)
    {ops later : List (ClientOp Component)} (safe : Guarded (clientStep host) ClientOp.apply SafeStep (new n) .empty ops)
    (safeL : Guarded (clientStep other) ClientOp.apply SafeStep (new m) .empty later) (legible : Legible printing) :
    ∃ tree after, run (clientStep host) (new n) ops = .ok tree ∧ run (clientStep other) (new m) later = .ok after ∧
      ∀ output, tree.dump printing output = after.dump printing output →
        (ops.foldl ClientOp.apply .empty).names = (later.foldl ClientOp.apply .empty).names ∧ tree.nBuckets = after.nBuckets ∧
        ∀ x ∈ (ops.foldl ClientOp.apply .empty).names, host.hashName x = other.hashName x := by
  obtain ⟨tree,printed,ran,prints,dumps⟩ := client_dumped positive safe printing
  obtain ⟨after,printedL,ranL,printsL,dumpsL⟩ := client_dumped positiveM safeL printing
  refine ⟨tree,after,ran,ranL,fun output same => ?_⟩
  rw [dumps,dumpsL] at same
  obtain ⟨buckets,_,rfl⟩ := dumped_inj legible ((String.append_right_inj _).mp (Except.ok.inj same))
  refine ⟨Finset.ext fun x => (prints.stored x).symm.trans (printsL.stored x),buckets,fun x stored => ?_⟩
  obtain ⟨p,member,rfl⟩ := List.mem_map.mp ((prints.stored x).mpr stored)
  exact UInt32.toNat_inj.mp ((prints.hashed p member).1.symm.trans (printsL.hashed p member).1)

def segments (name : Name Nat) : List (Paragraph Char) :=
  if name = [] then [⟨'/',[]⟩] else name.map fun c => ⟨'/',(toString c).toList⟩

theorem plainUri_segments (name : Name Nat) : (plainUri name).toList = (segments name).flatMap Paragraph.lines := by
  unfold plainUri segments
  split
  · rfl
  · rw [String.toList_join,List.flatMap_map,List.flatMap_map]
    refine List.flatMap_congr fun c _ => ?_
    simp [Paragraph.lines]

theorem segments_parts {name : Name Nat} (member : p ∈ segments name) : p.first = '/' ∧ ∀ c ∈ p.below, c.isDigit = true := by
  unfold segments at member
  split at member
  · cases List.mem_singleton.mp member
    exact ⟨rfl,fun _ inside => absurd inside List.not_mem_nil⟩
  · obtain ⟨c,_,rfl⟩ := List.mem_map.mp member
    exact ⟨rfl,number_digits c⟩

theorem segments_laid (name : Name Nat) : ∀ p ∈ segments name, p.Laid (fun c => c.isDigit = true) := by
  intro p member
  obtain ⟨first,digits⟩ := segments_parts member
  unfold Paragraph.Laid
  rw [first]
  exact ⟨by decide,digits⟩

theorem segments_injective : Function.Injective segments := by
  have one : Function.Injective fun c : Nat => (⟨'/',(toString c).toList⟩ : Paragraph Char) :=
    fun c d same => number_inj (Paragraph.mk.inj same).2
  have filled : ∀ c : Nat, (toString c).toList ≠ [] := fun c none => Nat.toDigits_ne_nil (Nat.toList_repr ▸ none)
  intro x y same
  unfold segments at same
  split at same
  · rename_i root
    split at same
    · rename_i rootY
      rw [root,rootY]
    · cases y with
      | nil => cases same
      | cons c y => exact absurd (Paragraph.mk.inj (List.cons.inj same).1).2.symm (filled c)
  · split at same
    · cases x with
      | nil => cases same
      | cons c x => exact absurd (Paragraph.mk.inj (List.cons.inj same).1).2 (filled c)
    · exact List.map_injective_iff.mpr one same

theorem plainUri_injective : Function.Injective plainUri := by
  intro x y same
  have chars := congrArg String.toList same
  rw [plainUri_segments,plainUri_segments] at chars
  exact segments_injective (paragraphs_inj (segments_laid x) (segments_laid y) chars)

theorem plainUri_oneLine (name : Name Nat) : OneLine (plainUri name) := by
  unfold OneLine
  rw [plainUri_segments,List.mem_flatMap]
  intro inside
  obtain ⟨p,member,here⟩ := inside
  obtain ⟨first,digits⟩ := segments_parts member
  rcases List.mem_cons.mp here with slash | digit
  · rw [first] at slash
    cases slash
  · cases digits _ digit

theorem plainPrinting_legible : Legible plainPrinting :=
  ⟨plainUri_injective,plainUri_oneLine,plainUri_injective,plainUri_oneLine⟩

-- The second tree has once held /3 too.
theorem client_dump_tells_erased : ∃ tree after, run (clientStep collidingHost) (new 8) [.lookup [1,2]] = .ok tree ∧
    run (clientStep collidingHost) (new 8) [.lookup [1],.lookup [3],.erase 2,.lookup [1,2]] = .ok after ∧
    ∀ output, tree.dump plainPrinting output = after.dump plainPrinting output →
      ([ClientOp.lookup [1,2]].foldl ClientOp.apply .empty).names =
        ([ClientOp.lookup [1],.lookup [3],.erase 2,.lookup [1,2]].foldl ClientOp.apply .empty).names ∧
      tree.nBuckets = after.nBuckets ∧ ∀ x ∈ ([ClientOp.lookup [1,2]].foldl ClientOp.apply .empty).names,
        collidingHost.hashName x = collidingHost.hashName x :=
  client_dump_tells (by decide) (by decide) (by decide) (by decide) plainPrinting_legible
end Reading

end NfdTables.NameTree
