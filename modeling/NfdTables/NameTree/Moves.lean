import NfdTables.NameTree.Refinement

namespace NfdTables.NameTree
open Machine Chain PrefixSet
variable {Component : Type} [DecidableEq Component]

structure Snapshot (Component : Type) where
  tree : NameTree Component
  chains : List (List NodeId)
  registry : Registry Component

abbrev Snapshot.Sound (host : Host Component) (s : Snapshot Component) : Prop := Consistent host s.tree s.chains s.registry

-- All that ever happens to a name tree. A call of a client is a number of these.
inductive Kind where
  | entered
  | resized
  | attached
  | removed (e : EntryId)
deriving DecidableEq

inductive Moved (host : Host Component) : Kind → Snapshot Component → Snapshot Component → Prop where
  | entered (absent : name ∉ registry.names)
      (at_loc : chains[(host.hashName name).toNat % NameTree.nBuckets tree]? = some chain)
      (rooted : name = [] ∨ name.dropLast ∈ registry.names) (above : parent = registry.parentOf name)
      (effect : Entered host tree after chains chain parent name) :
      Moved host .entered ⟨tree,chains,registry⟩ ⟨after,enteredChains host tree chains chain name,registry.enter name⟩
  | resized (positive : 0 < k) (ran : resize host tree k = .ok after) (effect : Resized host tree after k chains) :
      Moved host .resized ⟨tree,chains,registry⟩ ⟨after,distribute k (newBucketOf tree k) chains.flatten,registry⟩
  | attached (ran : tree.attach e change = .ok after) (effect : Attached tree after e change) :
      Moved host .attached ⟨tree,chains,registry⟩ ⟨after,chains,registry.attach e change⟩
  | removed (sits : Sits tree chains n e entry) (at_loc : chains[loc]? = some (front ++ n :: behind))
      (childless : ∀ k, entry.namePrefix ++ [k] ∉ registry.names)
      (taken : ∀ p object, entry.parent = some p → tree.entries.read p = some object → swapRemove object.children e = some rest)
      (effect : Removed tree after chains loc front n behind entry.parent rest) :
      Moved host (.removed e) ⟨tree,chains,registry⟩ ⟨after,chains.set loc (front ++ behind),registry.forget entry.namePrefix⟩

inductive Path (host : Host Component) (allowed : Kind → Prop) : Snapshot Component → Snapshot Component → Prop where
  | stay : Path host allowed s s
  | step (path : Path host allowed s t) (moved : Moved host kind t u) (fits : allowed kind) : Path host allowed s u

section Paths
variable {host : Host Component} {allowed : Kind → Prop} {s t u : Snapshot Component}

theorem Moved.sound (moved : Moved host kind s t) (sound : s.Sound host) : t.Sound host := by
  cases moved with
  | entered absent at_loc rooted above effect => exact effect.consistent sound absent at_loc rooted above
  | resized positive _ effect => exact effect.consistent positive sound
  | attached _ effect => exact effect.consistent sound
  | removed sits at_loc childless taken effect => exact effect.consistent sound sits at_loc childless taken

theorem Path.sound (path : Path host allowed s t) (sound : s.Sound host) : t.Sound host := by
  induction path with
  | stay => exact sound
  | step _ moved _ ih => exact moved.sound ih

theorem Path.preserves {invariant : Snapshot Component → Prop}
    (kept : ∀ {kind s t}, allowed kind → s.Sound host → invariant s → Moved host kind s t → invariant t)
    (path : Path host allowed s t) (sound : s.Sound host) (start : invariant s) : invariant t := by
  induction path with
  | stay => exact start
  | step path moved fits ih => exact kept fits (path.sound sound) ih moved

theorem Path.trans (one : Path host allowed s t) (two : Path host allowed t u) : Path host allowed s u := by
  induction two with
  | stay => exact one
  | step _ moved fits ih => exact .step ih moved fits
end Paths

section Lookup
variable {host : Host Component} {allowed : Kind → Prop} {s : Snapshot Component}

theorem resize_path (sound : s.Sound host) (positive : 0 < k) : ∃ t, s.tree.resize host k = .ok t.tree ∧
    t.registry = s.registry ∧ Moved host .resized s t := by
  obtain ⟨after,ran,effect⟩ := resize_spec host sound.chained sound.nodes positive
  exact ⟨⟨after,_,s.registry⟩,ran,rfl,.resized positive ran effect⟩

-- Growing is no move at all where the items are within the threshold.
theorem grow_path (allowed : Kind → Prop) (sound : s.Sound host) (resizes : allowed .resized ∨ s.tree.nItems ≤ s.tree.resizeThreshold) :
    ∃ t, s.tree.grow host = .ok t.tree ∧ t.registry = s.registry ∧ Path host allowed s t ∧
      (allowed .resized ∨ t.tree.resizeThreshold = s.tree.resizeThreshold) := by
  by_cases beyond : s.tree.nItems > s.tree.resizeThreshold
  · have may := resizes.resolve_right (Nat.not_le.mpr beyond)
    obtain ⟨t,ran,same,moved⟩ := resize_path sound (Nat.mul_pos (by decide) sound.placed.positive : 0 < resizeFactor * s.tree.nBuckets)
    exact ⟨t,(if_pos beyond).trans ran,same,.step .stay moved may,.inl may⟩
  · exact ⟨s,if_neg beyond,rfl,.stay,.inr rfl⟩

theorem enter_path (sound : s.Sound host) (grows : allowed .entered) (rooted : name = [] ∨ name.dropLast ∈ s.registry.names)
    (above : parent = s.registry.parentOf name) : ∃ t, s.tree.enter host parent name =
      .ok (t.tree,((s.registry.enter name).cell name).object) ∧ t.registry = s.registry.enter name ∧ Path host allowed s t ∧
      t.tree.resizeThreshold = s.tree.resizeThreshold := by
  by_cases stored : name ∈ s.registry.names
  · rw [Registry.enter_stored stored]
    exact ⟨s,enter_stored sound stored parent,rfl,.stay,rfl⟩
  · obtain ⟨chain,at_loc⟩ := sound.chained.table.chain_at (sound.placed.bound (host.hashName name).toNat)
    obtain ⟨after,ran,effect⟩ := enter_absent sound stored at_loc fun p same => by
      obtain ⟨object,live,_⟩ := parent_older sound rooted above same
      simp [live]
    have object : ((s.registry.enter name).cell name).object = s.tree.entries.size := by
      rw [Registry.enter_fresh stored,← sound.synced]
      simp
    exact ⟨⟨after,_,_⟩,by rw [object]; exact ran,rfl,.step .stay (.entered stored at_loc rooted above effect) grows,effect.threshold⟩

theorem enters_card (names : List (Name Component)) (registry : Registry Component) :
    registry.names.card ≤ (names.foldl Registry.enter registry).names.card := by
  rw [Registry.enters_names]
  exact Finset.card_le_card Finset.subset_union_left

-- Without room for the missing prefixes a lookup resizes on its way.
theorem lookupFrom_path (sound : s.Sound host) (grows : allowed .entered) (size : i + m = name.length + 1)
    (begun : i = 0 ∨ getPrefix name (i-1) ∈ s.registry.names) (held : parent = heldBefore s.registry name i)
    (resizes : allowed .resized ∨
      (((List.range' i m).map (getPrefix name)).foldl Registry.enter s.registry).names.card ≤ s.tree.resizeThreshold) :
    ∃ t e, lookupFrom host name (List.range' i m) s.tree parent = .ok (t.tree,some e) ∧
      e = (t.registry.cell name).object ∧
      t.registry = ((List.range' i m).map (getPrefix name)).foldl Registry.enter s.registry ∧ Path host allowed s t := by
  induction m generalizing i s parent with
  | zero =>
    have whole : getPrefix name (i-1) = name := by
      rw [show i - 1 = name.length by omega]
      exact List.take_length
    refine ⟨s,_,?_,rfl,rfl,.stay⟩
    simp [lookupFrom,held,heldBefore,show i ≠ 0 by omega,whole]
  | succ m ih =>
    have within : i ≤ name.length := by omega
    obtain ⟨entered,ranE,registryE,pathE,thresholdE⟩ := enter_path sound grows (rooted_of_begun within begun)
      (held.trans (heldBefore_parent within))
    rw [List.range'_succ,List.map_cons,List.foldl_cons,← registryE] at resizes ⊢
    have soundE := pathE.sound sound
    obtain ⟨grown,ranG,registryG,pathG,thresholdG⟩ := grow_path allowed soundE
      (resizes.imp_right fun room => by
        rw [soundE.counted,thresholdE]
        exact (enters_card _ _).trans room)
    have stored : getPrefix name (i+1-1) ∈ grown.registry.names := by
      rw [registryG,registryE,Registry.enter_names]
      exact Finset.mem_insert_self _ _
    obtain ⟨t,e,ran,object,registryT,path⟩ := ih (i:=i+1) (s:=grown) (pathG.sound soundE) (by omega) (.inr stored) rfl (by
      rcases thresholdG with may | same
      · exact .inl may
      · rw [registryG,same,thresholdE]
        exact resizes)
    refine ⟨t,e,?_,object,by rw [registryT,registryG],(pathE.trans pathG).trans path⟩
    have holding : heldBefore grown.registry name (i+1) = some ((s.registry.enter (getPrefix name i)).cell (getPrefix name i)).object := by
      rw [heldBefore,if_neg (Nat.succ_ne_zero i),registryG,registryE]
      rfl
    simp only [lookupFrom,ranE,ok_bind,ranG]
    rw [← holding]
    exact ran

theorem lookup_path (sound : s.Sound host) (name : Name Component) (grows : allowed .entered)
    (resizes : allowed .resized ∨ (s.registry.lookup name).names.card ≤ s.tree.resizeThreshold) :
    ∃ t, s.tree.lookup host name = .ok (t.tree,some ((s.registry.lookup name).cell name).object) ∧
      t.registry = s.registry.lookup name ∧ Path host allowed s t := by
  rw [Registry.lookup_eq,List.range_eq_range'] at resizes ⊢
  obtain ⟨t,e,ran,rfl,registryT,path⟩ := lookupFrom_path sound grows (by omega) (.inl rfl) rfl resizes
  have start : heldBefore s.registry name 0 = none := rfl
  rw [start,registryT] at ran
  refine ⟨t,?_,registryT,path⟩
  rw [lookup,List.range_eq_range']
  exact ran
end Lookup

section Erase
variable {host : Host Component} {allowed : Kind → Prop} {s : Snapshot Component}

theorem attach_path (sound : s.Sound host) (held : s.registry.Holds e) (change : Payload.Change) :
    ∃ t, s.tree.attach e change = .ok t.tree ∧ t.registry = s.registry.attach e change ∧ t.chains = s.chains ∧
      Moved host .attached s t := by
  obtain ⟨name,stored,rfl⟩ := held
  obtain ⟨_,_,sits,_⟩ := sound.named.live stored
  obtain ⟨after,ran,effect⟩ := attach_spec sits.entry_live change
  exact ⟨⟨after,s.chains,_⟩,ran,rfl,rfl,.attached ran effect⟩

-- One level of an erase, and what is left for the levels above it.
theorem removed_move (sound : s.Sound host) (sits : Sits s.tree s.chains n e entry) (empty : entry.isEmpty = true)
    (ok : HeadOk s.tree s.chains n) : ∃ t, s.tree.removeEntry e entry = .ok t.tree ∧
      t.registry = s.registry.forget entry.namePrefix ∧ Moved host (.removed e) s t ∧
      (∀ m, HeadOk s.tree s.chains m → HeadOk t.tree t.chains m) ∧
      ∀ {m f object}, Sits t.tree t.chains m f object → m ≠ n ∧ ∃ old, Sits s.tree s.chains m f old ∧
        old.namePrefix = object.namePrefix := by
  obtain ⟨childless,_⟩ := (isEmpty_leaf sound sits).mp empty
  obtain ⟨front,behind,rest,after,at_loc,ran,effect,taken⟩ := removeEntry_spec sound sits ok
  refine ⟨⟨after,_,_⟩,ran,rfl,.removed sits at_loc childless taken effect,
    fun m => effect.headOk sound.chained.table at_loc,fun {m f object} sitsM => ?_⟩
  obtain ⟨other,old,sitsOld,rfl⟩ := effect.sits sound.chained at_loc sitsM
  exact ⟨other,old,sitsOld,rfl⟩

-- Induction on the fuel, along the parents. The names that go fall with the first.
theorem eraseFrom_path (sound : s.Sound host) (sits : Sits s.tree s.chains n e entry) (enough : s.registry.names.card < fuel)
    (safe : ∀ m f object, Sits s.tree s.chains m f object →
      Doomed s.registry.names s.registry.idle entry.namePrefix object.namePrefix → HeadOk s.tree s.chains m)
    (removes : ∀ m f object, Sits s.tree s.chains m f object →
      Doomed s.registry.names s.registry.idle entry.namePrefix object.namePrefix → allowed (.removed f)) :
    ∃ t, eraseFrom fuel s.tree e = .ok (t.tree,entry.isEmpty) ∧ t.registry = s.registry.eraseAt entry.namePrefix ∧
      Path host allowed s t ∧ ∀ m, HeadOk s.tree s.chains m → HeadOk t.tree t.chains m := by
  induction fuel generalizing s n e entry with
  | zero => exact absurd enough (Nat.not_lt_zero _)
  | succ fuel ih =>
    have storedE := (sound.named.known sits).1
    have closed := sound.named.closed
    cases empty : entry.isEmpty with
    | false =>
      refine ⟨s,eraseFrom_busy sits.entry_live empty fuel,?_,.stay,fun _ ok => ok⟩
      exact (Registry.eraseAt_busy storedE ((isEmpty_busy sound sits).mp empty)).symm
    | true =>
      obtain ⟨childless,quiet⟩ := (isEmpty_leaf sound sits).mp empty
      have itself := doomed_self closed quiet childless
      obtain ⟨mid,ran,registryM,moved,okM,sitsM⟩ := removed_move sound sits empty (safe n e entry sits itself)
      have soundM := moved.sound sound
      have first := Path.step .stay moved (removes n e entry sits itself)
      cases points : entry.parent with
      | none =>
        have root := root_of_orphan sound sits points
        refine ⟨mid,eraseFrom_empty sits.entry_live empty ran (by rw [points]; rfl),?_,first,okM⟩
        rw [registryM]
        rw [root] at childless quiet ⊢
        exact (Registry.eraseAt_root closed quiet childless).symm
      | some p =>
        obtain ⟨_,object,sitsP,_,filled,same⟩ := parent_of sound sits points
        have stays : entry.namePrefix.dropLast ∈ mid.registry.names := by
          rw [registryM]
          exact Finset.mem_erase.mpr ⟨dropLast_proper filled,same ▸ (sound.named.known sitsP).1⟩
        obtain ⟨k,now,sitsNow,nameNow⟩ := soundM.named.live stays
        have objectP : (mid.registry.cell entry.namePrefix.dropLast).object = p := by
          rw [registryM,← same]
          exact sound.named.object sitsP
        rw [objectP] at sitsNow
        have apart : ∀ {m f object}, Sits mid.tree mid.chains m f object → object.namePrefix ≠ entry.namePrefix := by
          intro m f object sitsO equal
          have inside := (soundM.named.known sitsO).1
          rw [registryM,equal] at inside
          exact (Finset.mem_erase.mp inside).1 rfl
        have before : ∀ {m f object}, Sits mid.tree mid.chains m f object →
            Doomed mid.registry.names mid.registry.idle now.namePrefix object.namePrefix →
            ∃ old, Sits s.tree s.chains m f old ∧ Doomed s.registry.names s.registry.idle entry.namePrefix old.namePrefix := by
          intro m f object sitsO doomed
          obtain ⟨_,old,sitsOld,nameO⟩ := sitsM sitsO
          refine ⟨old,sitsOld,?_⟩
          rw [nameO]
          rw [registryM,nameNow] at doomed
          exact (doomed_parent quiet (apart sitsO)).mpr doomed
        obtain ⟨t,climbed,registryT,path,okT⟩ := ih soundM sitsNow
          (by
            have filled := Finset.card_pos.mpr ⟨_,storedE⟩
            rw [registryM,Registry.forget,Finset.card_erase_of_mem storedE]
            omega)
          (fun m f object sitsO doomed => by
            obtain ⟨old,sitsOld,fell⟩ := before sitsO doomed
            exact okM m (safe m f old sitsOld fell))
          (fun m f object sitsO doomed => by
            obtain ⟨old,sitsOld,fell⟩ := before sitsO doomed
            exact removes m f old sitsOld fell)
        refine ⟨t,eraseFrom_empty sits.entry_live empty ran (points ▸ eraseAbove_parent climbed),?_,first.trans path,
          fun m ok => okT m (okM m ok)⟩
        rw [registryT,nameNow,registryM,Registry.eraseAt_leaf closed quiet childless]

theorem erase_path (allowed : Kind → Prop) (sound : s.Sound host) (sits : Sits s.tree s.chains n e entry)
    (safe : ∀ m f object, Sits s.tree s.chains m f object →
      Doomed s.registry.names s.registry.idle entry.namePrefix object.namePrefix → HeadOk s.tree s.chains m)
    (removes : ∀ m f object, Sits s.tree s.chains m f object →
      Doomed s.registry.names s.registry.idle entry.namePrefix object.namePrefix → allowed (.removed f)) :
    ∃ t, s.tree.eraseEntryIfEmpty e = .ok (t.tree,entry.isEmpty) ∧ t.registry = s.registry.eraseAt entry.namePrefix ∧
      Path host allowed s t ∧ ∀ m, HeadOk s.tree s.chains m → HeadOk t.tree t.chains m :=
  eraseFrom_path sound sits (Nat.lt_succ_of_le sound.card_le) safe removes
end Erase

section Clients
variable {host : Host Component} {allowed : Kind → Prop} {s : Snapshot Component}

-- The moves a client's call may take are among the allowed ones.
def ClientOp.Within (allowed : Kind → Prop) (threshold : Nat) (registry : Registry Component) : ClientOp Component → Prop
  | .lookup name => allowed .entered ∧ (allowed .resized ∨ (registry.lookup name).names.card ≤ threshold)
  | .attach _ _ => allowed .attached
  | .erase e => ∀ y ∈ registry.names, registry.FallsWith e y → allowed (.removed (registry.cell y).object)

theorem client_path (sound : s.Sound host) (op : ClientOp Component) (safe : SafeStep s.tree s.registry op)
    (within : op.Within allowed s.tree.resizeThreshold s.registry) :
    ∃ t, clientStep host s.tree op = .ok t.tree ∧ t.registry = op.apply s.registry ∧ Path host allowed s t := by
  obtain ⟨onStored,heads⟩ := safe
  cases op with
  | lookup name =>
    obtain ⟨t,ran,registryT,path⟩ := lookup_path sound name within.1 within.2
    exact ⟨t,by rw [clientStep,ran]; rfl,registryT,path⟩
  | attach e change =>
    obtain ⟨t,ran,registryT,_,moved⟩ := attach_path sound onStored change
    exact ⟨t,ran,registryT,.step .stay moved within⟩
  | erase e =>
    obtain ⟨name,stored,rfl⟩ := onStored
    obtain ⟨n,entry,sits,rfl⟩ := sound.named.live stored
    have falls : ∀ {m f object}, Sits s.tree s.chains m f object →
        Doomed s.registry.names s.registry.idle entry.namePrefix object.namePrefix →
        s.registry.FallsWith (s.registry.cell entry.namePrefix).object object.namePrefix :=
      fun _ doomed => (Registry.fallsWith_iff sound.distinct stored).mpr doomed
    obtain ⟨t,ran,registryT,path,_⟩ := erase_path allowed sound sits
      (fun m f object sitsM doomed => by
        have inOrder := heads object.namePrefix (sound.named.known sitsM).1 (falls sitsM doomed)
        rw [sound.named.object sitsM] at inOrder
        exact headOk_of sound sitsM inOrder)
      (fun m f object sitsM doomed => by
        have may := within object.namePrefix (sound.named.known sitsM).1 (falls sitsM doomed)
        rwa [sound.named.object sitsM] at may)
    refine ⟨t,by rw [clientStep,ran]; rfl,?_,path⟩
    rw [registryT,ClientOp.apply,Registry.erase_eq sound.distinct stored]
end Clients

end NfdTables.NameTree
