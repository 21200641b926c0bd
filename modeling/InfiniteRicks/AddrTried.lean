import InfiniteRicks.AddrManSpec

/-!
# The tried table

An entry that proves good leaves all its new buckets for a tried one. Where that is full,
an entry of it goes back to a new bucket: to its own one, or where that is full as well,
to one of those that the good entry has just left.
-/

namespace InfiniteRicks

open Function Library Library.Tables

namespace CAddrMan

variable {dated : Prop} {s : CAddrMan} {id : Int} {info : CAddrInfo}

/-! ## `SelectTried` -/

/-- The entries that are looked at are those of the bucket in another order, and a position that has been
chosen is one of the bucket's. -/
structure Selecting (s : CAddrMan) (vTried : List Int) (chosen : Selection) : Prop where
  perm : chosen.vTried.Perm vTried
  nOldest : chosen.nOldest = -1 ∨ ∃ info, s.mapInfo[chosen.nOldest]? = some info
  nOldestPos : chosen.nOldest ≠ -1 → ∃ pos : Nat, chosen.nOldestPos = pos ∧ pos < vTried.length

theorem inspect_spec {vTried : List Int} (known : ∀ id ∈ vTried, ∃ info, s.mapInfo[id]? = some info)
    {chosen : Selection} (selecting : s.Selecting vTried chosen) {i : Nat} (range : i < vTried.length)
    (chance : Chance) (call : Nat) :
    ∃ next, s.inspect chance call chosen i = some next ∧ s.Selecting vTried next ∧
      ∃ pos : Nat, next.nOldestPos = pos ∧ pos < vTried.length := by
  have length := selecting.perm.length_eq
  obtain ⟨nPos, nPosDef⟩ : ∃ nPos, chance.getRandInt (call + i) (chosen.vTried.length - i) + i = nPos := ⟨_, rfl⟩
  have nPosRange : nPos < chosen.vTried.length := by
    have drawn : chance.getRandInt (call + i) (chosen.vTried.length - i) < chosen.vTried.length - i := by
      rw [Chance.getRandInt, if_neg (by omega)]
      exact Nat.mod_lt _ (by omega)
    omega
  have iRange : i < chosen.vTried.length := by omega
  have there := known _ (selecting.perm.subset (List.getElem_mem nPosRange))
  obtain ⟨older, compared, first⟩ : ∃ older, s.lastSuccessBefore chosen.vTried[nPos] chosen.nOldest = some older ∧
      (older = false → chosen.nOldest ≠ -1) := by
    rw [lastSuccessBefore]
    split_ifs with start
    · exact ⟨true, rfl, fun equal => by cases equal⟩
    · obtain ⟨infoTemp, temp⟩ := there
      obtain ⟨infoOldest, oldest⟩ := selecting.nOldest.resolve_left start
      simp only [Option.bind_eq_bind, temp, oldest, Option.bind_some]
      exact ⟨_, rfl, fun _ => start⟩
  have shuffled : ((chosen.vTried.set nPos chosen.vTried[i]).set i chosen.vTried[nPos]).Perm vTried :=
    (List.set_set_perm nPosRange iRange).trans selecting.perm
  simp only [inspect, nPosDef, List.getElem?_eq_getElem nPosRange, List.getElem?_eq_getElem iRange,
    Option.bind_eq_bind, Option.bind_some, compared]
  refine ⟨_, rfl, ?_⟩
  cases older with
  | true => exact ⟨⟨shuffled, .inr there, fun _ => ⟨nPos, rfl, by omega⟩⟩, nPos, rfl, by omega⟩
  | false => exact ⟨⟨shuffled, selecting.nOldest, selecting.nOldestPos⟩, selecting.nOldestPos (first rfl)⟩

/-- `SelectTried` shuffles a bucket and returns one of its positions. -/
theorem selectTried_spec {bucket : Fin triedBucketCount}
    (known : ∀ id ∈ s.vvTried bucket, ∃ info, s.mapInfo[id]? = some info) (occupied : s.vvTried bucket ≠ [])
    (chance : Chance) (call : Nat) :
    ∃ (pos : Nat) (vTried : List Int), s.selectTried bucket chance call =
      some ((pos : Int), { s with vvTried := update s.vvTried bucket vTried }) ∧ vTried.Perm (s.vvTried bucket) ∧
        pos < vTried.length := by
  have loop : ∀ indexes : List Nat, (∀ i ∈ indexes, i < (s.vvTried bucket).length) → ∀ chosen,
      s.Selecting (s.vvTried bucket) chosen →
        (indexes = [] → ∃ pos : Nat, chosen.nOldestPos = pos ∧ pos < (s.vvTried bucket).length) →
          ∃ last, indexes.foldlM (s.inspect chance call) chosen = some last ∧ s.Selecting (s.vvTried bucket) last ∧
            ∃ pos : Nat, last.nOldestPos = pos ∧ pos < (s.vvTried bucket).length := by
    intro indexes
    induction indexes with
    | nil => exact fun _ chosen selecting position => ⟨chosen, rfl, selecting, position rfl⟩
    | cons i rest ih =>
        intro range chosen selecting _
        obtain ⟨next, done, still, position⟩ :=
          inspect_spec known selecting (range i List.mem_cons_self) chance call
        obtain ⟨last, finished, result⟩ :=
          ih (fun j member => range j (List.mem_cons_of_mem _ member)) next still fun _ => position
        exact ⟨last, by rw [List.foldlM_cons, done]; exact finished, result⟩
  have positive := List.length_pos_of_ne_nil occupied
  obtain ⟨last, finished, selecting, pos, equal, range⟩ :=
    loop (List.range (min triedEntriesInspectOnEvict (s.vvTried bucket).length))
      (fun i member => lt_of_lt_of_le (List.mem_range.mp member) (min_le_right _ _)) ⟨s.vvTried bucket, -1, -1⟩
      ⟨.refl _, .inl rfl, fun chosen => absurd rfl chosen⟩ (fun none => by
        have some : min triedEntriesInspectOnEvict (s.vvTried bucket).length ≠ 0 := by
          rw [triedEntriesInspectOnEvict]
          omega
        exact absurd (List.range_eq_nil.mp none) some)
  refine ⟨pos, last.vTried, ?_, selecting.perm, by rwa [selecting.perm.length_eq]⟩
  simp only [selectTried, Option.bind_eq_bind, finished, Option.bind_some, equal]
  rfl

/-! ## `MakeTried` -/

theorem count_newContents (s : CAddrMan) (id : Int) :
    s.newContents.count id = (Finset.univ.filter fun bucket => id ∈ s.vvNew bucket).card := by
  rw [newContents, count_contents, Finset.card_filter]
  refine Finset.sum_congr rfl fun bucket _ => ?_
  rw [Multiset.count_eq_of_nodup (s.vvNew bucket).nodup]
  rfl

theorem count_unlisted (s : CAddrMan) (id other : Int) :
    (s.unlisted id).newContents.count other = if other = id then 0 else s.newContents.count other := by
  rw [count_newContents, count_newContents]
  simp only [unlisted, Finset.mem_erase]
  split_ifs with same
  · simp only [same, ne_eq, not_true_eq_false, false_and, Finset.filter_false, Finset.card_empty]
  · simp only [ne_eq, same, not_false_eq_true, true_and]

theorem getElem?_unlisted (bucketed : Bucketed dated (fun _ => 0) s) (known : s.mapInfo[id]? = some info) :
    (s.unlisted id).mapInfo[id]? = some { info with nRefCount := 0 } := by
  have references := bucketed.new id
  rw [Bucketed.refs_of_known known, count_newContents, add_zero] at references
  refine (getElem?_modify_self known).trans ?_
  simp only [references, sub_self]

theorem proj_unlisted {δ : Type} (π : CAddrInfo → δ) (bucketed : Bucketed dated (fun _ => 0) s)
    (known : s.mapInfo[id]? = some info) :
    proj π (s.unlisted id) = update (proj π s) id (some (π { info with nRefCount := 0 })) := by
  have references := bucketed.new id
  rw [Bucketed.refs_of_known known, count_newContents, add_zero] at references
  refine (proj_modify π known).trans ?_
  simp only [references, sub_self]

theorem Indexed.unlisted (indexed : s.Indexed) (id : Int) : (s.unlisted id).Indexed := by
  have kept : (s.modify id fun info => { info with
      nRefCount := info.nRefCount - (Finset.univ.filter fun bucket => id ∈ s.vvNew bucket).card }).Indexed :=
    indexed.modify (fun _ => rfl) fun _ => rfl
  exact ⟨kept.idCount, kept.fresh, kept.addresses, kept.places⟩

theorem refs_of_proj {s s' : CAddrMan} {references : Int} (moved : proj (fun info => info.nRefCount) s' =
    update (proj (fun info => info.nRefCount) s) id (some references)) : s'.refs = update s.refs id references := by
  funext other
  rw [refs, moved]
  by_cases same : other = id
  · rw [same, update_self, update_self, Option.getD_some]
  · rw [update_of_ne same, update_of_ne same, refs]

theorem inTried_of_proj {s s' : CAddrMan} {tried : Bool} (moved : proj (fun info => info.fInTried) s' =
    update (proj (fun info => info.fInTried) s) id (some tried)) : s'.inTried = update s.inTried id tried := by
  funext other
  rw [inTried, moved]
  by_cases same : other = id
  · rw [same, update_self, update_self, Option.getD_some]
  · rw [update_of_ne same, update_of_ne same, inTried]

section Room

variable {bucket : Fin triedBucketCount}

/-- An entry moves to a tried bucket that has room. -/
def promoted (s : CAddrMan) (id : Int) (bucket : Fin triedBucketCount) : CAddrMan := (s.unlisted id).pushTried id bucket

theorem proj_promoted {δ : Type} (π : CAddrInfo → δ) (bucket : Fin triedBucketCount) (bucketed : Bucketed dated (fun _ => 0) s)
    (known : s.mapInfo[id]? = some info) :
    proj π (s.promoted id bucket) = update (proj π s) id (some (π { info with nRefCount := 0, fInTried := true })) := by
  refine (proj_modify π (getElem?_unlisted bucketed known)).trans ?_
  rw [proj_unlisted π bucketed known, update_idem]

theorem triedContents_update {s s' : CAddrMan} {new : List Int} (vvTried : s'.vvTried = update s.vvTried bucket new) :
    s'.triedContents + (s.vvTried bucket : Multiset Int) = s.triedContents + (new : Multiset Int) := by
  have pushed : (fun bucket => (s'.vvTried bucket : Multiset Int)) =
      update (fun bucket => (s.vvTried bucket : Multiset Int)) bucket (new : Multiset Int) := by
    funext other
    rw [vvTried]
    exact apply_update (fun _ (list : List Int) => (list : Multiset Int)) s.vvTried bucket new other
  rw [triedContents, pushed]
  exact contents_update (fun bucket => (s.vvTried bucket : Multiset Int)) bucket new

theorem triedContents_append {s s' : CAddrMan}
    (vvTried : s'.vvTried = update s.vvTried bucket (s.vvTried bucket ++ [id])) :
    s'.triedContents = id ::ₘ s.triedContents := by
  have whole := triedContents_update vvTried
  rw [← Multiset.coe_add, Multiset.coe_singleton, ← add_assoc, add_right_comm] at whole
  rw [add_right_cancel whole, Multiset.add_comm, Multiset.singleton_add]

theorem Consistent.promoted (consistent : Consistent dated s) (known : s.mapInfo[id]? = some info)
    (isNew : info.fInTried = false) (good : 0 < info.nLastSuccess)
    (room : (s.vvTried bucket).length < triedBucketSize) : Consistent dated (s.promoted id bucket) := by
  obtain ⟨indexed, bucketed, limited⟩ := consistent
  have moved : ((s.unlisted id).modify id fun info => { info with fInTried := true }).Indexed :=
    (indexed.unlisted id).modify (fun _ => rfl) fun _ => rfl
  refine ⟨⟨moved.idCount, moved.fresh, moved.addresses, moved.places⟩, ⟨fun other => ?_, fun other => ?_, ?_, ?_, ?_⟩,
    ⟨fun other => ?_, fun other => ?_⟩⟩
  · have before := bucketed.new other
    change ((s.unlisted id).newContents.count other : Int) + 0 = _
    rw [count_unlisted, refs_of_proj (proj_promoted _ bucket bucketed known)]
    by_cases same : other = id
    · rw [if_pos same, same, update_self]
      rfl
    · rw [if_neg same, update_of_ne same]
      exact before
  · have before := bucketed.tried other
    have more : (s.promoted id bucket).triedContents = id ::ₘ s.triedContents := triedContents_append rfl
    rw [more, Multiset.count_cons, inTried_of_proj (proj_promoted _ bucket bucketed known)]
    by_cases same : other = id
    · subst same
      rw [Bucketed.inTried_of_known known, isNew] at before
      rw [update_self, if_pos rfl, before]
      rfl
    · rw [update_of_ne same, if_neg same, add_zero]
      exact before
  · intro other entry found
    have here := congrFun (proj_promoted (fun info => info) bucket bucketed known) other
    rw [proj_of_known _ found] at here
    by_cases same : other = id
    · rw [same, update_self] at here
      obtain rfl := Option.some.inj here
      have sound := bucketed.entry id info known
      exact ⟨fun _ => ⟨rfl, good⟩, fun isNew => (nomatch isNew), sound.nLastSuccess, sound.nLastTry⟩
    · rw [update_of_ne same] at here
      obtain ⟨old, was, rfl⟩ := proj_eq_some_iff.mp here.symm
      exact bucketed.entry other old was
  · have more : (s.promoted id bucket).triedContents = id ::ₘ s.triedContents := triedContents_append rfl
    have nTried := bucketed.nTried
    rw [more, Multiset.card_cons]
    change s.nTried + 1 = _
    push_cast
    omega
  · have total := bucketed.total
    change s.nTried + 1 + (s.nNew - 1) = s.vRandom.length
    omega
  · exact (Finset.card_erase_le).trans (limited.new other)
  · change (update s.vvTried bucket (s.vvTried bucket ++ [id]) other).length ≤ _
    by_cases same : other = bucket
    · rw [same, update_self, List.length_append, List.length_singleton]
      exact room
    · rw [update_of_ne same]
      exact limited.tried other

end Room

/-- An entry of a tried bucket says that it is tried. -/
theorem Bucketed.inTried_of_mem {owed : Int → Int} (bucketed : Bucketed dated owed s)
    (bucket : Fin triedBucketCount) (known : s.mapInfo[id]? = some info) (member : id ∈ s.vvTried bucket) :
    info.fInTried = true := by
  have before := bucketed.tried id
  rw [Bucketed.inTried_of_known known] at before
  have held : 0 < s.triedContents.count id := by
    rw [Multiset.count_pos, triedContents, mem_contents]
    exact ⟨bucket, member⟩
  by_contra isNew
  rw [if_neg isNew] at before
  omega

section Full

variable {bucket : Fin triedBucketCount} {vTried : List Int} {pos : Nat} {room : Fin newBucketCount} {old : Int}
  {infoOld : CAddrInfo}

/-- An entry moves to a tried bucket that is full and has been shuffled. -/
def exchanged (s : CAddrMan) (id old : Int) (bucket : Fin triedBucketCount) (vTried : List Int) (pos : Nat)
    (room : Fin newBucketCount) : CAddrMan :=
  { s.unlisted id with vvTried := update s.vvTried bucket vTried }.replaceTried id old bucket pos room

theorem vvTried_exchanged : (s.exchanged id old bucket vTried pos room).vvTried =
    update s.vvTried bucket (vTried.set pos id) := by
  change update (update s.vvTried bucket vTried) bucket ((update s.vvTried bucket vTried bucket).set pos id) = _
  rw [update_idem, update_self]

theorem proj_exchanged {δ : Type} (π : CAddrInfo → δ) (bucketed : Bucketed dated (fun _ => 0) s)
    (known : s.mapInfo[id]? = some info) (knownOld : s.mapInfo[old]? = some infoOld) (apart : id ≠ old) :
    proj π (s.exchanged id old bucket vTried pos room) =
      update (update (proj π s) id (some (π { info with nRefCount := 0, fInTried := true }))) old
        (some (π { infoOld with fInTried := false, nRefCount := 1 })) := by
  have stillOld : (s.unlisted id).mapInfo[old]? = some infoOld := by
    refine (getElem?_modify s id old _).trans ?_
    rw [if_neg apart, knownOld]
  have moved : ((s.unlisted id).modify old fun info => { info with fInTried := false, nRefCount := 1 }).mapInfo[id]? =
      some { info with nRefCount := 0 } := by
    rw [getElem?_modify, if_neg apart.symm, getElem?_unlisted bucketed known]
  refine (proj_modify π (f := fun info => { info with fInTried := true }) moved).trans ?_
  rw [proj_modify π stillOld, proj_unlisted π bucketed known, update_comm apart, update_idem]
  exact update_comm apart.symm _ _ _

theorem triedContents_exchanged (perm : vTried.Perm (s.vvTried bucket)) (range : pos < vTried.length) :
    vTried[pos] ::ₘ (s.exchanged id old bucket vTried pos room).triedContents = id ::ₘ s.triedContents := by
  have whole := triedContents_update (@vvTried_exchanged s id bucket vTried pos room old)
  have rest := Multiset.coe_eq_coe.mpr (perm.symm.trans (List.getElem_cons_eraseIdx_perm range).symm)
  have replaced := Multiset.coe_eq_coe.mpr (List.set_perm_cons_eraseIdx range id)
  rw [rest, replaced, ← Multiset.cons_coe, ← Multiset.cons_coe, Multiset.add_cons, Multiset.add_cons,
    ← Multiset.cons_add, ← Multiset.cons_add] at whole
  exact add_right_cancel whole

theorem Consistent.exchanged (consistent : Consistent dated s) (known : s.mapInfo[id]? = some info)
    (isNew : info.fInTried = false) (good : 0 < info.nLastSuccess) (perm : vTried.Perm (s.vvTried bucket))
    (range : pos < vTried.length) (knownOld : s.mapInfo[vTried[pos]]? = some infoOld)
    (place : ((s.unlisted id).vvNew room).card < newBucketSize) :
    Consistent dated (s.exchanged id vTried[pos] bucket vTried pos room) := by
  obtain ⟨indexed, bucketed, limited⟩ := consistent
  obtain ⟨old, oldDef⟩ : ∃ old, vTried[pos] = old := ⟨_, rfl⟩
  have contents := @triedContents_exchanged _ id _ _ _ room vTried[pos] perm range
  rw [oldDef] at knownOld contents ⊢
  have isTried : infoOld.fInTried = true := bucketed.inTried_of_mem bucket knownOld (by
    rw [← oldDef]
    exact perm.subset (List.getElem_mem range))
  have apart : id ≠ old := by
    rintro rfl
    rw [known] at knownOld
    cases knownOld
    exact Bool.false_ne_true (isNew.symm.trans isTried)
  have outside : old ∉ (s.unlisted id).vvNew room := by
    intro member
    obtain ⟨found, there, new, -⟩ := bucketed.known_of_mem (Finset.mem_of_mem_erase member) le_rfl
    rw [knownOld] at there
    cases there
    exact Bool.false_ne_true (new.symm.trans isTried)
  have entries : ∀ {δ : Type} (π : CAddrInfo → δ), proj π (s.exchanged id old bucket vTried pos room) =
      update (update (proj π s) id (some (π { info with nRefCount := 0, fInTried := true }))) old
        (some (π { infoOld with fInTried := false, nRefCount := 1 })) :=
    fun π => proj_exchanged π bucketed known knownOld apart
  have newList : (s.exchanged id old bucket vTried pos room).newContents = old ::ₘ (s.unlisted id).newContents :=
    newContents_insert outside rfl
  have refs' : (s.exchanged id old bucket vTried pos room).refs = update (update s.refs id 0) old 1 := by
    funext other
    rw [refs, entries]
    by_cases isOld : other = old
    · rw [isOld, update_self, update_self, Option.getD_some]
    · rw [update_of_ne isOld, update_of_ne isOld]
      by_cases same : other = id
      · rw [same, update_self, update_self, Option.getD_some]
      · rw [update_of_ne same, update_of_ne same, refs]
  have inTried' : (s.exchanged id old bucket vTried pos room).inTried =
      update (update s.inTried id true) old false := by
    funext other
    rw [inTried, entries]
    by_cases isOld : other = old
    · rw [isOld, update_self, update_self, Option.getD_some]
    · rw [update_of_ne isOld, update_of_ne isOld]
      by_cases same : other = id
      · rw [same, update_self, update_self, Option.getD_some]
      · rw [update_of_ne same, update_of_ne same, inTried]
  have length : (s.exchanged id old bucket vTried pos room).triedContents.card = s.triedContents.card := by
    have cards := congrArg Multiset.card contents
    rw [Multiset.card_cons, Multiset.card_cons] at cards
    omega
  refine ⟨?_, ⟨fun other => ?_, fun other => ?_, ?_, ?_, ?_⟩, ⟨fun other => ?_, fun other => ?_⟩⟩
  · have moved : ((s.unlisted id).modify old fun info => { info with fInTried := false, nRefCount := 1 }).Indexed :=
      (indexed.unlisted id).modify (fun _ => rfl) fun _ => rfl
    have both : (((s.unlisted id).modify old fun info => { info with fInTried := false, nRefCount := 1 }).modify id
        fun info => { info with fInTried := true }).Indexed := moved.modify (fun _ => rfl) fun _ => rfl
    exact ⟨both.idCount, both.fresh, both.addresses, both.places⟩
  · have before := bucketed.new other
    have beforeOld := bucketed.new old
    rw [newList, Multiset.count_cons, count_unlisted, refs']
    rw [Bucketed.refs_of_known knownOld, ((bucketed.entry old infoOld knownOld).tried isTried).1] at beforeOld
    by_cases isOld : other = old
    · subst isOld
      rw [if_pos rfl, if_neg apart.symm, update_self]
      push_cast
      omega
    · rw [if_neg isOld, update_of_ne isOld, add_zero]
      by_cases same : other = id
      · rw [same, if_pos rfl, update_self]
        rfl
      · rw [if_neg same, update_of_ne same]
        exact before
  · have before := bucketed.tried other
    have whole := congrArg (Multiset.count other) contents
    rw [Multiset.count_cons, Multiset.count_cons, before] at whole
    rw [inTried']
    by_cases isOld : other = old
    · subst isOld
      rw [if_pos rfl, Bucketed.inTried_of_known knownOld, isTried, if_pos rfl, if_neg apart.symm] at whole
      rw [update_self, if_neg Bool.false_ne_true]
      omega
    · rw [if_neg isOld, add_zero] at whole
      rw [update_of_ne isOld, whole]
      by_cases same : other = id
      · rw [same, Bucketed.inTried_of_known known, isNew, update_self, if_pos rfl, if_pos rfl,
          if_neg Bool.false_ne_true]
      · rw [if_neg same, update_of_ne same, add_zero]
  · intro other entry found
    have here := congrFun (entries fun info => info) other
    rw [proj_of_known _ found] at here
    by_cases isOld : other = old
    · rw [isOld, update_self] at here
      obtain rfl := Option.some.inj here
      have sound := bucketed.entry old infoOld knownOld
      exact ⟨(fun tried => by cases tried), fun _ => ⟨le_rfl, show (1 : Int) ≤ newBucketsPerAddress by decide⟩,
        sound.nLastSuccess, sound.nLastTry⟩
    · rw [update_of_ne isOld] at here
      by_cases same : other = id
      · rw [same, update_self] at here
        obtain rfl := Option.some.inj here
        have sound := bucketed.entry id info known
        exact ⟨fun _ => ⟨rfl, good⟩, (fun isNew => by cases isNew), sound.nLastSuccess, sound.nLastTry⟩
      · rw [update_of_ne same] at here
        obtain ⟨was, there, rfl⟩ := proj_eq_some_iff.mp here.symm
        exact bucketed.entry other was there
  · rw [length]
    exact bucketed.nTried
  · have total := bucketed.total
    change s.nTried + (s.nNew - 1 + 1) = s.vRandom.length
    omega
  · change (update (s.unlisted id).vvNew room (insert old ((s.unlisted id).vvNew room)) other).card ≤ _
    by_cases same : other = room
    · rw [same, update_self, Finset.card_insert_of_notMem outside]
      exact place
    · rw [update_of_ne same]
      exact Finset.card_erase_le.trans (limited.new other)
  · rw [vvTried_exchanged]
    by_cases same : other = bucket
    · rw [same, update_self, List.length_set, perm.length_eq]
      exact limited.tried bucket
    · rw [update_of_ne same]
      exact limited.tried other

end Full

/-- Every entry of a tried bucket is known. -/
theorem Bucketed.known_of_tried {owed : Int → Int} (bucketed : Bucketed dated owed s)
    {bucket : Fin triedBucketCount} (member : id ∈ s.vvTried bucket) : ∃ info, s.mapInfo[id]? = some info := by
  have held : 0 < s.triedContents.count id := by
    rw [Multiset.count_pos, triedContents, mem_contents]
    exact ⟨bucket, member⟩
  rw [bucketed.tried id] at held
  cases known : s.mapInfo[id]? with
  | some info => exact ⟨info, rfl⟩
  | none =>
      rw [inTried, proj, known, Option.map_none, Option.getD_none] at held
      exact absurd held (lt_irrefl 0)

/-- There is room for the old entry, because the good one has just left the bucket that it came from. -/
theorem evictTried_spec (hash64 : Bytes → UInt64) (consistent : Consistent dated s)
    (known : s.mapInfo[id]? = some info) (isNew : info.fInTried = false) (good : 0 < info.nLastSuccess)
    {nOrigin : Fin newBucketCount} (member : id ∈ s.vvNew nOrigin) {bucket : Fin triedBucketCount}
    (full : ¬ (s.vvTried bucket).length < triedBucketSize) (chance : Chance) :
    ∃ s', (s.unlisted id).evictTried hash64 id bucket nOrigin chance = some s' ∧ Consistent dated s' ∧
      s'.nIdCount = s.nIdCount := by
  have still : ∀ old ∈ s.vvTried bucket, ∃ infoOld,
      s.mapInfo[old]? = some infoOld ∧ (s.unlisted id).mapInfo[old]? = some infoOld := by
    intro old member
    obtain ⟨infoOld, there⟩ := consistent.bucketed.known_of_tried member
    have apart : id ≠ old := by
      rintro rfl
      rw [known] at there
      cases there
      exact Bool.false_ne_true (isNew.symm.trans (consistent.bucketed.inTried_of_mem bucket known member))
    refine ⟨infoOld, there, (getElem?_modify s id old _).trans ?_⟩
    rw [if_neg apart, there]
  have occupied : (s.unlisted id).vvTried bucket ≠ [] := by
    intro empty
    change s.vvTried bucket = [] at empty
    rw [empty] at full
    exact full (Nat.zero_lt_succ _)
  obtain ⟨pos, vTried, selected, perm, range⟩ := selectTried_spec (s := s.unlisted id)
    (fun old member => (still old member).imp fun _ found => found.2) occupied chance 1
  obtain ⟨infoOld, knownOld, stillOld⟩ := still _ (perm.subset (List.getElem_mem range))
  have place : ∀ own : Fin newBucketCount, ((s.unlisted id).vvNew
      (if ((s.unlisted id).vvNew own).card < newBucketSize then own else nOrigin)).card < newBucketSize := by
    intro own
    split_ifs with here
    · exact here
    · exact lt_of_lt_of_le (Finset.card_erase_lt_of_mem member) (consistent.limited.new nOrigin)
  refine ⟨_, ?_, consistent.exchanged known isNew good perm range knownOld
    (place (infoOld.getNewBucket hash64 s.nKey infoOld.source)), rfl⟩
  simp only [evictTried, selected, Option.bind_eq_bind, Option.bind_some, update_self, slot_natCast,
    List.getElem?_eq_getElem range, stillOld, Int.toNat_natCast]
  rfl

/-- `MakeTried` of a new entry that has just proved good. -/
theorem makeTried_spec (hash64 : Bytes → UInt64) (consistent : Consistent dated s)
    (known : s.mapInfo[id]? = some info) (isNew : info.fInTried = false) (good : 0 < info.nLastSuccess)
    {nOrigin : Fin newBucketCount} (member : id ∈ s.vvNew nOrigin) (chance : Chance) :
    ∃ s', s.makeTried hash64 id nOrigin chance = some s' ∧ Consistent dated s' ∧ s'.nIdCount = s.nIdCount := by
  have bucketed := consistent.bucketed
  have unfolded : s.makeTried hash64 id nOrigin chance =
      if (s.vvTried (info.getTriedBucket hash64 s.nKey)).length < triedBucketSize then
        some (s.promoted id (info.getTriedBucket hash64 s.nKey))
      else (s.unlisted id).evictTried hash64 id (info.getTriedBucket hash64 s.nKey) nOrigin chance := by
    simp only [makeTried, member, guard, if_true, Option.pure_def, Option.bind_eq_bind, Option.bind_some,
      getElem?_unlisted bucketed known]
    rfl
  rw [unfolded]
  split_ifs with room
  · exact ⟨_, rfl, consistent.promoted known isNew good room, rfl⟩
  · exact evictTried_spec hash64 consistent known isNew good member room chance

/-! ## The calls -/

/-- `Good_` at a time that is positive. -/
theorem good_spec (hash64 : Bytes → UInt64) (consistent : Consistent dated s) (addr : CService) {nTime : Int64}
    (positive : 0 < nTime) (chance : Chance) :
    ∃ s', s.good hash64 addr nTime chance = some s' ∧ Consistent dated s' ∧ s'.nIdCount = s.nIdCount := by
  rw [good]
  cases found : s.find addr.toCNetAddr with
  | none => exact ⟨s, rfl, consistent, rfl⟩
  | some entry =>
      obtain ⟨id, info⟩ := entry
      obtain ⟨known, -⟩ := consistent.indexed.find_eq.mp found
      obtain ⟨f, fDef⟩ : ∃ f : CAddrInfo → CAddrInfo, (fun info => { info with
        nLastSuccess := nTime, nLastTry := nTime, nTime := nTime.toUInt64.toUInt32, nAttempts := 0 }) = f := ⟨_, rfl⟩
      have updated : Consistent dated (s.modify id f) := by
        subst fDef
        exact consistent.modify (fun _ => rfl) (fun _ => rfl) (fun _ => rfl) (fun _ => rfl) fun info _ sound =>
          ⟨fun tried => ⟨(sound.tried tried).1, positive⟩, sound.new, Int64.le_of_lt positive,
            fun _ => Int64.le_of_lt positive⟩
      have known' : (s.modify id f).mapInfo[id]? = some (f info) := getElem?_modify_self known
      have isGood : 0 < (f info).nLastSuccess := by
        subst fDef
        exact positive
      have inTried : (f info).fInTried = info.fInTried := by
        subst fDef
        rfl
      simp only [fDef]
      split_ifs with otherPort isTried
      · exact ⟨s, rfl, consistent, rfl⟩
      · exact ⟨_, rfl, updated, rfl⟩
      · split
        · exact ⟨_, rfl, updated, rfl⟩
        · rename_i n searched
          have holds := List.find?_some searched
          have member : id ∈ (s.modify id f).vvNew (bucketFrom (chance.getRandInt 0 newBucketCount) n) :=
            of_decide_eq_true holds
          exact makeTried_spec hash64 updated known' (inTried.trans (Bool.eq_false_iff.mpr isTried)) isGood member
            chance

theorem attempt_spec (consistent : Consistent dated s) (addr : CService) {nTime : Int64}
    (isDated : dated → 0 ≤ nTime) :
    Consistent dated (s.attempt addr nTime) ∧ (s.attempt addr nTime).nIdCount = s.nIdCount := by
  rw [attempt]
  split
  · exact ⟨consistent, rfl⟩
  · split_ifs
    · exact ⟨consistent, rfl⟩
    · refine ⟨consistent.modify (fun _ => rfl) (fun _ => rfl) (fun _ => rfl) (fun _ => rfl) fun info _ sound => ?_, rfl⟩
      exact ⟨sound.tried, sound.new, sound.nLastSuccess, isDated⟩

theorem connected_spec (consistent : Consistent dated s) (addr : CService) (nTime : Int64) :
    Consistent dated (s.connected addr nTime) ∧ (s.connected addr nTime).nIdCount = s.nIdCount := by
  rw [connected]
  split
  · exact ⟨consistent, rfl⟩
  · simp only
    split_ifs
    · exact ⟨consistent, rfl⟩
    · refine ⟨consistent.modify (fun _ => rfl) (fun _ => rfl) (fun _ => rfl) (fun _ => rfl) fun info _ sound => ?_, rfl⟩
      exact ⟨sound.tried, sound.new, sound.nLastSuccess, sound.nLastTry⟩
    · exact ⟨consistent, rfl⟩

theorem drawAddress_spec (consistent : Consistent dated s) (vAddr : List CAddress) (chance : Chance) {n : Nat}
    (range : n < s.vRandom.length) :
    ∃ vAddr' s', drawAddress chance (vAddr, s) n = some (vAddr', s') ∧ Consistent dated s' ∧
      s'.nIdCount = s.nIdCount ∧ s'.vRandom.length = s.vRandom.length := by
  obtain ⟨indexed, bucketed, limited⟩ := consistent
  have drawn : chance.getRandInt n (s.vRandom.length - n) < s.vRandom.length - n := by
    rw [Chance.getRandInt, if_neg (by omega)]
    exact Nat.mod_lt _ (by omega)
  obtain ⟨s', swap, indexed', reordered, -⟩ := indexed.swapRandom range
    (show chance.getRandInt n (s.vRandom.length - n) + n < s.vRandom.length by omega)
  have still : n < s'.vRandom.length := by rw [reordered.length]; exact range
  obtain ⟨info, known, -⟩ := indexed'.entry (List.getElem?_eq_getElem still)
  refine ⟨vAddr ++ [info.toCAddress], s', ?_, ⟨indexed', bucketed.of_reordered reordered,
    ⟨by rw [reordered.vvNew]; exact limited.new, by rw [reordered.vvTried]; exact limited.tried⟩⟩,
    reordered.nIdCount, reordered.length⟩
  simp only [drawAddress, swap, Option.bind_eq_bind, Option.bind_some, List.getElem?_eq_getElem still, known]
  rfl

/-- `GetAddr_` shuffles positions only. -/
theorem getAddr_spec (consistent : Consistent dated s) (chance : Chance) :
    ∃ vAddr s', s.getAddr chance = some (vAddr, s') ∧ Consistent dated s' ∧ s'.nIdCount = s.nIdCount := by
  have loop : ∀ indexes : List Nat, ∀ (vAddr : List CAddress) (s : CAddrMan), Consistent dated s →
      (∀ n ∈ indexes, n < s.vRandom.length) → ∃ vAddr' s',
        indexes.foldlM (drawAddress chance) (vAddr, s) = some (vAddr', s') ∧ Consistent dated s' ∧
          s'.nIdCount = s.nIdCount := by
    intro indexes
    induction indexes with
    | nil => exact fun vAddr s consistent _ => ⟨vAddr, s, rfl, consistent, rfl⟩
    | cons n rest ih =>
        intro vAddr s consistent range
        obtain ⟨vAddr₁, s₁, drawn, consistent₁, nIdCount₁, length⟩ :=
          drawAddress_spec consistent vAddr chance (range n List.mem_cons_self)
        obtain ⟨vAddr₂, s₂, done, consistent₂, nIdCount₂⟩ := ih vAddr₁ s₁ consistent₁ fun m member => by
          rw [length]
          exact range m (List.mem_cons_of_mem _ member)
        exact ⟨vAddr₂, s₂, by rw [List.foldlM_cons, drawn]; exact done, consistent₂, nIdCount₂.trans nIdCount₁⟩
  refine loop _ [] s consistent fun n member => ?_
  have range := List.mem_range.mp member
  rw [getAddrMaxPct, getAddrMax] at range
  omega

end CAddrMan

end InfiniteRicks
