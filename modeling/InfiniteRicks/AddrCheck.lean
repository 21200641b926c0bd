import InfiniteRicks.AddrTried

/-!
# `Check_`

The consistency check of `CAddrMan` (`addrman.cpp`), what it is that it checks, and that it
finds nothing wrong after any sequence of calls.
-/

namespace InfiniteRicks

open Function Library Library.Tables

namespace CAddrMan

/-- What `Check_` asks of an entry, and of its last attempt where all attempts were `dated`. -/
structure EntryChecked (dated : Prop) (s : CAddrMan) (id : Int) (info : CAddrInfo) : Prop where
  tried : info.fInTried = true → info.nLastSuccess ≠ 0 ∧ info.nRefCount = 0
  new : info.fInTried = false → 1 ≤ info.nRefCount ∧ info.nRefCount ≤ newBucketsPerAddress
  address : s.mapAddr[info.toCNetAddr]?.getD 0 = id
  place : slot s.vRandom info.nRandomPos = some id
  nLastTry : dated → 0 ≤ info.nLastTry
  nLastSuccess : 0 ≤ info.nLastSuccess

/-- What `Check_` asks of the state. -/
structure Checked (dated : Prop) (s : CAddrMan) : Prop where
  total : (s.vRandom.length : Int) = s.nTried + s.nNew
  entry : ∀ id info, s.mapInfo[id]? = some info → EntryChecked dated s id info
  nTried : (s.setTried.card : Int) = s.nTried
  nNew : (s.mapNew.size : Int) = s.nNew
  tried : ∀ id, s.triedContents.count id = if id ∈ s.setTried then 1 else 0
  new : ∀ id, (s.newContents.count id : Int) = s.mapNew[id]?.getD 0

variable {s : CAddrMan} {id : Int} {info : CAddrInfo}

theorem entryError_eq_none_iff : s.entryError id info = none ↔ EntryChecked True s id info := by
  constructor
  · intro passed
    rw [entryError] at passed
    split_ifs at passed with noSuccess counted range unreferenced address place nLastTry nLastSuccess
    refine ⟨fun tried => ⟨fun zero => noSuccess ⟨tried, zero⟩, by_contra fun some => counted ⟨tried, some⟩⟩,
      fun isNew => ?_, not_not.mp address, not_not.mp place, fun _ => Int64.not_lt.mp nLastTry, Int64.not_lt.mp nLastSuccess⟩
    have notTried : ¬ info.fInTried = true := Bool.eq_false_iff.mp isNew
    have some : ¬ info.nRefCount = 0 := fun zero => unreferenced ⟨notTried, zero⟩
    have within : ¬ (info.nRefCount < 0 ∨ newBucketsPerAddress < info.nRefCount) := fun outside =>
      range ⟨notTried, outside⟩
    omega
  · intro checked
    have isNew : ¬ info.fInTried = true → 1 ≤ info.nRefCount ∧ info.nRefCount ≤ newBucketsPerAddress :=
      fun notTried => checked.new (Bool.eq_false_iff.mpr notTried)
    rw [entryError, if_neg fun wrong => (checked.tried wrong.1).1 wrong.2,
      if_neg fun wrong => wrong.2 (checked.tried wrong.1).2,
      if_neg fun wrong => by have bounds := isNew wrong.1; omega,
      if_neg fun wrong => by have bounds := isNew wrong.1; omega, if_neg (not_not.mpr checked.address),
      if_neg (not_not.mpr checked.place), if_neg (Int64.not_lt.mpr (checked.nLastTry trivial)),
      if_neg (Int64.not_lt.mpr checked.nLastSuccess)]

theorem mem_setTried : id ∈ s.setTried ↔ ∃ info, s.mapInfo[id]? = some info ∧ info.fInTried = true := by
  rw [setTried, List.mem_toFinset, List.mem_map]
  constructor
  · rintro ⟨⟨n, info⟩, member, rfl⟩
    obtain ⟨listed, tried⟩ := List.mem_filter.mp member
    exact ⟨info, Std.ExtTreeMap.mem_toList_iff_getElem?_eq_some.mp listed, tried⟩
  · rintro ⟨info, known, tried⟩
    exact ⟨(id, info), List.mem_filter.mpr ⟨Std.ExtTreeMap.mem_toList_iff_getElem?_eq_some.mpr known, tried⟩, rfl⟩

theorem mem_setTried_iff_inTried : id ∈ s.setTried ↔ s.inTried id = true := by
  rw [mem_setTried, inTried]
  cases known : s.mapInfo[id]? with
  | none =>
      rw [proj, known]
      exact iff_of_false (fun held => by obtain ⟨_, found, _⟩ := held; cases found) Bool.false_ne_true
  | some info =>
      rw [proj_of_known _ known, Option.getD_some]
      refine ⟨fun held => ?_, fun tried => ⟨info, rfl, tried⟩⟩
      obtain ⟨_, found, tried⟩ := held
      exact Option.some.inj found ▸ tried

theorem getElem?_mapNew : s.mapNew[id]? =
    s.mapInfo[id]?.bind fun info => if info.fInTried then none else some info.nRefCount := by
  rw [mapNew, Std.ExtTreeMap.getElem?_filterMap']

/-! ## Crossing off -/

/-- All of a set is crossed off by a list of its elements. -/
theorem crossTried_iff (ids : List Int) (set : Finset Int) :
    (∃ rest, ids.foldlM crossTried set = some rest ∧ rest.card = 0) ↔
      ∀ id, ids.count id = if id ∈ set then 1 else 0 := by
  induction ids generalizing set with
  | nil =>
      constructor
      · rintro ⟨rest, same, empty⟩ id
        cases same
        rw [Finset.card_eq_zero.mp empty]
        rfl
      · intro counts
        refine ⟨set, rfl, Finset.card_eq_zero.mpr (Finset.eq_empty_of_forall_notMem fun id member => ?_)⟩
        have here := counts id
        rw [if_pos member] at here
        cases here
  | cons first rest ih =>
      rw [List.foldlM_cons, crossTried]
      by_cases member : first ∈ set
      · rw [if_pos member]
        refine (ih (set.erase first)).trans (forall_congr' fun id => ?_)
        rw [List.count_cons]
        by_cases same : first = id
        · subst same
          rw [if_neg (Finset.notMem_erase first set), if_pos member, if_pos (beq_self_eq_true first)]
          omega
        · rw [if_neg (fun equal => same (beq_iff_eq.mp equal)), add_zero]
          simp only [Finset.mem_erase, ne_eq, Ne.symm same, not_false_eq_true, true_and]
      · rw [if_neg member]
        constructor
        · rintro ⟨rest, wrong, -⟩
          cases wrong
        · intro counts
          have here := counts first
          rw [if_neg member, List.count_cons_self] at here
          cases here

theorem getElem?_crossNew (map : Std.ExtTreeMap Int Int compare) {first references : Int}
    (positive : 1 ≤ references) (found : map[first]? = some references) :
    ∃ next, crossNew map first = some next ∧ (∀ id value, next[id]? = some value → id = first ∧ value = references - 1 ∧ 1 ≤ value ∨
      id ≠ first ∧ map[id]? = some value) ∧
      ∀ id, next[id]?.getD 0 = map[id]?.getD 0 - if first = id then 1 else 0 := by
  rw [crossNew]
  simp only [Option.bind_eq_bind, found, Option.bind_some]
  refine ⟨_, rfl, ?_⟩
  split_ifs with last
  · constructor
    · intro id value there
      rw [Std.ExtTreeMap.getElem?_erase] at there
      split_ifs at there with same
      exact .inr ⟨fun equal => same (equal ▸ Std.ReflCmp.compare_self), there⟩
    · intro id
      rw [Std.ExtTreeMap.getElem?_erase]
      by_cases same : first = id
      · subst same
        rw [if_pos Std.ReflCmp.compare_self, if_pos rfl, found]
        simp only [Option.getD_none, Option.getD_some]
        omega
      · rw [if_neg (fun equal => same (Std.LawfulEqCmp.eq_of_compare equal)), if_neg same, sub_zero]
  · constructor
    · intro id value there
      rw [Std.ExtTreeMap.getElem?_insert] at there
      split_ifs at there with same
      · have equal := Std.LawfulEqCmp.eq_of_compare same
        cases there
        exact .inl ⟨equal.symm, rfl, by omega⟩
      · exact .inr ⟨fun equal => same (equal ▸ Std.ReflCmp.compare_self), there⟩
    · intro id
      rw [Std.ExtTreeMap.getElem?_insert]
      by_cases same : first = id
      · subst same
        rw [if_pos Std.ReflCmp.compare_self, if_pos rfl, found]
        rfl
      · rw [if_neg (fun equal => same (Std.LawfulEqCmp.eq_of_compare equal)), if_neg same, sub_zero]

/-- All references of a map are crossed off by a list that has each id as often as it has references. -/
theorem crossNew_iff (ids : List Int) (map : Std.ExtTreeMap Int Int compare)
    (positive : ∀ (id : Int) (references : Int), map[id]? = some references → 1 ≤ references) :
    (∃ rest, ids.foldlM crossNew map = some rest ∧ rest.size = 0) ↔
      ∀ id, (ids.count id : Int) = map[id]?.getD 0 := by
  induction ids generalizing map with
  | nil =>
      constructor
      · rintro ⟨rest, same, empty⟩ id
        cases same
        have gone : map[id]? = none := by
          rw [Std.ExtTreeMap.eq_empty_iff_size_eq_zero.mpr empty]
          exact Std.ExtTreeMap.getElem?_empty
        rw [gone]
        rfl
      · intro counts
        refine ⟨map, rfl, ?_⟩
        rw [← Std.ExtTreeMap.eq_empty_iff_size_eq_zero]
        refine Std.ExtTreeMap.ext_getElem? fun id => ?_
        have here := counts id
        rw [Std.ExtTreeMap.getElem?_empty]
        cases found : map[id]? with
        | none => rfl
        | some references =>
            have some := positive id references found
            rw [found, Option.getD_some, List.count_nil] at here
            omega
  | cons first rest ih =>
      rw [List.foldlM_cons]
      cases found : map[first]? with
      | none =>
          have failed : crossNew map first = none := by
            rw [crossNew, found]
            rfl
          rw [failed]
          constructor
          · rintro ⟨rest, wrong, -⟩
            cases wrong
          · intro counts
            have here := counts first
            rw [found, Option.getD_none, List.count_cons_self] at here
            omega
      | some references =>
          obtain ⟨next, crossed, entries, counted⟩ := getElem?_crossNew map (positive first references found) found
          rw [crossed]
          refine (ih next fun id value there => ?_).trans (forall_congr' fun id => ?_)
          · rcases entries id value there with ⟨-, -, some⟩ | ⟨-, was⟩
            · exact some
            · exact positive id value was
          · rw [counted, List.count_cons]
            by_cases same : first = id
            · rw [if_pos same, if_pos (beq_iff_eq.mpr same)]
              push_cast
              omega
            · rw [if_neg same, if_neg (fun equal => same (beq_iff_eq.mp equal)), add_zero, sub_zero]

/-! ## What `Check_` finds -/

theorem coe_vvTried (s : CAddrMan) :
    (((List.finRange triedBucketCount).flatMap s.vvTried : List Int) : Multiset Int) = s.triedContents :=
  (contents_eq_coe s.vvTried).symm

theorem coe_vvNew (s : CAddrMan) :
    (((List.finRange newBucketCount).flatMap fun bucket => (s.vvNew bucket).sort (· ≤ ·) : List Int) :
      Multiset Int) = s.newContents := by
  rw [← contents_eq_coe, newContents]
  exact congrArg contents (funext fun bucket => Finset.sort_eq _ _)

theorem checkBuckets_eq_zero_iff (checked : ∀ id info, s.mapInfo[id]? = some info → EntryChecked True s id info) :
    s.checkBuckets = 0 ↔ (∀ id, s.triedContents.count id = if id ∈ s.setTried then 1 else 0) ∧
      ∀ id, (s.newContents.count id : Int) = s.mapNew[id]?.getD 0 := by
  have tried := crossTried_iff ((List.finRange triedBucketCount).flatMap s.vvTried) s.setTried
  have new := crossNew_iff ((List.finRange newBucketCount).flatMap fun bucket => (s.vvNew bucket).sort (· ≤ ·))
    s.mapNew fun id references found => by
      rw [getElem?_mapNew] at found
      obtain ⟨info, known, here⟩ := Option.bind_eq_some_iff.mp found
      split_ifs at here with isTried
      cases here
      exact ((checked id info known).new (Bool.eq_false_iff.mpr isTried)).1
  simp only [← Multiset.coe_count, coe_vvTried] at tried
  simp only [← Multiset.coe_count, coe_vvNew] at new
  rw [← tried, ← new, checkBuckets]
  cases ((List.finRange triedBucketCount).flatMap s.vvTried).foldlM crossTried s.setTried with
  | none => exact iff_of_false (fun wrong => by cases wrong) fun left => by obtain ⟨⟨_, wrong, _⟩, _⟩ := left; cases wrong
  | some setTried =>
      cases ((List.finRange newBucketCount).flatMap fun bucket => (s.vvNew bucket).sort (· ≤ ·)).foldlM crossNew
          s.mapNew with
      | none => exact iff_of_false (fun wrong => by cases wrong) fun left => by obtain ⟨_, _, wrong, _⟩ := left; cases wrong
      | some mapNew =>
          simp only [Option.some.injEq, exists_eq_left']
          split_ifs with triedLeft newLeft
          · exact iff_of_false (fun wrong => by cases wrong) fun empty => triedLeft empty.1
          · exact iff_of_false (fun wrong => by cases wrong) fun empty => newLeft empty.2
          · exact ⟨fun _ => ⟨not_not.mp triedLeft, not_not.mp newLeft⟩, fun _ => rfl⟩

theorem entryError_ne_zero {code : Int} (found : s.entryError id info = some code) : code ≠ 0 := by
  rw [entryError] at found
  split_ifs at found <;> cases found <;> decide

/-- `Check_` returns 0 just where all that it asks holds. -/
theorem check_eq_zero_iff : s.check_ = 0 ↔ Checked True s := by
  have entries : (s.mapInfo.toList.findSome? fun entry => s.entryError entry.1 entry.2) = none ↔
      ∀ id info, s.mapInfo[id]? = some info → EntryChecked True s id info := by
    rw [List.findSome?_eq_none_iff]
    constructor
    · intro passed id info known
      exact entryError_eq_none_iff.mp (passed (id, info) (Std.ExtTreeMap.mem_toList_iff_getElem?_eq_some.mpr known))
    · intro checked entry member
      exact entryError_eq_none_iff.mpr
        (checked entry.1 entry.2 (Std.ExtTreeMap.mem_toList_iff_getElem?_eq_some.mp member))
  constructor
  · intro passed
    have total : (s.vRandom.length : Int) = s.nTried + s.nNew := by
      by_contra apart
      rw [check_, if_pos apart] at passed
      cases passed
    rw [check_, if_neg (not_not.mpr total)] at passed
    cases found : s.mapInfo.toList.findSome? fun entry => s.entryError entry.1 entry.2 with
    | some code =>
        simp only [found] at passed
        obtain ⟨entry, -, wrong⟩ := List.exists_of_findSome?_eq_some found
        exact absurd passed (entryError_ne_zero wrong)
    | none =>
        simp only [found] at passed
        split_ifs at passed with nTried nNew
        have checked := entries.mp found
        obtain ⟨tried, new⟩ := (checkBuckets_eq_zero_iff checked).mp passed
        exact ⟨total, checked, not_not.mp nTried, not_not.mp nNew, tried, new⟩
  · intro checked
    simp only [check_, if_neg (not_not.mpr checked.total), entries.mpr checked.entry,
      if_neg (not_not.mpr checked.nTried), if_neg (not_not.mpr checked.nNew)]
    exact (checkBuckets_eq_zero_iff checked.entry).mpr ⟨checked.tried, checked.new⟩

/-! ## After any calls -/

section Sizes

variable {dated : Prop}

theorem Indexed.vRandom_perm (indexed : s.Indexed) : s.vRandom.Perm s.mapInfo.keys := by
  refine (List.perm_ext_iff_of_nodup ?_ Std.ExtTreeMap.nodup_keys).mpr fun id => ?_
  · rw [List.nodup_iff_getElem?_ne_getElem?]
    intro i j before range same
    obtain ⟨a, left⟩ : ∃ a, s.vRandom[i]? = some a := ⟨_, List.getElem?_eq_getElem (before.trans range)⟩
    obtain ⟨info, known, place⟩ := indexed.entry left
    obtain ⟨info', known', place'⟩ := indexed.entry (same ▸ left)
    rw [known] at known'
    cases known'
    omega
  · rw [Std.ExtTreeMap.mem_keys, Std.ExtTreeMap.mem_iff_isSome_getElem?, Option.isSome_iff_exists]
    constructor
    · intro member
      obtain ⟨index, found⟩ := List.mem_iff_getElem?.mp member
      exact (indexed.entry found).imp fun _ entry => entry.1
    · rintro ⟨info, known⟩
      obtain ⟨index, -, found⟩ := indexed.position known
      exact List.mem_of_getElem? found

/-- Every entry is a tried one or a new one. -/
theorem card_setTried_add_size_mapNew (s : CAddrMan) : s.setTried.card + s.mapNew.size = s.mapInfo.size := by
  have distinct : ((s.mapInfo.toList.filter fun entry => entry.2.fInTried).map Prod.fst).Nodup := by
    have all : (s.mapInfo.toList.map Prod.fst).Nodup := by
      rw [Std.ExtTreeMap.map_fst_toList_eq_keys]
      exact Std.ExtTreeMap.nodup_keys
    exact all.sublist (List.filter_sublist.map Prod.fst)
  rw [setTried, List.toFinset_card_of_nodup distinct, List.length_map, mapNew, ← Std.ExtTreeMap.length_toList,
    Std.ExtTreeMap.toList_filterMap, ← Std.ExtTreeMap.length_toList]
  induction s.mapInfo.toList with
  | nil => rfl
  | cons entry rest ih =>
      rw [List.length_cons, ← ih]
      cases tried : entry.2.fInTried with
      | true => simp only [List.filter_cons, List.filterMap_cons, tried, if_true, Option.map_none, List.length_cons]; omega
      | false =>
          simp only [List.filter_cons, List.filterMap_cons, tried, Bool.false_eq_true, if_false, Option.map_some,
            List.length_cons]
          omega

theorem Bucketed.triedContents_eq (bucketed : Bucketed dated (fun _ => 0) s) : s.triedContents = s.setTried.val := by
  refine Multiset.ext.mpr fun id => ?_
  rw [bucketed.tried id, Multiset.count_eq_of_nodup s.setTried.nodup]
  exact if_congr mem_setTried_iff_inTried.symm rfl rfl

/-- Where the indexes agree and the references are counted, all is as `Check_` asks. -/
theorem Indexed.checked (indexed : s.Indexed) (bucketed : Bucketed dated (fun _ => 0) s) : Checked dated s := by
  have nTried : (s.setTried.card : Int) = s.nTried := by
    rw [bucketed.nTried, bucketed.triedContents_eq]
    rfl
  refine ⟨bucketed.total.symm, fun id info known => ?_, nTried, ?_, fun id => ?_, fun id => ?_⟩
  · have sound := bucketed.entry id info known
    refine ⟨fun tried => ⟨fun zero => ?_, (sound.tried tried).1⟩, sound.new, ?_, ?_, sound.nLastTry,
      sound.nLastSuccess⟩
    · have positive := (sound.tried tried).2
      rw [zero] at positive
      exact Int64.lt_irrefl positive
    · rw [indexed.lookup known, Option.getD_some]
    · exact (indexed.places id _).mp (proj_of_known _ known)
  · have sizes := card_setTried_add_size_mapNew s
    have length := indexed.vRandom_perm.length_eq
    rw [Std.ExtTreeMap.length_keys] at length
    have total := bucketed.total
    omega
  · rw [bucketed.tried id]
    exact if_congr mem_setTried_iff_inTried.symm rfl rfl
  · have references := bucketed.new id
    rw [add_zero] at references
    rw [references, getElem?_mapNew, refs, proj]
    cases known : s.mapInfo[id]? with
    | none => rfl
    | some info =>
        rw [Option.map_some, Option.getD_some, Option.bind_some]
        split_ifs with tried
        · exact ((bucketed.entry id info known).tried tried).1
        · rfl

/-- What holds between two calls is what `Check_` asks. -/
theorem Consistent.checked (consistent : Consistent dated s) : Checked dated s :=
  consistent.indexed.checked consistent.bucketed

theorem consistent_empty (dated : Prop) (nKey : Bytes) : Consistent dated (empty nKey) := by
  have nothing : ∀ {δ : Type} (π : CAddrInfo → δ) (id : Int), proj π (empty nKey) id = none := by
    intro δ π id
    rw [proj, empty, Std.ExtTreeMap.getElem?_empty, Option.map_none]
  have absent : ∀ (id : Int) (info : CAddrInfo), (empty nKey).mapInfo[id]? ≠ some info := by
    intro id info known
    rw [empty, Std.ExtTreeMap.getElem?_empty] at known
    cases known
  have noNew : (empty nKey).newContents = 0 := contents_eq_zero _ fun _ => rfl
  have noTried : (empty nKey).triedContents = 0 := contents_eq_zero _ fun _ => rfl
  refine ⟨⟨le_rfl, fun id info known => absurd known (absent id info), fun id addr => ?_, fun id pos => ?_⟩,
    ⟨fun id => ?_, fun id => ?_, fun id info known => absurd known (absent id info), ?_, rfl⟩,
    ⟨fun bucket => ?_, fun bucket => ?_⟩⟩
  · have unlisted : (empty nKey).mapAddr[addr]? = none := Std.ExtTreeMap.getElem?_empty
    simp only [nothing, unlisted]
    exact iff_of_false (fun wrong => by cases wrong) fun wrong => by cases wrong
  · rw [nothing, empty, slot]
    refine ⟨(fun wrong => by cases wrong), fun wrong => ?_⟩
    split_ifs at wrong
    rw [List.getElem?_nil] at wrong
    cases wrong
  · rw [noNew, refs, nothing]
    rfl
  · rw [noTried, inTried, nothing]
    rfl
  · rw [noTried]
    rfl
  · rw [empty, Finset.card_empty]
    exact Nat.zero_le _
  · rw [empty, List.length_nil]
    exact Nat.zero_le _

/-- `Good_` is called with times that are positive. -/
def Call.Timely : Call → Prop
  | .good _ nTime _ => 0 < nTime
  | _ => True

/-- A call of `Attempt_` is at a time that is not negative. -/
def Call.Dated : Call → Prop
  | .attempt _ nTime => 0 ≤ nTime
  | _ => True

/-- A call of `Add_`, which may use up an id. -/
def Call.isAdd : Call → Bool
  | .add .. => true
  | _ => false

/-- A call keeps all that holds between two calls. -/
theorem step_spec (hash64 : Bytes → UInt64) (consistent : Consistent dated s) {call : Call} (timely : call.Timely)
    (isDated : dated → call.Dated) (room : call.isAdd = true → s.nIdCount < 2 ^ 31 - 1) :
    ∃ s', s.step hash64 call = some s' ∧ Consistent dated s' ∧
      s'.nIdCount ≤ s.nIdCount + if call.isAdd then 1 else 0 := by
  cases call with
  | add addr source nTimePenalty chance =>
      obtain ⟨fNew, s', done, consistent', ids⟩ := add_spec hash64 consistent addr source nTimePenalty chance (room rfl)
      exact ⟨s', by rw [step, done]; rfl, consistent', ids⟩
  | good addr nTime chance =>
      obtain ⟨s', done, consistent', ids⟩ := good_spec hash64 consistent addr timely chance
      exact ⟨s', done, consistent', ids.le.trans (le_add_of_nonneg_right le_rfl)⟩
  | attempt addr nTime =>
      obtain ⟨consistent', ids⟩ := attempt_spec consistent addr isDated
      exact ⟨_, rfl, consistent', ids.le.trans (le_add_of_nonneg_right le_rfl)⟩
  | connected addr nTime =>
      obtain ⟨consistent', ids⟩ := connected_spec consistent addr nTime
      exact ⟨_, rfl, consistent', ids.le.trans (le_add_of_nonneg_right le_rfl)⟩
  | getAddr chance =>
      obtain ⟨vAddr, s', done, consistent', ids⟩ := getAddr_spec consistent chance
      exact ⟨s', by rw [step, done]; rfl, consistent', ids.le.trans (le_add_of_nonneg_right le_rfl)⟩

theorem run_spec (hash64 : Bytes → UInt64) {calls : List Call} (consistent : Consistent dated s)
    (timely : ∀ call ∈ calls, call.Timely) (isDated : dated → ∀ call ∈ calls, call.Dated)
    (room : s.nIdCount + calls.countP Call.isAdd < 2 ^ 31) :
    ∃ s', s.run hash64 calls = some s' ∧ Consistent dated s' := by
  induction calls generalizing s with
  | nil => exact ⟨s, rfl, consistent⟩
  | cons call rest ih =>
      rw [List.countP_cons] at room
      obtain ⟨s₁, done, consistent₁, ids⟩ := step_spec hash64 consistent (timely call List.mem_cons_self)
        (fun given => isDated given call List.mem_cons_self) fun isAdd => by
          rw [if_pos isAdd] at room
          push_cast at room
          omega
      obtain ⟨s₂, finished, consistent₂⟩ := ih consistent₁
        (fun other member => timely other (List.mem_cons_of_mem _ member))
        (fun given other member => isDated given other (List.mem_cons_of_mem _ member)) (by
          split_ifs at ids room <;> push_cast at room <;> omega)
      exact ⟨s₂, by rw [run, List.foldlM_cons, done]; exact finished, consistent₂⟩

end Sizes

/-- No sequence of calls makes an assertion fail or overfills a bucket, and `Check_` finds at most that an
attempt was at a negative time. -/
theorem calls_pass_check (hash64 : Bytes → UInt64) (nKey : Bytes) (calls : List Call)
    (timely : ∀ call ∈ calls, call.Timely) (ids : calls.countP Call.isAdd < 2 ^ 31) :
    ∃ s, (empty nKey).run hash64 calls = some s ∧ s.Limited ∧ Checked (∀ call ∈ calls, call.Dated) s ∧
      ((∀ call ∈ calls, call.Dated) → s.check_ = 0) := by
  obtain ⟨s, done, consistent⟩ := run_spec hash64
    (consistent_empty (∀ call ∈ calls, call.Dated) nKey) timely (fun given => given) (by change (0 : Int) + _ < _; omega)
  refine ⟨s, done, consistent.limited, consistent.checked, fun given => check_eq_zero_iff.mpr ?_⟩
  have checked := consistent.checked
  rwa [eq_true given] at checked

/-- An address of `8.0.0.0/8`, one that was seen, and nothing drawn. -/
def sampleService (last : UInt8) : CService :=
  ⟨⟨[0, 0, 0, 0, 0, 0, 0, 0, 0, 0, 0xff, 0xff, 8, 0, 0, last], rfl⟩, 8333⟩

def sampleAddress (last : UInt8) : CAddress := { sampleService last with nServices := 1, nTime := 1000, nLastTry := 0 }

def noChance : Chance := ⟨fun _ => 0, fun _ => 1000⟩

theorem calls_pass_check_sample : ∃ s, (empty []).run (fun _ => 0)
    [.add (sampleAddress 8) (sampleService 8).toCNetAddr 0 noChance, .good (sampleService 8) 1001 noChance,
      .attempt (sampleService 8) 1002, .getAddr noChance] = some s ∧ s.Limited ∧ s.check_ = 0 := by
  obtain ⟨s, done, limited, -, checked⟩ := calls_pass_check (fun _ => 0) []
    [.add (sampleAddress 8) (sampleService 8).toCNetAddr 0 noChance, .good (sampleService 8) 1001 noChance,
      .attempt (sampleService 8) 1002, .getAddr noChance]
    (List.forall_mem_cons.mpr ⟨trivial, List.forall_mem_cons.mpr ⟨show (0 : Int64) < 1001 by decide,
      List.forall_mem_cons.mpr ⟨trivial, List.forall_mem_cons.mpr ⟨trivial, List.forall_mem_nil _⟩⟩⟩⟩)
    (show 1 < 2 ^ 31 by decide)
  refine ⟨s, done, limited, checked ?_⟩
  exact List.forall_mem_cons.mpr ⟨trivial, List.forall_mem_cons.mpr ⟨trivial,
    List.forall_mem_cons.mpr ⟨show (0 : Int64) ≤ 1002 by decide,
      List.forall_mem_cons.mpr ⟨trivial, List.forall_mem_nil _⟩⟩⟩⟩

/-- An attempt before 1970 is something that `Check_` finds wrong. -/
theorem early_attempt_fails_check : ¬ ∀ (hash64 : Bytes → UInt64) (nKey : Bytes) (calls : List Call),
    (∀ call ∈ calls, call.Timely) → ∃ s, (empty nKey).run hash64 calls = some s ∧ s.check_ = 0 := by
  intro always
  obtain ⟨s, done, passed⟩ := always (fun _ => 0) []
    [.add (sampleAddress 8) (sampleService 8).toCNetAddr 0 noChance, .attempt (sampleService 8) (-1)]
    (List.forall_mem_cons.mpr ⟨trivial, List.forall_mem_cons.mpr ⟨trivial, List.forall_mem_nil _⟩⟩)
  have found : ((empty []).run (fun _ => 0)
      [.add (sampleAddress 8) (sampleService 8).toCNetAddr 0 noChance, .attempt (sampleService 8) (-1)]).map check_ =
      some (-6) := by decide +kernel
  rw [done, Option.map_some, passed] at found
  cases found

end CAddrMan

end InfiniteRicks
