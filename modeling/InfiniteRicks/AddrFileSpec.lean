import InfiniteRicks.AddrCheck
import InfiniteRicks.AddrFormat

/-!
# What is built from an address file

`load` places the entries one after another, the new ones first, and then counts the references that the
buckets hold. The conditions of `Check_` hold of the result, and no bucket vector is accessed out of range,
just where the stored values are `Sound`.
-/

namespace InfiniteRicks

open Function Library Library.Codec Library.Tables CDataStream

namespace CAddrMan

/-! ## Placing -/

/-- The entries have been placed one after another: their ids and their positions are their places in the list. -/
structure Placed (entries : List CAddrInfo) (s : CAddrMan) : Prop where
  mapInfo : ∀ id, s.mapInfo[id]? = (slot entries id).map fun info => { info with nRandomPos := id }
  mapAddr : (entries.map fun info => info.toCNetAddr).Nodup →
    ∀ {id info}, slot entries id = some info → s.mapAddr[info.toCNetAddr]? = some id
  addresses : ∀ {addr id}, s.mapAddr[addr]? = some id → ∃ info, slot entries id = some info ∧ info.toCNetAddr = addr
  vRandom : s.vRandom = (List.range entries.length).map Nat.cast

theorem Placed.empty (nKey : Bytes) (nTried nNew : Int) :
    Placed [] { empty nKey with nTried := nTried, nNew := nNew } where
  mapInfo id := by
    rw [show slot ([] : List CAddrInfo) id = none by rw [slot]; split_ifs <;> rfl]
    exact Std.ExtTreeMap.getElem?_empty
  mapAddr _ id info found := by
    obtain ⟨index, -, found⟩ := slot_eq_some_iff.mp found
    cases found
  addresses found := by
    cases Std.ExtTreeMap.getElem?_empty.symm.trans found
  vRandom := rfl

variable {entries : List CAddrInfo} {s : CAddrMan} {info : CAddrInfo} {id : Int}

theorem Placed.length (placed : Placed entries s) : s.vRandom.length = entries.length := by
  rw [placed.vRandom, List.length_map, List.length_range]

theorem slot_concat : slot (entries ++ [info]) id = if id = entries.length then some info else slot entries id := by
  rw [slot_append]
  split_ifs with last
  · rw [last, update_self]
  · rw [update_of_ne last]

theorem slot_lt {α : Type} {list : List α} {a : α} {id : Int} (found : slot list id = some a) :
    0 ≤ id ∧ id < list.length := by
  obtain ⟨index, rfl, found⟩ := slot_eq_some_iff.mp found
  exact ⟨Int.natCast_nonneg _, Int.ofNat_lt.mpr (List.getElem?_eq_some_iff.mp found).1⟩

theorem mem_of_slot {α : Type} {list : List α} {a : α} {id : Int} (found : slot list id = some a) : a ∈ list := by
  obtain ⟨index, -, found⟩ := slot_eq_some_iff.mp found
  exact List.mem_of_getElem? found

/-- The next entry. -/
theorem Placed.place (placed : Placed entries s) (info : CAddrInfo) :
    Placed (entries ++ [info]) (s.place entries.length info) where
  mapInfo id := by
    rw [slot_concat, CAddrMan.place, Std.ExtTreeMap.getElem?_insert, placed.length]
    by_cases last : id = entries.length
    · rw [if_pos last, if_pos (Std.LawfulEqCmp.compare_eq_iff_eq.mpr last.symm), last]
      rfl
    · rw [if_neg last, if_neg (fun equal => last (Std.LawfulEqCmp.eq_of_compare equal).symm), placed.mapInfo]
  mapAddr distinct id other found := by
    rw [List.map_append, List.nodup_append] at distinct
    rw [slot_concat] at found
    rw [CAddrMan.place, Std.ExtTreeMap.getElem?_insert]
    by_cases last : id = entries.length
    · rw [if_pos last] at found
      cases found
      rw [if_pos Std.ReflCmp.compare_self, last]
    · rw [if_neg last] at found
      have apart : info.toCNetAddr ≠ other.toCNetAddr := fun same =>
        distinct.2.2 _ (List.mem_map_of_mem (mem_of_slot found)) _ (List.mem_singleton_self _) same.symm
      rw [if_neg (fun equal => apart (Std.LawfulEqCmp.eq_of_compare equal)), placed.mapAddr distinct.1 found]
  addresses {addr id} found := by
    rw [CAddrMan.place, Std.ExtTreeMap.getElem?_insert] at found
    rw [slot_concat]
    by_cases own : compare info.toCNetAddr addr = .eq
    · rw [if_pos own] at found
      cases found
      exact ⟨info, if_pos rfl, Std.LawfulEqCmp.eq_of_compare own⟩
    · rw [if_neg own] at found
      obtain ⟨old, there, same⟩ := placed.addresses found
      have bounds := slot_lt there
      exact ⟨old, by rw [if_neg (by omega)]; exact there, same⟩
  vRandom := by
    rw [CAddrMan.place, placed.vRandom, List.length_append, List.length_singleton, List.range_succ, List.map_append,
      List.map_singleton]

/-! ## The new entries -/

section Loading

variable {hash64 : Bytes → UInt64} {nUBuckets : Int}

/-- A new entry as it is placed: where the buckets are not those of the file, with a reference. -/
def newEntry (nUBuckets : Int) (info : CAddrInfo) : CAddrInfo :=
  { info with nRefCount := info.nRefCount + if nUBuckets ≠ newBucketCount then 1 else 0 }

/-- The state after the new entries; `base` is the state before them. -/
structure LoadedNew (hash64 : Bytes → UInt64) (nUBuckets : Int) (base : CAddrMan) (done : List CAddrInfo) (s : CAddrMan) :
    Prop where
  placed : Placed (done.map (newEntry nUBuckets)) s
  vvNew : ∀ b id, id ∈ s.vvNew b ↔ nUBuckets ≠ newBucketCount ∧ ∃ info, slot done id = some info ∧
    info.getNewBucket hash64 base.nKey info.source = b
  nKey : s.nKey = base.nKey
  nTried : s.nTried = base.nTried
  nNew : s.nNew = base.nNew
  vvTried : s.vvTried = base.vvTried

theorem LoadedNew.next {base : CAddrMan} {done : List CAddrInfo} (loaded : LoadedNew hash64 nUBuckets base done s)
    (info : CAddrInfo) : LoadedNew hash64 nUBuckets base (done ++ [info]) (s.loadNew hash64 nUBuckets done.length info) := by
  have placed := loaded.placed.place (newEntry nUBuckets info)
  rw [List.length_map, ← List.map_singleton, ← List.map_append] at placed
  rw [loadNew]
  split_ifs with rebuilt
  · have entry : newEntry nUBuckets info = { info with nRefCount := info.nRefCount + 1 } := by
      rw [newEntry, if_pos rebuilt]
    rw [entry] at placed
    refine ⟨⟨placed.mapInfo, placed.mapAddr, placed.addresses, placed.vRandom⟩, fun b id => ?_, loaded.nKey, loaded.nTried,
      loaded.nNew, loaded.vvTried⟩
    have before := loaded.vvNew b id
    rw [slot_concat]
    show id ∈ update s.vvNew (info.getNewBucket hash64 s.nKey info.source)
      (insert (done.length : Int) (s.vvNew (info.getNewBucket hash64 s.nKey info.source))) b ↔ _
    rw [loaded.nKey]
    have fresh : id = done.length → id ∉ s.vvNew b := fun same member => by
      obtain ⟨-, old, found, -⟩ := before.mp member
      have bounds := slot_lt found
      omega
    by_cases own : b = info.getNewBucket hash64 base.nKey info.source
    · rw [own, update_self, Finset.mem_insert, ← own, before]
      by_cases last : id = done.length
      · rw [if_pos last]
        exact iff_of_true (.inl last) ⟨rebuilt, info, rfl, own.symm⟩
      · rw [if_neg last, or_iff_right last]
    · rw [update_of_ne own]
      by_cases last : id = done.length
      · rw [if_pos last]
        refine iff_of_false (fresh last) fun there => ?_
        obtain ⟨-, other, same, bucket⟩ := there
        cases same
        exact own bucket.symm
      · rw [if_neg last]
        exact before
  · have entry : newEntry nUBuckets info = info := by
      rw [newEntry, if_neg rebuilt, add_zero]
    rw [entry] at placed
    refine ⟨placed, fun b id => ?_, loaded.nKey, loaded.nTried, loaded.nNew, loaded.vvTried⟩
    have before := loaded.vvNew b id
    exact before.trans (iff_of_false (fun held => rebuilt held.1) fun held => rebuilt held.1)

theorem loadedNew {base : CAddrMan} (start : Placed [] base) (unlisted : base.vvNew = fun _ => ∅) (new : List CAddrInfo) :
    LoadedNew hash64 nUBuckets base new
      (new.zipIdx.foldl (fun s entry => s.loadNew hash64 nUBuckets entry.2 entry.1) base) := by
  induction new using List.reverseRecOn with
  | nil =>
      refine ⟨start, fun b id => ?_, rfl, rfl, rfl, rfl⟩
      rw [List.zipIdx_nil, List.foldl_nil, unlisted]
      refine iff_of_false (Finset.notMem_empty _) fun there => ?_
      obtain ⟨-, info, found, -⟩ := there
      obtain ⟨index, -, found⟩ := slot_eq_some_iff.mp found
      cases found
  | append_singleton done info ih =>
      rw [List.zipIdx_append, List.foldl_append, Nat.zero_add, List.zipIdx_singleton, List.foldl_cons, List.foldl_nil]
      exact ih.next info

/-! ## The tried entries -/

end Loading

end CAddrMan

section Kept

variable (hash64 : Bytes → UInt64) (nKey : Bytes)

/-- A tried entry is kept where its bucket has room. -/
def AddrFile.keep (kept : List CAddrInfo) (info : CAddrInfo) : List CAddrInfo :=
  if (kept.filter fun other => other.getTriedBucket hash64 nKey = info.getTriedBucket hash64 nKey).length <
      triedBucketSize then kept ++ [info]
  else kept

/-- The tried entries for which there is room. -/
def AddrFile.kept (tried : List CAddrInfo) : List CAddrInfo := tried.foldl (keep hash64 nKey) []

end Kept

namespace CAddrMan

section Loading

variable {hash64 : Bytes → UInt64} {entries : List CAddrInfo} {s : CAddrMan} {info : CAddrInfo}

/-- A tried entry as it is placed. -/
def triedEntry (info : CAddrInfo) : CAddrInfo := { info with fInTried := true }

/-- The state after tried entries, of which `kept` have been kept. -/
structure LoadedTried (hash64 : Bytes → UInt64) (base : CAddrMan) (entries done kept : List CAddrInfo) (s : CAddrMan)
    (nLost : Int) : Prop where
  room : ∀ b, (s.vvTried b).length = (kept.filter fun info => info.getTriedBucket hash64 base.nKey = b).length
  contents : s.triedContents = ((List.range kept.length).map fun j : Nat => base.nIdCount + j : List Int)
  length : s.vRandom.length = base.vRandom.length + kept.length
  nIdCount : s.nIdCount = base.nIdCount + kept.length
  nLost : nLost + kept.length = done.length
  placed : base.nIdCount = entries.length → Placed (entries ++ kept.map triedEntry) s
  vvNew : s.vvNew = base.vvNew
  nKey : s.nKey = base.nKey
  nTried : s.nTried = base.nTried
  nNew : s.nNew = base.nNew

theorem LoadedTried.next {base : CAddrMan} {done kept : List CAddrInfo} {nLost : Int}
    (loaded : LoadedTried hash64 base entries done kept s nLost) (info : CAddrInfo) :
    LoadedTried hash64 base entries (done ++ [info]) (AddrFile.keep hash64 base.nKey kept info)
      (loadTried hash64 (s, nLost) info).1 (loadTried hash64 (s, nLost) info).2 := by
  have room := loaded.room (info.getTriedBucket hash64 base.nKey)
  rw [loadTried, AddrFile.keep, loaded.nKey, room]
  have count := loaded.nLost
  split_ifs with free
  · refine ⟨fun b => ?_, ?_, ?_, ?_, ?_, fun start => ?_, loaded.vvNew, loaded.nKey, loaded.nTried, loaded.nNew⟩
    · show (update s.vvTried (info.getTriedBucket hash64 base.nKey)
        (s.vvTried (info.getTriedBucket hash64 base.nKey) ++ [s.nIdCount]) b).length = _
      rw [List.filter_append, List.length_append]
      by_cases own : b = info.getTriedBucket hash64 base.nKey
      · subst own
        rw [update_self, List.length_append, room, List.filter_singleton, decide_eq_true rfl]
        rfl
      · rw [update_of_ne own, loaded.room, List.filter_singleton, decide_eq_false (Ne.symm own)]
        rfl
    · rw [triedContents_append (s := s) rfl, loaded.contents, List.length_append, List.length_singleton, List.range_succ,
        List.map_append, List.map_singleton, ← Multiset.coe_add, Multiset.coe_singleton, add_comm, Multiset.singleton_add,
        loaded.nIdCount]
    · show (s.vRandom ++ [s.nIdCount]).length = _
      rw [List.length_append, List.length_append, loaded.length, Nat.add_assoc]
      rfl
    · show s.nIdCount + 1 = _
      rw [loaded.nIdCount, List.length_append, List.length_singleton]
      omega
    · show nLost + _ = _
      rw [List.length_append, List.length_append, List.length_singleton]
      omega
    · have id : s.nIdCount = (entries ++ kept.map triedEntry).length := by
        rw [loaded.nIdCount, start, List.length_append, List.length_map, Nat.cast_add]
      have placed := (loaded.placed start).place (triedEntry info)
      rw [← id, List.append_assoc, ← List.map_singleton, ← List.map_append] at placed
      exact ⟨placed.mapInfo, placed.mapAddr, placed.addresses, placed.vRandom⟩
  · exact ⟨loaded.room, loaded.contents, loaded.length, loaded.nIdCount, by rw [List.length_append, List.length_singleton]; omega,
      loaded.placed, loaded.vvNew, loaded.nKey, loaded.nTried, loaded.nNew⟩

theorem loadedTried {base : CAddrMan} (start : base.nIdCount = entries.length → Placed entries base)
    (none : base.vvTried = fun _ => []) (tried : List CAddrInfo) :
    LoadedTried hash64 base entries tried (AddrFile.kept hash64 base.nKey tried)
      (tried.foldl (loadTried hash64) (base, 0)).1 (tried.foldl (loadTried hash64) (base, 0)).2 := by
  induction tried using List.reverseRecOn with
  | nil =>
      refine ⟨fun b => ?_, ?_, rfl, (add_zero _).symm, rfl, fun same => ?_, rfl, rfl, rfl, rfl⟩
      · rw [List.foldl_nil, none]
        rfl
      · rw [List.foldl_nil, triedContents, none]
        exact contents_eq_zero _ fun _ => rfl
      · rw [AddrFile.kept, List.foldl_nil, List.map_nil, List.append_nil]
        exact start same
  | append_singleton done info ih =>
      rw [AddrFile.kept, List.foldl_append, List.foldl_append, List.foldl_cons, List.foldl_nil, List.foldl_cons, List.foldl_nil]
      exact ih.next info

/-! ## The references -/

/-- The buckets that an index is listed in, in the order of the file. -/
def listing (places : List (Nat × Int)) (id : Int) : List Nat := (places.filter fun place => place.2 = id).map Prod.fst

/-- The buckets that count for it. -/
def counted (places : List (Nat × Int)) (id : Int) : List Nat := (listing places id).take newBucketsPerAddress.toNat

/-- An entry as it is after some indexes. -/
def counting (nUBuckets : Int) (places : List (Nat × Int)) (id : Int) (info : CAddrInfo) : CAddrInfo :=
  { info with nRefCount := info.nRefCount + if nUBuckets = newBucketCount then (counted places id).length else 0 }

/-- The state after some indexes have been read; `base` is the state before them. -/
structure Listed (nUBuckets : Int) (base : CAddrMan) (done : List (Nat × Int)) (s : CAddrMan) : Prop where
  mapInfo : ∀ id, s.mapInfo[id]? = ((base.mapInfo[id]?).or
    (if id ∈ done.map Prod.snd then some CAddrInfo.default else none)).map (counting nUBuckets done id)
  vvNew : ∀ b id, id ∈ s.vvNew b ↔ id ∈ base.vvNew b ∨ nUBuckets = newBucketCount ∧ b.val ∈ counted done id
  mapAddr : s.mapAddr = base.mapAddr
  vvTried : s.vvTried = base.vvTried

theorem listing_concat (done : List (Nat × Int)) (b : Nat) (id other : Int) :
    listing (done ++ [(b, id)]) other = if other = id then listing done other ++ [b] else listing done other := by
  rw [listing, List.filter_append, List.map_append, List.filter_singleton]
  split_ifs with same
  · rw [decide_eq_true same.symm]
    rfl
  · rw [decide_eq_false (Ne.symm same)]
    exact List.append_nil _

/-- Another listing counts while fewer than four do. -/
theorem counted_concat (done : List (Nat × Int)) (b : Nat) (id other : Int) :
    counted (done ++ [(b, id)]) other =
      if other = id ∧ (counted done id).length < newBucketsPerAddress then counted done other ++ [b] else counted done other := by
  rw [counted, listing_concat]
  by_cases same : other = id
  · subst same
    rw [if_pos rfl, counted, List.take_append]
    by_cases few : (listing done other).length < newBucketsPerAddress.toNat
    · rw [if_pos ⟨rfl, by rw [List.length_take]; omega⟩, List.take_of_length_le (l := [b])]
      rw [List.length_singleton]
      omega
    · rw [if_neg fun held => few (by rw [List.length_take] at held; omega), Nat.sub_eq_zero_of_le (Nat.le_of_not_lt few),
        List.take_zero, List.append_nil]
  · rw [if_neg same, if_neg (fun held => same held.1)]
    rfl

theorem counting_congr {nUBuckets : Int} {places places' : List (Nat × Int)} {id : Int}
    (same : counted places id = counted places' id) : counting nUBuckets places id = counting nUBuckets places' id := by
  funext info
  rw [counting, counting, same]

theorem counted_of_unlisted {places : List (Nat × Int)} {id : Int} (unlisted : id ∉ places.map Prod.snd) :
    counted places id = [] := by
  have nothing : (places.filter fun place => place.2 = id) = [] := List.filter_eq_nil_iff.mpr fun place member own =>
    unlisted (of_decide_eq_true own ▸ List.mem_map_of_mem member)
  rw [counted, listing, nothing, List.map_nil, List.take_nil]

section Step

variable {nUBuckets : Int} {base : CAddrMan} {done : List (Nat × Int)}

/-- `mapInfo[nIndex]` has an entry. -/
theorem Listed.opened (listed : Listed nUBuckets base done s) (b : Nat) (id other : Int) :
    (s.mapInfo.insertIfNew id CAddrInfo.default)[other]? = ((base.mapInfo[other]?).or
      (if other ∈ (done ++ [(b, id)]).map Prod.snd then some CAddrInfo.default else none)).map
        (counting nUBuckets done other) := by
  have was := listed.mapInfo other
  rw [Std.ExtTreeMap.getElem?_insertIfNew, List.map_append, List.map_singleton]
  by_cases own : id = other
  · subst own
    rw [if_pos (List.mem_append_right _ (List.mem_singleton_self _))]
    cases known : base.mapInfo[id]? with
    | some info =>
        rw [known, Option.some_or, Option.map_some] at was
        rw [if_neg fun held => held.2 (mem_of_known was), was, Option.some_or, Option.map_some]
    | none =>
        rw [known, Option.none_or] at was
        rw [Option.none_or, Option.map_some]
        by_cases before : id ∈ done.map Prod.snd
        · rw [if_pos before, Option.map_some] at was
          rw [if_neg fun held => held.2 (mem_of_known was), was]
        · rw [if_neg before, Option.map_none] at was
          have absent : id ∉ s.mapInfo := by
            rw [Std.ExtTreeMap.mem_iff_isSome_getElem?, was]
            exact Bool.false_ne_true
          rw [if_pos ⟨Std.ReflCmp.compare_self, absent⟩, counting, counted_of_unlisted before, List.length_nil, ite_self,
            Nat.cast_zero, add_zero]
  · have same : other ∈ done.map Prod.snd ++ [id] ↔ other ∈ done.map Prod.snd := by
      rw [List.mem_append, or_iff_left fun last => own (List.mem_singleton.mp last).symm]
    rw [if_neg fun held => own (Std.LawfulEqCmp.eq_of_compare held.1), was, if_congr same rfl rfl]

theorem Listed.next (listed : Listed nUBuckets base done s)
    (unreferenced : nUBuckets = newBucketCount → ∀ (id : Int) (info : CAddrInfo), base.mapInfo[id]? = some info →
      info.nRefCount = 0)
    {b : Nat} (inside : nUBuckets = newBucketCount → b < newBucketCount) (id : Int) :
    Listed nUBuckets base (done ++ [(b, id)]) (s.loadIndex nUBuckets (bucketAt b) id) := by
  have opened := listed.opened b id
  rw [loadIndex.eq_def]
  by_cases full : nUBuckets = newBucketCount
  · rw [bucketAt, dif_pos (inside full)]
    obtain ⟨info, known, none⟩ : ∃ info, (base.mapInfo[id]?).or
        (if id ∈ (done ++ [(b, id)]).map Prod.snd then some CAddrInfo.default else none) = some info ∧ info.nRefCount = 0 := by
      rw [if_pos (by rw [List.map_append]; exact List.mem_append_right _ (List.mem_singleton_self _))]
      cases known : base.mapInfo[id]? with
      | some info => exact ⟨info, Option.some_or, unreferenced full id info known⟩
      | none => exact ⟨_, Option.none_or, rfl⟩
    have own := opened id
    rw [known, Option.map_some] at own
    simp only [own, Option.getD_some]
    have references : (counting nUBuckets done id info).nRefCount = (counted done id).length := by
      rw [counting, if_pos full, none, zero_add]
    rw [references]
    have recounted : ∀ other, ¬ (other = id ∧ (counted done id).length < newBucketsPerAddress) →
        counted (done ++ [(b, id)]) other = counted done other := fun other unchanged => by
      rw [counted_concat, if_neg unchanged]
    split_ifs with few
    · have more : counted (done ++ [(b, id)]) id = counted done id ++ [b] := by
        rw [counted_concat, if_pos ⟨rfl, few.2⟩]
      refine ⟨fun other => ?_, fun bucket other => ?_, listed.mapAddr, listed.vvTried⟩
      · have raised : (fun info => { info with nRefCount := info.nRefCount + 1 }) ∘ counting nUBuckets done id =
            counting nUBuckets (done ++ [(b, id)]) id := by
          funext info
          rw [comp_apply, counting, counting, if_pos full, if_pos full, more, List.length_append, List.length_singleton,
            Nat.cast_add, Nat.cast_one, ← add_assoc]
        refine (getElem?_modify { s with mapInfo := s.mapInfo.insertIfNew id CAddrInfo.default } id other _).trans ?_
        by_cases same : id = other
        · subst same
          rw [if_pos rfl, opened, Option.map_map, raised]
        · rw [if_neg same, counting_congr (recounted other fun held => same held.1.symm)]
          exact opened other
      · have before := listed.vvNew bucket other
        show other ∈ update s.vvNew ⟨b, inside full⟩ (insert id (s.vvNew ⟨b, inside full⟩)) bucket ↔ _
        by_cases here : bucket = ⟨b, inside full⟩
        · subst here
          rw [update_self, Finset.mem_insert, before, counted_concat]
          by_cases same : other = id
          · rw [if_pos ⟨same, few.2⟩]
            exact iff_of_true (.inl same) (.inr ⟨full, List.mem_append_right _ (List.mem_singleton_self _)⟩)
          · rw [if_neg fun held => same held.1, or_iff_right same]
        · have elsewhere : bucket.val ∈ counted (done ++ [(b, id)]) other ↔ bucket.val ∈ counted done other := by
            rw [counted_concat]
            split_ifs
            · rw [List.mem_append, or_iff_left fun last => here (Fin.ext (List.mem_singleton.mp last))]
            · rfl
          rw [update_of_ne here, before, elsewhere]
    · refine ⟨fun other => ?_, fun bucket other => ?_, listed.mapAddr, listed.vvTried⟩
      · rw [counting_congr (recounted other fun held => few ⟨full, held.2⟩)]
        exact opened other
      · rw [recounted other fun held => few ⟨full, held.2⟩]
        exact listed.vvNew bucket other
  · have same : counting nUBuckets (done ++ [(b, id)]) = counting nUBuckets done := by
      funext other info
      rw [counting, counting, if_neg full, if_neg full]
    have kept : Listed nUBuckets base (done ++ [(b, id)])
        { s with mapInfo := s.mapInfo.insertIfNew id CAddrInfo.default } := by
      refine ⟨fun other => ?_, fun bucket other => ?_, listed.mapAddr, listed.vvTried⟩
      · rw [same]
        exact opened other
      · refine (listed.vvNew bucket other).trans (or_congr_right ?_)
        exact iff_of_false (fun held => full held.1) fun held => full held.1
    cases bucketAt b with
    | none => exact kept
    | some bucket =>
        dsimp only
        rw [if_neg fun held => full held.1]
        exact kept

theorem listed_nil (nUBuckets : Int) (base : CAddrMan) : Listed nUBuckets base [] base where
  mapInfo id := by
    have same : counting nUBuckets [] id = fun info => info := by
      funext info
      rw [counting, show counted [] id = [] from List.take_nil, List.length_nil, ite_self, Nat.cast_zero, add_zero]
    rw [List.map_nil, if_neg List.not_mem_nil, Option.or_none, same, Option.map_id']
  vvNew b id := (or_iff_left fun held => by cases held.2).symm
  mapAddr := rfl
  vvTried := rfl

/-- A bucket is read. -/
theorem Listed.bucket (listed : Listed nUBuckets base done s)
    (unreferenced : nUBuckets = newBucketCount → ∀ (id : Int) (info : CAddrInfo), base.mapInfo[id]? = some info →
      info.nRefCount = 0)
    {b : Nat} (inside : nUBuckets = newBucketCount → b < newBucketCount) (ids : List Int) :
    Listed nUBuckets base (done ++ ids.map fun id => (b, id)) (ids.foldl (loadIndex nUBuckets (bucketAt b)) s) := by
  induction ids generalizing done s with
  | nil =>
      rw [List.map_nil, List.append_nil]
      exact listed
  | cons id rest ih =>
      have more := ih (listed.next unreferenced inside id)
      rw [List.append_assoc, List.singleton_append] at more
      exact more

/-- What the buckets of a file list, each index with its bucket. -/
def places (buckets : List (List Int32 × Nat)) : List (Nat × Int) :=
  buckets.flatMap fun bucket => (bucket.1.map Int32.toInt).map fun id => (bucket.2, id)

theorem listed_places (unreferenced : nUBuckets = newBucketCount → ∀ (id : Int) (info : CAddrInfo),
      base.mapInfo[id]? = some info → info.nRefCount = 0) {buckets : List (List Int32 × Nat)}
    (inside : nUBuckets = newBucketCount → ∀ bucket ∈ buckets, bucket.2 < newBucketCount) :
    Listed nUBuckets base (places buckets) (buckets.foldl (loadBucket nUBuckets) base) := by
  induction buckets using List.reverseRecOn with
  | nil => exact listed_nil nUBuckets base
  | append_singleton done bucket ih =>
      have before := ih fun full other member => inside full other (List.mem_append_left _ member)
      rw [places, List.flatMap_append, List.flatMap_singleton, List.foldl_append, List.foldl_cons, List.foldl_nil]
      exact before.bucket unreferenced
        (fun full => inside full bucket (List.mem_append_right _ (List.mem_singleton_self _))) _

/-- Indexes change no count and no place. -/
structure SameCounts (s s' : CAddrMan) : Prop where
  vRandom : s'.vRandom = s.vRandom
  nTried : s'.nTried = s.nTried
  nNew : s'.nNew = s.nNew
  nIdCount : s'.nIdCount = s.nIdCount

theorem SameCounts.trans {s s' s'' : CAddrMan} (first : SameCounts s s') (second : SameCounts s' s'') : SameCounts s s'' :=
  ⟨second.vRandom.trans first.vRandom, second.nTried.trans first.nTried, second.nNew.trans first.nNew,
    second.nIdCount.trans first.nIdCount⟩

theorem loadIndex_counts (s : CAddrMan) (vNew : Option (Fin newBucketCount)) (id : Int) :
    SameCounts s (s.loadIndex nUBuckets vNew id) := by
  cases vNew with
  | none => exact ⟨rfl, rfl, rfl, rfl⟩
  | some b =>
      rw [loadIndex]
      split_ifs <;> exact ⟨rfl, rfl, rfl, rfl⟩

theorem loadBuckets_counts (s : CAddrMan) (buckets : List (List Int32 × Nat)) :
    SameCounts s (buckets.foldl (loadBucket nUBuckets) s) := by
  have one : ∀ (ids : List Int) (vNew : Option (Fin newBucketCount)) (s : CAddrMan),
      SameCounts s (ids.foldl (loadIndex nUBuckets vNew) s) := by
    intro ids vNew
    induction ids with
    | nil => exact fun s => ⟨rfl, rfl, rfl, rfl⟩
    | cons id rest ih => exact fun s => (loadIndex_counts s vNew id).trans (ih _)
  induction buckets generalizing s with
  | nil => exact ⟨rfl, rfl, rfl, rfl⟩
  | cons bucket rest ih => exact (one (bucket.1.map Int32.toInt) (bucketAt bucket.2) s).trans (ih _)

end Step

end Loading

end CAddrMan

namespace AddrFile

open CAddrMan

variable (hash64 : Bytes → UInt64) (file : AddrFile)

/-- The tried entries that are kept. -/
def keptTried : List CAddrInfo := kept hash64 file.nKey file.tried

/-- All entries, as they are placed. -/
def entries : List CAddrInfo :=
  file.new.map (CAddrMan.newEntry file.nUBuckets.toInt) ++ (file.keptTried hash64).map triedEntry

/-- What is built, by way of the state `base` before the buckets are read. -/
structure Loaded (base s : CAddrMan) : Prop where
  placed : 0 ≤ file.nNew.toInt → Placed (file.entries hash64) base
  listed : 0 ≤ file.nNew.toInt → Listed file.nUBuckets.toInt base (places file.buckets.zipIdx) s
  vvNew : ∀ b id, id ∈ base.vvNew b ↔ file.nUBuckets.toInt ≠ newBucketCount ∧
    ∃ info, slot file.new id = some info ∧ info.getNewBucket hash64 file.nKey info.source = b
  contents : base.triedContents = ((List.range (file.keptTried hash64).length).map fun j : Nat => file.nNew.toInt + j : List Int)
  vRandom : s.vRandom = base.vRandom
  length : base.vRandom.length = file.new.length + (file.keptTried hash64).length
  nTried : s.nTried = file.nTried.toInt - file.tried.length + (file.keptTried hash64).length
  nNew : s.nNew = file.nNew.toInt
  nIdCount : s.nIdCount = file.nNew.toInt + (file.keptTried hash64).length

variable {hash64 file}

theorem entries_length (hash64 : Bytes → UInt64) (file : AddrFile) :
    (file.entries hash64).length = file.new.length + (file.keptTried hash64).length := by
  rw [entries, List.length_append, List.length_map, List.length_map]

theorem toNat_passes {count : Int32} (positive : 0 ≤ count.toInt) : (passes count : Int) = count.toInt :=
  Int.toNat_of_nonneg positive

theorem mem_of_mem_kept {nKey : Bytes} {tried : List CAddrInfo} {info : CAddrInfo}
    (member : info ∈ kept hash64 nKey tried) : info ∈ tried := by
  induction tried using List.reverseRecOn with
  | nil => exact member
  | append_singleton done last ih =>
      rw [kept, List.foldl_append, List.foldl_cons, List.foldl_nil, keep] at member
      split_ifs at member
      · rcases List.mem_append.mp member with old | own
        · exact List.mem_append_left _ (ih old)
        · exact List.mem_append_right _ own
      · exact List.mem_append_left _ (ih member)

theorem unreferenced (wellFormed : file.WellFormed) (full : file.nUBuckets.toInt = newBucketCount) {info : CAddrInfo}
    (member : info ∈ file.entries hash64) : info.nRefCount = 0 := by
  rcases List.mem_append.mp member with isNew | isTried
  · obtain ⟨old, there, rfl⟩ := List.mem_map.mp isNew
    rw [CAddrMan.newEntry, if_neg (not_not.mpr full), (wellFormed.new.2 old there).nRefCount, add_zero]
  · obtain ⟨old, there, rfl⟩ := List.mem_map.mp isTried
    exact (wellFormed.tried.2 old (mem_of_mem_kept there)).nRefCount

theorem exists_loaded (wellFormed : file.WellFormed) : ∃ base, Loaded hash64 file base (load hash64 file).1 := by
  have start := Placed.empty file.nKey file.nTried.toInt file.nNew.toInt
  have news := @loadedNew hash64 file.nUBuckets.toInt _ start rfl file.new
  rw [load]
  generalize file.new.zipIdx.foldl (fun s entry => s.loadNew hash64 file.nUBuckets.toInt entry.2 entry.1)
    { empty file.nKey with nNew := file.nNew.toInt, nTried := file.nTried.toInt } = s at news
  have trieds := @loadedTried hash64 (file.new.map (CAddrMan.newEntry file.nUBuckets.toInt)) { s with nIdCount := s.nNew }
    (fun _ => ⟨news.placed.mapInfo, news.placed.mapAddr, news.placed.addresses, news.placed.vRandom⟩) news.vvTried file.tried
  dsimp only
  generalize file.tried.foldl (loadTried hash64) ({ s with nIdCount := s.nNew }, 0) = loading at trieds
  obtain ⟨t, nLost⟩ := loading
  have nKey : s.nKey = file.nKey := news.nKey
  have nNew : s.nNew = file.nNew.toInt := news.nNew
  have nTried : s.nTried = file.nTried.toInt := news.nTried
  have placed : 0 ≤ file.nNew.toInt → Placed (file.entries hash64) { t with nTried := t.nTried - nLost } := fun positive => by
    have count := toNat_passes positive
    have here := trieds.placed (by rw [List.length_map, wellFormed.new.1, count]; exact nNew)
    rw [nKey] at here
    exact ⟨here.mapInfo, here.mapAddr, here.addresses, here.vRandom⟩
  obtain ⟨vRandom, sameTried, sameNew, sameIds⟩ :=
    @loadBuckets_counts file.nUBuckets.toInt { t with nTried := t.nTried - nLost } file.buckets.zipIdx
  have kept : AddrFile.kept hash64 s.nKey file.tried = file.keptTried hash64 := by rw [nKey, keptTried]
  have lost : nLost + (AddrFile.kept hash64 s.nKey file.tried).length = file.tried.length := trieds.nLost
  have contents : t.triedContents = ((List.range (AddrFile.kept hash64 s.nKey file.tried).length).map
    fun j : Nat => s.nNew + j : List Int) := trieds.contents
  have length : t.vRandom.length = s.vRandom.length + (AddrFile.kept hash64 s.nKey file.tried).length := trieds.length
  have ids : t.nIdCount = s.nNew + (AddrFile.kept hash64 s.nKey file.tried).length := trieds.nIdCount
  have counts : t.nTried = s.nTried ∧ t.nNew = s.nNew := ⟨trieds.nTried, trieds.nNew⟩
  rw [kept] at lost contents length ids
  refine ⟨{ t with nTried := t.nTried - nLost }, placed, fun positive => ?_, fun b id => ?_, ?_, vRandom, ?_, ?_, ?_, ?_⟩
  · refine listed_places (fun full id info known => ?_) fun full bucket member => ?_
    · rw [(placed positive).mapInfo] at known
      obtain ⟨entry, found, rfl⟩ := Option.map_eq_some_iff.mp known
      exact (unreferenced wellFormed full (mem_of_slot found) : entry.nRefCount = 0)
    · have index := (List.mem_zipIdx member).2.1
      have count := @toNat_passes file.nUBuckets (by rw [full]; decide)
      rw [wellFormed.buckets] at index
      omega
  · have before := news.vvNew b id
    show id ∈ t.vvNew b ↔ _
    rw [trieds.vvNew]
    exact before
  · rw [← nNew]
    exact contents
  · show t.vRandom.length = _
    rw [length, news.placed.length, List.length_map]
  · rw [sameTried]
    dsimp only
    rw [counts.1, nTried]
    omega
  · rw [sameNew]
    exact counts.2.trans nNew
  · rw [sameIds, ← nNew]
    exact ids

/-- The stored values for which all is well. -/
structure Sound (hash64 : Bytes → UInt64) (file : AddrFile) : Prop where
  nNew : 0 ≤ file.nNew.toInt
  nTried : 0 ≤ file.nTried.toInt
  nUBuckets : file.nUBuckets.toInt ≤ newBucketCount
  addresses : ((file.new ++ file.keptTried hash64).map fun info => info.toCNetAddr).Nodup
  new : ∀ info ∈ file.new, 0 ≤ info.nLastSuccess
  tried : ∀ info ∈ file.keptTried hash64, 0 < info.nLastSuccess
  indexes : ∀ place ∈ places file.buckets.zipIdx, 0 ≤ place.2 ∧ place.2 <
    if file.nUBuckets.toInt = newBucketCount then file.nNew.toInt else file.nNew.toInt + (file.keptTried hash64).length
  references : file.nUBuckets.toInt = newBucketCount → ∀ id, 0 ≤ id → id < file.nNew.toInt →
    counted (places file.buckets.zipIdx) id ≠ [] ∧ (counted (places file.buckets.zipIdx) id).Nodup

/-- The entry of an id in the tables. -/
theorem Loaded.known {base s : CAddrMan} (loaded : Loaded hash64 file base s) (positive : 0 ≤ file.nNew.toInt) {id : Int}
    {entry : CAddrInfo} (found : slot (file.entries hash64) id = some entry) : s.mapInfo[id]? =
      some (counting file.nUBuckets.toInt (places file.buckets.zipIdx) id { entry with nRandomPos := id }) := by
  rw [(loaded.listed positive).mapInfo, (loaded.placed positive).mapInfo, found, Option.map_some, Option.some_or,
    Option.map_some]

/-- The references of an entry that has been placed. -/
theorem Loaded.refs_eq {base s : CAddrMan} (loaded : Loaded hash64 file base s) (positive : 0 ≤ file.nNew.toInt) {id : Int}
    {entry : CAddrInfo} (found : slot (file.entries hash64) id = some entry) : s.refs id = entry.nRefCount +
      if file.nUBuckets.toInt = newBucketCount then (counted (places file.buckets.zipIdx) id).length else 0 := by
  rw [refs, proj, loaded.known positive found, Option.map_some, Option.getD_some, counting]

theorem Loaded.triedContents_eq {base s : CAddrMan} (loaded : Loaded hash64 file base s) (positive : 0 ≤ file.nNew.toInt) :
    s.triedContents = ((List.range (file.keptTried hash64).length).map fun j : Nat => file.nNew.toInt + j : List Int) := by
  rw [triedContents, (loaded.listed positive).vvTried]
  exact loaded.contents

theorem addresses_entries (hash64 : Bytes → UInt64) (file : AddrFile) : ((file.entries hash64).map fun info => info.toCNetAddr) =
    (file.new ++ file.keptTried hash64).map fun info => info.toCNetAddr := by
  rw [entries, List.map_append, List.map_append, List.map_map, List.map_map]
  rfl

theorem slot_append_left {α : Type} {left right : List α} {a : α} {id : Int} (found : slot left id = some a) :
    slot (left ++ right) id = some a := by
  obtain ⟨index, rfl, there⟩ := slot_eq_some_iff.mp found
  rw [slot_natCast, List.getElem?_append_left (List.getElem?_eq_some_iff.mp there).1, there]

theorem slot_new {id : Int} {info : CAddrInfo} (found : slot file.new id = some info) :
    slot (file.entries hash64) id = some (CAddrMan.newEntry file.nUBuckets.toInt info) := by
  refine slot_append_left ?_
  obtain ⟨index, rfl, there⟩ := slot_eq_some_iff.mp found
  rw [slot_natCast, List.getElem?_map, there, Option.map_some]

theorem slot_tried {index : Nat} {info : CAddrInfo} (found : (file.keptTried hash64)[index]? = some info) :
    slot (file.entries hash64) ((file.new.length + index : Nat) : Int) = some (triedEntry info) := by
  rw [slot_natCast, entries, List.getElem?_append_right (by rw [List.length_map]; omega), List.length_map,
    Nat.add_sub_cancel_left, List.getElem?_map, found, Option.map_some]

theorem lt_newBucketCount (full : file.nUBuckets.toInt = newBucketCount) (wellFormed : file.WellFormed) {id : Int} {b : Nat}
    (member : b ∈ counted (places file.buckets.zipIdx) id) : b < newBucketCount := by
  obtain ⟨place, listed, rfl⟩ := List.mem_map.mp (List.mem_of_mem_take member)
  obtain ⟨bucket, inFile, inBucket⟩ := List.mem_flatMap.mp (List.mem_of_mem_filter listed)
  obtain ⟨index, -, rfl⟩ := List.mem_map.mp inBucket
  have range := (List.mem_zipIdx inFile).2.1
  have count := @toNat_passes file.nUBuckets (by rw [full]; decide)
  have length := wellFormed.buckets
  dsimp only
  omega

/-- An entry of the file is in as many buckets as count for it, each one once. -/
theorem Loaded.count_new {base s : CAddrMan} (loaded : Loaded hash64 file base s) (wellFormed : file.WellFormed)
    (positive : 0 ≤ file.nNew.toInt) (full : file.nUBuckets.toInt = newBucketCount) (id : Int) :
    s.newContents.count id = (counted (places file.buckets.zipIdx) id).toFinset.card := by
  have image : (Finset.univ.filter fun bucket => id ∈ s.vvNew bucket).map Fin.valEmbedding =
      (counted (places file.buckets.zipIdx) id).toFinset := by
    ext b
    rw [Finset.mem_map, List.mem_toFinset]
    constructor
    · rintro ⟨bucket, member, rfl⟩
      rcases ((loaded.listed positive).vvNew bucket id).mp (Finset.mem_filter.mp member).2 with before | own
      · exact absurd full ((loaded.vvNew bucket id).mp before).1
      · exact own.2
    · intro member
      refine ⟨⟨b, lt_newBucketCount full wellFormed member⟩, Finset.mem_filter.mpr ⟨Finset.mem_univ _, ?_⟩, rfl⟩
      exact ((loaded.listed positive).vvNew _ id).mpr (.inr ⟨full, member⟩)
  rw [count_newContents, ← image, Finset.card_map]

theorem counted_ne_nil {places : List (Nat × Int)} {place : Nat × Int} (member : place ∈ places) :
    counted places place.2 ≠ [] := by
  have listed : place.1 ∈ listing places place.2 :=
    List.mem_map_of_mem (List.mem_filter.mpr ⟨member, decide_eq_true rfl⟩)
  rw [counted, Ne, List.take_eq_nil_iff]
  exact not_or_intro (by decide) (List.ne_nil_of_mem listed)

theorem inRange_iff : (load hash64 file).2 = true ↔ file.buckets.length ≤ newBucketCount := by
  rw [load, List.all_eq_true]
  constructor
  · intro all
    by_contra more
    have last := List.getElem?_eq_getElem (l := file.buckets) (i := newBucketCount) (by omega)
    have listed := all (_, newBucketCount) (List.mem_zipIdx_iff_getElem?.mpr last)
    cases listed
  · intro fits bucket member
    have range := (List.mem_zipIdx member).2.1
    rw [bucketAt, dif_pos (by omega)]
    rfl

/-- What `Check_` asks tells of the file. -/
theorem Loaded.file_sound {base s : CAddrMan} (loaded : Loaded hash64 file base s) (wellFormed : file.WellFormed)
    (checked : Checked True s) (inRange : file.buckets.length ≤ newBucketCount) : file.Sound hash64 := by
  have total := checked.total
  rw [loaded.vRandom, loaded.length, loaded.nTried, loaded.nNew, wellFormed.new.1, wellFormed.tried.1, passes, passes] at total
  have nNew : 0 ≤ file.nNew.toInt := by omega
  have nTried : 0 ≤ file.nTried.toInt := by omega
  have news := wellFormed.new.1
  have count := toNat_passes nNew
  have entry : ∀ {id info}, slot (file.entries hash64) id = some info → EntryChecked True s id
      (counting file.nUBuckets.toInt (places file.buckets.zipIdx) id { info with nRandomPos := id }) :=
    fun found => checked.entry _ _ (loaded.known nNew found)
  have good : ∀ {index info}, (file.keptTried hash64)[index]? = some info → 0 < info.nLastSuccess ∧
      (file.nUBuckets.toInt = newBucketCount →
        counted (places file.buckets.zipIdx) ((file.new.length + index : Nat) : Int) = []) := by
    intro index info found
    have here := entry (slot_tried found)
    obtain ⟨success, references⟩ := here.tried rfl
    refine ⟨Int64.lt_of_le_of_ne here.nLastSuccess (Ne.symm success), fun full => ?_⟩
    rw [counting, if_pos full] at references
    have none := unreferenced wellFormed full (mem_of_slot (slot_tried found))
    have zero : ((counted (places file.buckets.zipIdx) ((file.new.length + index : Nat) : Int)).length : Int) = 0 := by
      dsimp only at references
      omega
    exact List.eq_nil_of_length_eq_zero (by omega)
  have listed : ∀ place ∈ places file.buckets.zipIdx, 0 ≤ place.2 ∧ place.2 < (file.entries hash64).length := by
    intro place member
    cases found : slot (file.entries hash64) place.2 with
    | some info => exact slot_lt found
    | none =>
        -- an entry that an index has made has no position
        have made := (loaded.listed nNew).mapInfo place.2
        rw [(loaded.placed nNew).mapInfo, found, Option.map_none, Option.none_or, if_pos (List.mem_map_of_mem member),
          Option.map_some] at made
        cases (checked.entry _ _ made).place
  refine ⟨nNew, nTried, ?_, ?_, ?_, ?_, ?_, ?_⟩
  · have length := wellFormed.buckets
    rw [passes] at length
    omega
  · rw [← addresses_entries, List.nodup_iff_getElem?_ne_getElem?]
    intro i j before range same
    rw [List.length_map] at range
    have first : slot (file.entries hash64) (i : Int) = some (file.entries hash64)[i] := by
      rw [slot_natCast, List.getElem?_eq_getElem]
    have second : slot (file.entries hash64) (j : Int) = some (file.entries hash64)[j] := by
      rw [slot_natCast, List.getElem?_eq_getElem]
    rw [List.getElem?_map, List.getElem?_map, List.getElem?_eq_getElem (before.trans range), List.getElem?_eq_getElem range,
      Option.map_some, Option.map_some] at same
    have left : s.mapAddr[(file.entries hash64)[i].toCNetAddr]?.getD 0 = i := (entry first).address
    have right : s.mapAddr[(file.entries hash64)[j].toCNetAddr]?.getD 0 = j := (entry second).address
    rw [Option.some.inj same] at left
    omega
  · intro info member
    obtain ⟨index, found⟩ := List.mem_iff_getElem?.mp member
    exact (entry (slot_new (slot_eq_some_iff.mpr ⟨index, rfl, found⟩))).nLastSuccess
  · intro info member
    obtain ⟨index, found⟩ := List.mem_iff_getElem?.mp member
    exact (good found).1
  · intro place member
    obtain ⟨positive, range⟩ := listed place member
    rw [entries_length] at range
    refine ⟨positive, ?_⟩
    split_ifs with full
    · by_contra more
      obtain ⟨index, shape⟩ : ∃ index : Nat, place.2 = ((file.new.length + index : Nat) : Int) :=
        ⟨(place.2 - file.new.length).toNat, by omega⟩
      have inside : index < (file.keptTried hash64).length := by omega
      refine counted_ne_nil member ?_
      rw [shape]
      exact (good (List.getElem?_eq_getElem inside)).2 full
    · omega
  · intro full id positive range
    obtain ⟨index, rfl⟩ := Int.eq_ofNat_of_zero_le positive
    have inside : index < file.new.length := by omega
    have found : slot file.new (index : Int) = some file.new[index] := by
      rw [slot_natCast, List.getElem?_eq_getElem inside]
    have fresh := wellFormed.new.2 _ (List.getElem_mem inside)
    have known := loaded.known nNew (@slot_new hash64 _ _ _ found)
    obtain ⟨stored, shape⟩ : ∃ stored, counting file.nUBuckets.toInt (places file.buckets.zipIdx) index
        { CAddrMan.newEntry file.nUBuckets.toInt file.new[index] with nRandomPos := index } = stored := ⟨_, rfl⟩
    have isNew : stored.fInTried = false := by
      rw [← shape]
      exact fresh.fInTried
    have references : stored.nRefCount = (counted (places file.buckets.zipIdx) index).length := by
      rw [← shape, counting, if_pos full]
      dsimp only
      rw [CAddrMan.newEntry, if_neg (not_not.mpr full), fresh.nRefCount, add_zero, zero_add]
    rw [shape] at known
    have bounds := (checked.entry _ _ known).new isNew
    have count := checked.new index
    rw [getElem?_mapNew, known, Option.bind_some, isNew, if_neg Bool.false_ne_true, Option.getD_some, references,
      loaded.count_new wellFormed nNew full] at count
    rw [references] at bounds
    refine ⟨fun none => ?_, Multiset.toFinset_card_eq_card_iff_nodup.mp (Nat.cast_inj.mp count)⟩
    rw [none] at bounds
    exact absurd bounds.1 (by decide)

/-- An entry is a new or a tried one. -/
theorem slot_entries {id : Int} {entry : CAddrInfo} (found : slot (file.entries hash64) id = some entry) :
    (∃ info, slot file.new id = some info ∧ entry = CAddrMan.newEntry file.nUBuckets.toInt info) ∨
      ∃ (index : Nat) (info : CAddrInfo), id = ((file.new.length + index : Nat) : Int) ∧
        (file.keptTried hash64)[index]? = some info ∧ entry = triedEntry info := by
  obtain ⟨place, rfl, there⟩ := slot_eq_some_iff.mp found
  by_cases isNew : place < file.new.length
  · rw [entries, List.getElem?_append_left (by rw [List.length_map]; exact isNew), List.getElem?_map] at there
    obtain ⟨info, was, rfl⟩ := Option.map_eq_some_iff.mp there
    exact .inl ⟨info, by rw [slot_natCast]; exact was, rfl⟩
  · rw [entries, List.getElem?_append_right (by rw [List.length_map]; omega), List.length_map, List.getElem?_map] at there
    obtain ⟨info, was, rfl⟩ := Option.map_eq_some_iff.mp there
    exact .inr ⟨place - file.new.length, info, by omega, was, rfl⟩

/-- An entry that has been placed is as it should be between two calls. -/
theorem Sound.entry_sound (wellFormed : file.WellFormed) (sound : file.Sound hash64) {id : Int} {entry : CAddrInfo} (found : slot (file.entries hash64) id = some entry) :
    (counting file.nUBuckets.toInt (places file.buckets.zipIdx) id { entry with nRandomPos := id }).Sound True := by
  have count := toNat_passes sound.nNew
  have news := wellFormed.new.1
  rcases slot_entries found with ⟨info, was, rfl⟩ | ⟨index, info, rfl, there, rfl⟩
  · have fresh := wellFormed.new.2 info (mem_of_slot was)
    refine ⟨fun tried => absurd (fresh.fInTried.symm.trans tried) Bool.false_ne_true, fun _ => ?_,
      sound.new info (mem_of_slot was), fun _ => fresh.nLastTry.symm ▸ Int64.le_refl 0⟩
    show 1 ≤ info.nRefCount + _ + _ ∧ info.nRefCount + _ + _ ≤ newBucketsPerAddress
    rw [fresh.nRefCount]
    by_cases full : file.nUBuckets.toInt = newBucketCount
    · have bounds := slot_lt was
      have some := List.length_pos_of_ne_nil (sound.references full id bounds.1 (by omega)).1
      have most : (counted (places file.buckets.zipIdx) id).length ≤ newBucketsPerAddress.toNat := by
        rw [counted, List.length_take]
        exact min_le_left _ _
      rw [if_neg (not_not.mpr full), if_pos full]
      omega
    · rw [if_pos full, if_neg full]
      decide
  · have fresh := wellFormed.tried.2 info (mem_of_mem_kept (List.mem_of_getElem? there))
    have good := sound.tried info (List.mem_of_getElem? there)
    refine ⟨fun _ => ⟨?_, good⟩, (fun isNew => by cases isNew), Int64.le_of_lt good, fun _ => fresh.nLastTry.symm ▸ Int64.le_refl 0⟩
    show info.nRefCount + _ = 0
    rw [fresh.nRefCount, zero_add]
    split_ifs with full
    · have unlisted : ((file.new.length + index : Nat) : Int) ∉ (places file.buckets.zipIdx).map Prod.snd := fun member => by
        obtain ⟨place, listed, same⟩ := List.mem_map.mp member
        have bounds := sound.indexes place listed
        rw [if_pos full] at bounds
        omega
      rw [counted_of_unlisted unlisted]
      rfl
    · rfl

section Built

variable {base s : CAddrMan} (loaded : Loaded hash64 file base s) (wellFormed : file.WellFormed) (sound : file.Sound hash64)
include loaded wellFormed sound

theorem Loaded.mapInfo_eq (id : Int) : s.mapInfo[id]? = (slot (file.entries hash64) id).map fun info =>
    counting file.nUBuckets.toInt (places file.buckets.zipIdx) id { info with nRandomPos := id } := by
  cases found : slot (file.entries hash64) id with
  | some info =>
      rw [loaded.known sound.nNew found]
      rfl
  | none =>
      have unlisted : id ∉ (places file.buckets.zipIdx).map Prod.snd := fun member => by
        obtain ⟨place, listed, rfl⟩ := List.mem_map.mp member
        obtain ⟨positive, range⟩ := sound.indexes place listed
        have count := toNat_passes sound.nNew
        have news := wellFormed.new.1
        have inside : place.2.toNat < (file.entries hash64).length := by
          rw [entries_length]
          split_ifs at range <;> omega
        rw [slot, if_pos positive, List.getElem?_eq_getElem inside] at found
        cases found
      rw [(loaded.listed sound.nNew).mapInfo, (loaded.placed sound.nNew).mapInfo, found, if_neg unlisted]
      rfl

theorem Loaded.indexed : s.Indexed := by
  have known := loaded.mapInfo_eq wellFormed sound
  have length := entries_length hash64 file
  have count := toNat_passes sound.nNew
  have news := wellFormed.new.1
  have distinct := sound.addresses
  rw [← addresses_entries] at distinct
  have placed := loaded.placed sound.nNew
  have positions : s.vRandom = (List.range (file.entries hash64).length).map Nat.cast := loaded.vRandom.trans placed.vRandom
  constructor
  · rw [loaded.nIdCount]
    have positive := sound.nNew
    omega
  · intro id info found
    rw [known] at found
    obtain ⟨entry, there, -⟩ := Option.map_eq_some_iff.mp found
    have bounds := slot_lt there
    rw [loaded.nIdCount]
    omega
  · intro id addr
    show proj (fun info => info.toCNetAddr) s id = some addr ↔ s.mapAddr[addr]? = some id
    rw [proj, known, Option.map_map, (loaded.listed sound.nNew).mapAddr]
    constructor
    · intro found
      obtain ⟨entry, there, rfl⟩ := Option.map_eq_some_iff.mp found
      exact (placed.mapAddr distinct there : base.mapAddr[entry.toCNetAddr]? = some id)
    · intro found
      obtain ⟨entry, there, rfl⟩ := placed.addresses found
      rw [there]
      rfl
  · intro id pos
    rw [proj, known, Option.map_map, positions, slot_eq_some_iff]
    constructor
    · intro found
      obtain ⟨entry, there, rfl⟩ := Option.map_eq_some_iff.mp found
      obtain ⟨index, rfl, -⟩ := slot_eq_some_iff.mp there
      refine ⟨index, rfl, ?_⟩
      have bounds := (slot_lt there).2
      rw [List.getElem?_map, List.getElem?_range (by omega)]
      rfl
    · rintro ⟨index, rfl, found⟩
      rw [List.getElem?_map] at found
      obtain ⟨place, there, rfl⟩ := Option.map_eq_some_iff.mp found
      obtain ⟨range, same⟩ := List.getElem?_eq_some_iff.mp there
      rw [List.getElem_range] at same
      subst same
      rw [List.length_range] at range
      rw [slot_natCast, List.getElem?_eq_getElem range]
      rfl

theorem Loaded.refs_of_none {id : Int} (absent : slot (file.entries hash64) id = none) : s.refs id = 0 := by
  rw [refs, proj, loaded.mapInfo_eq wellFormed sound, absent]
  rfl

/-- The references are as many as the buckets, where these are read. -/
theorem Loaded.count_of_full (full : file.nUBuckets.toInt = newBucketCount) (id : Int) :
    (s.newContents.count id : Int) = s.refs id := by
  rw [loaded.count_new wellFormed sound.nNew full]
  have range : counted (places file.buckets.zipIdx) id ≠ [] → 0 ≤ id ∧ id < file.nNew.toInt := fun some => by
    by_cases listed : id ∈ (places file.buckets.zipIdx).map Prod.snd
    · obtain ⟨place, member, rfl⟩ := List.mem_map.mp listed
      have bounds := sound.indexes place member
      rw [if_pos full] at bounds
      exact bounds
    · exact absurd (counted_of_unlisted listed) some
  have distinct : (counted (places file.buckets.zipIdx) id).Nodup := by
    by_cases none : counted (places file.buckets.zipIdx) id = []
    · rw [none]
      exact List.nodup_nil
    · exact (sound.references full id (range none).1 (range none).2).2
  rw [List.toFinset_card_of_nodup distinct]
  cases found : slot (file.entries hash64) id with
  | some entry =>
      rw [loaded.refs_eq sound.nNew found, if_pos full, unreferenced wellFormed full (mem_of_slot found), zero_add]
  | none =>
      have nothing : counted (places file.buckets.zipIdx) id = [] := by
        by_contra some
        obtain ⟨positive, less⟩ := range some
        have count := toNat_passes sound.nNew
        have length := entries_length hash64 file
        have news := wellFormed.new.1
        rw [slot, if_pos positive, List.getElem?_eq_getElem (by omega)] at found
        cases found
      rw [nothing, loaded.refs_of_none wellFormed sound found]
      rfl

/-- Where the buckets are rebuilt, a new entry is in the one of its source. -/
theorem Loaded.count_of_rebuilt (rebuilt : file.nUBuckets.toInt ≠ newBucketCount) (id : Int) :
    (s.newContents.count id : Int) = s.refs id := by
  have member : ∀ b, id ∈ s.vvNew b ↔
      ∃ info, slot file.new id = some info ∧ info.getNewBucket hash64 file.nKey info.source = b := fun b => by
    rw [(loaded.listed sound.nNew).vvNew, loaded.vvNew]
    exact ⟨fun held => held.elim And.right fun full => absurd full.1 rebuilt, fun held => .inl ⟨rebuilt, held⟩⟩
  rw [count_newContents]
  simp only [member]
  cases isNew : slot file.new id with
  | some info =>
      have one : (Finset.univ.filter fun b => ∃ other, some info = some other ∧
          other.getNewBucket hash64 file.nKey other.source = b) = {info.getNewBucket hash64 file.nKey info.source} := by
        ext b
        rw [Finset.mem_filter, Finset.mem_singleton]
        constructor
        · rintro ⟨-, other, same, rfl⟩
          rw [Option.some.inj same]
        · rintro rfl
          exact ⟨Finset.mem_univ _, info, rfl, rfl⟩
      rw [one, Finset.card_singleton, loaded.refs_eq sound.nNew (slot_new isNew), if_neg rebuilt, CAddrMan.newEntry, if_pos rebuilt,
        (wellFormed.new.2 info (mem_of_slot isNew)).nRefCount]
      rfl
  | none =>
      have nothing : (Finset.univ.filter fun b => ∃ other : CAddrInfo, none = some other ∧
          other.getNewBucket hash64 file.nKey other.source = b) = ∅ :=
        Finset.filter_eq_empty_iff.mpr fun b _ held => by
          obtain ⟨other, wrong, -⟩ := held
          cases wrong
      rw [nothing, Finset.card_empty]
      cases found : slot (file.entries hash64) id with
      | none => rw [loaded.refs_of_none wellFormed sound found, Nat.cast_zero]
      | some entry =>
          rcases slot_entries found with ⟨info, was, -⟩ | ⟨index, info, -, there, rfl⟩
          · rw [isNew] at was
            cases was
          · have fresh := wellFormed.tried.2 info (mem_of_mem_kept (List.mem_of_getElem? there))
            rw [loaded.refs_eq sound.nNew found, if_neg rebuilt, triedEntry, fresh.nRefCount]
            rfl

theorem Loaded.mem_tried (id : Int) :
    id ∈ (List.range (file.keptTried hash64).length).map (fun j : Nat => file.nNew.toInt + j) ↔ s.inTried id = true := by
  have count := toNat_passes sound.nNew
  have news := wellFormed.new.1
  rw [inTried, proj, loaded.mapInfo_eq wellFormed sound, List.mem_map]
  constructor
  · rintro ⟨index, range, rfl⟩
    have there := List.getElem?_eq_getElem (List.mem_range.mp range)
    have place : ((file.new.length + index : Nat) : Int) = file.nNew.toInt + index := by omega
    rw [← place, slot_tried there]
    rfl
  · intro tried
    cases found : slot (file.entries hash64) id with
    | none =>
        rw [found] at tried
        cases tried
    | some entry =>
        rw [found] at tried
        rcases slot_entries found with ⟨info, was, rfl⟩ | ⟨index, info, place, there, -⟩
        · have fresh := (wellFormed.new.2 info (mem_of_slot was)).fInTried
          exact absurd (fresh.symm.trans tried) Bool.false_ne_true
        · exact ⟨index, List.mem_range.mpr (List.getElem?_eq_some_iff.mp there).1, by omega⟩

theorem Loaded.bucketed : Bucketed True (fun _ => 0) s := by
  have tried := loaded.triedContents_eq sound.nNew
  have nTried : s.nTried = (file.keptTried hash64).length := by
    have count := toNat_passes sound.nTried
    have trieds := wellFormed.tried.1
    rw [loaded.nTried]
    omega
  have distinct : ((List.range (file.keptTried hash64).length).map fun j : Nat => file.nNew.toInt + j).Nodup :=
    List.nodup_range.map fun i j same => by omega
  refine ⟨fun id => ?_, fun id => ?_, fun id info known => ?_, ?_, ?_⟩
  · rw [add_zero]
    by_cases full : file.nUBuckets.toInt = newBucketCount
    · exact loaded.count_of_full wellFormed sound full id
    · exact loaded.count_of_rebuilt wellFormed sound full id
  · rw [tried, Multiset.count_eq_of_nodup (Multiset.coe_nodup.mpr distinct)]
    exact if_congr (loaded.mem_tried wellFormed sound id) rfl rfl
  · rw [loaded.mapInfo_eq wellFormed sound] at known
    obtain ⟨entry, found, rfl⟩ := Option.map_eq_some_iff.mp known
    exact sound.entry_sound wellFormed found
  · rw [nTried, tried, Multiset.coe_card, List.length_map, List.length_range]
  · have count := toNat_passes sound.nNew
    have news := wellFormed.new.1
    rw [nTried, loaded.nNew, loaded.vRandom, loaded.length]
    omega

end Built

/-- `Check_` and the ranges, of what is built from a file. -/
theorem load_robust_iff (hash64 : Bytes → UInt64) {file : AddrFile} (wellFormed : file.WellFormed) :
    (load hash64 file).2 = true ∧ (load hash64 file).1.check_ = 0 ↔ file.Sound hash64 := by
  obtain ⟨base, built⟩ := @exists_loaded hash64 file wellFormed
  rw [inRange_iff, check_eq_zero_iff]
  constructor
  · rintro ⟨inRange, checked⟩
    exact built.file_sound wellFormed checked inRange
  · intro sound
    have length := wellFormed.buckets
    have few := sound.nUBuckets
    rw [passes] at length
    exact ⟨by omega, (built.indexed wellFormed sound).checked (built.bucketed wellFormed sound)⟩

end AddrFile

namespace CAddrMan

open AddrFile

theorem unserialize_of_read {hash64 : Bytes → UInt64} {nType : UInt32} {stream after : CDataStream} {file : AddrFile}
    (read : AddrFile.unserialize nType stream = some (file, after)) :
    unserialize hash64 nType stream = some (load hash64 file, after) := Option.bind_eq_some_iff.mpr ⟨_, read, rfl⟩

/-- What is read passes `Check_`, and its buckets are all in range, just where the stored values are sound. -/
theorem unserialize_robust_iff (hash64 : Bytes → UInt64) (nType : UInt32) {stream after : CDataStream}
    {loaded : CAddrMan × Bool} (done : unserialize hash64 nType stream = some (loaded, after)) :
    loaded.2 = true ∧ loaded.1.check_ = 0 ↔
      ∃ file, AddrFile.unserialize nType stream = some (file, after) ∧ file.Sound hash64 := by
  obtain ⟨⟨file, last⟩, read, built⟩ := Option.bind_eq_some_iff.mp done
  cases built
  rw [load_robust_iff hash64 (unserialize_wellFormed read)]
  constructor
  · exact fun sound => ⟨file, read, sound⟩
  · rintro ⟨other, again, sound⟩
    rw [read] at again
    cases again
    exact sound

end CAddrMan

section Concrete

open CAddrMan

/-- An entry from a file. -/
def sampleInfo (last : UInt8) (nLastSuccess : Int64) : CAddrInfo :=
  { CAddrInfo.ofAddress (sampleAddress last) (sampleService 9).toCNetAddr with nLastSuccess }

/-- A file with a new and a tried entry and without buckets. -/
def sampleFile : AddrFile := ⟨0, [], 1, 1, 0, [sampleInfo 1 0], [sampleInfo 2 1000], []⟩

theorem unserialize_robust_sample : ∃ loaded after,
    unserialize (fun _ => 0) serDisk (ofBytes (sampleFile.serialize serDisk)) = some (loaded, after) ∧
      loaded.2 = true ∧ loaded.1.check_ = 0 := by
  obtain ⟨after, read⟩ := @AddrFile.read_written serDisk (by decide) sampleFile
    ⟨by decide, by decide, by decide, by decide, List.forall_mem_nil _⟩ (by decide +kernel)
  have done := @unserialize_of_read (fun _ => 0) _ _ _ _ read
  have sound : sampleFile.stored.Sound fun _ => 0 :=
    ⟨by decide, by decide, by decide, by decide +kernel, by decide, by decide +kernel, List.forall_mem_nil _,
      fun full => absurd full (by decide)⟩
  exact ⟨_, _, done, (unserialize_robust_iff _ _ done).mpr ⟨_, read, sound⟩⟩

/-- An index of an entry that there is not, and a version with 257 buckets. -/
def strayFile : AddrFile := ⟨0, [], 0, 0, 1, [], [], [[0]]⟩
def widerFile : AddrFile := ⟨0, [], 0, 0, 257, [], [], List.replicate 257 []⟩

theorem damaged_files_are_loaded :
    (∃ loaded after, unserialize (fun _ => 0) serDisk (ofBytes (strayFile.serialize serDisk)) = some (loaded, after) ∧
      loaded.1.check_ ≠ 0) ∧
    ∃ loaded after, unserialize (fun _ => 0) serDisk (ofBytes (widerFile.serialize serDisk)) = some (loaded, after) ∧
      loaded.2 = false := by
  constructor
  · obtain ⟨after, read⟩ := @AddrFile.read_written serDisk (by decide) strayFile
      ⟨by decide, by decide, by decide, by decide, by decide⟩ (by decide)
    refine ⟨_, _, unserialize_of_read read, fun passed => ?_⟩
    have sound := (AddrFile.load_robust_iff (fun _ => 0) (AddrFile.unserialize_wellFormed read)).mp ⟨by decide, passed⟩
    exact absurd (sound.indexes (0, 0) (by decide)) (by decide)
  · obtain ⟨after, read⟩ := @AddrFile.read_written serDisk (by decide) widerFile
      ⟨by decide, by decide, by decide, by decide +kernel, by decide +kernel⟩ (by decide +kernel)
    refine ⟨_, _, unserialize_of_read read, Bool.eq_false_iff.mpr fun inRange => ?_⟩
    exact absurd (AddrFile.inRange_iff.mp inRange) (by decide +kernel)

end Concrete

end InfiniteRicks
