import Mathlib.Algebra.Order.BigOperators.Group.Finset
import InfiniteRicks.AddrFileSpec

/-!
# The address file, written and read

What is written are the new entries and then the tried ones, in the order of their ids, so that on reading
an entry gets its place among them for its id. Buckets list these places; a tried entry goes to the bucket that
its hash gives, as far as there is room.
-/

namespace InfiniteRicks

open Function Library Library.Codec Library.Tables CDataStream

namespace CAddrMan

/-! ## What is written -/

section Saving

variable (entries : List (Int × CAddrInfo))

/-- The entries that have references. -/
def referenced : List (Int × CAddrInfo) := entries.filter fun entry => entry.2.nRefCount ≠ 0

/-- The tried ones. -/
def triedOf : List (Int × CAddrInfo) := entries.filter fun entry => entry.2.fInTried

variable {entries}

/-- The loop writes the entries that have references, where there are as many as it is told, and numbers them. -/
theorem saveNew_spec {nNew nIds : Int} (mapUnkIds : Std.ExtTreeMap Int Int compare)
    (distinct : (entries.map Prod.fst).Nodup) (all : nNew = nIds + (referenced entries).length) :
    (saveNew nNew entries nIds mapUnkIds).2 = (referenced entries).map Prod.snd ∧
      (∀ id ∉ entries.map Prod.fst, (saveNew nNew entries nIds mapUnkIds).1[id]? = mapUnkIds[id]?) ∧
      ∀ (index : Nat) (entry : Int × CAddrInfo), (referenced entries)[index]? = some entry →
        (saveNew nNew entries nIds mapUnkIds).1[entry.1]? = some (nIds + index) := by
  induction entries generalizing nIds mapUnkIds with
  | nil => exact ⟨rfl, fun _ _ => rfl, fun index entry found => by cases found⟩
  | cons first rest ih =>
      rw [List.map_cons, List.nodup_cons] at distinct
      rw [saveNew]
      by_cases finished : nIds = nNew
      · have none : referenced (first :: rest) = [] := List.eq_nil_of_length_eq_zero (by omega)
        rw [if_pos finished, none]
        exact ⟨rfl, fun _ _ => rfl, fun index entry found => by cases found⟩
      · rw [if_neg finished]
        have apart : ∀ id ∉ (first :: rest).map Prod.fst, (mapUnkIds.insert first.1 nIds)[id]? = mapUnkIds[id]? := by
          intro id absent
          rw [Std.ExtTreeMap.getElem?_insert, if_neg]
          intro same
          exact absent (Std.LawfulEqCmp.eq_of_compare same ▸ List.mem_cons_self)
        by_cases some : first.2.nRefCount ≠ 0
        · have here : referenced (first :: rest) = first :: referenced rest := List.filter_cons_of_pos (decide_eq_true some)
          rw [here, List.length_cons] at all
          obtain ⟨list, others, numbers⟩ := @ih (nIds + 1) (mapUnkIds.insert first.1 nIds) distinct.2 (by omega)
          rw [if_pos some, here]
          refine ⟨?_, fun id absent => ?_, fun index entry found => ?_⟩
          · rw [List.map_cons, ← list]
          · exact (others id fun member => absent (List.mem_cons_of_mem _ member)).trans (apart id absent)
          · cases index with
            | zero =>
                cases found
                refine (others first.1 distinct.1).trans ?_
                rw [Std.ExtTreeMap.getElem?_insert_self]
                exact congrArg Option.some (Int.add_zero nIds).symm
            | succ index =>
                refine (numbers index entry found).trans (congrArg Option.some ?_)
                push_cast
                omega
        · have here : referenced (first :: rest) = referenced rest := List.filter_cons_of_neg (by simpa using some)
          rw [here] at all
          obtain ⟨list, others, numbers⟩ := @ih nIds (mapUnkIds.insert first.1 nIds) distinct.2 all
          rw [if_neg some, here]
          refine ⟨list, fun id absent => ?_, numbers⟩
          exact (others id fun member => absent (List.mem_cons_of_mem _ member)).trans (apart id absent)

theorem saveTried_spec {nTried nIds : Int} (all : nTried = nIds + (triedOf entries).length) :
    saveTried nTried entries nIds = (triedOf entries).map Prod.snd := by
  induction entries generalizing nIds with
  | nil => rfl
  | cons first rest ih =>
      rw [saveTried]
      by_cases finished : nIds = nTried
      · have none : triedOf (first :: rest) = [] := List.eq_nil_of_length_eq_zero (by omega)
        rw [if_pos finished, none]
        rfl
      · rw [if_neg finished]
        by_cases tried : first.2.fInTried = true
        · have here : triedOf (first :: rest) = first :: triedOf rest := List.filter_cons_of_pos tried
          rw [here, List.length_cons] at all
          rw [if_pos tried, here, List.map_cons, ih (by omega)]
        · have here : triedOf (first :: rest) = triedOf rest := List.filter_cons_of_neg tried
          rw [here] at all
          rw [if_neg tried, here, ih all]

end Saving

/-! ## Entries in the order of the file -/

/-- The entries in the order in which they are written. -/
def inFile (s : CAddrMan) : List (Int × CAddrInfo) := referenced s.mapInfo.toList ++ triedOf s.mapInfo.toList

/-- The id that an entry gets on reading. -/
def rename (s : CAddrMan) (id : Int) : Int := (s.inFile.map Prod.fst).idxOf id

variable {s : CAddrMan} {id : Int} {info : CAddrInfo}

theorem mem_toList {entry : Int × CAddrInfo} : entry ∈ s.mapInfo.toList ↔ s.mapInfo[entry.1]? = some entry.2 :=
  Std.ExtTreeMap.mem_toList_iff_getElem?_eq_some

theorem keys_nodup (s : CAddrMan) : (s.mapInfo.toList.map Prod.fst).Nodup := by
  rw [Std.ExtTreeMap.map_fst_toList_eq_keys]
  exact Std.ExtTreeMap.nodup_keys

theorem mem_referenced {entry : Int × CAddrInfo} :
    entry ∈ referenced s.mapInfo.toList ↔ s.mapInfo[entry.1]? = some entry.2 ∧ entry.2.nRefCount ≠ 0 := by
  rw [referenced, List.mem_filter, mem_toList, decide_eq_true_iff]

theorem mem_triedOf {entry : Int × CAddrInfo} :
    entry ∈ triedOf s.mapInfo.toList ↔ s.mapInfo[entry.1]? = some entry.2 ∧ entry.2.fInTried = true := by
  rw [triedOf, List.mem_filter, mem_toList]

namespace Checked

variable (checked : Checked True s)
include checked

/-- New entries are those with references. -/
theorem nRefCount_iff (known : s.mapInfo[id]? = some info) : info.nRefCount ≠ 0 ↔ info.fInTried = false := by
  have entry := checked.entry id info known
  constructor
  · intro some
    exact Bool.eq_false_iff.mpr fun tried => some (entry.tried tried).2
  · intro isNew none
    have bounds := (entry.new isNew).1
    omega

theorem mem_inFile {entry : Int × CAddrInfo} : entry ∈ s.inFile ↔ s.mapInfo[entry.1]? = some entry.2 := by
  rw [inFile, List.mem_append, mem_referenced, mem_triedOf, ← and_or_left]
  refine and_iff_left_of_imp fun known => ?_
  rw [checked.nRefCount_iff known]
  cases entry.2.fInTried
  · exact .inl rfl
  · exact .inr rfl

theorem nodup_inFile : (s.inFile.map Prod.fst).Nodup := by
  rw [inFile, List.map_append, List.nodup_append]
  refine ⟨(keys_nodup s).sublist (List.filter_sublist.map _), (keys_nodup s).sublist (List.filter_sublist.map _), ?_⟩
  intro id isNew other isTried same
  obtain ⟨first, there, rfl⟩ := List.mem_map.mp isNew
  obtain ⟨second, here, rfl⟩ := List.mem_map.mp isTried
  obtain ⟨known, some⟩ := mem_referenced.mp there
  obtain ⟨known', tried⟩ := mem_triedOf.mp here
  rw [same, known'] at known
  rw [Option.some.inj known] at tried
  have isNew := (checked.nRefCount_iff (same ▸ (mem_referenced.mp there).1)).mp some
  exact absurd (isNew.symm.trans tried) Bool.false_ne_true

theorem rename_eq {index : Nat} {entry : Int × CAddrInfo} (found : s.inFile[index]? = some entry) :
    s.rename entry.1 = index := by
  have there : (s.inFile.map Prod.fst)[index]? = some entry.1 := by rw [List.getElem?_map, found, Option.map_some]
  obtain ⟨range, same⟩ := List.getElem?_eq_some_iff.mp there
  rw [rename, ← same, checked.nodup_inFile.idxOf_getElem]

/-- Every entry has a place in the file. -/
theorem place (known : s.mapInfo[id]? = some info) :
    ∃ index : Nat, s.rename id = index ∧ s.inFile[index]? = some (id, info) := by
  obtain ⟨index, found⟩ := List.mem_iff_getElem?.mp (checked.mem_inFile.mpr known : (id, info) ∈ s.inFile)
  exact ⟨index, checked.rename_eq found, found⟩

theorem rename_inj {id' : Int} {info' : CAddrInfo} (known : s.mapInfo[id]? = some info)
    (known' : s.mapInfo[id']? = some info') (same : s.rename id = s.rename id') : id = id' := by
  obtain ⟨index, place, found⟩ := checked.place known
  obtain ⟨index', place', found'⟩ := checked.place known'
  have equal : index = index' := by omega
  rw [equal, found'] at found
  exact (congrArg Prod.fst (Option.some.inj found)).symm

theorem inFile_perm : s.inFile.Perm s.mapInfo.toList :=
  (List.perm_ext_iff_of_nodup checked.nodup_inFile.of_map (keys_nodup s).of_map).mpr fun entry => by
    rw [checked.mem_inFile, mem_toList]

theorem nTried_eq : s.nTried = (triedOf s.mapInfo.toList).length := by
  rw [← checked.nTried, setTried, List.toFinset_card_of_nodup, List.length_map]
  · rfl
  · exact (keys_nodup s).sublist (List.filter_sublist.map _)

theorem nNew_eq : s.nNew = (referenced s.mapInfo.toList).length := by
  have sizes := card_setTried_add_size_mapNew s
  have length := checked.inFile_perm.length_eq
  rw [inFile, List.length_append, Std.ExtTreeMap.length_toList] at length
  have tried := checked.nTried_eq
  rw [← checked.nTried] at tried
  rw [← checked.nNew]
  omega

/-- A new entry is in as many buckets as it has references. -/
theorem count_new (known : s.mapInfo[id]? = some info) : (s.newContents.count id : Int) = info.nRefCount := by
  have count := checked.new id
  rw [getElem?_mapNew, known, Option.bind_some] at count
  rw [count]
  cases tried : info.fInTried with
  | true => exact ((checked.entry id info known).tried tried).2.symm
  | false => rfl

theorem known_of_mem {b : Fin newBucketCount} (member : id ∈ s.vvNew b) :
    ∃ info, s.mapInfo[id]? = some info ∧ info.nRefCount ≠ 0 := by
  have positive : 0 < s.newContents.count id := Multiset.count_pos.mpr (mem_contents.mpr ⟨b, member⟩)
  have count := checked.new id
  rw [getElem?_mapNew] at count
  cases known : s.mapInfo[id]? with
  | none =>
      rw [known, Option.bind_none, Option.getD_none] at count
      omega
  | some info =>
      refine ⟨info, rfl, fun none => ?_⟩
      have here := checked.count_new known
      omega

/-! ## Few entries -/

end Checked

theorem card_newContents_le (limited : s.Limited) : s.newContents.card ≤ newBucketCount * newBucketSize := by
  rw [newContents, contents, Multiset.card_sum]
  refine (Finset.sum_le_card_nsmul _ _ _ fun b _ => limited.new b).trans ?_
  rw [Finset.card_univ, Fintype.card_fin, smul_eq_mul]

theorem card_triedContents_le (limited : s.Limited) : s.triedContents.card ≤ triedBucketCount * triedBucketSize := by
  rw [triedContents, contents, Multiset.card_sum]
  refine (Finset.sum_le_card_nsmul _ _ triedBucketSize fun b _ => ?_).trans ?_
  · rw [Multiset.coe_card]
    exact limited.tried b
  · rw [Finset.card_univ, Fintype.card_fin, smul_eq_mul]

/-- What is listed is at most as much as the lists hold. -/
theorem card_le_of_counted {ids : Finset Int} {contents : Multiset Int} (counted : ∀ id ∈ ids, 0 < contents.count id) :
    ids.card ≤ contents.card := by
  have inside : ids ⊆ contents.toFinset := fun id member =>
    Multiset.mem_toFinset.mpr (Multiset.count_pos.mp (counted id member))
  exact (Finset.card_le_card inside).trans (Multiset.toFinset_card_le contents)

theorem Checked.nNew_le (checked : Checked True s) (limited : s.Limited) :
    (referenced s.mapInfo.toList).length ≤ newBucketCount * newBucketSize := by
  have distinct : ((referenced s.mapInfo.toList).map Prod.fst).Nodup := (keys_nodup s).sublist (List.filter_sublist.map _)
  have card : ((referenced s.mapInfo.toList).map Prod.fst).toFinset.card ≤ s.newContents.card := by
    refine card_le_of_counted fun id member => ?_
    obtain ⟨entry, there, rfl⟩ := List.mem_map.mp (List.mem_toFinset.mp member)
    obtain ⟨known, some⟩ := mem_referenced.mp there
    have count := checked.count_new known
    omega
  rw [List.toFinset_card_of_nodup distinct, List.length_map] at card
  exact card.trans (card_newContents_le limited)

theorem Checked.nTried_le (checked : Checked True s) (limited : s.Limited) :
    (triedOf s.mapInfo.toList).length ≤ triedBucketCount * triedBucketSize := by
  have card : s.setTried.card ≤ s.triedContents.card := card_le_of_counted fun id member => by
    rw [(checked.tried id).trans (if_pos member)]
    exact Nat.one_pos
  have tried := checked.nTried_eq
  rw [← checked.nTried] at tried
  have same : (triedOf s.mapInfo.toList).length = s.setTried.card := by omega
  rw [same]
  exact card.trans (card_triedContents_le limited)

/-! ## The file -/

/-- What is in the file: the buckets list the places of their entries. -/
theorem Checked.save_eq (checked : Checked True s) : s.save =
    { nVersion := 0
      nKey := s.nKey
      nNew := Int32.ofInt s.nNew
      nTried := Int32.ofInt s.nTried
      nUBuckets := Int32.ofNat newBucketCount
      new := (referenced s.mapInfo.toList).map Prod.snd
      tried := (triedOf s.mapInfo.toList).map Prod.snd
      buckets := (List.finRange newBucketCount).map fun b =>
        ((s.vvNew b).sort (· ≤ ·)).map fun id => Int32.ofInt (s.rename id) } := by
  obtain ⟨new, -, numbers⟩ := @saveNew_spec s.mapInfo.toList s.nNew 0 ∅ (keys_nodup s) (by rw [checked.nNew_eq, zero_add])
  have tried := @saveTried_spec s.mapInfo.toList s.nTried 0 (by rw [checked.nTried_eq, zero_add])
  have buckets : ((List.finRange newBucketCount).map fun b => (s.newIds b).map fun id =>
      Int32.ofInt ((saveNew s.nNew s.mapInfo.toList 0 ∅).1[id]?.getD 0)) =
      (List.finRange newBucketCount).map fun b => ((s.vvNew b).sort (· ≤ ·)).map fun id => Int32.ofInt (s.rename id) := by
    refine List.map_congr_left fun b _ => List.map_congr_left fun id member => ?_
    obtain ⟨info, known, some⟩ := checked.known_of_mem ((Finset.mem_sort _).mp member)
    obtain ⟨index, found⟩ := List.mem_iff_getElem?.mp (mem_referenced.mpr ⟨known, some⟩ : (id, info) ∈ _)
    have place : s.inFile[index]? = Option.some (id, info) := by
      rw [inFile, List.getElem?_append_left (List.getElem?_eq_some_iff.mp found).1, found]
    have number := numbers index (id, info) found
    rw [number, Option.getD_some, zero_add, checked.rename_eq place]
  rw [save, new, tried, buckets]

/-- A number of entries as it is stored. -/
theorem toInt_count {count bound : Nat} (few : count ≤ bound) (small : bound < 2 ^ 31) :
    (Int32.ofInt count).toInt = count := by
  rw [Int32.toInt_ofInt_of_le (by omega) (by omega)]

section File

variable (checked : Checked True s) (limited : s.Limited)
include checked limited

theorem Checked.toInt_nNew : s.save.nNew.toInt = (referenced s.mapInfo.toList).length := by
  rw [checked.save_eq]
  dsimp only
  rw [checked.nNew_eq]
  exact toInt_count (checked.nNew_le limited) (by decide)

theorem Checked.toInt_nTried : s.save.nTried.toInt = (triedOf s.mapInfo.toList).length := by
  rw [checked.save_eq]
  dsimp only
  rw [checked.nTried_eq]
  exact toInt_count (checked.nTried_le limited) (by decide)

theorem Checked.fits (key : s.nKey.length ≤ maxSize) : s.save.Fits := by
  have nNew := checked.toInt_nNew limited
  have nTried := checked.toInt_nTried limited
  refine ⟨?_, ?_, ?_, ?_, ?_⟩
  · rw [checked.save_eq]
    exact key
  · rw [AddrFile.passes, nNew, checked.save_eq, List.length_map, Int.toNat_natCast]
  · rw [AddrFile.passes, nTried, checked.save_eq, List.length_map, Int.toNat_natCast]
  · rw [checked.save_eq]
    dsimp only
    rw [List.length_map, List.length_finRange]
    decide
  · intro bucket member
    rw [checked.save_eq] at member
    obtain ⟨b, -, rfl⟩ := List.mem_map.mp member
    rw [List.length_map, Finset.length_sort]
    exact lt_of_le_of_lt (limited.new b) (by decide)

end File

/-! ## Its size -/

theorem length_flatMap_le {α : Type} (list : List α) {f : α → Bytes} {size : Nat}
    (each : ∀ a ∈ list, (f a).length ≤ size) : (list.flatMap f).length ≤ list.length * size := by
  induction list with
  | nil => exact Nat.zero_le _
  | cons a rest ih =>
      obtain ⟨here, others⟩ := List.forall_mem_cons.mp each
      have more := ih others
      rw [List.flatMap_cons, List.length_append, List.length_cons, Nat.succ_mul]
      omega

theorem length_serialize_le (nType : UInt32) (nVersion : Int32) (info : CAddrInfo) :
    (info.serialize nType nVersion).length ≤ 62 := by
  have source := info.source.size
  have ip := info.size
  simp only [CAddrInfo.serialize, CAddress.serialize, CService.serialize, CNetAddr.serialize, writeInt32, writeInt64,
    writeUInt32, writeUInt64, List.length_append, length_littleEndianBytes, List.length_cons, List.length_nil, ip, source]
  split_ifs <;> simp

theorem length_writeBytes_le (v : Bytes) : (writeBytes v).length ≤ 9 + v.length := by
  rw [writeBytes, List.length_append, writeCompactSize]
  split_ifs <;> simp

theorem Checked.serialize_small (checked : Checked True s) (limited : s.Limited) (key : s.nKey.length ≤ maxSize)
    (nType : UInt32) : (s.serialize nType).length < 2 ^ 32 := by
  have infos : ∀ list : List CAddrInfo,
      (list.flatMap (CAddrInfo.serialize nType (AddrFile.version s.save.nVersion))).length ≤ list.length * 62 :=
    fun list => length_flatMap_le list fun info _ => length_serialize_le nType _ info
  have buckets : (s.save.buckets.flatMap AddrFile.writeBucket).length ≤ s.save.buckets.length * (4 + newBucketSize * 4) := by
    refine length_flatMap_le _ fun bucket member => ?_
    have few : bucket.length ≤ newBucketSize := by
      rw [checked.save_eq] at member
      obtain ⟨b, -, rfl⟩ := List.mem_map.mp member
      rw [List.length_map, Finset.length_sort]
      exact limited.new b
    have each := @length_flatMap_le _ bucket writeInt32 4 fun value _ => (length_littleEndianBytes 4 _).le
    rw [AddrFile.writeBucket, List.length_append, writeInt32, length_littleEndianBytes]
    exact Nat.add_le_add_left (each.trans (Nat.mul_le_mul_right 4 few)) 4
  have news := infos s.save.new
  have trieds := infos s.save.tried
  have nKey := length_writeBytes_le s.save.nKey
  have count : s.save.new.length = (referenced s.mapInfo.toList).length ∧
      s.save.tried.length = (triedOf s.mapInfo.toList).length ∧ s.save.buckets.length = newBucketCount ∧
      s.save.nKey = s.nKey := by
    rw [checked.save_eq]
    dsimp only
    rw [List.length_map, List.length_map, List.length_map, List.length_finRange]
    exact ⟨rfl, rfl, rfl, rfl⟩
  obtain ⟨countNew, countTried, countBuckets, sameKey⟩ := count
  have mostNew := checked.nNew_le limited
  have mostTried := checked.nTried_le limited
  rw [countNew] at news
  rw [countTried] at trieds
  rw [countBuckets] at buckets
  have keyLength : s.save.nKey.length = s.nKey.length := congrArg List.length sameKey
  rw [serialize, AddrFile.serialize]
  simp only [List.length_append, writeChar, writeInt32, length_littleEndianBytes]
  simp only [newBucketCount, newBucketSize, triedBucketCount, triedBucketSize, maxSize] at mostNew mostTried buckets key
  omega

/-! ## What is read back -/

section Back

variable {hash64 : Bytes → UInt64}

/-- All tried entries are kept where every bucket of the hash has room. -/
theorem kept_eq {nKey : Bytes} {tried : List CAddrInfo}
    (room : ∀ b, (tried.filter fun info => info.getTriedBucket hash64 nKey = b).length ≤ triedBucketSize) :
    AddrFile.kept hash64 nKey tried = tried := by
  induction tried using List.reverseRecOn with
  | nil => rfl
  | append_singleton done info ih =>
      have before : ∀ b, (done.filter fun other => other.getTriedBucket hash64 nKey = b).length ≤ triedBucketSize := by
        intro b
        refine le_trans ?_ (room b)
        rw [List.filter_append, List.length_append]
        exact Nat.le_add_right _ _
      have own := room (info.getTriedBucket hash64 nKey)
      rw [List.filter_append, List.length_append, List.filter_singleton, decide_eq_true rfl] at own
      rw [AddrFile.kept, List.foldl_append, List.foldl_cons, List.foldl_nil]
      change AddrFile.keep hash64 nKey (AddrFile.kept hash64 nKey done) info = done ++ [info]
      rw [ih before, AddrFile.keep]
      exact if_pos own

/-- There is room for the tried entries in the buckets that their hashes give. -/
def Roomy (hash64 : Bytes → UInt64) (s : CAddrMan) : Prop :=
  ∀ b, ((triedOf s.mapInfo.toList).filter fun entry => entry.2.getTriedBucket hash64 s.nKey = b).length ≤ triedBucketSize

/-- An entry as it is placed on reading. -/
def reread (info : CAddrInfo) : CAddrInfo := { info.stored with fInTried := info.fInTried }

theorem Checked.keptTried_eq (checked : Checked True s) (roomy : Roomy hash64 s) :
    s.save.stored.keptTried hash64 = (triedOf s.mapInfo.toList).map fun entry => entry.2.stored := by
  have tried : s.save.stored.tried = (triedOf s.mapInfo.toList).map fun entry => entry.2.stored := by
    show s.save.tried.map CAddrInfo.stored = _
    rw [checked.save_eq, List.map_map]
    rfl
  have nKey : s.save.stored.nKey = s.nKey := rfl
  rw [AddrFile.keptTried, tried, nKey]
  refine kept_eq fun b => ?_
  rw [List.filter_map, List.length_map]
  exact roomy b

theorem Checked.entries_eq (checked : Checked True s) (roomy : Roomy hash64 s) :
    s.save.stored.entries hash64 = s.inFile.map fun entry => reread entry.2 := by
  have new : s.save.stored.new = (referenced s.mapInfo.toList).map fun entry => entry.2.stored := by
    show s.save.new.map CAddrInfo.stored = _
    rw [checked.save_eq, List.map_map]
    rfl
  have same : s.save.stored.nUBuckets.toInt = newBucketCount := rfl
  rw [AddrFile.entries, checked.keptTried_eq roomy, new, same, inFile, List.map_append, List.map_map, List.map_map]
  refine congrArg₂ (· ++ ·) (List.map_congr_left fun entry member => ?_) (List.map_congr_left fun entry member => ?_)
  · obtain ⟨known, some⟩ := mem_referenced.mp member
    have isNew := (checked.nRefCount_iff known).mp some
    rw [comp_apply, newEntry, if_neg (not_not.mpr rfl), reread, isNew]
    rfl
  · rw [comp_apply, triedEntry, reread, (mem_triedOf.mp member).2]

theorem Checked.slot_rename (checked : Checked True s) (roomy : Roomy hash64 s) (known : s.mapInfo[id]? = some info) :
    slot (s.save.stored.entries hash64) (s.rename id) = some (reread info) := by
  obtain ⟨index, place, found⟩ := checked.place known
  rw [place, slot_natCast, checked.entries_eq roomy, List.getElem?_map, found, Option.map_some]

/-! ### The buckets -/

theorem zipIdx_finRange {α : Type} (count : Nat) (f : Fin count → α) :
    ((List.finRange count).map f).zipIdx = (List.finRange count).map fun b => (f b, b.val) := by
  refine List.ext_getElem (by simp) fun index inside _ => ?_
  simp

/-- The place of a new entry as it is stored. -/
theorem Checked.toInt_rename (checked : Checked True s) (limited : s.Limited) {b : Fin newBucketCount}
    (member : id ∈ s.vvNew b) : (Int32.ofInt (s.rename id)).toInt = s.rename id ∧ 0 ≤ s.rename id ∧
      s.rename id < (referenced s.mapInfo.toList).length := by
  obtain ⟨info, known, some⟩ := checked.known_of_mem member
  obtain ⟨index, found⟩ := List.mem_iff_getElem?.mp (mem_referenced.mpr ⟨known, some⟩ : (id, info) ∈ _)
  have range := (List.getElem?_eq_some_iff.mp found).1
  have place : s.inFile[index]? = Option.some (id, info) := by
    rw [inFile, List.getElem?_append_left range, found]
  have number := checked.rename_eq place
  dsimp only at number
  rw [number]
  exact ⟨toInt_count (range.le.trans (checked.nNew_le limited)) (by decide), Int.natCast_nonneg _, Int.ofNat_lt.mpr range⟩

theorem Checked.places_eq (checked : Checked True s) (limited : s.Limited) : places s.save.stored.buckets.zipIdx =
    (List.finRange newBucketCount).flatMap fun b => ((s.vvNew b).sort (· ≤ ·)).map fun id => (b.val, s.rename id) := by
  have buckets : s.save.stored.buckets = (List.finRange newBucketCount).map fun b =>
      ((s.vvNew b).sort (· ≤ ·)).map fun id => Int32.ofInt (s.rename id) := by
    show s.save.buckets = _
    rw [checked.save_eq]
  rw [places, buckets, zipIdx_finRange, List.flatMap_map]
  refine List.flatMap_congr fun b _ => ?_
  rw [List.map_map, List.map_map]
  refine List.map_congr_left fun id member => ?_
  rw [comp_apply, comp_apply, (checked.toInt_rename limited ((Finset.mem_sort _).mp member)).1]

theorem card_filter_fin {count : Nat} (p : Fin count → Prop) [DecidablePred p] :
    (Finset.univ.filter p).card = ((List.finRange count).filter p).length := rfl

/-- The buckets of an entry. -/
def bucketsOf (s : CAddrMan) (id : Int) : List Nat := ((List.finRange newBucketCount).filter fun b => id ∈ s.vvNew b).map Fin.val

theorem nodup_bucketsOf (s : CAddrMan) (id : Int) : (s.bucketsOf id).Nodup :=
  ((List.nodup_finRange _).filter _).map Fin.val_injective

theorem mem_bucketsOf {b : Fin newBucketCount} : b.val ∈ s.bucketsOf id ↔ id ∈ s.vvNew b := by
  rw [bucketsOf, List.mem_map_of_injective Fin.val_injective, List.mem_filter, decide_eq_true_iff]
  exact and_iff_right (List.mem_finRange b)

theorem Checked.length_bucketsOf (checked : Checked True s) (known : s.mapInfo[id]? = some info) :
    ((s.bucketsOf id).length : Int) = info.nRefCount := by
  rw [← checked.count_new known, count_newContents, bucketsOf, List.length_map, card_filter_fin]

theorem Checked.listing_eq (checked : Checked True s) (limited : s.Limited) (known : s.mapInfo[id]? = some info) :
    listing (places s.save.stored.buckets.zipIdx) (s.rename id) = s.bucketsOf id := by
  have one : ∀ b : Fin newBucketCount, ((((s.vvNew b).sort (· ≤ ·)).map fun other => (b.val, s.rename other)).filter
      fun place => place.2 = s.rename id) = if id ∈ s.vvNew b then [(b.val, s.rename id)] else [] := by
    intro b
    have keep : ((s.vvNew b).sort (· ≤ ·)).filter ((fun place : Nat × Int => decide (place.2 = s.rename id)) ∘
        fun other => (b.val, s.rename other)) = ((s.vvNew b).sort (· ≤ ·)).filter fun other => other = id := by
      refine List.filter_congr fun other there => decide_eq_decide.mpr ⟨fun same => ?_, congrArg s.rename⟩
      obtain ⟨info', known', -⟩ := checked.known_of_mem ((Finset.mem_sort _).mp there)
      exact checked.rename_inj known' known same
    rw [List.filter_map, keep, List.filter_eq]
    by_cases member : id ∈ s.vvNew b
    · rw [if_pos member, List.count_eq_one_of_mem (Finset.sort_nodup _ _) ((Finset.mem_sort _).mpr member)]
      rfl
    · rw [if_neg member, List.count_eq_zero_of_not_mem fun there => member ((Finset.mem_sort _).mp there)]
      rfl
  rw [listing, checked.places_eq limited, List.filter_flatMap]
  simp only [one]
  rw [bucketsOf]
  induction List.finRange newBucketCount with
  | nil => rfl
  | cons b rest ih =>
      rw [List.flatMap_cons, List.map_append, ih, List.filter_cons]
      by_cases member : id ∈ s.vvNew b
      · rw [if_pos member, if_pos (decide_eq_true member)]
        rfl
      · rw [if_neg member, if_neg fun wrong => member (of_decide_eq_true wrong)]
        rfl

theorem Checked.counted_eq (checked : Checked True s) (limited : s.Limited) (known : s.mapInfo[id]? = some info) :
    counted (places s.save.stored.buckets.zipIdx) (s.rename id) = s.bucketsOf id := by
  have length := checked.length_bucketsOf known
  have few : info.nRefCount ≤ newBucketsPerAddress := by
    cases tried : info.fInTried with
    | true =>
        rw [((checked.entry id info known).tried tried).2]
        decide
    | false => exact ((checked.entry id info known).new tried).2
  rw [counted, checked.listing_eq limited known]
  exact List.take_of_length_le (by omega)

/-! ### The conditions on a file -/

theorem Checked.addresses (checked : Checked True s) : (s.inFile.map fun entry => entry.2.toCNetAddr).Nodup := by
  refine checked.nodup_inFile.of_map.map_on fun first there second here same => ?_
  have left := (checked.entry _ _ (checked.mem_inFile.mp there)).address
  have right := (checked.entry _ _ (checked.mem_inFile.mp here)).address
  rw [same, right] at left
  have known := checked.mem_inFile.mp there
  rw [← left, checked.mem_inFile.mp here] at known
  exact Prod.ext left.symm (Option.some.inj known).symm

theorem Checked.sound (checked : Checked True s) (limited : s.Limited) (roomy : Roomy hash64 s) :
    s.save.stored.Sound hash64 := by
  have nNew : s.save.stored.nNew.toInt = (referenced s.mapInfo.toList).length := checked.toInt_nNew limited
  have nTried : s.save.stored.nTried.toInt = (triedOf s.mapInfo.toList).length := checked.toInt_nTried limited
  have full : s.save.stored.nUBuckets.toInt = newBucketCount := rfl
  refine ⟨?_, ?_, full.le, ?_, ?_, ?_, ?_, ?_⟩
  · rw [nNew]
    exact Int.natCast_nonneg _
  · rw [nTried]
    exact Int.natCast_nonneg _
  · rw [← AddrFile.addresses_entries, checked.entries_eq roomy, List.map_map]
    exact checked.addresses
  · intro info member
    have new : s.save.stored.new = (referenced s.mapInfo.toList).map fun entry => entry.2.stored := by
      show s.save.new.map CAddrInfo.stored = _
      rw [checked.save_eq, List.map_map]
      rfl
    rw [new] at member
    obtain ⟨entry, there, rfl⟩ := List.mem_map.mp member
    exact (checked.entry _ _ (mem_referenced.mp there).1).nLastSuccess
  · intro info member
    rw [checked.keptTried_eq roomy] at member
    obtain ⟨entry, there, rfl⟩ := List.mem_map.mp member
    obtain ⟨known, tried⟩ := mem_triedOf.mp there
    have good := checked.entry _ _ known
    exact Int64.lt_of_le_of_ne good.nLastSuccess (Ne.symm (good.tried tried).1)
  · intro place member
    rw [checked.places_eq limited] at member
    obtain ⟨b, -, inBucket⟩ := List.mem_flatMap.mp member
    obtain ⟨id, listed, rfl⟩ := List.mem_map.mp inBucket
    rw [if_pos full, nNew]
    exact (checked.toInt_rename limited ((Finset.mem_sort _).mp listed)).2
  · intro _ id positive range
    rw [nNew] at range
    obtain ⟨index, rfl⟩ := Int.eq_ofNat_of_zero_le positive
    have inside : index < (referenced s.mapInfo.toList).length := by omega
    have member := List.getElem_mem inside
    obtain ⟨known, some⟩ := mem_referenced.mp member
    have place : s.inFile[index]? = Option.some (referenced s.mapInfo.toList)[index] := by
      rw [inFile, List.getElem?_append_left inside, List.getElem?_eq_getElem inside]
    rw [← checked.rename_eq place, checked.counted_eq limited known]
    refine ⟨fun none => ?_, nodup_bucketsOf s _⟩
    have length := checked.length_bucketsOf known
    rw [none] at length
    exact some length.symm

/-! ### What reading keeps -/

theorem foldl_keeps {α β γ : Type} {f : α → β → α} {π : α → γ} (same : ∀ a b, π (f a b) = π a) (list : List β) (a : α) :
    π (list.foldl f a) = π a := by
  induction list generalizing a with
  | nil => rfl
  | cons b rest ih => exact (ih (f a b)).trans (same a b)

/-- Reading buckets keeps what an entry does not concern. -/
theorem loadBuckets_keeps {γ : Type} {π : CAddrMan → γ} (mapInfo : ∀ s mapInfo, π { s with mapInfo := mapInfo } = π s)
    (vvNew : ∀ s vvNew, π { s with vvNew := vvNew } = π s) {nUBuckets : Int} (buckets : List (List Int32 × Nat))
    (s : CAddrMan) : π (buckets.foldl (loadBucket nUBuckets) s) = π s := by
  refine foldl_keeps (fun s bucket => foldl_keeps (fun s id => ?_) _ s) buckets s
  rw [loadIndex.eq_def]
  cases bucketAt bucket.2 with
  | none => exact mapInfo s _
  | some b =>
      dsimp only
      split_ifs
      · exact (vvNew _ _).trans ((mapInfo _ _).trans (mapInfo s _))
      · exact mapInfo s _

/-- The tried buckets are never overfull. -/
theorem loadTried_limited (tried : List CAddrInfo) {loading : CAddrMan × Int}
    (limited : ∀ b, (loading.1.vvTried b).length ≤ triedBucketSize) :
    ∀ b, ((tried.foldl (loadTried hash64) loading).1.vvTried b).length ≤ triedBucketSize := by
  induction tried generalizing loading with
  | nil => exact limited
  | cons info rest ih =>
      refine ih fun b => ?_
      rw [loadTried]
      split_ifs with room
      · show (update loading.1.vvTried (info.getTriedBucket hash64 loading.1.nKey)
          (loading.1.vvTried (info.getTriedBucket hash64 loading.1.nKey) ++ [loading.1.nIdCount]) b).length ≤ _
        by_cases own : b = info.getTriedBucket hash64 loading.1.nKey
        · rw [own, update_self, List.length_append, List.length_singleton]
          exact room
        · rw [update_of_ne own]
          exact limited b
      · exact limited b

theorem load_nKey (file : AddrFile) : (load hash64 file).1.nKey = file.nKey := by
  have news : ∀ (list : List (CAddrInfo × Nat)) (s : CAddrMan),
      (list.foldl (fun s entry => s.loadNew hash64 file.nUBuckets.toInt entry.2 entry.1) s).nKey = s.nKey :=
    foldl_keeps fun s entry => by
      rw [loadNew]
      split_ifs <;> rfl
  have trieds : ∀ (list : List CAddrInfo) (loading : CAddrMan × Int),
      (list.foldl (loadTried hash64) loading).1.nKey = loading.1.nKey :=
    @foldl_keeps _ _ _ (loadTried hash64) (fun loading => loading.1.nKey) fun loading info => by
      rw [loadTried]
      split_ifs <;> rfl
  rw [load]
  refine (@loadBuckets_keeps _ CAddrMan.nKey (fun _ _ => rfl) (fun _ _ => rfl) _ _ _).trans ?_
  exact (trieds _ _).trans (news _ _)

theorem load_tried_limited (file : AddrFile) (b : Fin triedBucketCount) :
    ((load hash64 file).1.vvTried b).length ≤ triedBucketSize := by
  have news : ∀ (list : List (CAddrInfo × Nat)) (s : CAddrMan),
      (list.foldl (fun s entry => s.loadNew hash64 file.nUBuckets.toInt entry.2 entry.1) s).vvTried = s.vvTried :=
    foldl_keeps fun s entry => by
      rw [loadNew]
      split_ifs <;> rfl
  rw [load]
  dsimp only
  rw [@loadBuckets_keeps _ CAddrMan.vvTried (fun _ _ => rfl) (fun _ _ => rfl) _ _ _]
  refine loadTried_limited file.tried (fun b => ?_) b
  dsimp only
  rw [news]
  exact Nat.zero_le _

/-! ## The round trip -/

/-- The same entries in the same buckets, under other ids, with other positions, and without the times of the last
tries, which are not stored. -/
structure SameEntries (rename : Int → Int) (s s' : CAddrMan) : Prop where
  nKey : s'.nKey = s.nKey
  nNew : s'.nNew = s.nNew
  nTried : s'.nTried = s.nTried
  injective : ∀ id id' info info', s.mapInfo[id]? = some info → s.mapInfo[id']? = some info' → rename id = rename id' →
    id = id'
  entry : ∀ id info, s.mapInfo[id]? = some info →
    s'.mapInfo[rename id]? = some { info with nLastTry := 0, nRandomPos := rename id }
  origin : ∀ id' info', s'.mapInfo[id']? = some info' → ∃ id info, s.mapInfo[id]? = some info ∧ rename id = id'
  bucket : ∀ b id', id' ∈ s'.vvNew b ↔ ∃ id ∈ s.vvNew b, rename id = id'

section Reread

variable {base s' : CAddrMan} (loaded : AddrFile.Loaded hash64 s.save.stored base s') (checked : Checked True s)
  (limited : s.Limited)
include loaded checked limited

theorem Checked.mem_reread (b : Fin newBucketCount) (id' : Int) :
    id' ∈ s'.vvNew b ↔ ∃ id ∈ s.vvNew b, s.rename id = id' := by
  have full : s.save.stored.nUBuckets.toInt = newBucketCount := rfl
  have nNew : 0 ≤ s.save.stored.nNew.toInt := by
    have stored : s.save.stored.nNew.toInt = (referenced s.mapInfo.toList).length := checked.toInt_nNew limited
    omega
  rw [(loaded.listed nNew).vvNew, loaded.vvNew, or_iff_right fun rebuilt => rebuilt.1 full, and_iff_right full]
  constructor
  · intro member
    obtain ⟨place, listed, bucket⟩ := List.mem_map.mp (List.mem_of_mem_take member)
    obtain ⟨there, same⟩ := List.mem_filter.mp listed
    rw [checked.places_eq limited] at there
    obtain ⟨b', -, inBucket⟩ := List.mem_flatMap.mp there
    obtain ⟨id, inside, rfl⟩ := List.mem_map.mp inBucket
    obtain rfl : b' = b := Fin.val_injective bucket
    exact ⟨id, (Finset.mem_sort _).mp inside, of_decide_eq_true same⟩
  · rintro ⟨id, member, rfl⟩
    obtain ⟨info, known, -⟩ := checked.known_of_mem member
    rw [checked.counted_eq limited known]
    exact mem_bucketsOf.mpr member

theorem Checked.sameEntries (wellFormed : s.save.stored.WellFormed) (roomy : Roomy hash64 s) (nKey : s'.nKey = s.nKey) :
    SameEntries s.rename s s' := by
  have sound := checked.sound limited roomy
  have full : s.save.stored.nUBuckets.toInt = newBucketCount := rfl
  refine ⟨nKey, ?_, ?_, fun id id' info info' => checked.rename_inj, fun id info known => ?_, fun id' info' known => ?_,
    checked.mem_reread loaded limited⟩
  · rw [loaded.nNew, checked.nNew_eq]
    exact checked.toInt_nNew limited
  · have stored : s.save.stored.nTried.toInt = (triedOf s.mapInfo.toList).length := checked.toInt_nTried limited
    have length : s.save.stored.tried.length = (triedOf s.mapInfo.toList).length := by
      show (s.save.tried.map CAddrInfo.stored).length = _
      rw [checked.save_eq, List.length_map, List.length_map]
    rw [loaded.nTried, checked.keptTried_eq roomy, List.length_map, stored, length, checked.nTried_eq]
    omega
  · rw [loaded.known sound.nNew (checked.slot_rename roomy known), counting, if_pos full,
      checked.counted_eq limited known, checked.length_bucketsOf known]
    show some { reread info with nRandomPos := s.rename id, nRefCount := 0 + info.nRefCount } = _
    rw [zero_add]
    rfl
  · rw [loaded.mapInfo_eq wellFormed sound] at known
    obtain ⟨entry, found, -⟩ := Option.map_eq_some_iff.mp known
    obtain ⟨index, rfl, there⟩ := slot_eq_some_iff.mp found
    rw [checked.entries_eq roomy, List.getElem?_map] at there
    obtain ⟨⟨id, info⟩, place, -⟩ := Option.map_eq_some_iff.mp there
    exact ⟨id, info, checked.mem_inFile.mp (List.mem_of_getElem? place), checked.rename_eq place⟩

end Reread

/-- A state that passes `Check_`, with no overfull bucket and room for every tried entry in the bucket that its hash
gives, is read back with the same entries in the same buckets, and passes again. -/
theorem saved_tables_return {nType : UInt32} (disk : nType &&& serDisk ≠ 0) (passed : s.check_ = 0)
    (limited : s.Limited) (roomy : Roomy hash64 s) (key : s.nKey.length ≤ maxSize) :
    ∃ s' after, unserialize hash64 nType (ofBytes (s.serialize nType)) = some ((s', true), after) ∧ s'.check_ = 0 ∧
      s'.Limited ∧ ∃ rename, SameEntries rename s s' := by
  have checked := check_eq_zero_iff.mp passed
  obtain ⟨after, read⟩ := AddrFile.read_written disk (checked.fits limited key)
    (checked.serialize_small limited key nType)
  have wellFormed := AddrFile.unserialize_wellFormed read
  obtain ⟨inRange, again⟩ := (AddrFile.load_robust_iff hash64 wellFormed).mpr (checked.sound limited roomy)
  obtain ⟨base, loaded⟩ := @AddrFile.exists_loaded hash64 _ wellFormed
  have same := checked.sameEntries loaded limited wellFormed roomy (load_nKey s.save.stored)
  refine ⟨(load hash64 s.save.stored).1, after, ?_, again, ⟨fun b => ?_, load_tried_limited _⟩, s.rename, same⟩
  · refine (unserialize_of_read read).trans ?_
    rw [← inRange]
  · have image : (load hash64 s.save.stored).1.vvNew b = (s.vvNew b).image s.rename := by
      ext id'
      rw [same.bucket, Finset.mem_image]
    rw [image]
    exact Finset.card_image_le.trans (limited.new b)

end Back

section Concrete

/-- What is kept never overfills a bucket. -/
theorem kept_room (hash64 : Bytes → UInt64) (nKey : Bytes) (tried : List CAddrInfo) (b : Fin triedBucketCount) :
    ((AddrFile.kept hash64 nKey tried).filter fun info => info.getTriedBucket hash64 nKey = b).length ≤ triedBucketSize := by
  induction tried using List.reverseRecOn with
  | nil => exact Nat.zero_le _
  | append_singleton done info ih =>
      rw [AddrFile.kept, List.foldl_append, List.foldl_cons, List.foldl_nil]
      change ((AddrFile.keep hash64 nKey (AddrFile.kept hash64 nKey done) info).filter _).length ≤ _
      rw [AddrFile.keep]
      split_ifs with room
      · rw [List.filter_append, List.length_append, List.filter_singleton]
        by_cases own : info.getTriedBucket hash64 nKey = b
        · rw [own] at room
          rw [decide_eq_true own]
          exact room
        · rw [decide_eq_false own]
          exact ih
      · exact ih

/-- A new and a tried entry are read back. -/
theorem saved_tables_return_sample : ∃ s' after,
    unserialize (fun _ => 0) serDisk (ofBytes ((load (fun _ => 0) sampleFile).1.serialize serDisk)) =
      some ((s', true), after) ∧ s'.check_ = 0 ∧ s'.Limited ∧
      ∃ rename, SameEntries rename (load (fun _ => 0) sampleFile).1 s' := by
  have wellFormed : sampleFile.WellFormed := by
    refine ⟨⟨by decide, fun info member => ?_⟩, ⟨by decide, fun info member => ?_⟩, by decide⟩ <;>
      obtain rfl := List.mem_singleton.mp member <;> exact ⟨rfl, rfl, rfl⟩
  have sound : sampleFile.Sound fun _ => 0 :=
    ⟨by decide, by decide, by decide, by decide +kernel, by decide, by decide +kernel, List.forall_mem_nil _,
      fun full => absurd full (by decide)⟩
  have passed := ((AddrFile.load_robust_iff (fun _ => 0) wellFormed).mpr sound).2
  refine saved_tables_return (by decide) passed ⟨?_, load_tried_limited _⟩ (fun b => ?_) (by decide)
  · decide +kernel
  · exact (List.length_filter_le _ _).trans (by decide +kernel)

/-- A hash that tells entries apart, and a file with one tried entry more than a bucket holds. -/
def spread (bytes : Bytes) : UInt64 := UInt64.ofNat (bytes.map UInt8.toNat).sum
def crowdedFile : AddrFile :=
  ⟨0, [], 0, 65, 0, [], (List.range 65).map fun i => sampleInfo (UInt8.ofNat i) 1000, []⟩

theorem crowdedFile_kept : crowdedFile.keptTried spread = crowdedFile.tried := by
  refine kept_eq fun b => ?_
  have some : ∃ info ∈ crowdedFile.tried, ¬ decide (info.getTriedBucket spread crowdedFile.nKey = b) = true := by
    by_cases first : (sampleInfo 0 1000).getTriedBucket spread [] = b
    · refine ⟨sampleInfo 1 1000, by decide +kernel, fun second => ?_⟩
      exact absurd (first.trans (of_decide_eq_true second).symm) (by decide +kernel)
    · exact ⟨sampleInfo 0 1000, by decide +kernel, fun second => first (of_decide_eq_true second)⟩
  have less := List.length_filter_lt_length_iff_exists.mpr some
  exact Nat.le_of_lt_succ less

/-- Where 65 tried entries have the same bucket, one is lost. -/
theorem overfull_bucket_loses_entry : ¬ ∀ (hash64 : Bytes → UInt64) (nType : UInt32) (s : CAddrMan),
    nType &&& serDisk ≠ 0 → s.check_ = 0 → s.Limited → s.nKey.length ≤ maxSize →
    ∃ s' after, unserialize hash64 nType (ofBytes (s.serialize nType)) = some ((s', true), after) ∧ s'.check_ = 0 ∧
      s'.Limited ∧ ∃ rename, SameEntries rename s s' := by
  intro claim
  have wellFormed : crowdedFile.WellFormed := by
    refine ⟨⟨by decide, List.forall_mem_nil _⟩, ⟨by decide, fun info member => ?_⟩, by decide⟩
    obtain ⟨i, -, rfl⟩ := List.mem_map.mp member
    exact ⟨rfl, rfl, rfl⟩
  have sound : crowdedFile.Sound spread := by
    refine ⟨by decide, by decide, by decide, ?_, List.forall_mem_nil _, ?_, List.forall_mem_nil _,
      fun full => absurd full (by decide)⟩
    · rw [crowdedFile_kept]
      refine List.Nodup.of_map (fun addr : CNetAddr => (addr.ip.getD 15 0).toNat) ?_
      decide +kernel
    · rw [crowdedFile_kept]
      decide +kernel
  have passed := ((AddrFile.load_robust_iff spread wellFormed).mpr sound).2
  have few := fun b => @load_tried_limited spread crowdedFile b
  have key : (load spread crowdedFile).1.nKey.length ≤ maxSize := by
    rw [load_nKey]
    decide
  obtain ⟨base, loaded⟩ := @AddrFile.exists_loaded spread _ wellFormed
  generalize (load spread crowdedFile).1 = s at passed few key loaded
  have nTried : s.nTried = 65 := by
    rw [loaded.nTried, crowdedFile_kept]
    decide
  have unlisted : ∀ b, s.vvNew b = ∅ := fun b => by
    refine Finset.eq_empty_of_forall_notMem fun id member => ?_
    have listed := ((loaded.listed sound.nNew).vvNew b id).mp member
    rcases listed with before | counts
    · obtain ⟨-, info, found, -⟩ := (loaded.vvNew b id).mp before
      obtain ⟨index, -, there⟩ := slot_eq_some_iff.mp found
      cases there
    · exact absurd counts.1 (by decide)
  have limited : s.Limited := ⟨fun b => by rw [unlisted]; exact Nat.zero_le _, few⟩
  obtain ⟨s', after, done, -, -, rename, same⟩ := claim (fun _ => 0) serDisk s (by decide) passed limited key
  have checked := check_eq_zero_iff.mp passed
  obtain ⟨last, read⟩ := @AddrFile.read_written serDisk (by decide) _ (checked.fits limited key)
    (checked.serialize_small limited key serDisk)
  have built := done.symm.trans (unserialize_of_read read)
  obtain ⟨base', again⟩ := @AddrFile.exists_loaded (fun _ => 0) _ (AddrFile.unserialize_wellFormed read)
  have kept := again.nTried
  have stored : s.save.stored.nTried.toInt = (triedOf s.mapInfo.toList).length := checked.toInt_nTried limited
  have length : s.save.stored.tried.length = (triedOf s.mapInfo.toList).length := by
    show (s.save.tried.map CAddrInfo.stored).length = _
    rw [checked.save_eq, List.length_map, List.length_map]
  have room := kept_room (fun _ => 0) s.save.stored.nKey s.save.stored.tried 0
  have one : ∀ infos : List CAddrInfo, infos.filter (fun info =>
      info.getTriedBucket (fun _ => 0) s.save.stored.nKey = 0) = infos := fun infos =>
    List.filter_eq_self.mpr fun info _ => decide_eq_true rfl
  rw [one] at room
  have fewer : ((s.save.stored.keptTried fun _ => 0).length : Int) ≤ 64 := by exact_mod_cast room
  have equal : s' = (load (fun _ => 0) s.save.stored).1 :=
    congrArg (fun result : (CAddrMan × Bool) × CDataStream => result.1.1) (Option.some.inj built)
  have lost := same.nTried
  rw [equal, kept, nTried] at lost
  omega

end Concrete

end CAddrMan

end InfiniteRicks
