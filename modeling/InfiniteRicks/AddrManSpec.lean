import InfiniteRicks.AddrMan

/-!
# The indexes of the address manager agree

`Indexed` is about who is where: an address and its id, an id and its position in
`vRandom` are found from each other. `Bucketed` is about references: an entry has as many
as there are buckets that it is in, and those that are still owed to it in the middle of
an operation. Every operation keeps both, and no assertion fails.
-/

namespace InfiniteRicks

open Function Library Library.Tables

/-- An entry that is not in the middle of an operation. Where all attempts were `dated`, at times that are
not negative, its last one was. -/
structure CAddrInfo.Sound (dated : Prop) (info : CAddrInfo) : Prop where
  tried : info.fInTried = true → info.nRefCount = 0 ∧ 0 < info.nLastSuccess
  new : info.fInTried = false → 1 ≤ info.nRefCount ∧ info.nRefCount ≤ newBucketsPerAddress
  nLastSuccess : 0 ≤ info.nLastSuccess
  nLastTry : dated → 0 ≤ info.nLastTry

namespace CAddrMan

section Projections

variable {δ : Type} (π : CAddrInfo → δ) {s : CAddrMan} {id : Int} {info : CAddrInfo} {f : CAddrInfo → CAddrInfo}

/-- A field of the entries. -/
def proj (s : CAddrMan) (id : Int) : Option δ := s.mapInfo[id]?.map π

variable {π} in
theorem proj_eq_some_iff {value : δ} :
    proj π s id = some value ↔ ∃ info, s.mapInfo[id]? = some info ∧ π info = value := Option.map_eq_some_iff

theorem proj_of_known (known : s.mapInfo[id]? = some info) : proj π s id = some (π info) := by
  rw [proj, known, Option.map_some]

theorem mem_of_known (known : s.mapInfo[id]? = some info) : id ∈ s.mapInfo := by
  rw [Std.ExtTreeMap.mem_iff_isSome_getElem?, known]
  rfl

theorem getElem?_modify (s : CAddrMan) (id other : Int) (f : CAddrInfo → CAddrInfo) :
    (s.modify id f).mapInfo[other]? = if id = other then s.mapInfo[other]?.map f else s.mapInfo[other]? := by
  simp only [modify, Std.ExtTreeMap.getElem?_modify, Std.LawfulEqCmp.compare_eq_iff_eq]
  split_ifs with same
  · rw [same]
  · rfl

theorem getElem?_modify_self (known : s.mapInfo[id]? = some info) : (s.modify id f).mapInfo[id]? = some (f info) := by
  rw [getElem?_modify, if_pos rfl, known, Option.map_some]

theorem proj_modify (known : s.mapInfo[id]? = some info) :
    proj π (s.modify id f) = update (proj π s) id (some (π (f info))) := by
  funext other
  by_cases same : id = other
  · subst same
    rw [update_self, proj, getElem?_modify_self known, Option.map_some]
  · rw [update_of_ne (Ne.symm same), proj, getElem?_modify, if_neg same, proj]

theorem proj_modify_of_same (same : ∀ info, π (f info) = π info) : proj π (s.modify id f) = proj π s := by
  funext other
  rw [proj, getElem?_modify, proj]
  split_ifs
  · cases s.mapInfo[other]? with
    | none => rfl
    | some info => rw [Option.map_some, Option.map_some, Option.map_some, same]
  · rfl

end Projections

/-- The indexes of ids, addresses and positions agree. -/
structure Indexed (s : CAddrMan) : Prop where
  idCount : 0 ≤ s.nIdCount
  fresh : ∀ id info, s.mapInfo[id]? = some info → 0 ≤ id ∧ id < s.nIdCount
  addresses : Inverse (proj (fun info => info.toCNetAddr) s) fun addr => s.mapAddr[addr]?
  places : Inverse (proj (fun info => info.nRandomPos) s) (slot s.vRandom)

namespace Indexed

variable {s : CAddrMan} {id : Int} {info : CAddrInfo}

theorem lookup (indexed : s.Indexed) (known : s.mapInfo[id]? = some info) :
    s.mapAddr[info.toCNetAddr]? = some id :=
  (indexed.addresses id _).mp (proj_of_known _ known)

/-- Every entry has its position. -/
theorem position (indexed : s.Indexed) (known : s.mapInfo[id]? = some info) :
    ∃ index : Nat, info.nRandomPos = index ∧ s.vRandom[index]? = some id :=
  slot_eq_some_iff.mp ((indexed.places id _).mp (proj_of_known _ known))

/-- At every position there is an entry. -/
theorem entry (indexed : s.Indexed) {index : Nat} (found : s.vRandom[index]? = some id) :
    ∃ info, s.mapInfo[id]? = some info ∧ info.nRandomPos = index :=
  proj_eq_some_iff.mp ((indexed.places id index).mpr (by rwa [slot_natCast]))

theorem find_eq (indexed : s.Indexed) {addr : CNetAddr} :
    s.find addr = some (id, info) ↔ s.mapInfo[id]? = some info ∧ info.toCNetAddr = addr := by
  constructor
  · intro found
    obtain ⟨nId, looked, found⟩ := Option.bind_eq_some_iff.mp found
    obtain ⟨entry, known, found⟩ := Option.bind_eq_some_iff.mp found
    cases found
    have back := (indexed.addresses id addr).mpr looked
    rw [proj_of_known _ known] at back
    exact ⟨known, Option.some.inj back⟩
  · rintro ⟨known, rfl⟩
    exact Option.bind_eq_some_iff.mpr ⟨id, indexed.lookup known, Option.bind_eq_some_iff.mpr ⟨info, known, rfl⟩⟩

theorem mapAddr_of_find_none (indexed : s.Indexed) {addr : CNetAddr} (absent : s.find addr = none) :
    s.mapAddr[addr]? = none := by
  cases looked : s.mapAddr[addr]? with
  | none => rfl
  | some id =>
      obtain ⟨info, known, same⟩ := proj_eq_some_iff.mp ((indexed.addresses id addr).mpr looked)
      rw [indexed.find_eq.mpr ⟨known, same⟩] at absent
      cases absent

/-- A change of statistics keeps the indexes. -/
theorem modify (indexed : s.Indexed) {f : CAddrInfo → CAddrInfo}
    (address : ∀ info, (f info).toCNetAddr = info.toCNetAddr)
    (place : ∀ info, (f info).nRandomPos = info.nRandomPos) : (s.modify id f).Indexed := by
  constructor
  · exact indexed.idCount
  · intro other info known
    rw [getElem?_modify] at known
    split_ifs at known
    · obtain ⟨old, was, -⟩ := Option.map_eq_some_iff.mp known
      exact indexed.fresh other old was
    · exact indexed.fresh other info known
  · rw [proj_modify_of_same _ address]
    exact indexed.addresses
  · rw [proj_modify_of_same _ place]
    exact indexed.places

end Indexed

/-- The same state but for the order of `vRandom` and the positions. -/
structure Reordered (s s' : CAddrMan) : Prop where
  nKey : s'.nKey = s.nKey
  nIdCount : s'.nIdCount = s.nIdCount
  mapAddr : s'.mapAddr = s.mapAddr
  length : s'.vRandom.length = s.vRandom.length
  nTried : s'.nTried = s.nTried
  vvTried : s'.vvTried = s.vvTried
  nNew : s'.nNew = s.nNew
  vvNew : s'.vvNew = s.vvNew
  entry : ∀ id, proj (fun info => { info with nRandomPos := 0 }) s' id =
    proj (fun info => { info with nRandomPos := 0 }) s id

theorem Reordered.refl (s : CAddrMan) : Reordered s s := ⟨rfl, rfl, rfl, rfl, rfl, rfl, rfl, rfl, fun _ => rfl⟩

/-- What `SwapRandom` makes of a state. -/
def swapped (s : CAddrMan) (i j : Nat) (a b : Int) : CAddrMan :=
  { (s.modify a fun info => { info with nRandomPos := j }).modify b fun info => { info with nRandomPos := i } with
    vRandom := (s.vRandom.set i b).set j a }

theorem swapRandom_eq {s : CAddrMan} {i j : Nat} {a b : Int} (apart : i ≠ j) (first : s.vRandom[i]? = some a)
    (second : s.vRandom[j]? = some b) (left : a ∈ s.mapInfo) (right : b ∈ s.mapInfo) :
    s.swapRandom i j = some (s.swapped i j a b) := by
  rw [swapRandom, if_neg apart, first, second]
  simp only [Option.bind_eq_bind, Option.bind_some, left, right, and_self, guard, if_true]
  rfl

theorem proj_swapped {δ : Type} (π : CAddrInfo → δ) (s : CAddrMan) (i j : Nat) (a b : Int) :
    proj π (s.swapped i j a b) = proj π ((s.modify a fun info => { info with nRandomPos := j }).modify b
      fun info => { info with nRandomPos := i }) := rfl

theorem proj_swapped_of_same {δ : Type} {π : CAddrInfo → δ}
    (same : ∀ (info : CAddrInfo) (pos : Int), π { info with nRandomPos := pos } = π info) (s : CAddrMan)
    (i j : Nat) (a b : Int) : proj π (s.swapped i j a b) = proj π s := by
  rw [proj_swapped, proj_modify_of_same π fun info => same info i, proj_modify_of_same π fun info => same info j]

theorem Reordered.swapped (s : CAddrMan) (i j : Nat) (a b : Int) : Reordered s (s.swapped i j a b) := by
  refine ⟨rfl, rfl, rfl, ?_, rfl, rfl, rfl, rfl, fun id => ?_⟩
  · simp only [CAddrMan.swapped, List.length_set]
  · exact congrFun (proj_swapped_of_same (fun _ _ => rfl) s i j a b) id

/-- A field that is not the position is the same. -/
theorem Reordered.proj_eq {s s' : CAddrMan} {δ : Type} {π : CAddrInfo → δ} (reordered : Reordered s s')
    (same : ∀ (info : CAddrInfo) (pos : Int), π { info with nRandomPos := pos } = π info) : proj π s' = proj π s := by
  funext id
  have entry := congrArg (Option.map π) (reordered.entry id)
  rw [proj, proj, Option.map_map, Option.map_map] at entry
  rw [proj, proj]
  convert entry using 2 <;> funext info <;> exact (same info 0).symm

theorem Reordered.sound {s s' : CAddrMan} {dated : Prop} {id : Int} {info : CAddrInfo} (reordered : Reordered s s') (known : s'.mapInfo[id]? = some info) :
    ∃ old, s.mapInfo[id]? = some old ∧ old.toCNetAddr = info.toCNetAddr ∧ (old.Sound dated → info.Sound dated) := by
  have same := reordered.entry id
  rw [proj_of_known _ known] at same
  obtain ⟨old, was, equal⟩ := proj_eq_some_iff.mp same.symm
  refine ⟨old, was, congrArg (fun info => info.toCNetAddr) equal, fun sound => ?_⟩
  have normal : ({ info with nRandomPos := 0 } : CAddrInfo).Sound dated := by
    rw [← equal]
    exact ⟨sound.tried, sound.new, sound.nLastSuccess, sound.nLastTry⟩
  exact ⟨normal.tried, normal.new, normal.nLastSuccess, normal.nLastTry⟩

/-- `SwapRandom` of two positions that there are. -/
theorem Indexed.swapRandom {s : CAddrMan} (indexed : s.Indexed) {i j : Nat} (first : i < s.vRandom.length)
    (second : j < s.vRandom.length) :
    ∃ s', s.swapRandom i j = some s' ∧ s'.Indexed ∧ Reordered s s' ∧ s'.vRandom[j]? = s.vRandom[i]? := by
  by_cases same : i = j
  · subst same
    exact ⟨s, by rw [CAddrMan.swapRandom, if_pos rfl], indexed, .refl s, rfl⟩
  obtain ⟨a, firstId⟩ : ∃ a, s.vRandom[i]? = some a := ⟨_, List.getElem?_eq_getElem first⟩
  obtain ⟨b, secondId⟩ : ∃ b, s.vRandom[j]? = some b := ⟨_, List.getElem?_eq_getElem second⟩
  obtain ⟨left, leftKnown, leftPlace⟩ := indexed.entry firstId
  obtain ⟨right, rightKnown, rightPlace⟩ := indexed.entry secondId
  have apart : a ≠ b := by
    rintro rfl
    rw [rightKnown] at leftKnown
    cases leftKnown
    omega
  have rightStill : (s.modify a fun info => { info with nRandomPos := j }).mapInfo[b]? = some right := by
    rw [getElem?_modify, if_neg apart, rightKnown]
  refine ⟨s.swapped i j a b, swapRandom_eq same firstId secondId (mem_of_known leftKnown) (mem_of_known rightKnown),
    ?_, .swapped s i j a b, ?_⟩
  · have kept := proj_swapped_of_same (π := fun info => info.toCNetAddr) (fun _ _ => rfl) s i j a b
    constructor
    · exact indexed.idCount
    · intro id info known
      obtain ⟨old, was, -⟩ := proj_eq_some_iff.mp
        ((congrFun kept id).symm.trans (proj_of_known (fun info => info.toCNetAddr) known))
      exact indexed.fresh id old was
    · rw [kept]
      exact indexed.addresses
    · have moved : proj (fun info => info.nRandomPos) (s.swapped i j a b) =
          update (update (proj (fun info => info.nRandomPos) s) a (some (j : Int))) b (some (i : Int)) := by
        rw [proj_swapped, proj_modify _ rightStill, proj_modify _ leftKnown]
      rw [moved]
      have places : slot (s.swapped i j a b).vRandom =
          update (update (slot s.vRandom) i (some b)) j (some a) := by
        rw [swapped, slot_set (by rwa [List.length_set]), slot_set first]
      rw [places]
      exact indexed.places.swap (by rw [proj_of_known _ leftKnown, leftPlace])
        (by rw [proj_of_known _ rightKnown, rightPlace]) apart
  · rw [swapped, List.getElem?_set_self (by rwa [List.length_set]), firstId]

/-- The last entry of `vRandom` is taken from the indexes. -/
theorem Indexed.drop {s s' : CAddrMan} (indexed : s.Indexed) {id : Int} {info : CAddrInfo}
    (known : s.mapInfo[id]? = some info) {last : Nat} (length : s.vRandom.length = last + 1)
    (isLast : s.vRandom[last]? = some id) (idCount : s'.nIdCount = s.nIdCount)
    (mapInfo : s'.mapInfo = s.mapInfo.erase id) (mapAddr : s'.mapAddr = s.mapAddr.erase info.toCNetAddr)
    (vRandom : s'.vRandom = s.vRandom.dropLast) : s'.Indexed := by
  have gone : ∀ {δ : Type} (π : CAddrInfo → δ), proj π s' = update (proj π s) id none := by
    intro δ π
    funext other
    by_cases same : other = id
    · rw [same, update_self, proj, mapInfo, Std.ExtTreeMap.getElem?_erase_self, Option.map_none]
    · rw [update_of_ne same, proj, mapInfo, Std.ExtTreeMap.getElem?_erase,
        if_neg (fun equal => same (Std.LawfulEqCmp.eq_of_compare equal).symm), proj]
  constructor
  · rw [idCount]
    exact indexed.idCount
  · intro other entry found
    rw [mapInfo, Std.ExtTreeMap.getElem?_erase] at found
    split_ifs at found
    rw [idCount]
    exact indexed.fresh other entry found
  · have lookup : (fun addr => s'.mapAddr[addr]?) = update (fun addr => s.mapAddr[addr]?) info.toCNetAddr none := by
      funext addr
      by_cases same : addr = info.toCNetAddr
      · rw [same, update_self, mapAddr, Std.ExtTreeMap.getElem?_erase_self]
      · rw [update_of_ne same, mapAddr, Std.ExtTreeMap.getElem?_erase,
          if_neg (fun equal => same (Std.LawfulEqCmp.eq_of_compare equal).symm)]
    rw [gone, lookup]
    exact indexed.addresses.erase (proj_of_known _ known)
  · rw [gone, vRandom, slot_dropLast length]
    refine indexed.places.erase ((indexed.places id last).mpr ?_)
    rw [slot_natCast, isLast]

/-! ## References -/

/-- What is in the new buckets, and in the tried ones. -/
def newContents (s : CAddrMan) : Multiset Int := contents fun bucket => (s.vvNew bucket).val
def triedContents (s : CAddrMan) : Multiset Int := contents fun bucket => (s.vvTried bucket : Multiset Int)

/-- The references of an entry, and whether it is in the tried table; an entry that there is not has none. -/
def refs (s : CAddrMan) (id : Int) : Int := (proj (fun info => info.nRefCount) s id).getD 0
def inTried (s : CAddrMan) (id : Int) : Bool := (proj (fun info => info.fInTried) s id).getD false

theorem refs_congr {s s' : CAddrMan} (same : proj (fun info => info.nRefCount) s' = proj (fun info => info.nRefCount) s) :
    s'.refs = s.refs := by
  funext id
  rw [refs, refs, same]

theorem inTried_congr {s s' : CAddrMan} (same : proj (fun info => info.fInTried) s' = proj (fun info => info.fInTried) s) :
    s'.inTried = s.inTried := by
  funext id
  rw [inTried, inTried, same]

/-- The entries are in the buckets as often as they say, but for references that are owed to them. -/
structure Bucketed (dated : Prop) (owed : Int → Int) (s : CAddrMan) : Prop where
  new : ∀ id, (s.newContents.count id : Int) + owed id = s.refs id
  tried : ∀ id, s.triedContents.count id = if s.inTried id then 1 else 0
  entry : ∀ (id : Int) (info : CAddrInfo), s.mapInfo[id]? = some info → info.Sound dated
  nTried : s.nTried = s.triedContents.card
  total : s.nTried + s.nNew = s.vRandom.length

namespace Bucketed

variable {dated : Prop} {owed : Int → Int} {s s' : CAddrMan} {id : Int} {info : CAddrInfo}

theorem refs_of_known (known : s.mapInfo[id]? = some info) : s.refs id = info.nRefCount := by
  rw [refs, proj_of_known _ known, Option.getD_some]

theorem inTried_of_known (known : s.mapInfo[id]? = some info) : s.inTried id = info.fInTried := by
  rw [inTried, proj_of_known _ known, Option.getD_some]

theorem mem_newContents {bucket : Fin newBucketCount} (member : id ∈ s.vvNew bucket) : id ∈ s.newContents :=
  mem_contents.mpr ⟨bucket, member⟩

/-- An entry of a new bucket that nothing is owed is new, and has as many references as buckets. -/
theorem known_of_mem (bucketed : Bucketed dated owed s) {bucket : Fin newBucketCount} (member : id ∈ s.vvNew bucket)
    (settled : 0 ≤ owed id) :
    ∃ info, s.mapInfo[id]? = some info ∧ info.fInTried = false ∧
      (s.newContents.count id : Int) + owed id = info.nRefCount := by
  have held := Multiset.one_le_count_iff_mem.mpr (mem_newContents member)
  have references := bucketed.new id
  cases known : s.mapInfo[id]? with
  | none =>
      rw [refs, proj, known, Option.map_none, Option.getD_none] at references
      omega
  | some info =>
      rw [refs_of_known known] at references
      refine ⟨info, rfl, ?_, references⟩
      cases inTried : info.fInTried with
      | false => rfl
      | true =>
          have released := ((bucketed.entry id info known).tried inTried).1
          omega

/-- The buckets and the entries but for their positions are the same. -/
theorem of_reordered (bucketed : Bucketed dated owed s) (reordered : Reordered s s') : Bucketed dated owed s' := by
  constructor
  · intro id
    rw [newContents, reordered.vvNew, refs, reordered.proj_eq fun _ _ => rfl]
    exact bucketed.new id
  · intro id
    rw [triedContents, reordered.vvTried, inTried, reordered.proj_eq fun _ _ => rfl]
    exact bucketed.tried id
  · intro id info known
    obtain ⟨old, was, -, sound⟩ := reordered.sound known
    exact sound (bucketed.entry id old was)
  · rw [reordered.nTried, triedContents, reordered.vvTried]
    exact bucketed.nTried
  · rw [reordered.nTried, reordered.nNew, reordered.length]
    exact bucketed.total

end Bucketed

section Contents

variable {s s' : CAddrMan} {id : Int} {bucket : Fin newBucketCount}

theorem newContents_update {new : Finset Int} (vvNew : s'.vvNew = update s.vvNew bucket new) :
    s'.newContents = contents (update (fun bucket => (s.vvNew bucket).val) bucket new.val) := by
  rw [newContents, vvNew]
  refine congrArg contents (funext fun other => ?_)
  exact apply_update (fun _ new => Finset.val new) s.vvNew bucket new other

theorem newContents_erase (member : id ∈ s.vvNew bucket)
    (vvNew : s'.vvNew = update s.vvNew bucket ((s.vvNew bucket).erase id)) :
    id ::ₘ s'.newContents = s.newContents := by
  rw [newContents_update vvNew, Finset.erase_val]
  exact contents_erase (fun bucket => (s.vvNew bucket).val) bucket member

theorem newContents_insert (absent : id ∉ s.vvNew bucket)
    (vvNew : s'.vvNew = update s.vvNew bucket (insert id (s.vvNew bucket))) :
    s'.newContents = id ::ₘ s.newContents := by
  rw [newContents_update vvNew, Finset.insert_val_of_notMem absent]
  exact contents_cons (fun bucket => (s.vvNew bucket).val) bucket id

end Contents

theorem refs_modify {s : CAddrMan} {id : Int} {info : CAddrInfo} {f : CAddrInfo → CAddrInfo}
    (known : s.mapInfo[id]? = some info) : (s.modify id f).refs = update s.refs id (f info).nRefCount := by
  funext other
  rw [refs, proj_modify _ known]
  by_cases same : other = id
  · rw [same, update_self, update_self, Option.getD_some]
  · rw [update_of_ne same, update_of_ne same, refs]

theorem inTried_modify_of_same {s : CAddrMan} {id : Int} {f : CAddrInfo → CAddrInfo}
    (same : ∀ info, (f info).fInTried = info.fInTried) : (s.modify id f).inTried = s.inTried :=
  inTried_congr (proj_modify_of_same _ same)

/-- All entries are still sound after one of them has changed to a sound one. -/
theorem sound_modify {dated : Prop} {s : CAddrMan} {id : Int} {f : CAddrInfo → CAddrInfo}
    (sound : ∀ (other : Int) (info : CAddrInfo), s.mapInfo[other]? = some info → info.Sound dated)
    (changed : ∀ info, s.mapInfo[id]? = some info → (f info).Sound dated) :
    ∀ (other : Int) (info : CAddrInfo), (s.modify id f).mapInfo[other]? = some info → info.Sound dated := by
  intro other info found
  rw [getElem?_modify] at found
  split_ifs at found with same
  · subst same
    obtain ⟨old, was, rfl⟩ := Option.map_eq_some_iff.mp found
    exact changed old was
  · exact sound other info found

theorem unsigned_natCast (n : Nat) : unsigned n = n := by
  rw [unsigned, if_pos (Int.natCast_nonneg n), Int.toNat_natCast]

/-- An entry is gone from the indexes, but not yet from its last bucket. -/
structure Removed (s s' : CAddrMan) (id : Int) : Prop where
  nKey : s'.nKey = s.nKey
  nIdCount : s'.nIdCount = s.nIdCount
  length : s'.vRandom.length + 1 = s.vRandom.length
  nTried : s'.nTried = s.nTried
  vvTried : s'.vvTried = s.vvTried
  nNew : s'.nNew = s.nNew - 1
  vvNew : s'.vvNew = s.vvNew
  gone : s'.mapInfo[id]? = none
  entry : ∀ other, other ≠ id → proj (fun info => { info with nRandomPos := 0 }) s' other =
    proj (fun info => { info with nRandomPos := 0 }) s other

/-- The last reference of an entry is taken from it. -/
theorem Indexed.release_last {s : CAddrMan} (indexed : s.Indexed) {id : Int} {info : CAddrInfo}
    (known : s.mapInfo[id]? = some info) (last : info.nRefCount = 1) :
    ∃ s', s.release id = some s' ∧ s'.Indexed ∧ Removed s s' id := by
  obtain ⟨s₁, decremented⟩ : ∃ s₁, s.modify id (fun info => { info with nRefCount := info.nRefCount - 1 }) = s₁ :=
    ⟨_, rfl⟩
  have indexed₁ : s₁.Indexed := decremented ▸ indexed.modify (fun _ => rfl) fun _ => rfl
  have known₁ : s₁.mapInfo[id]? = some { info with nRefCount := info.nRefCount - 1 } := by
    rw [← decremented, getElem?_modify_self known]
  obtain ⟨index, place, atIndex⟩ := indexed₁.position known₁
  have range := (List.getElem?_eq_some_iff.mp atIndex).1
  obtain ⟨s₂, swap, indexed₂, reordered, isLast⟩ :=
    indexed₁.swapRandom range (show s₁.vRandom.length - 1 < s₁.vRandom.length by omega)
  obtain ⟨entry, found, -⟩ := indexed₂.entry (isLast.trans atIndex)
  obtain ⟨old, was, address, -⟩ := @Reordered.sound _ _ False _ _ reordered found
  obtain rfl : _ = old := Option.some.inj (known₁.symm.trans was)
  refine ⟨{ s₂ with
    vRandom := s₂.vRandom.dropLast, mapAddr := s₂.mapAddr.erase info.toCNetAddr
    mapInfo := s₂.mapInfo.erase id, nNew := s₂.nNew - 1 }, ?_, ?_, ?_⟩
  · have position : unsigned info.nRandomPos = index := by
      rw [show info.nRandomPos = index from place, unsigned_natCast]
    simp only [release, decremented, Option.bind_eq_bind, known₁, Option.bind_some, last, sub_self, if_true,
      position, swap]
    rfl
  · exact indexed₂.drop found (by rw [reordered.length]; omega) (isLast.trans atIndex) rfl rfl
      (congrArg s₂.mapAddr.erase address) rfl
  · subst decremented
    refine ⟨reordered.nKey, reordered.nIdCount, ?_, reordered.nTried, reordered.vvTried,
      congrArg (fun nNew => nNew - 1) reordered.nNew, reordered.vvNew, Std.ExtTreeMap.getElem?_erase_self, ?_⟩
    · have length := reordered.length
      change _ = s.vRandom.length at length
      change index < s.vRandom.length at range
      rw [List.length_dropLast, length]
      omega
    · intro other apart
      have same := reordered.entry other
      rw [proj_modify _ known, update_of_ne apart] at same
      rw [← same, proj, proj, Std.ExtTreeMap.getElem?_erase,
        if_neg (fun equal => apart (Std.LawfulEqCmp.eq_of_compare equal).symm)]

/-- Another reference than the last is taken from an entry. -/
theorem release_more {s : CAddrMan} {id : Int} {info : CAddrInfo} (known : s.mapInfo[id]? = some info)
    (more : info.nRefCount ≠ 1) :
    s.release id = some (s.modify id fun info => { info with nRefCount := info.nRefCount - 1 }) := by
  have apart : ¬ info.nRefCount - 1 = 0 := by omega
  simp only [release, Option.bind_eq_bind, getElem?_modify_self known, Option.bind_some, apart, if_false]
  rfl

namespace Removed

variable {s s' : CAddrMan} {id : Int}

theorem proj_eq {δ : Type} {π : CAddrInfo → δ} (removed : Removed s s' id)
    (same : ∀ (info : CAddrInfo) (pos : Int), π { info with nRandomPos := pos } = π info) :
    proj π s' = update (proj π s) id none := by
  funext other
  by_cases equal : other = id
  · rw [equal, update_self, proj, removed.gone, Option.map_none]
  · have entry := congrArg (Option.map π) (removed.entry other equal)
    rw [proj, proj, Option.map_map, Option.map_map] at entry
    rw [update_of_ne equal, proj, proj]
    convert entry using 2 <;> funext info <;> exact (same info 0).symm

theorem sound (removed : Removed s s' id) {dated : Prop} {other : Int} {info : CAddrInfo}
    (known : s'.mapInfo[other]? = some info) :
    ∃ old, s.mapInfo[other]? = some old ∧ (old.Sound dated → info.Sound dated) := by
  have apart : other ≠ id := by
    rintro rfl
    rw [removed.gone] at known
    cases known
  have same := removed.entry other apart
  rw [proj_of_known _ known] at same
  obtain ⟨old, was, equal⟩ := proj_eq_some_iff.mp same.symm
  refine ⟨old, was, fun sound => ?_⟩
  have normal : ({ info with nRandomPos := 0 } : CAddrInfo).Sound dated := by
    rw [← equal]
    exact ⟨sound.tried, sound.new, sound.nLastSuccess, sound.nLastTry⟩
  exact ⟨normal.tried, normal.new, normal.nLastSuccess, normal.nLastTry⟩

end Removed

theorem triedContents_congr {s s' : CAddrMan} (same : s'.vvTried = s.vvTried) : s'.triedContents = s.triedContents := by
  rw [triedContents, same, triedContents]

/-- An entry of a new bucket is taken out of it. -/
theorem removeNew_spec {dated : Prop} {owed : Int → Int} {s : CAddrMan} (indexed : s.Indexed)
    (bucketed : Bucketed dated owed s) {bucket : Fin newBucketCount} {id : Int} (member : id ∈ s.vvNew bucket)
    (settled : owed id = 0) :
    ∃ s', s.removeNew bucket id = some s' ∧ s'.Indexed ∧ Bucketed dated owed s' ∧
      s'.vvNew = update s.vvNew bucket ((s.vvNew bucket).erase id) ∧ s'.vvTried = s.vvTried ∧
      s'.nIdCount = s.nIdCount ∧ s'.nKey = s.nKey := by
  obtain ⟨info, known, notTried, references⟩ := bucketed.known_of_mem member settled.ge
  have bounds := (bucketed.entry id info known).new notTried
  -- The count of the entry falls with its references, and no other count changes.
  have counted : ∀ {s' : CAddrMan}, id ::ₘ s'.newContents = s.newContents → s'.refs = update s.refs id (s.refs id - 1) →
      ∀ other, (s'.newContents.count other : Int) + owed other = s'.refs other := by
    intro s' fewer refs other
    have before := bucketed.new other
    rw [← fewer, Multiset.count_cons] at before
    rw [refs]
    by_cases same : other = id
    · subst same
      rw [if_pos rfl] at before
      rw [update_self]
      omega
    · rw [if_neg same] at before
      rw [update_of_ne same]
      omega
  by_cases last : info.nRefCount = 1
  · obtain ⟨s₁, released, indexed₁, removed⟩ := indexed.release_last known last
    refine ⟨{ s₁ with vvNew := update s₁.vvNew bucket ((s₁.vvNew bucket).erase id) }, ?_,
      ⟨indexed₁.idCount, indexed₁.fresh, indexed₁.addresses, indexed₁.places⟩, ?_, ?_, removed.vvTried,
      removed.nIdCount, removed.nKey⟩
    · rw [removeNew, released]
      rfl
    · constructor
      · refine counted (newContents_erase member (by rw [removed.vvNew])) (funext fun other => ?_)
        change (proj (fun info => info.nRefCount) s₁ other).getD 0 = _
        rw [removed.proj_eq fun _ _ => rfl]
        by_cases same : other = id
        · rw [same, update_self, update_self, Bucketed.refs_of_known known, last]
          rfl
        · rw [update_of_ne same, update_of_ne same, CAddrMan.refs]
      · intro other
        change s₁.triedContents.count other = if s₁.inTried other then 1 else 0
        have kept : s₁.inTried other = s.inTried other := by
          rw [inTried, removed.proj_eq fun _ _ => rfl]
          by_cases same : other = id
          · rw [same, update_self, Bucketed.inTried_of_known known, notTried, Option.getD_none]
          · rw [update_of_ne same, inTried]
        rw [kept, triedContents_congr removed.vvTried]
        exact bucketed.tried other
      · intro other entry found
        obtain ⟨old, was, sound⟩ := removed.sound found
        exact sound (bucketed.entry other old was)
      · change s₁.nTried = s₁.triedContents.card
        rw [removed.nTried, triedContents_congr removed.vvTried]
        exact bucketed.nTried
      · change s₁.nTried + s₁.nNew = s₁.vRandom.length
        have total := bucketed.total
        have length := removed.length
        rw [removed.nTried, removed.nNew]
        omega
    · rw [removed.vvNew]
  · refine ⟨{ s.modify id (fun info => { info with nRefCount := info.nRefCount - 1 }) with
      vvNew := update s.vvNew bucket ((s.vvNew bucket).erase id) }, ?_, ?_, ?_, rfl, rfl, rfl, rfl⟩
    · rw [removeNew, release_more known last]
      rfl
    · have indexed₁ : (s.modify id fun info => { info with nRefCount := info.nRefCount - 1 }).Indexed :=
        indexed.modify (fun _ => rfl) fun _ => rfl
      exact ⟨indexed₁.idCount, indexed₁.fresh, indexed₁.addresses, indexed₁.places⟩
    · constructor
      · refine counted (newContents_erase member rfl) ?_
        refine Eq.trans (refs_congr rfl) (refs_modify known) |>.trans ?_
        rw [Bucketed.refs_of_known known]
      · intro other
        change s.triedContents.count other = if (s.modify id _).inTried other then 1 else 0
        rw [inTried_modify_of_same (by exact fun _ => rfl)]
        exact bucketed.tried other
      · refine sound_modify bucketed.entry fun old was => ?_
        obtain rfl := Option.some.inj (known.symm.trans was)
        have sound := bucketed.entry id info known
        refine ⟨fun tried => ?_, fun _ => ⟨?_, ?_⟩, sound.nLastSuccess, sound.nLastTry⟩
        · exact absurd (notTried.symm.trans tried) Bool.false_ne_true
        · change 1 ≤ info.nRefCount - 1
          omega
        · change info.nRefCount - 1 ≤ _
          omega
      · exact bucketed.nTried
      · exact bucketed.total

/-! ## Room in a new bucket -/

theorem findTerrible_spec {s : CAddrMan} (clock : Nat → Int64) {ids : List Int} (call : Nat)
    (known : ∀ id ∈ ids, ∃ info, s.mapInfo[id]? = some info) :
    ∃ found, s.findTerrible clock call ids = some found ∧ ∀ id, found = some id → id ∈ ids := by
  induction ids generalizing call with
  | nil => exact ⟨none, rfl, fun id none => by cases none⟩
  | cons id rest ih =>
      obtain ⟨info, here⟩ := known id List.mem_cons_self
      obtain ⟨found, done, later⟩ := ih (call + 1) fun other member => known other (List.mem_cons_of_mem _ member)
      simp only [findTerrible, Option.bind_eq_bind, here, Option.bind_some]
      split_ifs
      · refine ⟨some id, rfl, fun other same => ?_⟩
        cases same
        exact List.mem_cons_self
      · exact ⟨found, done, fun other same => List.mem_cons_of_mem _ (later other same)⟩

theorem older_spec {s : CAddrMan} {nOldest id : Int} (known : ∃ info, s.mapInfo[id]? = some info)
    (oldest : nOldest = -1 ∨ ∃ info, s.mapInfo[nOldest]? = some info) :
    ∃ chosen, s.older nOldest id = some chosen ∧ (chosen = id ∨ nOldest ≠ -1 ∧ chosen = nOldest) := by
  rw [older]
  split_ifs with first
  · exact ⟨id, rfl, .inl rfl⟩
  · obtain ⟨info, here⟩ := known
    obtain ⟨infoOldest, there⟩ := oldest.resolve_left first
    simp only [Option.bind_eq_bind, here, there, Option.bind_some]
    refine ⟨_, rfl, ?_⟩
    split_ifs
    · exact .inl rfl
    · exact .inr ⟨first, rfl⟩

/-- Of some entries the one that is picked is one of them, or the one that was the oldest before. -/
theorem pick_spec {s : CAddrMan} {ids : List (Int × Nat)}
    (known : ∀ entry ∈ ids, ∃ info, s.mapInfo[entry.1]? = some info) {nOldest : Int}
    (oldest : nOldest = -1 ∨ ∃ info, s.mapInfo[nOldest]? = some info) :
    ∃ chosen, ids.foldlM (fun nOldest entry => s.older nOldest entry.1) nOldest = some chosen ∧
      ((∃ entry ∈ ids, chosen = entry.1) ∨ (nOldest = -1 → ids = []) ∧ chosen = nOldest) := by
  induction ids generalizing nOldest with
  | nil => exact ⟨nOldest, rfl, .inr ⟨fun _ => rfl, rfl⟩⟩
  | cons entry rest ih =>
      have here := known entry List.mem_cons_self
      have later : ∀ other ∈ rest, ∃ info, s.mapInfo[other.1]? = some info :=
        fun other member => known other (List.mem_cons_of_mem _ member)
      obtain ⟨next, done, which⟩ := older_spec here oldest
      have still : next = -1 ∨ ∃ info, s.mapInfo[next]? = some info := by
        rcases which with rfl | ⟨found, rfl⟩
        · exact .inr here
        · exact oldest
      obtain ⟨chosen, rest, final⟩ := ih later still
      refine ⟨chosen, by rw [List.foldlM_cons, done]; exact rest, ?_⟩
      rcases final with ⟨other, member, same⟩ | ⟨-, same⟩
      · exact .inl ⟨other, List.mem_cons_of_mem _ member, same⟩
      rcases which with equal | ⟨found, equal⟩
      · exact .inl ⟨entry, List.mem_cons_self, same.trans equal⟩
      · exact .inr ⟨fun none => absurd none found, same.trans equal⟩

theorem pickOldest_spec {s : CAddrMan} (chance : Chance) (call : Nat) {vNew : List Int} (occupied : vNew ≠ [])
    (known : ∀ id ∈ vNew, ∃ info, s.mapInfo[id]? = some info) :
    ∃ chosen ∈ vNew, s.pickOldest chance call vNew = some chosen := by
  obtain ⟨drawn, drawnDef⟩ : ∃ drawn, (vNew.zipIdx.filter fun entry =>
      entry.2 ∈ (List.range 4).map fun k => chance.getRandInt (call + k) vNew.length) = drawn := ⟨_, rfl⟩
  have members : ∀ entry ∈ drawn, entry.1 ∈ vNew := by
    intro entry member
    rw [← drawnDef] at member
    exact List.mem_of_getElem? (List.mk_mem_zipIdx_iff_getElem?.mp (List.mem_filter.mp member).1)
  -- The first of the four places is one of the bucket's, so something is picked.
  have range : chance.getRandInt call vNew.length < vNew.length := by
    have positive := List.length_pos_of_ne_nil occupied
    rw [Chance.getRandInt, if_neg (by omega)]
    exact Nat.mod_lt _ positive
  have some : drawn ≠ [] := by
    rw [← drawnDef]
    refine List.ne_nil_of_mem (a := (vNew[chance.getRandInt call vNew.length], chance.getRandInt call vNew.length)) ?_
    refine List.mem_filter.mpr ⟨List.mk_mem_zipIdx_iff_getElem?.mpr (List.getElem?_eq_getElem range), ?_⟩
    exact decide_eq_true (List.mem_map.mpr ⟨0, by simp, rfl⟩)
  obtain ⟨chosen, done, which⟩ := pick_spec (fun entry member => known _ (members entry member)) (.inl rfl)
  rcases which with ⟨entry, member, rfl⟩ | ⟨empty, -⟩
  · refine ⟨entry.1, members entry member, ?_⟩
    rw [pickOldest, drawnDef, done]
  · exact absurd (empty rfl) some

/-- `ShrinkNew` takes one entry out of a bucket. -/
theorem shrinkNew_spec {dated : Prop} {owed : Int → Int} {s : CAddrMan} (indexed : s.Indexed)
    (bucketed : Bucketed dated owed s) {bucket : Fin newBucketCount} (occupied : (s.vvNew bucket).Nonempty)
    (settled : ∀ id ∈ s.vvNew bucket, owed id = 0) (chance : Chance) (call : Nat) :
    ∃ id ∈ s.vvNew bucket, ∃ nReturn s', s.shrinkNew bucket chance call = some (nReturn, s') ∧ s'.Indexed ∧
      Bucketed dated owed s' ∧ s'.vvNew = update s.vvNew bucket ((s.vvNew bucket).erase id) ∧
      s'.vvTried = s.vvTried ∧ s'.nIdCount = s.nIdCount ∧ s'.nKey = s.nKey := by
  have sorted : ∀ id, id ∈ (s.vvNew bucket).sort (· ≤ ·) ↔ id ∈ s.vvNew bucket := fun id => Finset.mem_sort _
  have known : ∀ id ∈ (s.vvNew bucket).sort (· ≤ ·), ∃ info, s.mapInfo[id]? = some info := by
    intro id member
    obtain ⟨info, found, -⟩ := bucketed.known_of_mem ((sorted id).mp member) (settled id ((sorted id).mp member)).ge
    exact ⟨info, found⟩
  obtain ⟨terrible, searched, isMember⟩ := findTerrible_spec chance.clock 1 known
  cases terrible with
  | some id =>
      have member := (sorted id).mp (isMember id rfl)
      obtain ⟨s', done, rest⟩ := removeNew_spec indexed bucketed member (settled id member)
      refine ⟨id, member, 0, s', ?_, rest⟩
      simp only [shrinkNew, searched, Option.bind_eq_bind, Option.bind_some, done]
      rfl
  | none =>
      obtain ⟨first, isFirst⟩ := occupied
      obtain ⟨id, picked, chosen⟩ :=
        pickOldest_spec chance call (List.ne_nil_of_mem ((sorted first).mpr isFirst)) known
      have member := (sorted id).mp picked
      obtain ⟨s', done, rest⟩ := removeNew_spec indexed bucketed member (settled id member)
      refine ⟨id, member, 1, s', ?_, rest⟩
      simp only [shrinkNew, searched, Option.bind_eq_bind, Option.bind_some, chosen, done]
      rfl

/-- No bucket is overfull. -/
structure Limited (s : CAddrMan) : Prop where
  new : ∀ bucket, (s.vvNew bucket).card ≤ newBucketSize
  tried : ∀ bucket, (s.vvTried bucket).length ≤ triedBucketSize

/-- What holds between two calls. -/
structure Consistent (dated : Prop) (s : CAddrMan) : Prop where
  indexed : s.Indexed
  bucketed : Bucketed dated (fun _ => 0) s
  limited : s.Limited

/-- One reference is owed to one entry. -/
def owing (id other : Int) : Int := if other = id then 1 else 0

theorem makeRoom_spec {dated : Prop} {s : CAddrMan} {id : Int} (indexed : s.Indexed)
    (bucketed : Bucketed dated (owing id) s) (limited : s.Limited) {bucket : Fin newBucketCount}
    (absent : id ∉ s.vvNew bucket) (chance : Chance) (call : Nat) :
    ∃ s', s.makeRoom bucket chance call = some s' ∧ s'.Indexed ∧ Bucketed dated (owing id) s' ∧ s'.Limited ∧
      id ∉ s'.vvNew bucket ∧ (s'.vvNew bucket).card < newBucketSize ∧ s'.nIdCount = s.nIdCount := by
  rw [makeRoom]
  split_ifs with full
  · have settled : ∀ other ∈ s.vvNew bucket, owing id other = 0 := fun other member =>
      if_neg (ne_of_mem_of_not_mem member absent)
    have occupied : (s.vvNew bucket).Nonempty := Finset.card_pos.mp (by rw [full]; decide)
    obtain ⟨evicted, member, nReturn, s', done, indexed', bucketed', vvNew, vvTried, nIdCount, -⟩ :=
      shrinkNew_spec indexed bucketed occupied settled chance call
    have here : s'.vvNew bucket = (s.vvNew bucket).erase evicted := by rw [vvNew, update_self]
    refine ⟨s', by rw [done]; rfl, indexed', bucketed', ⟨fun other => ?_, fun other => ?_⟩, ?_, ?_, nIdCount⟩
    · by_cases same : other = bucket
      · rw [same, here]
        exact Finset.card_erase_le.trans (limited.new bucket)
      · rw [vvNew, update_of_ne same]
        exact limited.new other
    · rw [vvTried]
      exact limited.tried other
    · rw [here]
      exact fun inside => absent (Finset.mem_of_mem_erase inside)
    · rw [here, ← full]
      exact Finset.card_erase_lt_of_mem member
  · exact ⟨s, rfl, indexed, bucketed, limited, absent, lt_of_le_of_ne (limited.new bucket) full, rfl⟩

/-- A reference that is owed to an entry is paid with a place in a bucket that has room. -/
theorem Consistent.of_insert {dated : Prop} {s : CAddrMan} {id : Int} (indexed : s.Indexed)
    (bucketed : Bucketed dated (owing id) s) (limited : s.Limited) {bucket : Fin newBucketCount}
    (absent : id ∉ s.vvNew bucket) (room : (s.vvNew bucket).card < newBucketSize) :
    Consistent dated { s with vvNew := update s.vvNew bucket (insert id (s.vvNew bucket)) } := by
  refine ⟨⟨indexed.idCount, indexed.fresh, indexed.addresses, indexed.places⟩,
    ⟨fun other => ?_, bucketed.tried, bucketed.entry, bucketed.nTried, bucketed.total⟩, ⟨fun other => ?_, limited.tried⟩⟩
  · have before := bucketed.new other
    rw [newContents_insert absent rfl, Multiset.count_cons, add_zero]
    change _ = s.refs other
    rw [← before, owing]
    split_ifs <;> push_cast <;> omega
  · by_cases same : other = bucket
    · subst same
      change (update s.vvNew other _ other).card ≤ _
      rw [update_self, Finset.card_insert_of_notMem absent]
      exact room
    · change (update s.vvNew bucket _ other).card ≤ _
      rw [update_of_ne same]
      exact limited.new other

section Calls

variable {dated : Prop} {s : CAddrMan} {id : Int} {info : CAddrInfo}

/-- The last part of `Add_`, for an entry that may be without a reference yet. -/
theorem addReference_spec (hash64 : Bytes → UInt64) (indexed : s.Indexed) (limited : s.Limited) (known : s.mapInfo[id]? = some info)
    (source : CNetAddr) (chance : Chance) (call : Nat)
    (already : id ∈ s.vvNew (info.getNewBucket hash64 s.nKey source) → Bucketed dated (fun _ => 0) s)
    (raised : id ∉ s.vvNew (info.getNewBucket hash64 s.nKey source) → Bucketed dated (owing id)
      (s.modify id fun info => { info with nRefCount := info.nRefCount + 1 })) :
    ∃ s', s.addReference hash64 id source chance call = some s' ∧ Consistent dated s' ∧
      s'.nIdCount = s.nIdCount := by
  rw [addReference]
  simp only [Option.bind_eq_bind, known, Option.bind_some]
  split_ifs with member
  · exact ⟨s, rfl, ⟨indexed, already member, limited⟩, rfl⟩
  · obtain ⟨s₁, done, indexed₁, bucketed₁, limited₁, absent, room, nIdCount⟩ :=
      makeRoom_spec (s := s.modify id fun info => { info with nRefCount := info.nRefCount + 1 })
        (indexed.modify (fun _ => rfl) fun _ => rfl) (raised member) ⟨limited.new, limited.tried⟩ member chance call
    refine ⟨{ s₁ with vvNew := update s₁.vvNew _ (insert id (s₁.vvNew _)) }, ?_,
      .of_insert indexed₁ bucketed₁ limited₁ absent room, nIdCount⟩
    rw [done]
    rfl

/-- The entry that `Create` makes, and the state. -/
def newInfo (s : CAddrMan) (addr : CAddress) (source : CNetAddr) : CAddrInfo :=
  { CAddrInfo.ofAddress addr source with nRandomPos := s.vRandom.length }

def created (s : CAddrMan) (addr : CAddress) (source : CNetAddr) : CAddrMan :=
  { s with
    nIdCount := s.nIdCount + 1
    mapInfo := s.mapInfo.insert s.nIdCount (s.newInfo addr source)
    mapAddr := s.mapAddr.insert addr.toCNetAddr s.nIdCount
    vRandom := s.vRandom ++ [s.nIdCount] }

theorem getElem?_created (addr : CAddress) (source : CNetAddr) (other : Int) :
    (s.created addr source).mapInfo[other]? =
      if s.nIdCount = other then some (s.newInfo addr source) else s.mapInfo[other]? := by
  simp only [created, Std.ExtTreeMap.getElem?_insert, Std.LawfulEqCmp.compare_eq_iff_eq]

theorem proj_created {δ : Type} (π : CAddrInfo → δ) (addr : CAddress) (source : CNetAddr) :
    proj π (s.created addr source) = update (proj π s) s.nIdCount (some (π (s.newInfo addr source))) := by
  funext other
  rw [proj, getElem?_created]
  by_cases same : s.nIdCount = other
  · rw [if_pos same, ← same, update_self, Option.map_some]
  · rw [if_neg same, update_of_ne (Ne.symm same), proj]

theorem Indexed.unused (indexed : s.Indexed) : s.mapInfo[s.nIdCount]? = none := by
  cases known : s.mapInfo[s.nIdCount]? with
  | none => rfl
  | some info => exact absurd (indexed.fresh _ info known).2 (lt_irrefl _)

theorem Indexed.created (indexed : s.Indexed) {addr : CAddress} (absent : s.find addr.toCNetAddr = none)
    (source : CNetAddr) : (s.created addr source).Indexed := by
  have idCount := indexed.idCount
  refine ⟨by change 0 ≤ s.nIdCount + 1; omega, fun other info known => ?_, ?_, ?_⟩
  · change 0 ≤ other ∧ other < s.nIdCount + 1
    rw [getElem?_created] at known
    split_ifs at known with same
    · omega
    · have fresh := indexed.fresh other info known
      omega
  · have lookup : (fun ip => (s.created addr source).mapAddr[ip]?) =
        update (fun ip => s.mapAddr[ip]?) addr.toCNetAddr (some s.nIdCount) := by
      funext ip
      change (s.mapAddr.insert addr.toCNetAddr s.nIdCount)[ip]? = _
      rw [Std.ExtTreeMap.getElem?_insert]
      by_cases same : ip = addr.toCNetAddr
      · rw [same, if_pos Std.ReflCmp.compare_self, update_self]
      · rw [if_neg (fun equal => same (Std.LawfulEqCmp.eq_of_compare equal).symm), update_of_ne same]
    rw [proj_created, lookup]
    refine indexed.addresses.insert ?_ (indexed.mapAddr_of_find_none absent)
    rw [proj, indexed.unused, Option.map_none]
  · rw [proj_created, CAddrMan.created, slot_append]
    refine indexed.places.insert ?_ ?_
    · rw [proj, indexed.unused, Option.map_none]
    · change slot s.vRandom (s.vRandom.length : Int) = none
      rw [slot_natCast, List.getElem?_eq_none le_rfl]

/-- A new entry is owed its first reference. -/
theorem Bucketed.created (indexed : s.Indexed) (bucketed : Bucketed dated (fun _ => 0) s) {s' : CAddrMan}
    (info : CAddrInfo) (entries : ∀ {δ : Type} (π : CAddrInfo → δ), proj π s' = update (proj π s) s.nIdCount (some (π info)))
    (isNew : info.fInTried = false) (first : info.nRefCount = 1) (sound : info.Sound dated)
    (vvNew : s'.vvNew = s.vvNew) (vvTried : s'.vvTried = s.vvTried) (nTried : s'.nTried = s.nTried)
    (nNew : s'.nNew = s.nNew + 1) (length : s'.vRandom.length = s.vRandom.length + 1) :
    Bucketed dated (owing s.nIdCount) s' := by
  have unused := indexed.unused
  constructor
  · intro other
    have before := bucketed.new other
    rw [newContents, vvNew, refs, entries]
    by_cases same : other = s.nIdCount
    · subst same
      rw [refs, proj, unused, Option.map_none, Option.getD_none] at before
      rw [update_self, owing, if_pos rfl, Option.getD_some, first]
      change (s.newContents.count s.nIdCount : Int) + 1 = 1
      omega
    · rw [update_of_ne same, owing, if_neg same]
      exact before
  · intro other
    rw [triedContents_congr vvTried, inTried, entries]
    have before := bucketed.tried other
    by_cases same : other = s.nIdCount
    · subst same
      rw [inTried, proj, unused, Option.map_none, Option.getD_none] at before
      rw [update_self, Option.getD_some, isNew]
      exact before
    · rw [update_of_ne same]
      exact before
  · intro other entry known
    have here := congrFun (entries id) other
    rw [proj_of_known _ known] at here
    by_cases same : other = s.nIdCount
    · rw [same, update_self] at here
      rw [show entry = info from Option.some.inj here]
      exact sound
    · rw [update_of_ne same] at here
      obtain ⟨old, was, equal⟩ := proj_eq_some_iff.mp here.symm
      rw [show old = entry from equal] at was
      exact bucketed.entry other entry was
  · rw [nTried, triedContents_congr vvTried]
    exact bucketed.nTried
  · have total := bucketed.total
    rw [nTried, nNew, length]
    push_cast
    omega

/-- A change of statistics that leaves the entry sound. -/
theorem Consistent.modify (consistent : Consistent dated s) {f : CAddrInfo → CAddrInfo}
    (address : ∀ info, (f info).toCNetAddr = info.toCNetAddr)
    (place : ∀ info, (f info).nRandomPos = info.nRandomPos) (references : ∀ info, (f info).nRefCount = info.nRefCount)
    (tried : ∀ info, (f info).fInTried = info.fInTried)
    (sound : ∀ info, s.mapInfo[id]? = some info → info.Sound dated → (f info).Sound dated) :
    Consistent dated (s.modify id f) := by
  obtain ⟨indexed, bucketed, limited⟩ := consistent
  refine ⟨indexed.modify address place, ⟨fun other => ?_, fun other => ?_, ?_, bucketed.nTried, bucketed.total⟩,
    ⟨limited.new, limited.tried⟩⟩
  · rw [refs_congr (proj_modify_of_same _ references)]
    exact bucketed.new other
  · rw [inTried_modify_of_same tried]
    exact bucketed.tried other
  · exact sound_modify bucketed.entry fun info known => sound info known (bucketed.entry id info known)

/-- A new entry that has room for a reference is owed one. -/
theorem Bucketed.raise (bucketed : Bucketed dated (fun _ => 0) s) (known : s.mapInfo[id]? = some info)
    (isNew : info.fInTried = false) (room : info.nRefCount ≠ newBucketsPerAddress) :
    Bucketed dated (owing id) (s.modify id fun info => { info with nRefCount := info.nRefCount + 1 }) := by
  refine ⟨fun other => ?_, fun other => ?_, ?_, bucketed.nTried, bucketed.total⟩
  · have before := bucketed.new other
    rw [refs_modify known]
    by_cases same : other = id
    · subst same
      rw [refs_of_known known] at before
      rw [update_self, owing, if_pos rfl]
      change (s.newContents.count other : Int) + 1 = info.nRefCount + 1
      omega
    · rw [update_of_ne same, owing, if_neg same]
      exact before
  · rw [inTried_modify_of_same (by exact fun _ => rfl)]
    exact bucketed.tried other
  · refine sound_modify bucketed.entry fun old was => ?_
    obtain rfl := Option.some.inj (known.symm.trans was)
    have sound := bucketed.entry id info known
    have bounds := sound.new isNew
    refine ⟨fun tried => absurd (isNew.symm.trans tried) Bool.false_ne_true, fun _ => ⟨?_, ?_⟩, sound.nLastSuccess,
      sound.nLastTry⟩
    · change 1 ≤ info.nRefCount + 1
      omega
    · change info.nRefCount + 1 ≤ newBucketsPerAddress
      omega

theorem modify_const (known : s.mapInfo[id]? = some info) (f : CAddrInfo → CAddrInfo) :
    (s.modify id fun _ => f info) = s.modify id f := by
  have entries : (s.modify id fun _ => f info).mapInfo = (s.modify id f).mapInfo := by
    refine Std.ExtTreeMap.ext_getElem? fun other => ?_
    rw [getElem?_modify, getElem?_modify]
    split_ifs with same
    · rw [← same, known, Option.map_some, Option.map_some]
    · rfl
  exact congrArg (fun mapInfo => { s with mapInfo }) entries

/-- The state in which an entry of `Add_` gets its first reference. -/
def newcomer (s : CAddrMan) (addr : CAddress) (source : CNetAddr) (nTimePenalty : Int64) : CAddrMan :=
  { (s.created addr source).modify s.nIdCount fun info =>
      { info with nTime := storedTime (info.time - nTimePenalty) } with nNew := s.nNew + 1 }

theorem getElem?_newcomer (addr : CAddress) (source : CNetAddr) (nTimePenalty : Int64) :
    (s.newcomer addr source nTimePenalty).mapInfo[s.nIdCount]? = some { s.newInfo addr source with
      nTime := storedTime ((s.newInfo addr source).time - nTimePenalty) } :=
  getElem?_modify_self (by rw [getElem?_created, if_pos rfl])

theorem Indexed.newcomer (indexed : s.Indexed) {addr : CAddress} (absent : s.find addr.toCNetAddr = none)
    (source : CNetAddr) (nTimePenalty : Int64) : (s.newcomer addr source nTimePenalty).Indexed := by
  have stamped : ((s.created addr source).modify s.nIdCount fun info =>
      { info with nTime := storedTime (info.time - nTimePenalty) }).Indexed :=
    (indexed.created absent source).modify (fun _ => rfl) fun _ => rfl
  exact ⟨stamped.idCount, stamped.fresh, stamped.addresses, stamped.places⟩

theorem Bucketed.newcomer (indexed : s.Indexed) (bucketed : Bucketed dated (fun _ => 0) s) (addr : CAddress)
    (source : CNetAddr) (nTimePenalty : Int64) :
    Bucketed dated (owing s.nIdCount) ((s.newcomer addr source nTimePenalty).modify s.nIdCount
      fun info => { info with nRefCount := info.nRefCount + 1 }) := by
  refine bucketed.created indexed { s.newInfo addr source with
    nTime := storedTime ((s.newInfo addr source).time - nTimePenalty), nRefCount := 1 } ?_ rfl rfl
    ⟨fun tried => (nomatch tried), fun _ => ⟨le_rfl, show (1 : Int) ≤ newBucketsPerAddress by decide⟩,
      Int64.le_refl 0, fun _ => Int64.le_refl 0⟩ rfl rfl rfl rfl ?_
  · intro δ π
    rw [proj_modify _ (getElem?_newcomer addr source nTimePenalty)]
    change update (proj π ((s.created addr source).modify s.nIdCount _)) s.nIdCount _ = _
    rw [@proj_modify _ _ _ _ (s.newInfo addr source) _ (by rw [getElem?_created, if_pos rfl]), proj_created,
      update_idem, update_idem]
    rfl
  · change (s.vRandom ++ [s.nIdCount]).length = _
    rw [List.length_append, List.length_singleton]

/-- A call can only go wrong where the ids run out. -/
theorem add_spec (hash64 : Bytes → UInt64) (consistent : Consistent dated s) (addr : CAddress) (source : CNetAddr) (nTimePenalty : Int64)
    (chance : Chance) (room : s.nIdCount < 2 ^ 31 - 1) :
    ∃ fNew s', s.add hash64 addr source nTimePenalty chance = some (fNew, s') ∧ Consistent dated s' ∧
      s'.nIdCount ≤ s.nIdCount + 1 := by
  obtain ⟨indexed, bucketed, limited⟩ := consistent
  rw [add]
  split_ifs with unroutable
  · exact ⟨false, s, rfl, ⟨indexed, bucketed, limited⟩, by omega⟩
  cases found : s.find addr.toCNetAddr with
  | none =>
      have created : s.create addr source = some (s.nIdCount, s.created addr source) := by
        rw [create, if_neg (by omega)]
        rfl
      have outside : ∀ bucket, s.nIdCount ∉ s.vvNew bucket := by
        intro bucket member
        obtain ⟨info, there, -⟩ := bucketed.known_of_mem member le_rfl
        rw [indexed.unused] at there
        cases there
      obtain ⟨s', done, consistent', nIdCount⟩ := addReference_spec hash64
        (indexed.newcomer found source nTimePenalty) ⟨limited.new, limited.tried⟩
        (getElem?_newcomer addr source nTimePenalty) source chance 0 (fun member => absurd member (outside _))
        fun _ => bucketed.newcomer indexed addr source nTimePenalty
      refine ⟨true, s', ?_, consistent', nIdCount.le⟩
      simp only [Option.bind_eq_bind, created, Option.bind_some]
      change (addReference hash64 (s.newcomer addr source nTimePenalty) _ _ _ _).bind _ = _
      rw [done]
      rfl
  | some entry =>
      obtain ⟨id, info⟩ := entry
      obtain ⟨known, -⟩ := indexed.find_eq.mp found
      obtain ⟨s₁, updated⟩ : ∃ s₁, (s.modify id fun info => refresh info addr nTimePenalty (chance.clock 0)) = s₁ :=
        ⟨_, rfl⟩
      have consistent₁ : Consistent dated s₁ := by
        rw [← updated]
        refine Consistent.modify ⟨indexed, bucketed, limited⟩ (fun _ => rfl) (fun _ => rfl) (fun _ => rfl)
          (fun _ => rfl) fun info _ sound => ⟨sound.tried, sound.new, sound.nLastSuccess, sound.nLastTry⟩
      have known₁ : s₁.mapInfo[id]? = some (refresh info addr nTimePenalty (chance.clock 0)) := by
        rw [← updated, getElem?_modify_self known]
      have nIdCount : s₁.nIdCount = s.nIdCount := by
        rw [← updated]
        rfl
      simp only [modify_const known fun info => refresh info addr nTimePenalty (chance.clock 0), updated]
      split_ifs with noNews tried full unlucky
      · exact ⟨false, s₁, rfl, consistent₁, by omega⟩
      · exact ⟨false, s₁, rfl, consistent₁, by omega⟩
      · exact ⟨false, s₁, rfl, consistent₁, by omega⟩
      · exact ⟨false, s₁, rfl, consistent₁, by omega⟩
      · obtain ⟨s', done, consistent', kept⟩ := addReference_spec hash64 consistent₁.indexed consistent₁.limited known₁
          source chance 1 (fun _ => consistent₁.bucketed)
          fun _ => consistent₁.bucketed.raise known₁ (Bool.eq_false_iff.mpr tried) full
        refine ⟨false, s', ?_, consistent', by omega⟩
        rw [done]
        rfl

end Calls

end CAddrMan

end InfiniteRicks
