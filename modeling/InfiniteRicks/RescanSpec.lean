import InfiniteRicks.Rescan
import InfiniteRicks.WalletDumpSpec
import Mathlib.Data.List.Infix

/-!
# What an import leads to

The birth times of an import, the part of the chain that is scanned, and what the scan reads of it.
`importwallet_misses_none_iff` says which imports read every block from the earliest birth time on.
-/

namespace InfiniteRicks

/-! ## Birth times -/

section Keys

variable {crypto : KeyCrypto}

theorem CCryptoKeyStore.haveKey_plain {s : CCryptoKeyStore} (mode : s.fUseCrypto = false) (address : BitVec 160) :
    s.haveKey address = (s.mapKeys.lookup address).isSome := by
  simp [haveKey, isCrypted, mode]

theorem CCryptoKeyStore.haveKey_crypted {s : CCryptoKeyStore} (mode : s.fUseCrypto = true) (address : BitVec 160) :
    s.haveKey address = (s.mapCryptedKeys.lookup address).isSome := by
  simp [haveKey, isCrypted, mode]

theorem isSome_lookup_insert {β : Type} (map : AList fun _ : BitVec 160 => β) (id address : BitVec 160) (value : β) :
    ((map.insert id value).lookup address).isSome = (decide (address = id) || (map.lookup address).isSome) := by
  by_cases same : address = id
  · subst same
    simp
  · simp [same, AList.lookup_insert_ne same]

/-- Adding a key adds its id and no other. -/
theorem CCryptoKeyStore.addKey_haveKey {s after : CCryptoKeyStore} {key : CKey crypto} {vchPubKey : Bytes} {done : Bool}
    (added : s.addKey key = some (done, after)) (pub : key.getPubKey = some vchPubKey) (address : BitVec 160) :
    after.haveKey address = (done && decide (address = crypto.hash160 vchPubKey) || s.haveKey address) := by
  simp only [addKey, addBasicKey, pub, Option.bind_eq_bind, Option.bind_some] at added
  split at added
  · rename_i plain
    have mode : s.fUseCrypto = false := by simpa [isCrypted] using plain
    obtain ⟨secret, -, rest⟩ := Option.bind_eq_some_iff.mp added
    cases rest
    rw [haveKey_plain mode address]
    refine Eq.trans (haveKey_plain ?_ address) (isSome_lookup_insert _ _ _ _)
    exact mode
  · rename_i crypted
    have mode : s.fUseCrypto = true := by simpa [isCrypted] using crypted
    split at added
    · cases added
      simp
    · obtain ⟨secret, -, rest⟩ := Option.bind_eq_some_iff.mp added
      cases encrypted : encryptSecret crypto s.vMasterKey secret.1 (crypto.hash vchPubKey) with
      | none =>
          simp only [encrypted] at rest
          cases rest
          simp
      | some vchCryptedSecret =>
          simp only [encrypted, addCryptedKey, setCrypted, mode, if_true] at rest
          cases rest
          rw [haveKey_crypted mode address]
          exact (haveKey_crypted rfl address).trans (isSome_lookup_insert _ _ _ _)

end Keys

namespace KeyWallet

variable {crypto : KeyCrypto} {fTestNet : Bool} {format : DumpFormat} {w : KeyWallet} {state next : Import}

/-- Everything one line of the file can do: it imports a key that the wallet does not have, or none. -/
theorem importLine_cases {line : Bytes} (done : importLine crypto fTestNet format state line = some next) :
    (next.nTimeBegin = state.nTimeBegin ∧ next.wallet.mapKeyMetadata = state.wallet.mapKeyMetadata ∧
      ∀ keyid, next.wallet.keystore.haveKey keyid = state.wallet.keystore.haveKey keyid) ∨
    ∃ keyid nTime, state.wallet.keystore.haveKey keyid = false ∧
      next.nTimeBegin = (if nTime < state.nTimeBegin then nTime else state.nTimeBegin) ∧
      next.wallet.mapKeyMetadata = state.wallet.mapKeyMetadata.insert keyid nTime ∧
      ∀ other, next.wallet.keystore.haveKey other =
        (decide (other = keyid) || state.wallet.keystore.haveKey other) := by
  unfold importLine at done
  split at done
  · cases done
    exact .inl ⟨rfl, rfl, fun _ => rfl⟩
  split at done
  · simp only at done
    split at done
    · cases done
      exact .inl ⟨rfl, rfl, fun _ => rfl⟩
    · obtain ⟨key, -, rest⟩ := Option.bind_eq_some_iff.mp done
      obtain ⟨vchPubKey, pub, rest⟩ := Option.bind_eq_some_iff.mp rest
      split at rest
      · cases rest
        exact .inl ⟨rfl, rfl, fun _ => rfl⟩
      · rename_i unknown
        obtain ⟨⟨added, keystore⟩, stored, rest⟩ := Option.bind_eq_some_iff.mp rest
        have known := CCryptoKeyStore.addKey_haveKey stored pub
        split at rest
        · rename_i refused
          cases rest
          obtain rfl : added = false := refused
          exact .inl ⟨rfl, rfl, fun keyid => by simpa using known keyid⟩
        · rename_i accepted
          cases rest
          obtain rfl : added = true := by simpa using accepted
          exact .inr ⟨_, _, by simpa using unknown, rfl, rfl, fun other => known other⟩
  · cases done
    exact .inl ⟨rfl, rfl, fun _ => rfl⟩

/-- The birth times of the keys that an import has added. -/
def births (w : KeyWallet) (result : Import) : Set Int64 :=
  {nTime | ∃ keyid, w.keystore.haveKey keyid = false ∧ result.wallet.keystore.haveKey keyid = true ∧
    result.wallet.mapKeyMetadata.lookup keyid = some nTime}

/-- `nTimeBegin` is the earliest of the starting time and the birth times so far. -/
structure Earliest (w : KeyWallet) (nTimeStart : Int64) (state : Import) : Prop where
  kept : ∀ keyid, w.keystore.haveKey keyid = true → state.wallet.keystore.haveKey keyid = true
  start : state.nTimeBegin ≤ nTimeStart
  least : ∀ nTime ∈ w.births state, state.nTimeBegin ≤ nTime
  attained : state.nTimeBegin = nTimeStart ∨ state.nTimeBegin ∈ w.births state

theorem Earliest.importLine {nTimeStart : Int64} {line : Bytes} (earliest : Earliest w nTimeStart state)
    (done : importLine crypto fTestNet format state line = some next) : Earliest w nTimeStart next := by
  rcases importLine_cases done with ⟨time, times, keys⟩ | ⟨keyid, nTime, unknown, time, times, keys⟩
  · have same : w.births next = w.births state := by
      simp only [births, times, keys]
    exact ⟨fun keyid had => (keys keyid).trans (earliest.kept keyid had), time ▸ earliest.start,
      by rw [same, time]; exact earliest.least, by rw [same, time]; exact earliest.attained⟩
  · have fresh : w.keystore.haveKey keyid = false := by
      by_contra had
      rw [earliest.kept keyid (by simpa using had)] at unknown
      cases unknown
    -- The births are those before and that of the new key.
    have grown : w.births next = insert nTime (w.births state) := by
      ext other
      simp only [births, times, keys, Set.mem_insert_iff, Set.mem_ofPred_eq, Bool.or_eq_true, decide_eq_true_eq]
      constructor
      · rintro ⟨id, absent, rfl | had, birth⟩
        · rw [AList.lookup_insert] at birth
          exact .inl (Option.some.inj birth).symm
        · refine .inr ⟨id, absent, had, ?_⟩
          rwa [AList.lookup_insert_ne] at birth
          rintro rfl
          rw [had] at unknown
          cases unknown
      · rintro (rfl | ⟨id, absent, had, birth⟩)
        · exact ⟨keyid, fresh, .inl rfl, AList.lookup_insert _⟩
        · refine ⟨id, absent, .inr had, ?_⟩
          rwa [AList.lookup_insert_ne]
          rintro rfl
          rw [had] at unknown
          cases unknown
    refine ⟨fun id had => by rw [keys, earliest.kept id had, Bool.or_true], ?_, ?_, ?_⟩
    all_goals rw [time]
    · split
      · rename_i earlier
        exact Int64.le_trans (Int64.le_of_lt earlier) earliest.start
      · exact earliest.start
    · rw [grown]
      rintro other (rfl | before)
      · split
        · exact Int64.le_refl _
        · rename_i later
          exact Int64.not_lt.mp later
      · split
        · rename_i earlier
          exact Int64.le_trans (Int64.le_of_lt earlier) (earliest.least other before)
        · exact earliest.least other before
    · rw [grown]
      split
      · exact .inr (.inl rfl)
      · exact earliest.attained.imp_right .inr

/-- After the loop `nTimeBegin` is the earliest of the time of the best block and the birth times. -/
theorem importLines_earliest {s : Node} {file : Bytes} {pindexBest : CBlockIndex}
    (best : s.pindexBest.head? = some pindexBest)
    (done : w.importLines s crypto fTestNet format file = some next) :
    Earliest w (Int64.ofNat pindexBest.nTime.toNat) next := by
  rw [importLines, best] at done
  have run : (file.splitOn 10).foldlM (KeyWallet.importLine crypto fTestNet format)
      ⟨true, Int64.ofNat pindexBest.nTime.toNat, w⟩ = some next := done
  have start : Earliest w (Int64.ofNat pindexBest.nTime.toNat) ⟨true, Int64.ofNat pindexBest.nTime.toNat, w⟩ := by
    refine ⟨fun _ had => had, Int64.le_refl _, ?_, .inl rfl⟩
    rintro nTime ⟨keyid, absent, had, -⟩
    exact absurd (absent.symm.trans had) Bool.false_ne_true
  revert start run
  generalize (⟨true, Int64.ofNat pindexBest.nTime.toNat, w⟩ : Import) = state
  induction file.splitOn 10 generalizing state with
  | nil =>
      intro run start
      cases run
      exact start
  | cons line rest ih =>
      intro run start
      obtain ⟨middle, first, more⟩ := Option.bind_eq_some_iff.mp run
      exact ih middle more (start.importLine first)

end KeyWallet

/-! ## The part of the chain that is scanned -/

section Chain

variable {s : Node} {newer older : BlockPtr} {entry : CBlockIndex}

/-- Along `pnext` the loop reaches the best block, with any fuel that is enough. -/
theorem alongNext_eq (indexed : Indexed s.mapBlockIndex s.pindexBest) (links : s.pnext = pathLinks s.pindexBest)
    (shape : s.pindexBest = newer ++ entry :: older) {fuel : Nat} (enough : newer.length < fuel) :
    alongNext s fuel (entry :: older) = entry :: newer.reverse := by
  have distinct := indexed.nodup
  rw [shape] at distinct
  induction fuel generalizing newer entry older with
  | zero => cases enough
  | succ fuel ih =>
      rw [alongNext, links, shape]
      rcases List.eq_nil_or_concat newer with rfl | ⟨newer, next, rfl⟩
      · rw [List.nil_append, pathLinks_eq_none (List.nodup_cons.mp distinct).1]
        rfl
      · have split : s.pindexBest = newer ++ next :: entry :: older := by
          rw [shape, List.concat_eq_append, List.append_assoc, List.singleton_append]
        rw [List.concat_eq_append, List.append_assoc, List.singleton_append] at distinct ⊢
        have fits : newer.length < fuel := by
          rw [List.concat_eq_append, List.length_append, List.length_singleton] at enough
          omega
        rw [pathLinks_above distinct, Option.bind_some, indexed next _ ⟨newer, split.symm⟩, Option.map_some,
          Option.getD_some, ih split fits distinct, List.reverse_append]
        rfl

/-- The walk back ends at a block that is two hours older than the time, or at the first block. -/
theorem rescanStart_spec (nTimeBegin : Int64) {chain : BlockPtr} (real : chain ≠ []) :
    ∃ newer entry older, chain = newer ++ entry :: older ∧ rescanStart nTimeBegin chain = entry :: older ∧
      (entry.getBlockTime ≤ nTimeBegin.toInt - 7200 ∨ older = []) := by
  induction chain with
  | nil => exact absurd rfl real
  | cons pindex rest ih =>
      cases rest with
      | nil => exact ⟨[], pindex, [], rfl, rfl, .inr rfl⟩
      | cons prev grand =>
          rw [rescanStart]
          split
          · obtain ⟨newer, entry, older, shape, start, reason⟩ := ih (List.cons_ne_nil _ _)
            exact ⟨pindex :: newer, entry, older, by rw [shape, List.cons_append], start, reason⟩
          · rename_i old
            exact ⟨[], pindex, prev :: grand, rfl, rfl, .inl (not_lt.mp old)⟩

end Chain

/-! ## What a scan reads -/

section Birthday

variable {nTimeFirstKey nTime : Int64}

theorem noteBirth_le_right (nTimeFirstKey nTime : Int64) : noteBirth nTimeFirstKey nTime ≤ nTime := by
  rw [noteBirth]
  split
  · exact Int64.le_refl _
  · rename_i later
    exact Int64.not_lt.mp (not_or.mp later).2

/-- A birthday only moves to the past. -/
theorem noteBirth_le_left (some_ : nTimeFirstKey ≠ 0) : noteBirth nTimeFirstKey nTime ≤ nTimeFirstKey := by
  rw [noteBirth]
  split
  · rename_i earlier
    exact Int64.le_of_lt (earlier.resolve_left some_)
  · exact Int64.le_refl _

theorem noteBirth_ne_zero (some_ : nTimeFirstKey ≠ 0) (real : nTime ≠ 0) : noteBirth nTimeFirstKey nTime ≠ 0 := by
  rw [noteBirth]
  split
  · exact real
  · exact some_

/-- A birthday stays one, and not later than a time, whatever keys are generated. -/
theorem noteBirths_le {bound : Int64} (generated : List CreationTime) (some_ : nTimeFirstKey ≠ 0)
    (early : nTimeFirstKey ≤ bound) :
    (generated.map Subtype.val).foldl noteBirth nTimeFirstKey ≠ 0 ∧
      (generated.map Subtype.val).foldl noteBirth nTimeFirstKey ≤ bound := by
  induction generated generalizing nTimeFirstKey with
  | nil => exact ⟨some_, early⟩
  | cons first rest ih =>
      have positive : first.val ≠ 0 := by
        intro zero
        have later := first.property
        rw [zero] at later
        exact absurd later (by decide)
      exact ih (noteBirth_ne_zero some_ positive) (Int64.le_trans (noteBirth_le_left some_) early)

end Birthday

namespace Scan

variable {W : Type} {add : AddIfInvolved W} {fUpdate : Bool} {s : Node} {scan : Scan W} {block : CBlock}
  {pindex entry : CBlockIndex} {bound : Int64}

/-- The block of an entry has been read, and its transactions have been offered to the wallet. -/
structure Covers (s : Node) (scan : Scan W) (pindex : CBlockIndex) : Prop where
  read : pindex ∈ scan.reads
  offered : ∀ block, s.files.readBlock pindex.nFile pindex.nBlockPos = some block →
    ∀ tx ∈ block.vtx, (tx, block) ∈ scan.offers

/-- A later state of a scan. -/
structure Grows (before after : Scan W) : Prop where
  reads : before.reads ⊆ after.reads
  offers : before.offers ⊆ after.offers

theorem Grows.refl (scan : Scan W) : scan.Grows scan := ⟨fun _ => id, fun _ => id⟩

theorem Grows.trans {before middle after : Scan W} (first : before.Grows middle) (second : middle.Grows after) :
    before.Grows after :=
  ⟨List.Subset.trans first.reads second.reads, List.Subset.trans first.offers second.offers⟩

theorem Covers.of_grows {after : Scan W} (covers : scan.Covers s pindex) (grows : scan.Grows after) :
    after.Covers s pindex :=
  ⟨grows.reads covers.read, fun block found tx member => grows.offers (covers.offered block found tx member)⟩

/-- A birthday that is not later than a time. -/
def BornBy (bound : Int64) (scan : Scan W) : Prop := scan.nTimeFirstKey ≠ 0 ∧ scan.nTimeFirstKey ≤ bound

theorem offerTxs_spec (vtx : List CTransaction) (scan : Scan W) :
    (vtx.foldl (offerTx add fUpdate block) scan).reads = scan.reads ∧
      (vtx.foldl (offerTx add fUpdate block) scan).offers = scan.offers ++ vtx.map (·, block) ∧
      ∀ bound, scan.BornBy bound → (vtx.foldl (offerTx add fUpdate block) scan).BornBy bound := by
  induction vtx generalizing scan with
  | nil => exact ⟨rfl, by simp, fun _ => id⟩
  | cons tx rest ih =>
      obtain ⟨reads, offers, born⟩ := ih (scan.offerTx add fUpdate block tx)
      refine ⟨reads, ?_, fun bound early => born bound (noteBirths_le _ early.1 early.2)⟩
      rw [List.foldl_cons, offers, offerTx, List.map_cons, List.append_assoc, List.singleton_append]

theorem readBlock_spec (scan : Scan W) (pindex : CBlockIndex) :
    (scan.readBlock add fUpdate s pindex).reads = scan.reads ++ [pindex] ∧
      (scan.readBlock add fUpdate s pindex).Covers s pindex ∧ scan.Grows (scan.readBlock add fUpdate s pindex) ∧
      ∀ bound, scan.BornBy bound → (scan.readBlock add fUpdate s pindex).BornBy bound := by
  unfold readBlock
  cases found : s.files.readBlock pindex.nFile pindex.nBlockPos with
  | none =>
      refine ⟨rfl, ⟨by simp, ?_⟩, ⟨fun _ => List.mem_append_left _, fun _ => id⟩, fun _ => id⟩
      intro block present
      rw [found] at present
      cases present
  | some block =>
      obtain ⟨reads, offers, born⟩ :=
        @offerTxs_spec _ add fUpdate block block.vtx { scan with reads := scan.reads ++ [pindex] }
      simp only
      refine ⟨reads, ⟨by rw [reads]; simp, ?_⟩, ⟨?_, ?_⟩, born⟩
      · intro other present tx member
        obtain rfl := Option.some.inj (found.symm.trans present)
        rw [offers]
        exact List.mem_append_right _ (List.mem_map_of_mem member)
      · rw [reads]
        exact fun _ => List.mem_append_left _
      · rw [offers]
        exact fun _ => List.mem_append_left _

theorem visit_grows (scan : Scan W) (pindex : CBlockIndex) : scan.Grows (scan.visit add fUpdate s pindex) := by
  unfold visit
  split
  · exact Grows.refl scan
  · exact (readBlock_spec scan pindex).2.2.1

theorem visits_grow (pindexes : List CBlockIndex) (scan : Scan W) :
    scan.Grows (pindexes.foldl (visit add fUpdate s) scan) := by
  induction pindexes generalizing scan with
  | nil => exact Grows.refl scan
  | cons pindex rest ih => exact (visit_grows scan pindex).trans (ih _)

theorem mem_reads_visits {pindexes : List CBlockIndex}
    (read : entry ∈ (pindexes.foldl (visit add fUpdate s) scan).reads) : entry ∈ scan.reads ∨ entry ∈ pindexes := by
  induction pindexes generalizing scan with
  | nil => exact .inl read
  | cons pindex rest ih =>
      rcases ih read with before | later
      · rw [visit] at before
        split at before
        · exact .inl before
        · rw [(readBlock_spec scan pindex).1, List.mem_append, List.mem_singleton] at before
          rcases before with old | rfl
          · exact .inl old
          · exact .inr List.mem_cons_self
      · exact .inr (List.mem_cons_of_mem _ later)

/-- With a birthday that is not later than a time, no block from that time on is left out. -/
theorem visits_cover (pindexes : List CBlockIndex) (born : scan.BornBy bound) :
    ∀ entry ∈ pindexes, bound.toInt ≤ entry.getBlockTime →
      (pindexes.foldl (visit add fUpdate s) scan).Covers s entry := by
  induction pindexes generalizing scan with
  | nil =>
      intro entry member
      cases member
  | cons pindex rest ih =>
      obtain ⟨-, covers, -, kept⟩ := @readBlock_spec _ add fUpdate s scan pindex
      have next : (scan.visit add fUpdate s pindex).BornBy bound := by
        rw [visit]
        split
        · exact born
        · exact kept bound born
      intro entry member late
      rcases List.mem_cons.mp member with rfl | later
      · have read : ¬ BeforeBirthday scan.nTimeFirstKey entry := by
          rintro ⟨-, old⟩
          have early := Int64.le_iff_toInt_le.mp born.2
          omega
        rw [List.foldl_cons, visit, if_neg read]
        exact covers.of_grows (visits_grow rest _)
      · exact ih next entry later late

/-- Reading all the blocks, whatever the birthday. -/
def readAll (add : AddIfInvolved W) (fUpdate : Bool) (s : Node) (scan : Scan W) (pindexes : List CBlockIndex) :
    Scan W :=
  pindexes.foldl (readBlock add fUpdate s) scan

/-- No block is before the birthday that the wallet has when all blocks below have been read. -/
def Unskipped (add : AddIfInvolved W) (fUpdate : Bool) (s : Node) (scan : Scan W) (pindexes : List CBlockIndex) :
    Prop :=
  ∀ below entry above, pindexes = below ++ entry :: above →
    ¬ BeforeBirthday (scan.readAll add fUpdate s below).nTimeFirstKey entry

theorem Unskipped.cons_iff {pindexes : List CBlockIndex} :
    Unskipped add fUpdate s scan (pindex :: pindexes) ↔ ¬ BeforeBirthday scan.nTimeFirstKey pindex ∧
      Unskipped add fUpdate s (scan.readBlock add fUpdate s pindex) pindexes := by
  constructor
  · intro unskipped
    refine ⟨unskipped [] pindex pindexes rfl, ?_⟩
    rintro below entry above rfl
    exact unskipped (pindex :: below) entry above rfl
  · rintro ⟨first, rest⟩ below entry above shape
    cases below with
    | nil =>
        obtain ⟨rfl, -⟩ := List.cons.inj shape
        exact first
    | cons other below =>
        obtain ⟨rfl, rfl⟩ := List.cons.inj shape
        exact rest below entry above rfl

/-- A scan in which no block is skipped covers all of them. -/
theorem Unskipped.covers {pindexes : List CBlockIndex} (unskipped : Unskipped add fUpdate s scan pindexes) :
    ∀ entry ∈ pindexes, (pindexes.foldl (visit add fUpdate s) scan).Covers s entry := by
  induction pindexes generalizing scan with
  | nil =>
      intro entry member
      cases member
  | cons pindex rest ih =>
      obtain ⟨first, others⟩ := Unskipped.cons_iff.mp unskipped
      rw [List.foldl_cons, visit, if_neg first]
      intro entry member
      rcases List.mem_cons.mp member with rfl | later
      · exact (readBlock_spec scan entry).2.1.of_grows (visits_grow rest _)
      · exact ih others entry later

/-- Where all blocks have been read none was skipped. -/
theorem unskipped_of_reads {pindexes : List CBlockIndex} (nodup : pindexes.Nodup)
    (fresh : ∀ entry ∈ pindexes, entry ∉ scan.reads)
    (all : ∀ entry ∈ pindexes, entry ∈ (pindexes.foldl (visit add fUpdate s) scan).reads) :
    Unskipped add fUpdate s scan pindexes := by
  induction pindexes generalizing scan with
  | nil =>
      intro below entry above shape
      cases below <;> cases shape
  | cons pindex rest ih =>
      obtain ⟨absent, others⟩ := List.nodup_cons.mp nodup
      have first : ¬ BeforeBirthday scan.nTimeFirstKey pindex := by
        intro old
        have read := all pindex List.mem_cons_self
        rw [List.foldl_cons, visit, if_pos old] at read
        exact (mem_reads_visits read).elim (fresh pindex List.mem_cons_self) absent
      refine Unskipped.cons_iff.mpr ⟨first, ih others ?_ ?_⟩
      · intro entry member read
        rw [(readBlock_spec scan pindex).1, List.mem_append, List.mem_singleton] at read
        rcases read with before | rfl
        · exact fresh entry (List.mem_cons_of_mem _ member) before
        · exact absent member
      · intro entry member
        have read := all entry (List.mem_cons_of_mem _ member)
        rwa [List.foldl_cons, visit, if_neg first] at read

end Scan

/-! ## Imports -/

namespace KeyWallet

variable {W : Type} (add : AddIfInvolved W) (s : Node) (w : KeyWallet) (result : Import) (wallet : W)

/-- Every block of the active chain from a time on is read by the rescan, and its transactions are offered to the
wallet. -/
def MissesNone (nTime : Int64) : Prop :=
  ∀ pindex ∈ s.pindexBest, nTime.toInt ≤ pindex.getBlockTime → (w.rescan s add result wallet).Covers s pindex

/-- Reading the chain up to a block never leads to a birthday that hides the block. -/
def ReachesAll : Prop := Scan.Unskipped add false s ⟨wallet, 0, 0, [], []⟩ s.pindexBest.reverse

end KeyWallet

section Import

variable {W : Type} {add : AddIfInvolved W} {s : Node} {w : KeyWallet} {result : KeyWallet.Import} {wallet : W}
  {nTime : Int64} {pindexBest : CBlockIndex}

/-- What is from the birth times on is not below the start of the rescan. -/
theorem rescan_start (timely : TimelyChain s.pindexBest) {newer older : BlockPtr} {entry pindex : CBlockIndex}
    (shape : s.pindexBest = newer ++ entry :: older)
    (reason : entry.getBlockTime ≤ result.nTimeBegin.toInt - 7200 ∨ older = [])
    (member : pindex ∈ s.pindexBest) (late : result.nTimeBegin.toInt ≤ pindex.getBlockTime) :
    pindex ∈ entry :: newer.reverse := by
  rw [shape, List.mem_append, List.mem_cons] at member
  rcases member with above | rfl | below
  · exact List.mem_cons_of_mem _ (List.mem_reverse.mpr above)
  · exact List.mem_cons_self
  · rcases reason with old | rfl
    · obtain ⟨front, back, rfl⟩ := List.append_of_mem below
      have split : s.pindexBest = (newer ++ entry :: front) ++ pindex :: back := by rw [shape]; simp
      rw [split] at timely
      have drop := timely.time_drop (List.mem_append_right newer List.mem_cons_self)
      omega
    · cases below

theorem rescan_eq (indexed : Indexed s.mapBlockIndex s.pindexBest) (links : s.pnext = pathLinks s.pindexBest)
    {newer older : BlockPtr} {entry : CBlockIndex} (shape : s.pindexBest = newer ++ entry :: older)
    (start : rescanStart result.nTimeBegin s.pindexBest = entry :: older) :
    w.rescan s add result wallet = (entry :: newer.reverse).foldl (Scan.visit add false s)
      ⟨wallet, noteBirth w.nTimeFirstKey result.nTimeBegin, 0, [], []⟩ := by
  have fits : newer.length < s.pindexBest.length := by
    rw [shape, List.length_append, List.length_cons]
    omega
  rw [KeyWallet.rescan, scanForWalletTransactions, start, alongNext_eq indexed links shape fits]

/-- A birthday makes the rescan miss nothing. -/
theorem misses_none_of_birthday (indexed : Indexed s.mapBlockIndex s.pindexBest)
    (links : s.pnext = pathLinks s.pindexBest) (real : s.pindexBest ≠ []) (timely : TimelyChain s.pindexBest)
    (least : result.nTimeBegin ≤ nTime) (birthday : noteBirth w.nTimeFirstKey result.nTimeBegin ≠ 0) :
    w.MissesNone add s result wallet nTime := by
  obtain ⟨newer, entry, older, shape, start, reason⟩ := rescanStart_spec result.nTimeBegin real
  intro pindex member late
  have early := Int64.le_iff_toInt_le.mp least
  have inside := rescan_start timely shape reason member (early.trans late)
  have born : Scan.BornBy result.nTimeBegin
      (⟨wallet, noteBirth w.nTimeFirstKey result.nTimeBegin, 0, [], []⟩ : Scan W) :=
    ⟨birthday, noteBirth_le_right _ _⟩
  rw [rescan_eq indexed links shape start]
  exact Scan.visits_cover _ born pindex inside (early.trans late)

/-- Without a birthday the rescan starts at the first block, and it misses nothing if it can reach all. -/
theorem misses_none_iff_reachesAll (indexed : Indexed s.mapBlockIndex s.pindexBest)
    (links : s.pnext = pathLinks s.pindexBest) (real : s.pindexBest ≠ []) (zero : result.nTimeBegin = 0)
    (none : noteBirth w.nTimeFirstKey result.nTimeBegin = 0) :
    w.MissesNone add s result wallet 0 ↔ KeyWallet.ReachesAll add s wallet := by
  obtain ⟨newer, entry, older, shape, start, reason⟩ := rescanStart_spec result.nTimeBegin real
  have natural : ∀ pindex : CBlockIndex, 0 ≤ pindex.getBlockTime := fun _ => Int.natCast_nonneg _
  have bottom : older = [] := by
    refine reason.resolve_left ?_
    have positive := natural entry
    rw [zero, Int64.toInt_zero]
    omega
  subst bottom
  have upwards : entry :: newer.reverse = s.pindexBest.reverse := by
    rw [shape, List.reverse_append]
    rfl
  rw [KeyWallet.MissesNone, rescan_eq indexed links shape start, upwards, none]
  constructor
  · intro covers
    refine Scan.unskipped_of_reads (List.nodup_reverse.mpr (List.Nodup.of_map _ indexed.nodup)) (by simp) ?_
    intro pindex member
    exact (covers pindex (List.mem_reverse.mp member) (natural pindex)).read
  · intro reaches pindex member _
    exact Scan.Unskipped.covers reaches pindex (List.mem_reverse.mpr member)

theorem noteBirth_eq_zero_iff {nTimeFirstKey nTime : Int64} :
    noteBirth nTimeFirstKey nTime = 0 ↔ nTime = 0 ∧ ¬ nTimeFirstKey < 0 := by
  rw [noteBirth]
  split
  · rename_i earlier
    constructor
    · rintro rfl
      refine ⟨rfl, ?_⟩
      rcases earlier with rfl | positive
      · decide
      · exact Int64.lt_asymm positive
    · exact And.left
  · rename_i later
    obtain ⟨some_, notEarlier⟩ := not_or.mp later
    constructor
    · exact fun zero => absurd zero some_
    · rintro ⟨rfl, notNegative⟩
      exact Int64.le_antisymm (Int64.not_lt.mp notEarlier) (Int64.not_lt.mp notNegative)

/-- The rescan of an import reads every block from the earliest birth time on, and offers all its transactions to the
wallet, unless this time is 0 and no key of the wallet is older: then the wallet has no birthday, and the rescan misses
none exactly if no key that is generated on the way becomes a birthday that hides a later block. -/
theorem importwallet_misses_none_iff {crypto : KeyCrypto} {fTestNet : Bool} {format : DumpFormat} {file : Bytes}
    (indexed : Indexed s.mapBlockIndex s.pindexBest) (links : s.pnext = pathLinks s.pindexBest)
    (best : s.pindexBest.head? = some pindexBest) (timely : TimelyChain s.pindexBest)
    (done : w.importLines s crypto fTestNet format file = some result) (member : nTime ∈ w.births result)
    (earliest : ∀ other ∈ w.births result, nTime ≤ other) :
    w.MissesNone add s result wallet nTime ↔
      nTime ≠ 0 ∨ w.nTimeFirstKey < 0 ∨ KeyWallet.ReachesAll add s wallet := by
  have begins := KeyWallet.importLines_earliest best done
  have real : s.pindexBest ≠ [] := by
    intro empty
    rw [empty] at best
    cases best
  have tipTime : (Int64.ofNat pindexBest.nTime.toNat).toInt = pindexBest.getBlockTime :=
    Int64.toInt_ofNat_of_lt (by have small := pindexBest.nTime.toNat_lt; omega)
  have attained : result.nTimeBegin = Int64.ofNat pindexBest.nTime.toNat ∨ result.nTimeBegin = nTime :=
    begins.attained.imp_right fun birth => Int64.le_antisymm (begins.least _ member) (earliest _ birth)
  by_cases zero : nTime = 0
  · subst zero
    have beginsZero : result.nTimeBegin = 0 := by
      rcases attained with tip | birth
      · refine Int64.le_antisymm (begins.least _ member) (Int64.le_iff_toInt_le.mpr ?_)
        rw [tip, tipTime]
        exact Int.natCast_nonneg _
      · exact birth
    by_cases old : w.nTimeFirstKey < 0
    · have birthday : noteBirth w.nTimeFirstKey result.nTimeBegin ≠ 0 :=
        fun none => (noteBirth_eq_zero_iff.mp none).2 old
      exact iff_of_true (misses_none_of_birthday indexed links real timely (begins.least _ member) birthday)
        (.inr (.inl old))
    · rw [misses_none_iff_reachesAll indexed links real beginsZero (noteBirth_eq_zero_iff.mpr ⟨beginsZero, old⟩)]
      simp [old]
  · refine iff_of_true ?_ (.inl zero)
    by_cases birthday : noteBirth w.nTimeFirstKey result.nTimeBegin = 0
    · -- Only a chain of one block can have a best block with the time 0.
      have beginsZero := (noteBirth_eq_zero_iff.mp birthday).1
      have tip : result.nTimeBegin = Int64.ofNat pindexBest.nTime.toNat :=
        attained.resolve_right fun same => zero (same ▸ beginsZero)
      have tipZero : pindexBest.getBlockTime = 0 := by
        rw [← tipTime, ← tip, beginsZero, Int64.toInt_zero]
      have single : s.pindexBest = [pindexBest] := by
        cases chain : s.pindexBest with
        | nil => exact absurd chain real
        | cons first rest =>
            rw [chain] at best timely
            obtain rfl := Option.some.inj best
            cases rest with
            | nil => rfl
            | cons prev grand => exact absurd tipZero timely.time_pos.ne'
      have reaches : KeyWallet.ReachesAll add s wallet := by
        rw [KeyWallet.ReachesAll, single]
        refine Scan.Unskipped.cons_iff.mpr ⟨fun old => old.1 rfl, ?_⟩
        intro below entry above shape
        cases below <;> cases shape
      have all := (misses_none_iff_reachesAll indexed links real beginsZero birthday).mpr reaches
      intro pindex inChain _
      exact all pindex inChain (Int.natCast_nonneg _)
    · exact misses_none_of_birthday indexed links real timely (begins.least _ member) birthday

end Import

section Concrete

/-- The id of the key that is imported. -/
def importedId : BitVec 160 := samplePrivateKey.id .sample

/-- A payment of next to nothing to the default key, and one to the imported key. -/
def importedPayment : CTransaction :=
  .labelledCoinBase 101 1100 [0x51, 0] [⟨1, CScript.payToKeyID 5⟩, ⟨coin, CScript.payToKeyID importedId⟩]

def importBlocks : List CBlock :=
  [.labelled 0 0 1000 0x1f00ffff [], .labelled 1 (genesisHash true) 1100 0x1f00ffff [importedPayment],
    .labelled 2 1 1200 0x1f00ffff [.labelledCoinBase 102 1200 [0x52, 0] [⟨coin, CScript.payToKeyID importedId⟩]]]

def importChain : BlockPtr :=
  [.labelled 2 2 3 false 1200 0x1f00ffff, .labelled 1 1 2 false 1100 0x1f00ffff,
    { CBlockIndex.labelled 0 0 1 false 1000 0x1f00ffff with hash := genesisHash true }]

/-- A node with a chain of three blocks. -/
def importNode : Node :=
  { smallInitial importBlocks with
    pindexBest := importChain
    pnext := pathLinks importChain
    mapBlockIndex := fun hash => importChain.tails.find? fun pindex => blockHash pindex = hash }

/-- The key 5 and the imported one. Outputs of less than a cent do not count. -/
def importKeys : WalletKeys where
  isMine scriptPubKey := scriptPubKey = CScript.payToKeyID 5 || scriptPubKey = CScript.payToKeyID importedId
  extractDestination _ := none
  isMineDestination _ := false
  nMinimumInputValue := cent

/-- A wallet with the default key 5. Its pool is not full, so that a key is generated when one is taken. -/
def importCoins : PooledCoins where
  coins := ⟨fun _ => none, some 5, fun _ => false, fun _ => 0⟩
  pool := [⟨7, [⟨100000, by decide⟩]⟩]

def importAdd : AddIfInvolved PooledCoins := PooledCoins.addToWalletIfInvolvingMe (.labelled true) importKeys

/-- A file with one key and its birth time. -/
def importFile (nTime : Int64) : Bytes :=
  KeyWallet.dumpLine .sample false KeyWallet.sampleFormat (CBitcoinSecret.setSecret false sampleSecret true) nTime
    WalletDump.changeField importedId ++ [10]

/-- What the import of the file finds. -/
def importResult (nTime : Int64) : Option KeyWallet.Import :=
  (KeyWallet.emptyWallet).importLines importNode .sample false KeyWallet.sampleFormat (importFile nTime)

theorem importNode_indexed : Indexed importNode.mapBlockIndex importNode.pindexBest := by
  have all : ∀ pindex ∈ importChain.tails, ∀ entry ∈ pindex.head?,
      importNode.mapBlockIndex entry.hash = some pindex := by
    decide +kernel
  intro entry pprev suffix
  exact all _ ((List.mem_tails _ _).mpr suffix) entry rfl

/-- The only birth time is that of the file, where it is before the best block. -/
theorem importResult_births {nTime : Int64} {result : KeyWallet.Import} (done : importResult nTime = some result)
    (begins : result.nTimeBegin = nTime)
    (known : result.wallet.keystore.haveKey importedId = true ∧
      result.wallet.mapKeyMetadata.lookup importedId = some nTime) :
    nTime ∈ (KeyWallet.emptyWallet).births result ∧
      ∀ other ∈ (KeyWallet.emptyWallet).births result, nTime ≤ other := by
  refine ⟨⟨importedId, rfl, known.1, known.2⟩, fun other birth => ?_⟩
  rw [← begins]
  exact (KeyWallet.importLines_earliest rfl done).least other birth

/-- A key that was born after the first block is imported, and nothing is missed. -/
theorem importwallet_misses_none_young : ∃ result, importResult 1100 = some result ∧
    (KeyWallet.emptyWallet).MissesNone importAdd importNode result importCoins 1100 := by
  have facts : (importResult 1100).map (fun result => (result.nTimeBegin, result.wallet.keystore.haveKey importedId,
      result.wallet.mapKeyMetadata.lookup importedId)) = some (1100, true, some 1100) := by
    decide +kernel
  obtain ⟨result, done, facts⟩ := Option.map_eq_some_iff.mp facts
  simp only [Prod.mk.injEq] at facts
  obtain ⟨member, earliest⟩ := importResult_births done facts.1 facts.2
  refine ⟨result, done, ?_⟩
  exact (importwallet_misses_none_iff importNode_indexed rfl rfl (by decide +kernel) done member earliest).mpr
    (.inl (by decide))

/-- A key that was born at time 0 is imported. The payment in the second block makes the wallet generate a key, and the
third block is not read. -/
theorem import_from_time_zero_misses_block : ∃ result, importResult 0 = some result ∧
    Indexed importNode.mapBlockIndex importNode.pindexBest ∧ importNode.pnext = pathLinks importNode.pindexBest ∧
    TimelyChain importNode.pindexBest ∧ 0 ∈ (KeyWallet.emptyWallet).births result ∧
    (∀ other ∈ (KeyWallet.emptyWallet).births result, 0 ≤ other) ∧
    ¬ (KeyWallet.emptyWallet).MissesNone importAdd importNode result importCoins 0 := by
  have facts : (importResult 0).map (fun result => (result.nTimeBegin, result.wallet.keystore.haveKey importedId,
      result.wallet.mapKeyMetadata.lookup importedId)) = some (0, true, some 0) := by
    decide +kernel
  obtain ⟨result, done, facts⟩ := Option.map_eq_some_iff.mp facts
  simp only [Prod.mk.injEq] at facts
  obtain ⟨member, earliest⟩ := importResult_births done facts.1 facts.2
  refine ⟨result, done, importNode_indexed, rfl, by decide +kernel, member, earliest, fun all => ?_⟩
  have tip : CBlockIndex.labelled 2 2 3 false 1200 0x1f00ffff ∈ importNode.pindexBest := List.mem_cons_self
  have read := (all _ tip (by decide)).read
  rw [KeyWallet.rescan, facts.1] at read
  revert read
  decide +kernel

end Concrete

end InfiniteRicks
