import InfiniteRicks.SignatureHash

/-!
# Signature checks and their cache

`CheckSig` and `CSignatureCache` (`script.cpp`). The cache is static and only
`CheckSig` uses it, so its history is a sequence of calls, each with the random
hashes its evictions draw. Every entry is a verified statement, which makes the
cached answers those of `checkSig`, the same function without a cache.
-/

namespace InfiniteRicks

/-- What scripts take from the hash functions and from OpenSSL's keys. -/
structure Crypto where
  /-- `Hash` -/
  hash : Bytes → UInt256
  /-- `Hash160` -/
  hash160 : Bytes → BitVec 160
  ripemd160 : Bytes → BitVec 160
  sha1 : Bytes → BitVec 160
  sha256 : Bytes → BitVec 256
  /-- `CKey::SetPubKey` -/
  setPubKey : Bytes → Bool
  /-- `CKey::Verify` with the key that `SetPubKey` has set. -/
  verify : Bytes → UInt256 → Bytes → Bool

/-- The arguments of `CheckSig`. -/
structure SigCheck where
  vchSig : Bytes
  vchPubKey : Bytes
  scriptCode : CScript
  txTo : CTransaction
  nIn : Nat
  nHashType : Int32

/-- The hash type of a check: the last byte of the signature, which has to be the one asked for unless
that is 0. -/
def SigCheck.hashType (check : SigCheck) : Option Int32 :=
  match check.vchSig.getLast? with
  | none => none
  | some back =>
      if check.nHashType = 0 then some (UInt32.ofNat back.toNat).toInt32
      else if check.nHashType ≠ (UInt32.ofNat back.toNat).toInt32 then none
      else some check.nHashType

/-- The signature without its hash type. -/
def SigCheck.signature (check : SigCheck) : Bytes := check.vchSig.dropLast

/-- The statement that a check verifies: hash, signature and public key. -/
abbrev SigData := UInt256 × Bytes × Bytes

def SigCheck.sigData (crypto : Crypto) (check : SigCheck) (nHashType : Int32) : SigData :=
  (signatureHash crypto.hash check.scriptCode check.txTo check.nIn nHashType, check.signature, check.vchPubKey)

/-- `SetPubKey` and `Verify`. -/
def Crypto.verifies (crypto : Crypto) (data : SigData) : Bool :=
  crypto.setPubKey data.2.2 && crypto.verify data.2.2 data.1 data.2.1

/-- `CheckSig` without a cache. -/
def checkSig (crypto : Crypto) (check : SigCheck) : Bool :=
  match check.hashType with
  | none => false
  | some nHashType => crypto.verifies (check.sigData crypto nHashType)

namespace CSignatureCache

/-- The order of the set: tuples and byte vectors compare lexicographically. -/
def less (left right : SigData) : Bool :=
  left.1 < right.1 || (left.1 = right.1 &&
    (left.2.1 < right.2.1 || (left.2.1 = right.2.1 && left.2.2 < right.2.2)))

/-- `setValid.insert`, the set being the list of its entries in order. -/
def insert (k : SigData) : List SigData → List SigData
  | [] => [k]
  | entry :: rest =>
      if less k entry then k :: entry :: rest
      else if less entry k then entry :: insert k rest
      else entry :: rest

/-- The entry that is evicted for a random hash: the first one not below it, or else the first one. -/
def victim (randomHash : UInt256) (setValid : List SigData) : Option SigData :=
  match setValid.find? fun entry => !less entry (randomHash, [], []) with
  | some entry => some entry
  | none => setValid.head?

/-- The eviction loop; the fuel is the size of the set, which shrinks in each round. -/
def evict (nMaxCacheSize : Int) (getRandHash : Nat → UInt256) : Nat → List SigData → List SigData
  | 0, setValid => setValid
  | fuel + 1, setValid =>
      if nMaxCacheSize < setValid.length then
        match victim (getRandHash fuel) setValid with
        | none => setValid
        | some entry => evict nMaxCacheSize getRandHash fuel (setValid.erase entry)
      else setValid

/-- `CSignatureCache::Set`. -/
def set (nMaxCacheSize : Int) (getRandHash : Nat → UInt256) (k : SigData) (setValid : List SigData) :
    List SigData :=
  if nMaxCacheSize ≤ 0 then setValid
  else insert k (evict nMaxCacheSize getRandHash setValid.length setValid)

/-- `CheckSig` with the cache: the answer and the cache afterwards. -/
def checkSig (crypto : Crypto) (nMaxCacheSize : Int) (getRandHash : Nat → UInt256) (setValid : List SigData)
    (check : SigCheck) : Bool × List SigData :=
  match check.hashType with
  | none => (false, setValid)
  | some nHashType =>
      let k := check.sigData crypto nHashType
      if k ∈ setValid then (true, setValid)
      else if !crypto.setPubKey check.vchPubKey then (false, setValid)
      else if !crypto.verify check.vchPubKey k.1 check.signature then (false, setValid)
      else (true, set nMaxCacheSize getRandHash k setValid)

/-- A history of calls, with the random hashes of each: the answers and the cache at the end. -/
def run (crypto : Crypto) (nMaxCacheSize : Int) :
    List (SigCheck × (Nat → UInt256)) → List SigData → List Bool × List SigData
  | [], setValid => ([], setValid)
  | (check, getRandHash) :: calls, setValid =>
      let (answer, setValid) := checkSig crypto nMaxCacheSize getRandHash setValid check
      let (answers, setValid) := run crypto nMaxCacheSize calls setValid
      (answer :: answers, setValid)

/-- Every entry is a verified statement, and there is at most one entry more than configured. -/
structure Sound (crypto : Crypto) (nMaxCacheSize : Int) (setValid : List SigData) : Prop where
  verified : ∀ entry ∈ setValid, crypto.verifies entry = true
  size : setValid.length ≤ nMaxCacheSize.toNat + 1

variable {crypto : Crypto} {nMaxCacheSize : Int} {getRandHash : Nat → UInt256} {setValid : List SigData}

theorem mem_insert {k entry : SigData} (member : entry ∈ insert k setValid) : entry = k ∨ entry ∈ setValid := by
  induction setValid with
  | nil => exact Or.inl (List.mem_singleton.mp member)
  | cons first rest ih =>
      rw [insert] at member
      split_ifs at member
      · exact List.mem_cons.mp member
      · rcases List.mem_cons.mp member with rfl | later
        · exact Or.inr List.mem_cons_self
        · exact (ih later).imp_right (List.mem_cons_of_mem _)
      · exact Or.inr member

theorem length_insert_le (k : SigData) (setValid : List SigData) : (insert k setValid).length ≤ setValid.length + 1 := by
  induction setValid with
  | nil => exact le_rfl
  | cons first rest ih =>
      rw [insert]
      split_ifs
      · exact le_rfl
      · exact Nat.succ_le_succ ih
      · exact Nat.le_succ _

/-- A set that is not empty has an entry to evict. -/
theorem victim_mem (randomHash : UInt256) (nonempty : setValid ≠ []) :
    ∃ entry, victim randomHash setValid = some entry ∧ entry ∈ setValid := by
  unfold victim
  cases found : setValid.find? fun entry => !less entry (randomHash, [], []) with
  | some entry => exact ⟨entry, rfl, List.mem_of_find?_eq_some found⟩
  | none =>
      obtain ⟨first, rest, rfl⟩ := List.exists_cons_of_ne_nil nonempty
      exact ⟨first, rfl, List.mem_cons_self⟩

/-- The loop ends within the limit and only removes entries. -/
theorem evict_spec (positive : 0 < nMaxCacheSize) (getRandHash : Nat → UInt256) {fuel : Nat}
    (enough : setValid.length ≤ fuel) :
    (evict nMaxCacheSize getRandHash fuel setValid).length ≤ nMaxCacheSize.toNat ∧
      ∀ entry ∈ evict nMaxCacheSize getRandHash fuel setValid, entry ∈ setValid := by
  induction fuel generalizing setValid with
  | zero =>
      rw [evict]
      exact ⟨by omega, fun _ member => member⟩
  | succ fuel ih =>
      rw [evict]
      split_ifs with full
      · have nonempty : setValid ≠ [] := by
          rintro rfl
          simp only [List.length_nil] at full
          omega
        obtain ⟨entry, chosen, member⟩ := victim_mem (getRandHash fuel) nonempty
        simp only [chosen]
        have shorter := List.length_erase_of_mem member
        obtain ⟨size, kept⟩ := @ih (setValid.erase entry) (by omega)
        exact ⟨size, fun other within => List.mem_of_mem_erase (kept other within)⟩
      · exact ⟨by omega, fun _ member => member⟩

theorem Sound.set (sound : Sound crypto nMaxCacheSize setValid) {k : SigData} (valid : crypto.verifies k = true) :
    Sound crypto nMaxCacheSize (set nMaxCacheSize getRandHash k setValid) := by
  unfold CSignatureCache.set
  split_ifs with off
  · exact sound
  · obtain ⟨size, kept⟩ := evict_spec (Int.not_le.mp off) getRandHash (le_refl setValid.length)
    constructor
    · intro entry member
      rcases mem_insert member with rfl | old
      · exact valid
      · exact sound.verified entry (kept entry old)
    · have grown := length_insert_le k (evict nMaxCacheSize getRandHash setValid.length setValid)
      omega

/-- One call answers as without a cache and leaves a sound cache. -/
theorem Sound.checkSig (sound : Sound crypto nMaxCacheSize setValid) (getRandHash : Nat → UInt256)
    (check : SigCheck) :
    (checkSig crypto nMaxCacheSize getRandHash setValid check).1 = InfiniteRicks.checkSig crypto check ∧
      Sound crypto nMaxCacheSize (checkSig crypto nMaxCacheSize getRandHash setValid check).2 := by
  unfold CSignatureCache.checkSig InfiniteRicks.checkSig
  cases check.hashType with
  | none => exact ⟨rfl, sound⟩
  | some nHashType =>
      simp only
      split_ifs with known badKey badSignature
      · exact ⟨(sound.verified _ known).symm, sound⟩
      · refine ⟨?_, sound⟩
        simp only [Bool.not_eq_true'] at badKey
        simp [Crypto.verifies, SigCheck.sigData, badKey]
      · refine ⟨?_, sound⟩
        simp only [Bool.not_eq_true', SigCheck.sigData] at badSignature
        simp [Crypto.verifies, SigCheck.sigData, badSignature]
      · have valid : crypto.verifies (check.sigData crypto nHashType) = true := by
          simp only [Bool.not_eq_true', Bool.not_eq_false, SigCheck.sigData] at badKey badSignature
          simp [Crypto.verifies, SigCheck.sigData, badKey, badSignature]
        exact ⟨valid.symm, sound.set valid⟩

theorem Sound.run (sound : Sound crypto nMaxCacheSize setValid) (calls : List (SigCheck × (Nat → UInt256))) :
    (run crypto nMaxCacheSize calls setValid).1 = calls.map (fun call => InfiniteRicks.checkSig crypto call.1) ∧
      Sound crypto nMaxCacheSize (run crypto nMaxCacheSize calls setValid).2 := by
  induction calls generalizing setValid with
  | nil => exact ⟨rfl, sound⟩
  | cons call calls ih =>
      obtain ⟨answer, kept⟩ := sound.checkSig call.2 call.1
      obtain ⟨answers, final⟩ := ih kept
      refine ⟨?_, final⟩
      rw [List.map_cons, ← answer, ← answers]
      rfl

/-- After every history, from the empty cache, the answers have been those of `CheckSig` without a cache,
and the cache has at most one entry more than configured. -/
theorem cache_transparent (crypto : Crypto) (nMaxCacheSize : Int)
    (calls : List (SigCheck × (Nat → UInt256))) :
    (run crypto nMaxCacheSize calls []).1 = calls.map (fun call => InfiniteRicks.checkSig crypto call.1) ∧
      (run crypto nMaxCacheSize calls []).2.length ≤ nMaxCacheSize.toNat + 1 := by
  have empty : Sound crypto nMaxCacheSize [] := ⟨by simp, Nat.zero_le _⟩
  obtain ⟨answers, final⟩ := empty.run calls
  exact ⟨answers, final.size⟩

end CSignatureCache

end InfiniteRicks
