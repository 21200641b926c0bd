import InfiniteRicks.Passphrase

/-!
# Changing the passphrase

In every run of calls an encrypted wallet has one master key record, which its passphrase
seals, over a key store whose entries are encrypted under that master key (`Settled`). From such a
wallet `ChangeWalletPassphrase` is atomic just where it starts from a locked wallet or with the right
passphrase: the other calls leave an unlocked wallet locked.
-/

namespace InfiniteRicks

/-- What is assumed of the cipher: what a key encrypts it decrypts. -/
structure WalletCrypto.Ideal (crypto : WalletCrypto) : Prop where
  lawful : crypto.toKeyCrypto.Lawful
  decrypt_encrypt : ∀ key nIV m, m.length = walletCryptoKeySize → crypto.decrypt key nIV (crypto.encrypt key nIV m) = some m

namespace CCryptoKeyStore

/-- An encrypted store with the keys that were added, all under one master key. -/
structure SealedUnder (crypto : KeyCrypto) (m : Bytes) (added : AddedKeys) (s : CCryptoKeyStore) : Prop where
  size : m.length = walletCryptoKeySize
  mode : s.fUseCrypto = true
  entries : ∀ address, s.mapCryptedKeys.lookup address = (added address).map fun key =>
    (key.pubKey crypto, crypto.encrypt m (crypto.hash (key.pubKey crypto)) key.secret)
  master : s.vMasterKey = [] ∨ s.vMasterKey = m

variable {crypto : KeyCrypto} {m : Bytes} {added : AddedKeys} {s : CCryptoKeyStore}

theorem setCrypted_of_mode (mode : s.fUseCrypto = true) : s.setCrypted = (true, s) := by
  rw [CCryptoKeyStore.setCrypted, mode]
  rfl

theorem lock_of_mode (mode : s.fUseCrypto = true) : s.lock = (true, { s with vMasterKey := [] }) := by
  rw [CCryptoKeyStore.lock, setCrypted_of_mode mode]

theorem unlock_of_mode (mode : s.fUseCrypto = true) (k : Bytes) :
    s.unlock crypto k = (opensFirst crypto k s.firstCrypted).map fun opens =>
      if opens then (true, { s with vMasterKey := k }) else (false, s) := by
  rw [CCryptoKeyStore.unlock, setCrypted_of_mode mode]

theorem SealedUnder.lock (under : s.SealedUnder crypto m added) : s.lock.2.SealedUnder crypto m added := by
  rw [lock_of_mode under.mode]
  exact ⟨under.size, under.mode, under.entries, .inl rfl⟩

theorem SealedUnder.opened (under : s.SealedUnder crypto m added) :
    ({ s with vMasterKey := m } : CCryptoKeyStore).SealedUnder crypto m added :=
  ⟨under.size, under.mode, under.entries, .inr rfl⟩

/-- The master key opens the store. -/
theorem SealedUnder.opensFirst (lawful : crypto.Lawful) (under : s.SealedUnder crypto m added) :
    CCryptoKeyStore.opensFirst crypto m s.firstCrypted = some true := by
  cases first : s.firstCrypted with
  | none => rfl
  | some entry =>
      obtain ⟨address, -, found⟩ := Option.bind_eq_some_iff.mp first
      rw [under.entries] at found
      obtain ⟨key, -, rfl⟩ := Option.map_eq_some_iff.mp found
      have decrypted : decryptSecret crypto m (crypto.encrypt m (crypto.hash (key.pubKey crypto)) key.secret)
          (crypto.hash (key.pubKey crypto)) = some key.secret := by
        rw [decryptSecret, if_neg (not_not_intro under.size), lawful.decrypt_encrypt m _ key under.size]
      simp only [CCryptoKeyStore.opensFirst, decrypted, key.size, ne_eq, not_true_eq_false, if_false,
        setSecret_setPubKey lawful key key.size, Option.bind_eq_bind, Option.bind_some]
      exact congrArg some (decide_eq_true rfl)

/-- An open store takes a key; a locked one does not. -/
theorem SealedUnder.addKey (under : s.SealedUnder crypto m added) (key : PrivateKey) :
    (s.vMasterKey = [] → s.addKey (key.toCKey crypto) = some (false, s)) ∧
      (s.vMasterKey = m → ∃ after, s.addKey (key.toCKey crypto) = some (true, after) ∧ after.vMasterKey = m ∧
        after.SealedUnder crypto m (Function.update added (key.id crypto) (some key))) := by
  constructor
  · intro locked
    rw [CCryptoKeyStore.addKey, isLocked, isCrypted, under.mode, locked]
    rfl
  · intro unlocked
    have size := under.size
    have long : m.isEmpty = false := by
      cases m with
      | nil => cases size
      | cons first rest => rfl
    refine ⟨{ s with
        mapCryptedKeys := s.mapCryptedKeys.insert (key.id crypto)
          (key.pubKey crypto, crypto.encrypt m (crypto.hash (key.pubKey crypto)) key.secret) },
      ?_, unlocked, size, under.mode, fun other => ?_, .inr unlocked⟩
    · simp [CCryptoKeyStore.addKey, isLocked, isCrypted, under.mode, unlocked, long, PrivateKey.getPubKey_toCKey,
        PrivateKey.getSecret_toCKey, encryptSecret, size, addCryptedKey, setCrypted_of_mode under.mode, PrivateKey.id]
    · rw [Library.Assoc.lookup_insert_eq, Function.update_apply]
      split
      · rfl
      · exact under.entries other

end CCryptoKeyStore

open CCryptoKeyStore

namespace CryptedWallet

variable {crypto : WalletCrypto} {w after : CryptedWallet} {passphrase : Option Bytes}

/-! ## Master key records -/

/-- The record holds the master key under the passphrase. -/
structure Seals (crypto : WalletCrypto) (record : CMasterKey) (passphrase m : Bytes) : Prop where
  salt : record.vchSalt.length = walletCryptoSaltSize
  method : record.nDerivationMethod = 0 ∨ record.nDerivationMethod = 1
  iterations : ¬record.nDeriveIterations < 1
  opens : openRecord crypto passphrase record = some m

theorem setKeyFromPassphrase_eq (record : CMasterKey) (salt : record.vchSalt.length = walletCryptoSaltSize)
    (method : record.nDerivationMethod = 0 ∨ record.nDerivationMethod = 1) (iterations : ¬record.nDeriveIterations < 1)
    (strKeyData : Bytes) :
    setKeyFromPassphrase crypto strKeyData record =
      some (crypto.bytesToKey record.nDerivationMethod record.vchSalt record.nDeriveIterations strKeyData) := by
  rw [setKeyFromPassphrase, if_neg (not_or.mpr ⟨iterations, not_not_intro salt⟩), if_pos method]

theorem leastIterations_le (measured : UInt32) : ¬max measured leastIterations < 1 := by
  change ¬(if measured ≤ leastIterations then leastIterations else measured) < 1
  split
  · decide
  · rename_i above
    rw [UInt32.le_iff_toNat_le] at above
    rw [UInt32.lt_iff_toNat_lt]
    intro below
    have least : leastIterations.toNat = 25000 := rfl
    have one : (1 : UInt32).toNat = 1 := rfl
    omega

/-- Sealing a record succeeds, and the passphrase opens it. -/
theorem sealRecord_spec (ideal : crypto.Ideal) (record : CMasterKey) {m : Bytes} (size : m.length = walletCryptoKeySize)
    (salt : record.vchSalt.length = walletCryptoSaltSize)
    (method : record.nDerivationMethod = 0 ∨ record.nDerivationMethod = 1) (iterations : ¬record.nDeriveIterations < 1)
    (passphrase : Bytes) :
    ∃ done, sealRecord crypto passphrase m record = some done ∧ Seals crypto done passphrase m := by
  have derived : setKeyFromPassphrase crypto passphrase record = some _ :=
    setKeyFromPassphrase_eq record salt method iterations passphrase
  refine ⟨_, congrArg (Option.map _) derived, salt, method, iterations, ?_⟩
  -- The passphrase derives the same key from the new record, since it has the same salt.
  have again : ∀ vchCryptedKey, setKeyFromPassphrase crypto passphrase { record with vchCryptedKey := vchCryptedKey } = some _ :=
    fun _ => derived
  rw [openRecord, again, Option.bind_some]
  exact ideal.decrypt_encrypt _ _ m size

/-! ## The wallets of a run -/

/-- The wallets of a run: one that is not encrypted, an empty one that `Lock` has made an encrypted one, and one with
the record of its passphrase. -/
inductive Settled (crypto : WalletCrypto) : CryptedWallet → Option Bytes → Prop
  | plain {w : CryptedWallet} {passphrase : Option Bytes} {added : AddedKeys} (records : w.mapMasterKeys = [])
      (mode : w.keystore.fUseCrypto = false) (holds : w.keystore.Holds crypto.toKeyCrypto added) :
      Settled crypto w passphrase
  | blank {w : CryptedWallet} {passphrase : Option Bytes} (records : w.mapMasterKeys = [])
      (mode : w.keystore.fUseCrypto = true) (locked : w.keystore.vMasterKey = []) : Settled crypto w passphrase
  | crypted {w : CryptedWallet} {id : UInt32} {record : CMasterKey} {passphrase m : Bytes} {added : AddedKeys}
      (records : w.mapMasterKeys = [(id, record)]) (seals : Seals crypto record passphrase m)
      (under : w.keystore.SealedUnder crypto.toKeyCrypto m added) : Settled crypto w (some passphrase)

section Crypted

variable {id : UInt32} {record : CMasterKey} {right m : Bytes} {added : AddedKeys}

/-- Every other passphrase fails on the only record. -/
def OthersFail (crypto : WalletCrypto) (record : CMasterKey) (right : Bytes) (s : CCryptoKeyStore) : Prop :=
  ∀ other, right ≠ other → ∀ opened, openRecord crypto other record = some opened →
    opensFirst crypto.toKeyCrypto opened s.firstCrypted = some false

theorem WrongKeyFails.others (wrong : w.WrongKeyFails crypto (some right)) (records : w.mapMasterKeys = [(id, record)]) :
    OthersFail crypto record right w.keystore := by
  intro other differs opened found
  refine wrong (id, record) ?_ other (fun same => differs (Option.some.inj same)) opened found
  rw [records]
  exact List.mem_singleton_self _

theorem OthersFail.lock {s : CCryptoKeyStore} (others : OthersFail crypto record right s) (mode : s.fUseCrypto = true) :
    OthersFail crypto record right s.lock.2 := by
  rw [lock_of_mode mode]
  exact others

/-- The loop of `Unlock` with one record and its passphrase. -/
theorem unlockRecords_right (ideal : crypto.Ideal) (seals : Seals crypto record right m) {s : CCryptoKeyStore}
    (under : s.SealedUnder crypto.toKeyCrypto m added) :
    unlockRecords crypto right [(id, record)] s = some (true, { s with vMasterKey := m }) := by
  rw [unlockRecords, seals.opens]
  dsimp only
  rw [unlock_of_mode under.mode, under.opensFirst ideal.lawful]
  rfl

/-- The loop of `Unlock` with one record and another passphrase. -/
theorem unlockRecords_wrong {s : CCryptoKeyStore} (mode : s.fUseCrypto = true)
    (others : OthersFail crypto record right s) {other : Bytes} (differs : other ≠ right) :
    unlockRecords crypto other [(id, record)] s = some (false, s) := by
  rw [unlockRecords]
  cases opened : openRecord crypto other record with
  | none => rfl
  | some garbage =>
      dsimp only
      rw [unlock_of_mode mode, others other (Ne.symm differs) garbage opened]
      rfl

theorem isLocked_iff (under : w.keystore.SealedUnder crypto.toKeyCrypto m added) :
    w.isLocked = true ↔ w.keystore.vMasterKey = [] := by
  rw [CryptedWallet.isLocked, CCryptoKeyStore.isLocked, CCryptoKeyStore.isCrypted, under.mode, Bool.true_and, List.isEmpty_iff]

theorem nonempty_of_size (size : m.length = walletCryptoKeySize) : m ≠ [] := by
  rintro rfl
  cases size

theorem isLocked_lock (under : w.keystore.SealedUnder crypto.toKeyCrypto m added) : w.lock.isLocked = true := by
  refine (isLocked_iff (w := w.lock) under.lock).mpr ?_
  rw [CryptedWallet.lock, lock_of_mode under.mode]

/-- `Unlock` of a locked wallet with its passphrase. -/
theorem unlock_right (ideal : crypto.Ideal) (records : w.mapMasterKeys = [(id, record)])
    (seals : Seals crypto record right m) (under : w.keystore.SealedUnder crypto.toKeyCrypto m added)
    (locked : w.isLocked = true) :
    w.unlock crypto right = some (true, { w with keystore := { w.keystore with vMasterKey := m } }) := by
  have loop : unlockRecords crypto right w.mapMasterKeys w.keystore = _ := records ▸ unlockRecords_right ideal seals under
  rw [CryptedWallet.unlock, locked, if_neg nofun, loop]
  rfl

/-- `Unlock` of a locked wallet with another passphrase. -/
theorem unlock_wrong (records : w.mapMasterKeys = [(id, record)]) (mode : w.keystore.fUseCrypto = true)
    (others : OthersFail crypto record right w.keystore) (locked : w.isLocked = true) {other : Bytes}
    (differs : other ≠ right) : w.unlock crypto other = some (false, w) := by
  have loop : unlockRecords crypto other w.mapMasterKeys w.keystore = _ := records ▸ unlockRecords_wrong mode others differs
  rw [CryptedWallet.unlock, locked, if_neg nofun, loop]
  rfl

/-- What unlocks the wallet is its passphrase. -/
theorem unlocks_iff (ideal : crypto.Ideal) (records : w.mapMasterKeys = [(id, record)]) (seals : Seals crypto record right m)
    (under : w.keystore.SealedUnder crypto.toKeyCrypto m added) (others : OthersFail crypto record right w.keystore)
    (other : Bytes) : w.Unlocks crypto other ↔ other = right := by
  constructor
  · rintro ⟨after, unlocked⟩
    by_contra differs
    rw [unlock_wrong (w := w.lock) records under.lock.mode (others.lock under.mode) (isLocked_lock under) differs] at unlocked
    cases unlocked
  · rintro rfl
    exact ⟨_, unlock_right (w := w.lock) ideal records seals under.lock (isLocked_lock under)⟩

/-- `ChangeWalletPassphrase` with a wrong passphrase locks the wallet, and that is all. -/
theorem changeWalletPassphrase_wrong (records : w.mapMasterKeys = [(id, record)])
    (under : w.keystore.SealedUnder crypto.toKeyCrypto m added)
    (others : OthersFail crypto record right w.keystore) {old : Bytes} (differs : old ≠ right) (new : Bytes)
    (measured : UInt32) : w.changeWalletPassphrase crypto old new measured = some (false, w.lock) := by
  have loop : changeRecords crypto old new measured w.mapMasterKeys w.keystore.lock.2 =
      some (false, w.mapMasterKeys, w.keystore.lock.2) := by
    rw [records, changeRecords]
    cases opened : openRecord crypto old record with
    | none => rfl
    | some garbage =>
        dsimp only
        rw [unlock_of_mode under.lock.mode, others.lock under.mode old (Ne.symm differs) garbage opened]
        rfl
  rw [changeWalletPassphrase, loop]
  rfl

/-- With the right one it puts another record in place, and leaves the wallet locked just if it was. -/
theorem changeWalletPassphrase_right (ideal : crypto.Ideal) (records : w.mapMasterKeys = [(id, record)])
    (seals : Seals crypto record right m) (under : w.keystore.SealedUnder crypto.toKeyCrypto m added) (new : Bytes)
    (measured : UInt32) :
    ∃ after other, w.changeWalletPassphrase crypto right new measured = some (true, after) ∧
      after.mapMasterKeys = [(id, other)] ∧ Seals crypto other new m ∧
      after.keystore.SealedUnder crypto.toKeyCrypto m added ∧ after.isLocked = w.isLocked := by
  obtain ⟨other, sealed, sealsNew⟩ := sealRecord_spec ideal
    { record with nDeriveIterations := max measured leastIterations } under.size seals.salt seals.method
    (leastIterations_le measured) new
  have loop : changeRecords crypto right new measured w.mapMasterKeys w.keystore.lock.2 =
      some (true, [(id, other)], { w.keystore.lock.2 with vMasterKey := m }) := by
    rw [records, changeRecords, seals.opens]
    dsimp only
    rw [unlock_of_mode under.lock.mode, under.lock.opensFirst ideal.lawful]
    simp only [Option.map_some, if_true, sealed]
  have unlocked : ({ w.keystore.lock.2 with vMasterKey := m } : CCryptoKeyStore).SealedUnder crypto.toKeyCrypto m added :=
    under.lock.opened
  cases locked : w.isLocked with
  | true =>
      refine ⟨{ w with mapMasterKeys := _, keystore := CCryptoKeyStore.lock _ |>.2 }, other, ?_, rfl, sealsNew,
        unlocked.lock, ?_⟩
      · rw [changeWalletPassphrase, loop, locked]
        rfl
      · exact isLocked_lock (w := { w with keystore := _ }) unlocked
  | false =>
      refine ⟨{ w with mapMasterKeys := _, keystore := _ }, other, ?_, rfl, sealsNew, unlocked, ?_⟩
      · rw [changeWalletPassphrase, loop, locked]
        rfl
      · refine Bool.eq_false_iff.mpr fun now => nonempty_of_size under.size ?_
        exact (isLocked_iff unlocked).mp now

/-- `NewKeyPool` on an open wallet. -/
theorem newKeyPool_spec (keys : List PrivateKey) (under : w.keystore.SealedUnder crypto.toKeyCrypto m added)
    (unlocked : w.keystore.vMasterKey = m) :
    ∃ after added, newKeyPool crypto keys w = some after ∧ after.mapMasterKeys = w.mapMasterKeys ∧
      after.keystore.SealedUnder crypto.toKeyCrypto m added := by
  have open_ : w.isLocked = false := by
    refine Bool.eq_false_iff.mpr fun locked => nonempty_of_size under.size ?_
    exact unlocked.symm.trans ((isLocked_iff under).mp locked)
  rw [newKeyPool, open_, if_neg Bool.false_ne_true]
  clear open_
  induction keys generalizing w added with
  | nil => exact ⟨w, added, rfl, rfl, under⟩
  | cons key rest ih =>
      obtain ⟨store, done, still, under⟩ := (under.addKey key).2 unlocked
      obtain ⟨after, more, generated, records, sealed⟩ := ih (w := { w with keystore := store }) under still
      refine ⟨after, more, ?_, records, sealed⟩
      rw [List.foldlM_cons, CryptedWallet.addKey, done]
      exact generated

/-- `EncryptWallet` of a wallet that is not encrypted. -/
theorem encryptWallet_plain (ideal : crypto.Ideal) (records : w.mapMasterKeys = [])
    (mode : w.keystore.fUseCrypto = false) (holds : w.keystore.Holds crypto.toKeyCrypto added) (passphrase : Bytes)
    (drawn : EncryptDraw) :
    ∃ after, w.encryptWallet crypto passphrase drawn = some (true, after) ∧ Settled crypto after (some passphrase) := by
  have method : (CMasterKey.new drawn.nDerivationMethodIndex).nDerivationMethod = 0 ∨
      (CMasterKey.new drawn.nDerivationMethodIndex).nDerivationMethod = 1 := by
    rw [CMasterKey.new]
    split
    · exact .inr rfl
    · exact .inl rfl
  obtain ⟨record, sealed, seals⟩ := sealRecord_spec ideal
    { CMasterKey.new drawn.nDerivationMethodIndex with
      vchSalt := drawn.vchSalt, nDeriveIterations := max drawn.measured leastIterations }
    drawn.masterSize drawn.saltSize method (leastIterations_le drawn.measured) passphrase
  obtain ⟨store, encrypted, on, -, closed, entries⟩ := holds.encryptKeys_plain mode drawn.masterSize
  have under : store.SealedUnder crypto.toKeyCrypto drawn.vMasterKey added :=
    ⟨drawn.masterSize, on, entries, .inl closed⟩
  let begun : CryptedWallet := ⟨store, [(w.nMasterKeyMaxID + 1, record)], w.nMasterKeyMaxID + 1⟩
  have unlocked := unlock_right (w := begun.lock) ideal rfl seals under.lock (isLocked_lock (w := begun) under)
  obtain ⟨after, more, generated, same, final⟩ :=
    newKeyPool_spec (w := { begun.lock with keystore := { begun.lock.keystore with vMasterKey := drawn.vMasterKey } })
      drawn.newKeys under.lock.opened rfl
  refine ⟨after.lock, ?_, .crypted same seals final.lock⟩
  rw [CryptedWallet.encryptWallet, CCryptoKeyStore.isCrypted, mode, if_neg Bool.false_ne_true]
  dsimp only
  rw [sealed]
  dsimp only
  rw [encrypted, records]
  dsimp only [List.nil_append]
  change ((begun.lock.unlock crypto passphrase).bind fun result =>
    (newKeyPool crypto drawn.newKeys result.2).bind fun w => some (true, w.lock)) = _
  rw [unlocked, Option.bind_some, generated]
  rfl

end Crypted

/-- `Lock` does nothing to a locked wallet. -/
theorem lock_of_locked (mode : w.keystore.fUseCrypto = true) (locked : w.keystore.vMasterKey = []) : w.lock = w := by
  obtain ⟨⟨mapKeys, mapCryptedKeys, vMasterKey, fUseCrypto⟩, records, id⟩ := w
  dsimp only at locked
  rw [CryptedWallet.lock, lock_of_mode mode, locked]

/-- `Lock` twice. -/
theorem lock_lock (mode : w.keystore.fUseCrypto = true) : w.lock.lock = w.lock := by
  have locked := lock_of_mode mode
  exact lock_of_locked (w := w.lock) (by rw [CryptedWallet.lock, locked]; exact mode) (by rw [CryptedWallet.lock, locked])

theorem isLocked_of_locked (mode : w.keystore.fUseCrypto = true) (locked : w.keystore.vMasterKey = []) : w.isLocked = true := by
  rw [CryptedWallet.isLocked, CCryptoKeyStore.isLocked, CCryptoKeyStore.isCrypted, mode, locked]
  rfl

/-- `ChangeWalletPassphrase` without master keys. -/
theorem changeWalletPassphrase_none (records : w.mapMasterKeys = []) (old new : Bytes) (measured : UInt32) :
    w.changeWalletPassphrase crypto old new measured = some (false, w.lock) := by
  rw [changeWalletPassphrase, records, changeRecords, CryptedWallet.lock, records]
  rfl

/-- `Unlock` without master keys. -/
theorem unlock_none (records : w.mapMasterKeys = []) (other : Bytes) : w.unlock crypto other = some (false, w) := by
  rw [CryptedWallet.unlock, records, unlockRecords]
  obtain ⟨store, mapMasterKeys, id⟩ := w
  dsimp only at records
  rw [records]
  split <;> rfl

/-- `Unlock` of an open wallet. -/
theorem unlock_open (unlocked : w.isLocked = false) (other : Bytes) : w.unlock crypto other = some (false, w) := by
  rw [CryptedWallet.unlock, if_pos unlocked]

/-- `Lock` of a store that is not encrypted. -/
theorem lock_plain {s : CCryptoKeyStore} (mode : s.fUseCrypto = false) :
    s.lock.2 = s ∨ s.lock.2 = { s with fUseCrypto := true, vMasterKey := [] } := by
  rw [CCryptoKeyStore.lock, setCrypted, mode, if_neg Bool.false_ne_true]
  cases none : s.mapKeys.keys.isEmpty with
  | false => exact .inl rfl
  | true => exact .inr rfl

theorem Settled.lock (settled : Settled crypto w passphrase) : Settled crypto w.lock passphrase := by
  cases settled with
  | plain records mode holds =>
      rcases lock_plain mode with same | switched
      · exact .plain records (by rw [CryptedWallet.lock, same]; exact mode) (by rw [CryptedWallet.lock, same]; exact holds)
      · exact .blank records (by rw [CryptedWallet.lock, switched]) (by rw [CryptedWallet.lock, switched])
  | blank records mode locked =>
      rw [lock_of_locked mode locked]
      exact .blank records mode locked
  | crypted records seals under => exact .crypted records seals under.lock

/-- Every call ends, and leads from a wallet of a run to one. -/
theorem Settled.step (ideal : crypto.Ideal) (settled : Settled crypto w passphrase) (wrong : w.WrongKeyFails crypto passphrase)
    (event : PassphraseEvent) :
    ∃ done after, event.step crypto w = some (done, after) ∧ Settled crypto after (event.passphrase passphrase done) := by
  cases event with
  | lock => exact ⟨_, _, rfl, settled.lock⟩
  | addKey key =>
      cases settled with
      | plain records mode holds =>
          obtain ⟨done, store, added, kept⟩ := holds.addKey key
          refine ⟨done, { w with keystore := store }, by rw [PassphraseEvent.step, CryptedWallet.addKey, added]; rfl, ?_⟩
          have still : store.fUseCrypto = false := by
            rw [CCryptoKeyStore.addKey, CCryptoKeyStore.isCrypted, mode] at added
            obtain ⟨-, rfl⟩ := Prod.mk.inj (Option.some.inj added)
            exact mode
          exact .plain records still kept
      | blank records mode locked =>
          refine ⟨false, w, ?_, .blank records mode locked⟩
          have refused : w.keystore.addKey (key.toCKey crypto.toKeyCrypto) = some (false, w.keystore) := by
            rw [CCryptoKeyStore.addKey, CCryptoKeyStore.isLocked, CCryptoKeyStore.isCrypted, mode, locked]
            rfl
          rw [PassphraseEvent.step, CryptedWallet.addKey, refused]
          rfl
      | crypted records seals under =>
          obtain ⟨refused, taken⟩ := under.addKey key
          rcases under.master with locked | unlocked
          · refine ⟨false, w, by rw [PassphraseEvent.step, CryptedWallet.addKey, refused locked]; rfl, .crypted records seals under⟩
          · obtain ⟨store, done, -, kept⟩ := taken unlocked
            exact ⟨true, { w with keystore := store }, by rw [PassphraseEvent.step, CryptedWallet.addKey, done]; rfl,
              .crypted records seals kept⟩
  | encryptWallet strWalletPassphrase drawn =>
      have refused : w.keystore.fUseCrypto = true →
          w.encryptWallet crypto strWalletPassphrase drawn = some (false, w) := by
        intro mode
        rw [CryptedWallet.encryptWallet, CCryptoKeyStore.isCrypted, if_pos mode]
      cases settled with
      | plain records mode holds =>
          obtain ⟨after, done, encrypted⟩ := encryptWallet_plain ideal records mode holds strWalletPassphrase drawn
          exact ⟨true, after, done, encrypted⟩
      | blank records mode locked => exact ⟨false, w, refused mode, .blank records mode locked⟩
      | crypted records seals under => exact ⟨false, w, refused under.mode, .crypted records seals under⟩
  | unlock strWalletPassphrase =>
      cases settled with
      | plain records mode holds => exact ⟨false, w, unlock_none records _, .plain records mode holds⟩
      | blank records mode locked => exact ⟨false, w, unlock_none records _, .blank records mode locked⟩
      | crypted records seals under =>
          cases locked : w.isLocked with
          | false => exact ⟨false, w, unlock_open locked _, .crypted records seals under⟩
          | true =>
              rename_i right _ _
              by_cases same : strWalletPassphrase = right
              · rw [same]
                exact ⟨true, _, unlock_right ideal records seals under locked, .crypted records seals under.opened⟩
              · exact ⟨false, w, unlock_wrong records under.mode (wrong.others records) locked same,
                  .crypted records seals under⟩
  | changeWalletPassphrase old new measured =>
      cases settled with
      | plain records mode holds =>
          exact ⟨false, _, changeWalletPassphrase_none records _ _ _, (Settled.plain records mode holds).lock⟩
      | blank records mode locked =>
          exact ⟨false, _, changeWalletPassphrase_none records _ _ _, (Settled.blank records mode locked).lock⟩
      | crypted records seals under =>
          rename_i right _ _
          by_cases same : old = right
          · obtain ⟨after, other, done, changed, sealsNew, kept, -⟩ :=
              changeWalletPassphrase_right ideal records seals under new measured
            rw [← same] at done
            exact ⟨true, after, done, .crypted changed sealsNew kept⟩
          · exact ⟨false, _, changeWalletPassphrase_wrong records under (wrong.others records) same new measured,
              (Settled.crypted records seals under).lock⟩

theorem Reached.wrongKeyFails (reached : Reached crypto w passphrase) : w.WrongKeyFails crypto passphrase := by
  cases reached with
  | start => exact fun entry member => (List.not_mem_nil member).elim
  | event event reached stepped ideal => exact ideal

theorem Reached.settled (ideal : crypto.Ideal) (reached : Reached crypto w passphrase) : Settled crypto w passphrase := by
  induction reached with
  | start => exact .plain rfl rfl new_holds
  | event event reached stepped _ ih =>
      obtain ⟨done, after, result, settled⟩ := ih.step ideal reached.wrongKeyFails event
      obtain ⟨rfl, rfl⟩ := Prod.mk.inj (Option.some.inj (result.symm.trans stepped))
      exact settled

/-- In every run, a call on an encrypted wallet is atomic just if the wallet is locked or the old passphrase unlocks
it. -/
theorem changeWalletPassphrase_atomic_iff (ideal : crypto.Ideal) (reached : Reached crypto w passphrase)
    (encrypted : w.keystore.isCrypted = true) (old new : Bytes) (measured : UInt32) :
    ∃ done after, w.changeWalletPassphrase crypto old new measured = some (done, after) ∧
      (after.WrongKeyFails crypto (if done then some new else passphrase) →
        (AtomicChange crypto w old new done after ↔ w.isLocked = true ∨ w.Unlocks crypto old)) := by
  cases reached.settled ideal with
  | plain records mode holds =>
      rw [CCryptoKeyStore.isCrypted, mode] at encrypted
      cases encrypted
  | blank records mode locked =>
      refine ⟨false, w, ?_, fun _ => ⟨fun _ => .inl (isLocked_of_locked mode locked),
        fun _ => ⟨fun _ => ⟨rfl, fun _ => .rfl⟩, fun wrong => by cases wrong⟩⟩⟩
      rw [changeWalletPassphrase_none records, lock_of_locked mode locked]
  | crypted records seals under =>
      rename_i id record right m added
      have others := reached.wrongKeyFails.others records
      by_cases same : old = right
      · obtain ⟨after, other, done, changed, sealsNew, kept, state⟩ :=
          changeWalletPassphrase_right ideal records seals under new measured
        rw [← same] at done
        refine ⟨true, after, done, fun wrong => ⟨fun _ => .inr ((unlocks_iff ideal records seals under others old).mpr same),
          fun _ => ⟨(fun wrong => by cases wrong), fun _ differs => ⟨state, ?_⟩⟩⟩⟩
        have unlocks := unlocks_iff ideal changed sealsNew kept (wrong.others changed)
        exact ⟨(unlocks new).mpr rfl, fun stillOld => differs ((unlocks old).mp stillOld)⟩
      · refine ⟨false, w.lock, changeWalletPassphrase_wrong records under others same new measured, fun _ => ?_⟩
        have kept : ∀ other, w.lock.Unlocks crypto other ↔ w.Unlocks crypto other := by
          intro other
          rw [Unlocks, Unlocks, lock_lock under.mode]
        constructor
        · intro atomic
          exact .inl ((atomic.failed rfl).1.symm.trans (isLocked_lock under))
        · rintro (locked | unlocks)
          · exact ⟨fun _ => ⟨(isLocked_lock under).trans locked.symm, kept⟩, fun wrong => by cases wrong⟩
          · exact absurd ((unlocks_iff ideal records seals under others old).mp unlocks) same

section Concrete

/-- A cipher whose key is the passphrase. -/
def sampleCrypto : WalletCrypto := { KeyCrypto.sample with bytesToKey := fun _ _ _ passphrase => (passphrase, 0) }

theorem sampleCrypto_ideal : sampleCrypto.Ideal where
  lawful := KeyCrypto.sample_lawful
  decrypt_encrypt key _ m _ := by
    change (if (key ++ m).take key.length = key then some ((key ++ m).drop key.length) else none) = _
    rw [List.take_left, if_pos rfl, List.drop_left]

/-- Of the sample, another passphrase gives a master key of another size, if any. -/
theorem sampleCrypto_wrongKeyFails {id : UInt32} {record : CMasterKey} {right m : Bytes}
    (records : w.mapMasterKeys = [(id, record)]) (sealed : record.vchCryptedKey = right ++ m)
    (size : m.length = walletCryptoKeySize) (first : w.keystore.firstCrypted.isSome = true) :
    w.WrongKeyFails sampleCrypto (some right) := by
  intro entry member other differs opened found
  rw [records, List.mem_singleton] at member
  obtain ⟨rfl⟩ := member
  obtain ⟨key, derived, found⟩ := Option.bind_eq_some_iff.mp found
  obtain rfl : (other, 0) = key := by
    rw [setKeyFromPassphrase] at derived
    split at derived
    · cases derived
    · split at derived
      · exact Option.some.inj derived
      · cases derived
  change (if record.vchCryptedKey.take other.length = other then some (record.vchCryptedKey.drop other.length) else none) =
    some opened at found
  split at found
  · rename_i starts
    obtain rfl := Option.some.inj found
    obtain ⟨⟨vchPubKey, vchCryptedSecret⟩, isFirst⟩ := Option.isSome_iff_exists.mp first
    have short : (record.vchCryptedKey.drop other.length).length ≠ walletCryptoKeySize := by
      intro whole
      have length := congrArg List.length sealed
      have start := congrArg List.length starts
      rw [List.length_append] at length
      rw [List.length_take] at start
      rw [List.length_drop] at whole
      have same : other.length = right.length := by
        rw [walletCryptoKeySize] at whole size
        omega
      rw [sealed, same, List.take_left] at starts
      exact differs (congrArg some starts)
    rw [isFirst, opensFirst, decryptSecret, if_pos short]
  · cases found

/-- The state after a call. -/
def following (result : Option (Bool × CryptedWallet)) : CryptedWallet := (result.map Prod.snd).getD .new

def sampleDraw : EncryptDraw := ⟨List.replicate 32 2, List.replicate 8 0, rfl, rfl, 0, 0, []⟩

def plainWallet : CryptedWallet := following (CryptedWallet.new.addKey sampleCrypto samplePrivateKey)

def lockedWallet : CryptedWallet := following (plainWallet.encryptWallet sampleCrypto [1] sampleDraw)

def openWallet : CryptedWallet := following (lockedWallet.unlock sampleCrypto [1])

/-- A wallet with a key is encrypted and unlocked. -/
theorem openWallet_reached : Reached sampleCrypto openWallet (some [1]) := by
  have plain : Reached sampleCrypto plainWallet none :=
    .event (.addKey samplePrivateKey) .start rfl fun entry member => (List.not_mem_nil member).elim
  have locked : Reached sampleCrypto lockedWallet (some [1]) :=
    .event (.encryptWallet [1] sampleDraw) plain rfl (sampleCrypto_wrongKeyFails rfl rfl rfl (by decide +kernel))
  exact .event (.unlock [1]) locked rfl (sampleCrypto_wrongKeyFails rfl rfl rfl (by decide +kernel))

theorem changeWalletPassphrase_atomic_iff_open :
    ∃ after, openWallet.changeWalletPassphrase sampleCrypto [1] [3] 0 = some (true, after) ∧
      AtomicChange sampleCrypto openWallet [1] [3] true after := by
  obtain ⟨done, after, changed, atomic⟩ :=
    changeWalletPassphrase_atomic_iff sampleCrypto_ideal openWallet_reached rfl [1] [3] 0
  have result : openWallet.changeWalletPassphrase sampleCrypto [1] [3] 0 = some (true, _) := rfl
  obtain ⟨rfl, rfl⟩ := Prod.mk.inj (Option.some.inj (result.symm.trans changed))
  exact ⟨_, rfl, (atomic (sampleCrypto_wrongKeyFails rfl rfl rfl (by decide +kernel))).mpr (.inr ⟨_, rfl⟩)⟩

/-- A call with a wrong passphrase locks an open wallet. -/
theorem wrong_passphrase_locks :
    ¬∀ (crypto : WalletCrypto) (w : CryptedWallet) (passphrase : Option Bytes), crypto.Ideal → Reached crypto w passphrase →
      w.keystore.isCrypted = true → ∀ old new measured done after,
        w.changeWalletPassphrase crypto old new measured = some (done, after) →
          after.WrongKeyFails crypto (if done then some new else passphrase) → AtomicChange crypto w old new done after := by
  intro claim
  have changed : openWallet.changeWalletPassphrase sampleCrypto [2] [3] 0 = some (false, openWallet.lock) := rfl
  have atomic := claim sampleCrypto openWallet (some [1]) sampleCrypto_ideal openWallet_reached rfl [2] [3] 0 _ _ changed
    (sampleCrypto_wrongKeyFails rfl rfl rfl (by decide +kernel))
  have same : openWallet.lock.isLocked = openWallet.isLocked := (atomic.failed rfl).1
  have differs : openWallet.lock.isLocked ≠ openWallet.isLocked := by decide +kernel
  exact differs same

end Concrete

end CryptedWallet

end InfiniteRicks
