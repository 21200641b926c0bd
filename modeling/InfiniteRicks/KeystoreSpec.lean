import InfiniteRicks.Keystore
import InfiniteRicks.Library.Assoc

/-!
# Encryption loses no key

A run of the store is followed by the keys it was given. `Holds` says which maps hold
them and under which master key; every operation keeps it.
-/

namespace InfiniteRicks

/-- A private key as every way to make one leaves it: 32 bytes in the range of secp256k1 and the form of its
public key. -/
structure PrivateKey where
  secret : Bytes
  compressed : Bool
  size : secret.length = 32
  range : 0 < CBigNum.ofBigEndian (secret.map UInt8.toNat) ∧
    CBigNum.ofBigEndian (secret.map UInt8.toNat) ≤ maxModOrder

namespace PrivateKey

variable (crypto : KeyCrypto)

/-- The `CKey` with the private key. -/
def toCKey (key : PrivateKey) : CKey crypto :=
  ⟨some key.secret, some (crypto.regenerate key.secret), key.compressed, true, key.compressed⟩

def pubKey (key : PrivateKey) : Bytes := crypto.i2o (crypto.regenerate key.secret) key.compressed

/-- `GetPubKey().GetID()`. -/
def id (key : PrivateKey) : BitVec 160 := crypto.hash160 (key.pubKey crypto)

theorem getPubKey_toCKey (key : PrivateKey) : (key.toCKey crypto).getPubKey = some (key.pubKey crypto) := rfl

theorem getSecret_toCKey (key : PrivateKey) : (key.toCKey crypto).getSecret = some (key.secret, key.compressed) := rfl

end PrivateKey

/-- What the key store relies on: public keys can be read back and tell their form by their length, a secret is
decrypted under its master key, and a wrong one does not lead to the same public key. -/
structure KeyCrypto.Lawful (crypto : KeyCrypto) : Prop where
  o2i_pubKey : ∀ key : PrivateKey,
    crypto.o2i (key.pubKey crypto) = some (crypto.regenerate key.secret, key.compressed)
  length_pubKey : ∀ key : PrivateKey, (key.pubKey crypto).length = if key.compressed then 33 else 65
  decrypt_encrypt : ∀ (m : Bytes) (nIV : UInt256) (key : PrivateKey), m.length = walletCryptoKeySize →
    crypto.decrypt m nIV (crypto.encrypt m nIV key.secret) = some key.secret
  wrong_key : ∀ (m wrong : Bytes) (nIV : UInt256) (key : PrivateKey) (garbage : Bytes),
    m.length = walletCryptoKeySize → wrong.length = walletCryptoKeySize → wrong ≠ m →
    crypto.decrypt wrong nIV (crypto.encrypt m nIV key.secret) = some garbage →
    crypto.i2o (crypto.regenerate garbage) key.compressed ≠ key.pubKey crypto

section Keys

variable {crypto : KeyCrypto}

/-- `MakeNewKey` on a fresh key. -/
theorem makeNewKey_fresh (key : PrivateKey) :
    CKey.fresh.makeNewKey key.secret key.compressed = key.toCKey crypto := by
  obtain ⟨secret, compressed, size, range⟩ := key
  cases compressed <;> rfl

/-- `SetSecret` on a fresh key. -/
theorem setSecret_fresh (key : PrivateKey) :
    CKey.fresh.setSecret key.secret key.compressed = some (key.toCKey crypto) := by
  obtain ⟨secret, compressed, size, range⟩ := key
  unfold CKey.setSecret
  rw [if_neg (not_not_intro size)]
  cases compressed <;> rfl

/-- `SetPubKey` on a fresh key. -/
theorem setPubKey_fresh (lawful : crypto.Lawful) (key : PrivateKey) :
    CKey.fresh.setPubKey (key.pubKey crypto) =
      (true, ⟨none, some (crypto.regenerate key.secret), key.compressed, true, key.compressed⟩) := by
  unfold CKey.setPubKey
  simp only [lawful.o2i_pubKey key, lawful.length_pubKey key]
  obtain ⟨secret, compressed, size, range⟩ := key
  cases compressed <;> rfl

/-- The keys that the wallet file gives: `SetPubKey`, `SetPrivKey` and the comparison of the public keys. -/
theorem setPrivKey_fresh (lawful : crypto.Lawful) (key : PrivateKey) {vchPrivKey : Bytes}
    (decoded : crypto.d2i vchPrivKey = some (key.secret, key.compressed)) :
    (CKey.fresh.setPubKey (key.pubKey crypto)).2.setPrivKey vchPrivKey = (true, key.toCKey crypto) := by
  rw [setPubKey_fresh lawful, CKey.setPrivKey, decoded]
  rfl

/-- A secret set after the public key keeps the form of the public key, and the compressed form of a key that was
used before. -/
theorem setSecret_setPubKey_used (lawful : crypto.Lawful) (key : PrivateKey) {secret : Bytes}
    (size : secret.length = 32) (keyOut : CKey crypto) :
    (keyOut.setPubKey (key.pubKey crypto)).2.setSecret secret false =
      some ⟨some secret, some (crypto.regenerate secret), key.compressed || keyOut.fCompressedPubKey, true,
        key.compressed || keyOut.fCompressedPubKey⟩ := by
  unfold CKey.setPubKey CKey.setSecret
  simp only [lawful.o2i_pubKey key, lawful.length_pubKey key]
  rw [if_neg (not_not_intro size)]
  obtain ⟨-, compressed, -, -⟩ := key
  obtain ⟨-, -, -, -, fCompressedPubKey⟩ := keyOut
  cases compressed <;> cases fCompressedPubKey <;> rfl

/-- A secret set after the public key keeps the form of the public key. -/
theorem setSecret_setPubKey (lawful : crypto.Lawful) (key : PrivateKey) {secret : Bytes} (size : secret.length = 32) :
    (CKey.fresh.setPubKey (key.pubKey crypto)).2.setSecret secret false =
      some ⟨some secret, some (crypto.regenerate secret), key.compressed, true, key.compressed⟩ := by
  rw [setSecret_setPubKey_used lawful key size]
  simp only [CKey.fresh, Bool.or_false]

end Keys

/-- An operation on a key store. `EncryptWallet` makes every master key with `WALLET_CRYPTO_KEY_SIZE` bytes. -/
inductive KeyEvent where
  | addKey (key : PrivateKey)
  | encryptKeys (m : { m : Bytes // m.length = walletCryptoKeySize })
  | lock
  | unlock (k : Bytes)

/-- The keys given to the store, by their ids: for each id the one that was added last. -/
abbrev AddedKeys := BitVec 160 → Option PrivateKey

section Runs

variable (crypto : KeyCrypto)

namespace KeyEvent

def step (s : CCryptoKeyStore) : KeyEvent → Option (Bool × CCryptoKeyStore)
  | addKey key => s.addKey (key.toCKey crypto)
  | encryptKeys m => s.encryptKeys crypto m.1
  | lock => some s.lock
  | unlock k => s.unlock crypto k

/-- A key counts as added where `AddKey` returns true. -/
def record (added : AddedKeys) (done : Bool) : KeyEvent → AddedKeys
  | addKey key => if done then Function.update added (key.id crypto) (some key) else added
  | _ => added

end KeyEvent

/-- The store after some operations, and the keys it was given. -/
def keyRun (events : List KeyEvent) : Option (CCryptoKeyStore × AddedKeys) :=
  events.foldlM
    (fun state event => (event.step crypto state.1).map fun result => (result.2, event.record crypto state.2 result.1))
    (CCryptoKeyStore.new, fun _ => none)

namespace CCryptoKeyStore

/-- The encrypted map holds the keys under one master key. While there is one, no other unlocks the store. -/
structure HoldsUnder (m : Bytes) (added : AddedKeys) (s : CCryptoKeyStore) : Prop where
  entries : ∀ address, s.mapCryptedKeys.lookup address = (added address).map fun key =>
    (key.pubKey crypto, crypto.encrypt m (crypto.hash (key.pubKey crypto)) key.secret)
  master : ∀ {address key}, added address = some key →
    m.length = walletCryptoKeySize ∧ (s.vMasterKey ≠ [] → s.vMasterKey = m)

/-- The store holds the keys, in the map that its state asks for. -/
structure Holds (added : AddedKeys) (s : CCryptoKeyStore) : Prop where
  address : ∀ {address key}, added address = some key → key.id crypto = address
  plain : s.fUseCrypto = false → s.vMasterKey = [] ∧ s.mapCryptedKeys = ∅ ∧
    ∀ address, s.mapKeys.lookup address = (added address).map fun key => (key.secret, key.compressed)
  crypted : s.fUseCrypto = true → s.mapKeys = ∅ ∧ ∃ m, s.HoldsUnder crypto m added

variable {crypto} {added : AddedKeys} {s : CCryptoKeyStore}

theorem new_holds : new.Holds crypto fun _ => none :=
  ⟨nofun, fun _ => ⟨rfl, rfl, fun _ => rfl⟩, nofun⟩

/-- A map without keys is the empty map. -/
theorem eq_empty_of_keys {β : Type} {map : AList fun _ : BitVec 160 => β} (none : map.keys.isEmpty = true) : map = ∅ :=
  AList.ext (List.map_eq_nil_iff.mp (List.isEmpty_iff.mp none))

theorem Holds.haveKey (holds : s.Holds crypto added) (address : BitVec 160) :
    s.haveKey address = (added address).isSome := by
  unfold CCryptoKeyStore.haveKey isCrypted
  cases mode : s.fUseCrypto with
  | false =>
      rw [(holds.plain mode).2.2]
      cases added address <;> rfl
  | true =>
      obtain ⟨-, m, under⟩ := holds.crypted mode
      rw [under.entries]
      cases added address <;> rfl

/-- `SetCrypted` refuses a store with plain keys and switches any other. -/
theorem Holds.setCrypted (holds : s.Holds crypto added) :
    s.setCrypted = (false, s) ∨
      ∃ after, s.setCrypted = (true, after) ∧ after.fUseCrypto = true ∧ after.Holds crypto added := by
  unfold CCryptoKeyStore.setCrypted
  cases mode : s.fUseCrypto with
  | true => exact .inr ⟨s, rfl, mode, holds⟩
  | false =>
      cases none : s.mapKeys.keys.isEmpty with
      | false => exact .inl rfl
      | true =>
          obtain ⟨master, crypted, keys⟩ := holds.plain mode
          have empty := eq_empty_of_keys none
          have unused : ∀ address, added address = Option.none := by
            intro address
            have found := keys address
            rw [empty, AList.lookup_empty] at found
            exact Option.map_eq_none_iff.mp found.symm
          refine .inr ⟨{ s with fUseCrypto := true }, rfl, rfl, holds.address, nofun, fun _ => ⟨empty, [], ?_, ?_⟩⟩
          · intro address
            rw [unused]
            change s.mapCryptedKeys.lookup address = Option.none
            rw [crypted, AList.lookup_empty]
          · intro address key known
            rw [unused] at known
            cases known

theorem Holds.lock (holds : s.Holds crypto added) : s.lock.2.Holds crypto added := by
  unfold CCryptoKeyStore.lock
  rcases holds.setCrypted with refused | ⟨after, switched, mode, kept⟩
  · rw [refused]
    exact holds
  · rw [switched]
    obtain ⟨empty, m, under⟩ := kept.crypted mode
    refine ⟨kept.address, fun plain => ?_, fun _ => ⟨empty, m, under.entries, fun known => ?_⟩⟩
    · rw [show _ = true from mode] at plain
      cases plain
    · exact ⟨(under.master known).1, fun unlocked => absurd rfl unlocked⟩

/-- Only its master key opens the first entry. -/
theorem opensFirst_spec (lawful : crypto.Lawful) (key : PrivateKey) {m k : Bytes} (size : m.length = walletCryptoKeySize) :
    ∃ opens, opensFirst crypto k (some (key.pubKey crypto,
      crypto.encrypt m (crypto.hash (key.pubKey crypto)) key.secret)) = some opens ∧ (opens = true → k = m) := by
  unfold opensFirst
  dsimp only
  cases decrypted : decryptSecret crypto k (crypto.encrypt m (crypto.hash (key.pubKey crypto)) key.secret)
      (crypto.hash (key.pubKey crypto)) with
  | none => exact ⟨false, rfl, nofun⟩
  | some vchSecret =>
      by_cases whole : vchSecret.length = 32
      · simp only [whole, ne_eq, not_true_eq_false, if_false, setSecret_setPubKey lawful key whole]
        refine ⟨_, rfl, fun opens => ?_⟩
        by_contra wrong
        unfold decryptSecret at decrypted
        split at decrypted
        · cases decrypted
        · rename_i sized
          exact lawful.wrong_key m k _ key vchSecret size (not_not.mp sized) wrong decrypted (of_decide_eq_true opens)
      · simp only [whole, ne_eq, not_false_eq_true, if_true]
        exact ⟨false, rfl, nofun⟩

theorem Holds.unlock (lawful : crypto.Lawful) (holds : s.Holds crypto added) (k : Bytes) :
    ∃ done after, s.unlock crypto k = some (done, after) ∧ after.Holds crypto added := by
  unfold CCryptoKeyStore.unlock
  rcases holds.setCrypted with refused | ⟨after, switched, mode, kept⟩
  · rw [refused]
    exact ⟨false, s, rfl, holds⟩
  · rw [switched]
    dsimp only
    obtain ⟨empty, m, under⟩ := kept.crypted mode
    have plain : ∀ {P : Prop}, after.fUseCrypto = false → P := by
      intro P plain
      rw [mode] at plain
      cases plain
    unfold firstCrypted
    cases first : after.mapCryptedKeys.keys.argmin BitVec.toNat with
    | none =>
        have unused : ∀ address, added address = none := by
          intro address
          have found := under.entries address
          have nil := List.argmin_eq_none.mp first
          rw [eq_empty_of_keys (List.isEmpty_iff.mpr nil), AList.lookup_empty] at found
          exact Option.map_eq_none_iff.mp found.symm
        refine ⟨true, { after with vMasterKey := k }, rfl, kept.address, fun off => plain off, fun _ => ⟨empty, m, under.entries, ?_⟩⟩
        intro address key known
        rw [unused] at known
        cases known
    | some address =>
        have member := List.argmin_mem first
        obtain ⟨entry, found⟩ := Option.isSome_iff_exists.mp (AList.lookup_isSome.mpr (AList.mem_keys.mpr member))
        obtain ⟨key, known, rfl⟩ := Option.map_eq_some_iff.mp ((under.entries address).symm.trans found)
        obtain ⟨opens, verdict, only⟩ := opensFirst_spec lawful key (under.master known).1 (k := k)
        rw [Option.bind_some, found, verdict]
        cases opens with
        | false => exact ⟨false, after, rfl, kept⟩
        | true =>
            refine ⟨true, { after with vMasterKey := k }, rfl, kept.address, fun off => plain off, fun _ => ⟨empty, m, under.entries, ?_⟩⟩
            exact fun known => ⟨(under.master known).1, fun _ => only rfl⟩

theorem record_addKey (key : PrivateKey) (address : BitVec 160) :
    KeyEvent.record crypto added true (.addKey key) address =
      if address = key.id crypto then some key else added address :=
  Function.update_apply added (key.id crypto) (some key) address

/-- `AddKey` adds the key or changes nothing. -/
theorem Holds.addKey (holds : s.Holds crypto added) (key : PrivateKey) :
    ∃ done after, s.addKey (key.toCKey crypto) = some (done, after) ∧
      after.Holds crypto (KeyEvent.record crypto added done (.addKey key)) := by
  have address : ∀ {other known}, Function.update added (key.id crypto) (some key) other = some known →
      known.id crypto = other := by
    intro other known found
    rw [Function.update_apply] at found
    split at found
    · rename_i same
      rw [← Option.some.inj found, same]
    · exact holds.address found
  unfold CCryptoKeyStore.addKey isLocked isCrypted
  cases mode : s.fUseCrypto with
  | false =>
      obtain ⟨master, crypted, keys⟩ := holds.plain mode
      refine ⟨true, _, rfl, address, fun _ => ⟨master, crypted, fun other => ?_⟩, fun on => ?_⟩
      · rw [Library.Assoc.lookup_insert_eq, keys, record_addKey]
        change (if other = key.id crypto then _ else _) = _
        split <;> rfl
      · rw [show s.fUseCrypto = true from on] at mode
        cases mode
  | true =>
      obtain ⟨empty, m, under⟩ := holds.crypted mode
      cases locked : s.vMasterKey.isEmpty with
      | true => exact ⟨false, s, rfl, holds⟩
      | false =>
          have unlocked : s.vMasterKey ≠ [] := fun nil => by
            rw [nil] at locked
            cases locked
          simp only [PrivateKey.getPubKey_toCKey, PrivateKey.getSecret_toCKey, encryptSecret]
          by_cases size : s.vMasterKey.length = walletCryptoKeySize
          · have switched : s.setCrypted = (true, s) := by
              rw [CCryptoKeyStore.setCrypted, mode]
              rfl
            refine ⟨true, { s with
                mapCryptedKeys := s.mapCryptedKeys.insert (key.id crypto)
                  (key.pubKey crypto, crypto.encrypt s.vMasterKey (crypto.hash (key.pubKey crypto)) key.secret) },
              ?_, address, fun off => ?_, fun _ => ⟨empty, s.vMasterKey, fun other => ?_, fun _ => ⟨size, fun _ => rfl⟩⟩⟩
            · simp [size, addCryptedKey, switched, PrivateKey.id]
            · rw [show s.fUseCrypto = false from off] at mode
              cases mode
            · rw [Library.Assoc.lookup_insert_eq, record_addKey]
              split
              · rfl
              · rw [under.entries]
                cases known : added other with
                | none => rfl
                | some old => rw [(under.master known).2 unlocked]
          · refine ⟨false, s, ?_, holds⟩
            simp [size]

/-- The loop of `EncryptKeys` adds an entry for each key. -/
theorem encryptEntries_spec {m : Bytes} (size : m.length = walletCryptoKeySize)
    (entries : List (Sigma fun _ : BitVec 160 => Bytes × Bool)) {s : CCryptoKeyStore} (mode : s.fUseCrypto = true)
    (known : ∀ entry ∈ entries, ∃ key, added entry.1 = some key ∧ key.id crypto = entry.1 ∧
      entry.2 = (key.secret, key.compressed)) :
    ∃ after, encryptEntries crypto m entries s = some (true, after) ∧ after.vMasterKey = s.vMasterKey ∧
      after.fUseCrypto = true ∧ ∀ address, after.mapCryptedKeys.lookup address =
        if address ∈ entries.keys then (added address).map fun key =>
          (key.pubKey crypto, crypto.encrypt m (crypto.hash (key.pubKey crypto)) key.secret)
        else s.mapCryptedKeys.lookup address := by
  induction entries generalizing s with
  | nil => exact ⟨s, rfl, rfl, mode, fun address => by rw [if_neg (by rintro ⟨⟩)]⟩
  | cons entry rest ih =>
      obtain ⟨address, secret, compressed⟩ := entry
      obtain ⟨⟨key, found, id, same⟩, others⟩ := List.forall_mem_cons.mp known
      obtain ⟨rfl, rfl⟩ := Prod.mk.inj same
      dsimp only at found id
      have switched : s.setCrypted = (true, s) := by
        rw [CCryptoKeyStore.setCrypted, mode]
        rfl
      obtain ⟨after, done, master, crypted, lookups⟩ := @ih { s with
        mapCryptedKeys := s.mapCryptedKeys.insert (crypto.hash160 (key.pubKey crypto))
          (key.pubKey crypto, crypto.encrypt m (crypto.hash (key.pubKey crypto)) key.secret) } mode others
      refine ⟨after, ?_, master, crypted, fun other => ?_⟩
      · rw [encryptEntries, setSecret_fresh]
        simp [PrivateKey.getPubKey_toCKey, PrivateKey.getSecret_toCKey, encryptSecret, size, addCryptedKey, switched, done]
      · have own : crypto.hash160 (key.pubKey crypto) = address := id
        simp only [lookups, Library.Assoc.lookup_insert_eq, List.keys_cons, List.mem_cons, own]
        by_cases here : other = address
        · subst here
          simp [found]
        · simp [here]

/-- Encrypting an open store moves its keys to the encrypted map, and leaves it locked. -/
theorem Holds.encryptKeys_plain (holds : s.Holds crypto added) (mode : s.fUseCrypto = false) {m : Bytes}
    (size : m.length = walletCryptoKeySize) :
    ∃ after, s.encryptKeys crypto m = some (true, after) ∧ after.fUseCrypto = true ∧ after.mapKeys = ∅ ∧
      after.vMasterKey = [] ∧ ∀ address, after.mapCryptedKeys.lookup address = (added address).map fun key =>
        (key.pubKey crypto, crypto.encrypt m (crypto.hash (key.pubKey crypto)) key.secret) := by
  obtain ⟨master, crypted, keys⟩ := holds.plain mode
  have none : s.mapCryptedKeys.keys.isEmpty = true := by
    rw [crypted]
    rfl
  have known : ∀ entry ∈ s.mapKeys.entries, ∃ key, added entry.1 = some key ∧ key.id crypto = entry.1 ∧
      entry.2 = (key.secret, key.compressed) := by
    intro entry member
    have found := (AList.mem_lookup_iff (s := s.mapKeys)).mpr member
    rw [keys] at found
    obtain ⟨key, added, same⟩ := Option.map_eq_some_iff.mp found
    exact ⟨key, added, holds.address added, same.symm⟩
  obtain ⟨after, done, sameMaster, on, lookups⟩ :=
    encryptEntries_spec size s.mapKeys.entries (s := { s with fUseCrypto := true }) rfl known
  refine ⟨{ after with mapKeys := ∅ }, ?_, on, rfl, sameMaster.trans master, fun address => ?_⟩
  · rw [CCryptoKeyStore.encryptKeys, isCrypted, mode, none, if_neg nofun, done]
    rfl
  · change after.mapCryptedKeys.lookup address = _
    rw [lookups]
    split
    · rfl
    · rename_i absent
      have unused := keys address
      rw [AList.lookup_eq_none.mpr (fun member => absent (AList.mem_keys.mp member))] at unused
      change s.mapCryptedKeys.lookup address = _
      rw [crypted, Option.map_eq_none_iff.mp unused.symm]
      rfl

theorem Holds.encryptKeys (holds : s.Holds crypto added) {m : Bytes} (size : m.length = walletCryptoKeySize) :
    ∃ done after, s.encryptKeys crypto m = some (done, after) ∧ after.Holds crypto added := by
  cases mode : s.fUseCrypto with
  | true =>
      refine ⟨false, s, ?_, holds⟩
      rw [CCryptoKeyStore.encryptKeys, isCrypted, mode, Bool.or_true, if_pos rfl]
  | false =>
      obtain ⟨after, done, on, empty, locked, entries⟩ := holds.encryptKeys_plain mode size
      refine ⟨true, after, done, holds.address, fun off => ?_, fun _ => ⟨empty, m, entries, fun _ => ⟨size, ?_⟩⟩⟩
      · rw [off] at on
        cases on
      · exact fun unlocked => absurd locked unlocked

/-- What a store that is not locked makes of a key that may have been used before. -/
theorem Holds.getKey_used (lawful : crypto.Lawful) (holds : s.Holds crypto added) (open_ : s.isLocked = false)
    {address : BitVec 160} {key : PrivateKey} (known : added address = some key) (keyOut : CKey crypto) :
    s.getKey address keyOut = some (true,
      let form := key.compressed || (s.isCrypted && keyOut.fCompressedPubKey)
      ⟨some key.secret, some (crypto.regenerate key.secret), form, true, form⟩) := by
  unfold CCryptoKeyStore.getKey isCrypted
  cases mode : s.fUseCrypto with
  | false =>
      have found := (holds.plain mode).2.2 address
      rw [known] at found
      simp only [Bool.not_false, if_true, found, Option.map_some, setSecret_fresh, Bool.false_and, Bool.or_false]
      rfl
  | true =>
      obtain ⟨-, m, under⟩ := holds.crypted mode
      obtain ⟨size, master⟩ := under.master known
      have unlocked : s.vMasterKey ≠ [] := fun nil => by
        rw [isLocked, isCrypted, mode, nil] at open_
        cases open_
      have found := under.entries address
      rw [known] at found
      have decrypted := lawful.decrypt_encrypt m (crypto.hash (key.pubKey crypto)) key size
      simp only [Bool.not_true, Bool.false_eq_true, if_false, found, Option.map_some, master unlocked, decryptSecret, size,
        ne_eq, not_true_eq_false, decrypted, key.size, setSecret_setPubKey_used lawful key key.size keyOut, Bool.true_and]

/-- A store that is not locked gives every key back. -/
theorem Holds.getKey (lawful : crypto.Lawful) (holds : s.Holds crypto added) (open_ : s.isLocked = false)
    {address : BitVec 160} {key : PrivateKey} (known : added address = some key) :
    s.getKey address CKey.fresh = some (true, key.toCKey crypto) := by
  rw [holds.getKey_used lawful open_ known]
  simp only [CKey.fresh, Bool.and_false, Bool.or_false]
  rfl

/-- A locked store gives no key. -/
theorem getKey_locked (locked : s.isLocked = true) (address : BitVec 160) (keyOut : CKey crypto) :
    s.getKey address keyOut = some (false, keyOut) := by
  unfold isLocked at locked
  obtain ⟨mode, empty⟩ := Bool.and_eq_true_iff.mp locked
  unfold CCryptoKeyStore.getKey
  rw [mode, List.isEmpty_iff.mp empty]
  simp only [Bool.not_true, Bool.false_eq_true, if_false]
  cases s.mapCryptedKeys.lookup address with
  | none => rfl
  | some entry => rfl

/-- No key that was added until then is lost in a state. -/
structure LosesNoKey (crypto : KeyCrypto) (added : AddedKeys) (s : CCryptoKeyStore) : Prop where
  mapKeys : s.fUseCrypto = true → s.mapKeys = ∅
  vMasterKey : s.fUseCrypto = false → s.vMasterKey = []
  haveKey : ∀ address, s.haveKey address = (added address).isSome
  id : ∀ {address key}, added address = some key → key.id crypto = address
  getKey : s.isLocked = false → ∀ address key, added address = some key →
    ∃ keyOut : CKey crypto, s.getKey address CKey.fresh = some (true, keyOut) ∧
      keyOut.getSecret = some (key.secret, key.compressed) ∧ keyOut.getPubKey = some (key.pubKey crypto)
  locked : s.isLocked = true → ∀ address (keyOut : CKey crypto), s.getKey address keyOut = some (false, keyOut)

theorem Holds.losesNoKey (lawful : crypto.Lawful) (holds : s.Holds crypto added) : LosesNoKey crypto added s where
  mapKeys mode := (holds.crypted mode).1
  vMasterKey mode := (holds.plain mode).1
  haveKey := holds.haveKey
  id := holds.address
  getKey open_ _ key known := ⟨key.toCKey crypto, holds.getKey lawful open_ known, rfl, rfl⟩
  locked := getKey_locked

end CCryptoKeyStore

variable {crypto} {added : AddedKeys} {s : CCryptoKeyStore}

/-- Every operation ends and the store holds the keys afterwards. -/
theorem KeyEvent.step_holds (lawful : crypto.Lawful) (holds : s.Holds crypto added) (event : KeyEvent) :
    ∃ done after, event.step crypto s = some (done, after) ∧ after.Holds crypto (event.record crypto added done) := by
  cases event with
  | addKey key => exact holds.addKey key
  | encryptKeys m => exact holds.encryptKeys m.2
  | lock => exact ⟨s.lock.1, s.lock.2, rfl, holds.lock⟩
  | unlock k => exact holds.unlock lawful k

/-- An added key stays added. -/
theorem KeyEvent.record_grows (event : KeyEvent) (done : Bool) {address : BitVec 160}
    (known : (added address).isSome = true) : (event.record crypto added done address).isSome = true := by
  cases event with
  | addKey key =>
      cases done with
      | false => exact known
      | true =>
          rw [CCryptoKeyStore.record_addKey]
          split
          · rfl
          · exact known
  | _ => exact known

theorem keyRun_concat (events : List KeyEvent) (event : KeyEvent) (run : keyRun crypto events = some (s, added)) :
    keyRun crypto (events ++ [event]) =
      (event.step crypto s).map fun result => (result.2, event.record crypto added result.1) := by
  unfold keyRun at run ⊢
  rw [List.foldlM_append, run, Option.bind_eq_bind, Option.bind_some, List.foldlM_cons]
  cases stepped : event.step crypto s with
  | none => simp [stepped]
  | some result => simp [stepped]

theorem keyRun_holds (lawful : crypto.Lawful) (events : List KeyEvent) :
    ∃ s added, keyRun crypto events = some (s, added) ∧ s.Holds crypto added := by
  induction events using List.reverseRecOn with
  | nil => exact ⟨_, _, rfl, CCryptoKeyStore.new_holds⟩
  | append_singleton events event ih =>
      obtain ⟨s, added, run, holds⟩ := ih
      obtain ⟨done, after, stepped, kept⟩ := event.step_holds lawful holds
      exact ⟨after, _, by rw [keyRun_concat events event run, stepped]; rfl, kept⟩

/-- Every run of a key store keeps the keys: the addresses only grow, the maps and the master key are where the
encryption state says, an open store gives every key back, and a locked one gives none. -/
theorem encryption_loses_no_key (lawful : crypto.Lawful) (events : List KeyEvent) :
    ∃ s added, keyRun crypto events = some (s, added) ∧ CCryptoKeyStore.LosesNoKey crypto added s ∧
      ∀ event, ∃ s' added', keyRun crypto (events ++ [event]) = some (s', added') ∧
        ∀ address, s.haveKey address = true → s'.haveKey address = true := by
  obtain ⟨s, added, run, holds⟩ := keyRun_holds lawful events
  refine ⟨s, added, run, holds.losesNoKey lawful, fun event => ?_⟩
  obtain ⟨done, after, stepped, kept⟩ := event.step_holds lawful holds
  refine ⟨after, _, by rw [keyRun_concat events event run, stepped]; rfl, fun address known => ?_⟩
  rw [kept.haveKey]
  rw [holds.haveKey] at known
  exact event.record_grows done known

end Runs

section Concrete

/-- Keys that are their own points, and a cipher that writes the key before the plaintext. -/
def KeyCrypto.sample : KeyCrypto where
  Point := Bytes
  regenerate secret := secret
  i2o point compressed := if compressed then 2 :: point else 4 :: (point ++ point)
  o2i
    | 2 :: point => some (point, true)
    | 4 :: points => some (points.take 32, false)
    | _ => none
  d2i _ := none
  hash _ := 0
  hash160 bytes := BitVec.ofNat 160 (CBigNum.ofBigEndian (bytes.map UInt8.toNat))
  encrypt m _ plaintext := m ++ plaintext
  decrypt m _ ciphertext := if ciphertext.take m.length = m then some (ciphertext.drop m.length) else none

theorem KeyCrypto.sample_lawful : KeyCrypto.sample.Lawful where
  o2i_pubKey key := by
    obtain ⟨secret, compressed, size, range⟩ := key
    cases compressed with
    | true => rfl
    | false =>
        have taken : (secret ++ secret).take 32 = secret := by rw [← size, List.take_left]
        exact congrArg (fun point => some (point, false)) taken
  length_pubKey key := by
    obtain ⟨secret, compressed, size, range⟩ := key
    cases compressed with
    | true => exact congrArg Nat.succ size
    | false =>
        change (4 :: (secret ++ secret)).length = 65
        rw [List.length_cons, List.length_append, size]
  decrypt_encrypt m _ key _ := by
    change (if (m ++ key.secret).take m.length = m then some ((m ++ key.secret).drop m.length) else none) = _
    rw [List.take_left, if_pos rfl, List.drop_left]
  wrong_key m wrong _ key garbage size wrongSize differs decrypted := by
    change (if (m ++ key.secret).take wrong.length = wrong then _ else none) = _ at decrypted
    rw [wrongSize, ← size, List.take_left, if_neg (Ne.symm differs)] at decrypted
    cases decrypted

/-- The secret 7. -/
def sampleSecret : Bytes := List.replicate 31 0 ++ [7]

theorem sampleSecret_range : 0 < CBigNum.ofBigEndian (sampleSecret.map UInt8.toNat) ∧
    CBigNum.ofBigEndian (sampleSecret.map UInt8.toNat) ≤ maxModOrder := by
  decide

theorem sampleSecret_size : sampleSecret.length = 32 := rfl

/-- A compressed key. -/
def samplePrivateKey : PrivateKey := ⟨sampleSecret, true, sampleSecret_size, sampleSecret_range⟩

/-- A key is added, the store is encrypted and then unlocked with the same master key. -/
theorem encryption_loses_no_key_sample :
    ∃ s added, keyRun .sample [.addKey samplePrivateKey, .encryptKeys ⟨List.replicate 32 1, rfl⟩,
        .unlock (List.replicate 32 1)] = some (s, added) ∧ CCryptoKeyStore.LosesNoKey .sample added s ∧
      ∀ event, ∃ s' added', keyRun .sample ([.addKey samplePrivateKey, .encryptKeys ⟨List.replicate 32 1, rfl⟩,
          .unlock (List.replicate 32 1)] ++ [event]) = some (s', added') ∧
        ∀ address, s.haveKey address = true → s'.haveKey address = true :=
  encryption_loses_no_key KeyCrypto.sample_lawful _

end Concrete

end InfiniteRicks
