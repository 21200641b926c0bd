import InfiniteRicks.KeystoreSpec

/-!
# Keys that are filled again

`GetKey` fills a `CKey` that may have been used before. The plain store resets it; the encrypted one
sets the public key and then the secret, and neither of them ever takes the compressed form back. So an
uncompressed key comes out compressed where the object held a compressed one.
-/

namespace InfiniteRicks

section Refilled

variable (crypto : KeyCrypto) (added : AddedKeys) (s : CCryptoKeyStore) (address : BitVec 160)

/-- `GetKey` fills two keys alike, with the key that was added under the address. -/
def GivesKey (keyOut1 keyOut2 : CKey crypto) : Prop :=
  ∃ key1 key2 : CKey crypto, s.getKey address keyOut1 = some (true, key1) ∧
    s.getKey address keyOut2 = some (true, key2) ∧ key1.secret = key2.secret ∧
    key1.fCompressedPubKey = key2.fCompressedPubKey ∧ key1.getPubKey = key2.getPubKey ∧
    ∃ key, added address = some key ∧ key1.getPubKey = some (key.pubKey crypto) ∧
      crypto.hash160 (key.pubKey crypto) = address

variable {crypto added s address}

/-- The two forms of a public key have different lengths. -/
theorem i2o_form (lawful : crypto.Lawful) (key : PrivateKey) (form : Bool) :
    crypto.i2o (crypto.regenerate key.secret) form = key.pubKey crypto ↔ form = key.compressed := by
  constructor
  · intro same
    have other := lawful.length_pubKey ⟨key.secret, form, key.size, key.range⟩
    change (crypto.i2o (crypto.regenerate key.secret) form).length = _ at other
    rw [same, lawful.length_pubKey key] at other
    cases form <;> cases shape : key.compressed <;> rw [shape] at other <;> first | rfl | cases other
  · rintro rfl
    rfl

/-- Two keys are filled alike, with the key of the address, exactly when the store is plain, or the key of the
address is a compressed one, or neither of the two had the compressed form. -/
theorem getKey_reused_iff (lawful : crypto.Lawful) (holds : s.Holds crypto added) (open_ : s.isLocked = false)
    {key : PrivateKey} (known : added address = some key) (keyOut1 keyOut2 : CKey crypto) :
    GivesKey crypto added s address keyOut1 keyOut2 ↔
      (s.isCrypted = true → key.compressed = false →
        keyOut1.fCompressedPubKey = false ∧ keyOut2.fCompressedPubKey = false) := by
  have filled := holds.getKey_used lawful open_ known
  constructor
  · rintro ⟨key1, key2, done1, done2, -, -, pubKey, other, stored, own, -⟩ mode form
    cases known.symm.trans stored
    rw [own] at pubKey
    have kept : ∀ {keyOut filledKey : CKey crypto}, s.getKey address keyOut = some (true, filledKey) →
        filledKey.getPubKey = some (key.pubKey crypto) → keyOut.fCompressedPubKey = false := by
      intro keyOut filledKey done same
      rw [filled] at done
      cases done
      have whole := (i2o_form lawful key _).mp (Option.some.inj same)
      rwa [form, mode, Bool.false_or, Bool.true_and] at whole
    exact ⟨kept done1 own, kept done2 pubKey.symm⟩
  · intro clean
    have form : ∀ keyOut : CKey crypto, (s.isCrypted = true → key.compressed = false → keyOut.fCompressedPubKey = false) →
        s.getKey address keyOut = some (true, key.toCKey crypto) := by
      intro keyOut old
      rw [filled]
      cases shape : key.compressed with
      | true => simp only [PrivateKey.toCKey, shape, Bool.true_or]
      | false =>
          cases mode : s.isCrypted with
          | false => simp only [PrivateKey.toCKey, shape, Bool.false_and, Bool.or_false]
          | true => simp only [PrivateKey.toCKey, shape, old mode shape, Bool.and_false, Bool.or_false]
    exact ⟨_, _, form keyOut1 fun mode shape => (clean mode shape).1, form keyOut2 fun mode shape => (clean mode shape).2,
      rfl, rfl, rfl, key, known, rfl, holds.address known⟩

/-- In every run of the store, the keys that `GetKey` fills are the same whatever they were before, exactly when
the store is plain, or the key of the address is compressed, or neither of them had the compressed form. -/
theorem getKey_reused_run_iff (lawful : crypto.Lawful) (events : List KeyEvent)
    (run : keyRun crypto events = some (s, added)) (open_ : s.isLocked = false) {key : PrivateKey}
    (known : added address = some key) (keyOut1 keyOut2 : CKey crypto) :
    GivesKey crypto added s address keyOut1 keyOut2 ↔
      (s.isCrypted = true → key.compressed = false →
        keyOut1.fCompressedPubKey = false ∧ keyOut2.fCompressedPubKey = false) := by
  obtain ⟨_, _, again, holds⟩ := keyRun_holds lawful events
  cases run.symm.trans again
  exact getKey_reused_iff lawful holds open_ known keyOut1 keyOut2

end Refilled

section Concrete

/-- An uncompressed key of the secret 7. -/
def uncompressedKey : PrivateKey := ⟨sampleSecret, false, sampleSecret_size, sampleSecret_range⟩

/-- The uncompressed key is added, the store encrypted and unlocked. -/
def uncompressedRun : List KeyEvent :=
  [.addKey uncompressedKey, .encryptKeys ⟨List.replicate 32 1, rfl⟩, .unlock (List.replicate 32 1)]

/-- A `CKey` that held a compressed key. -/
def compressedBefore : CKey .sample := (CKey.fresh.setSecret sampleSecret true).getD CKey.fresh

set_option maxRecDepth 8000 in
/-- Two fresh keys are filled alike. -/
theorem getKey_fresh_uncompressed :
    ∃ s added, keyRun .sample uncompressedRun = some (s, added) ∧
      GivesKey .sample added s (uncompressedKey.id .sample) CKey.fresh CKey.fresh :=
  ⟨_, _, rfl, (getKey_reused_run_iff KeyCrypto.sample_lawful uncompressedRun rfl rfl rfl _ _).mpr
    fun _ _ => ⟨rfl, rfl⟩⟩

set_option maxRecDepth 8000 in
/-- The key that was compressed before is filled with the compressed form of an uncompressed key. -/
theorem getKey_compressed_before :
    ¬ ∀ (crypto : KeyCrypto) (events : List KeyEvent) (s : CCryptoKeyStore) (added : AddedKeys) (address : BitVec 160),
      crypto.Lawful → keyRun crypto events = some (s, added) → s.isLocked = false → s.haveKey address = true →
        ∀ keyOut1 keyOut2 : CKey crypto, GivesKey crypto added s address keyOut1 keyOut2 := by
  intro claim
  obtain ⟨key1, key2, done1, done2, -, form, -⟩ := claim .sample uncompressedRun _ _ (uncompressedKey.id .sample)
    KeyCrypto.sample_lawful rfl rfl rfl CKey.fresh compressedBefore
  cases done1
  cases done2
  cases form

end Concrete

end InfiniteRicks
