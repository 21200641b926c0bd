import InfiniteRicks.WalletDump
import InfiniteRicks.WalletRecordSpec

/-!
# A dump is imported again

The texts between separators do not contain them, so the file splits into its lines and a line
into its fields. A line gives back one key with its time and label, and the run over the lines
adds them to what the wallet had.
-/

namespace InfiniteRicks

namespace WalletDump

/-! ## Labels -/

theorem decode_cons {c : UInt8} (plain : c ≠ 37) (rest : Bytes) :
    decodeDumpString (c :: rest) = c :: decodeDumpString rest := by
  match rest with
  | [] => rfl
  | [_] => rfl
  | _ :: _ :: _ => rw [decodeDumpString, if_neg plain]

theorem shiftRight_four_lt (c : UInt8) : (c >>> 4).toNat < 16 := by
  rw [UInt8.toNat_shiftRight]
  change c.toNat >>> 4 < 16
  rw [Nat.shiftRight_eq_div_pow]
  have := c.toNat_lt
  omega

theorem and_fifteen_lt (c : UInt8) : (c &&& 15).toNat < 16 := by
  rw [UInt8.toNat_and]
  exact Nat.and_lt_two_pow _ (show 15 < 2 ^ 4 by decide)

/-- A byte is put together from its halves. -/
theorem halves (c : UInt8) : c >>> 4 <<< 4 ||| c &&& 15 = c := by
  have all : ∀ n : Fin 256, UInt8.ofNat n.1 >>> 4 <<< 4 ||| UInt8.ofNat n.1 &&& 15 = UInt8.ofNat n.1 := by
    decide +kernel
  have this := all ⟨c.toNat, c.toNat_lt⟩
  rwa [UInt8.ofNat_toNat] at this

/-- What is so of the sixteen digits. -/
theorem forall_hexmap {property : UInt8 → Prop} (all : ∀ n : Fin 16, property (UInt8.ofNat n.1)) {c : UInt8}
    (small : c.toNat < 16) : property c := by
  have this := all ⟨c.toNat, small⟩
  rwa [UInt8.ofNat_toNat] at this

theorem digitValue_hexmap {c : UInt8} (small : c.toNat < 16) : digitValue (hexmap c) = c :=
  @forall_hexmap (fun c => digitValue (hexmap c) = c) (by decide) c small

theorem hexmap_printable {c : UInt8} (small : c.toNat < 16) : 32 < hexmap c :=
  @forall_hexmap (fun c => 32 < hexmap c) (by decide) c small

theorem digits_hexmap (c : UInt8) : digitValue (hexmap (c >>> 4)) <<< 4 ||| digitValue (hexmap (c &&& 15)) = c := by
  rw [digitValue_hexmap (shiftRight_four_lt c), digitValue_hexmap (and_fifteen_lt c), halves]

theorem decode_escaped (c : UInt8) (rest : Bytes) :
    decodeDumpString (37 :: (hexStr [c] ++ rest)) = c :: decodeDumpString rest := by
  change decodeDumpString (37 :: hexmap (c >>> 4) :: hexmap (c &&& 15) :: rest) = _
  rw [decodeDumpString, if_pos rfl, digits_hexmap]

/-- Any label is decoded again. -/
theorem decode_encode (str : Bytes) : decodeDumpString (encodeDumpString str) = str := by
  induction str with
  | nil => rfl
  | cons c rest ih =>
      rw [encodeDumpString, List.flatMap_cons]
      change decodeDumpString (_ ++ encodeDumpString rest) = _
      split
      · rw [List.cons_append, decode_escaped, ih]
      · rename_i plain
        rw [List.singleton_append, decode_cons (fun percent => plain (.inr (.inr percent))), ih]

theorem hexStr_printable {bytes : Bytes} {c : UInt8} (member : c ∈ hexStr bytes) : 32 < c := by
  obtain ⟨val, -, digit⟩ := List.mem_flatMap.mp member
  have high := hexmap_printable (shiftRight_four_lt val)
  have low := hexmap_printable (and_fifteen_lt val)
  rcases List.mem_pair.mp digit with rfl | rfl
  · exact high
  · exact low

/-- An encoded label has no space and no line break. -/
theorem encode_printable {str : Bytes} {c : UInt8} (member : c ∈ encodeDumpString str) : 32 < c := by
  obtain ⟨val, -, written⟩ := List.mem_flatMap.mp member
  split at written
  · rcases List.mem_cons.mp written with rfl | digit
    · decide
    · exact hexStr_printable digit
  · rename_i plain
    obtain rfl := List.mem_singleton.mp written
    exact UInt8.not_le.mp fun low => plain (.inl low)

/-! ## Base 58 in a line -/

theorem charOf_printable {d : Nat} (digit : d < 58) : 35 < Base58.charOf d := by
  have all : ∀ d : Fin 58, 35 < Base58.charOf d.1 := by decide
  exact all ⟨d, digit⟩

theorem encodeBase58_printable {vch : Bytes} {c : UInt8} (member : c ∈ Base58.encodeBase58 vch) : 35 < c := by
  rw [Base58.encodeBase58_eq] at member
  obtain ⟨d, digit, rfl⟩ := List.mem_map.mp member
  exact charOf_printable (Library.Numerals.lt_of_mem_numeral (b := 58) (by omega) digit)

theorem toText_printable {hash : Bytes → UInt256} {data : CBase58Data} {c : UInt8} (member : c ∈ data.toText hash) : 35 < c :=
  encodeBase58_printable member

theorem toText_ne_nil (hash : Bytes → UInt256) (data : CBase58Data) : data.toText hash ≠ [] := by
  intro nil
  have read := CBase58Data.setString_toText hash data
  have empty : CBase58Data.setString hash [] = (false, CBase58Data.new) := by
    have none : Base58.decodeBase58Check hash [] = none := rfl
    rw [CBase58Data.setString, none]
    rfl
  rw [nil, empty] at read
  cases congrArg Prod.fst read

/-! ## Separators -/

theorem intercalate_cons_cons (separator : UInt8) (first second : Bytes) (rest : List Bytes) :
    [separator].intercalate (first :: second :: rest) = first ++ separator :: [separator].intercalate (second :: rest) := by
  rw [List.intercalate_cons_cons, List.append_assoc, List.singleton_append]

theorem mem_intercalate {separator c : UInt8} {parts : List Bytes} (member : c ∈ [separator].intercalate parts) :
    c = separator ∨ ∃ part ∈ parts, c ∈ part := by
  induction parts with
  | nil => exact absurd member List.not_mem_nil
  | cons first rest ih =>
      cases rest with
      | nil =>
          rw [List.intercalate_singleton] at member
          exact .inr ⟨first, List.mem_cons_self, member⟩
      | cons second rest =>
          rw [intercalate_cons_cons] at member
          rcases List.mem_append.mp member with ofFirst | later
          · exact .inr ⟨first, List.mem_cons_self, ofFirst⟩
          · rcases List.mem_cons.mp later with same | ofRest
            · exact .inl same
            · exact (ih ofRest).imp_right fun ⟨part, inside, member⟩ => ⟨part, List.mem_cons_of_mem _ inside, member⟩

end WalletDump

open WalletDump

/-! ## The secret of a line -/

namespace CBitcoinSecret

theorem isValid_setSecret (fTestNet : Bool) {secret : Bytes} (size : secret.length = 32) (fCompressed : Bool) :
    isValid fTestNet (setSecret fTestNet secret fCompressed) = true := by
  have last : (secret ++ [1]).getD 32 0 = 1 := by
    rw [List.getD_append_right _ _ _ _ size.le, size]
    rfl
  cases fTestNet <;> cases fCompressed <;> simp only [isValid, setSecret] <;> simp [size, last] <;> decide

/-- A secret that is printed is read again. -/
theorem setString_setSecret (hash : Bytes → UInt256) (fTestNet : Bool) {secret : Bytes} (size : secret.length = 32)
    (fCompressed : Bool) :
    setString hash fTestNet ((setSecret fTestNet secret fCompressed).toText hash) =
      (true, setSecret fTestNet secret fCompressed) := by
  rw [setString, CBase58Data.setString_toText]
  dsimp only
  rw [isValid_setSecret fTestNet size]
  rfl

theorem getSecret_setSecret (fTestNet : Bool) {secret : Bytes} (size : secret.length = 32) (fCompressed : Bool) :
    getSecret (setSecret fTestNet secret fCompressed) = (secret, fCompressed) := by
  cases fCompressed with
  | false => simp [getSecret, setSecret, size, List.take_of_length_le size.le]
  | true =>
      have taken : (secret ++ [1]).take 32 = secret := by rw [← size, List.take_left]
      simp [getSecret, setSecret, size, taken]

end CBitcoinSecret

namespace KeyWallet

/-! ## The fields of a line -/

theorem not_comment {c : UInt8} {rest : Bytes} (other : c ≠ 35) : ¬[35] <+: c :: rest :=
  fun comment => other (List.cons_prefix_cons.mp comment).1.symm

/-- `fLabel` and `strLabel` for a key. -/
def labelOf (w : KeyWallet) (keyid : BitVec 160) : Bool × Bytes :=
  match w.mapAddressBook (.keyID keyid) with
  | some label => (true, label)
  | none => (false, [])

/-- What the fields behind the time say about the label. -/
theorem readFields_keyField (w : KeyWallet) (setKeyPool : List (BitVec 160)) (keyid : BitVec 160) (addr : Bytes) :
    readFields [w.keyField setKeyPool keyid, [35], addr] (true, []) =
      w.labelOf keyid := by
  rw [keyField, labelOf]
  cases w.mapAddressBook (.keyID keyid) with
  | some label =>
      have dropped : (labelField ++ encodeDumpString label).drop 6 = encodeDumpString label :=
        @List.drop_left _ labelField _
      have field : ¬[35] <+: labelField ++ encodeDumpString label :=
        @not_comment 108 (labelField.tail ++ encodeDumpString label) (by decide)
      dsimp only
      rw [readFields, if_neg field, if_pos (List.prefix_append _ _), dropped, decode_encode, readFields,
        if_pos (List.prefix_refl _)]
  | none =>
      dsimp only
      split <;> rfl

theorem keyField_printable (w : KeyWallet) (setKeyPool : List (BitVec 160)) (keyid : BitVec 160) {c : UInt8}
    (member : c ∈ w.keyField setKeyPool keyid) : 32 < c := by
  have fixed : ∀ c ∈ labelField ++ reserveField ++ changeField, (32 : UInt8) < c := by
    have all : (labelField ++ reserveField ++ changeField).all (fun c => decide ((32 : UInt8) < c)) = true := by decide
    exact fun c member => of_decide_eq_true (List.all_eq_true.mp all c member)
  rw [keyField] at member
  split at member
  · rcases List.mem_append.mp member with ofField | encoded
    · exact fixed c (List.mem_append_left _ (List.mem_append_left _ ofField))
    · exact encode_printable encoded
  · split at member
    · exact fixed c (List.mem_append_left _ (List.mem_append_right _ member))
    · exact fixed c (List.mem_append_right _ member)

end KeyWallet

/-- Dates and build texts stay within their fields. -/
structure DumpFormat.OneField (format : DumpFormat) : Prop where
  clientBuild : (10 : UInt8) ∉ format.clientBuild
  clientDate : (10 : UInt8) ∉ format.clientDate
  encodeDumpTime : ∀ nTime, ∀ c ∈ format.encodeDumpTime nTime, 32 < c

namespace KeyWallet

variable {crypto : KeyCrypto} {fTestNet : Bool} {format : DumpFormat}

/-- A line is five fields. -/
theorem dumpLine_eq (secret : CBase58Data) (nTime : Int64) (field : Bytes) (keyid : BitVec 160) :
    dumpLine crypto fTestNet format secret nTime field keyid =
      [32].intercalate [secret.toText crypto.hash, format.encodeDumpTime nTime, field, [35],
        addrField ++ (CBitcoinAddress.set fTestNet .new (.keyID keyid)).2.toText crypto.hash] := by
  simp only [dumpLine, intercalate_cons_cons, List.intercalate_singleton, List.append_assoc, List.cons_append, List.nil_append]

theorem addr_printable (keyid : BitVec 160) {c : UInt8}
    (member : c ∈ addrField ++ (CBitcoinAddress.set fTestNet .new (.keyID keyid)).2.toText crypto.hash) : 32 < c := by
  have fixed : ∀ c ∈ addrField, (32 : UInt8) < c := by decide +kernel
  rcases List.mem_append.mp member with ofField | ofText
  · exact fixed c ofField
  · exact UInt8.lt_trans (show (32 : UInt8) < 35 by decide) (toText_printable ofText)

theorem fields_printable (crypto : KeyCrypto) (fTestNet : Bool) (plain : format.OneField) (secret : CBase58Data) (nTime : Int64) (w : KeyWallet)
    (setKeyPool : List (BitVec 160)) (keyid : BitVec 160) :
    ∀ part ∈ [secret.toText crypto.hash, format.encodeDumpTime nTime, w.keyField setKeyPool keyid, [35],
        addrField ++ (CBitcoinAddress.set fTestNet .new (.keyID keyid)).2.toText crypto.hash], ∀ c ∈ part, 32 < c := by
  simp only [List.forall_mem_cons, List.not_mem_nil, false_imp_iff, implies_true, and_true]
  refine ⟨fun c member => UInt8.lt_trans (show (32 : UInt8) < 35 by decide) (toText_printable member), plain.encodeDumpTime nTime,
    fun c => w.keyField_printable setKeyPool keyid, by decide, fun c => addr_printable keyid⟩

theorem splitOn_dumpLine (crypto : KeyCrypto) (fTestNet : Bool) (plain : format.OneField) (secret : CBase58Data) (nTime : Int64) (w : KeyWallet)
    (setKeyPool : List (BitVec 160)) (keyid : BitVec 160) :
    (dumpLine crypto fTestNet format secret nTime (w.keyField setKeyPool keyid) keyid).splitOn 32 =
      [secret.toText crypto.hash, format.encodeDumpTime nTime, w.keyField setKeyPool keyid, [35],
        addrField ++ (CBitcoinAddress.set fTestNet .new (.keyID keyid)).2.toText crypto.hash] := by
  rw [dumpLine_eq]
  refine List.splitOn_intercalate 32 (fun part member space => ?_) (List.cons_ne_nil _ _)
  exact absurd (fields_printable crypto fTestNet plain secret nTime w setKeyPool keyid part member 32 space) (by decide)

/-! ## Adding the key of a line -/

end KeyWallet

/-- A store that takes keys: it is open, under a master key of the right size if it is encrypted. -/
structure CCryptoKeyStore.TakesKeys (s : CCryptoKeyStore) : Prop where
  unlocked : s.isLocked = false
  master : s.fUseCrypto = true → s.vMasterKey.length = walletCryptoKeySize

variable {crypto : KeyCrypto}

theorem CCryptoKeyStore.TakesKeys.addKey {s : CCryptoKeyStore} (takes : s.TakesKeys) (key : PrivateKey) :
    ∃ after, s.addKey (key.toCKey crypto) = some (true, after) ∧ after.TakesKeys := by
  have unlocked := takes.unlocked
  unfold isLocked isCrypted at unlocked
  unfold CCryptoKeyStore.addKey isLocked isCrypted
  cases mode : s.fUseCrypto with
  | false =>
      refine ⟨_, rfl, ?_, fun on => ?_⟩
      · change (s.fUseCrypto && _) = false
        rw [mode, Bool.false_and]
      · rw [show s.fUseCrypto = true from on] at mode
        cases mode
  | true =>
      have size := takes.master mode
      rw [mode, Bool.true_and] at unlocked
      have switched : s.setCrypted = (true, s) := by
        rw [CCryptoKeyStore.setCrypted, mode]
        rfl
      refine ⟨{ s with
          mapCryptedKeys := s.mapCryptedKeys.insert (key.id crypto)
            (key.pubKey crypto, crypto.encrypt s.vMasterKey (crypto.hash (key.pubKey crypto)) key.secret) },
        ?_, ?_, fun _ => size⟩
      · simp only [Bool.not_true, Bool.false_eq_true, if_false, Bool.true_and, unlocked, PrivateKey.getPubKey_toCKey,
          PrivateKey.getSecret_toCKey, encryptSecret, size, ne_eq, not_true_eq_false, addCryptedKey, switched]
        rfl
      · change (s.fUseCrypto && s.vMasterKey.isEmpty) = false
        rw [mode, Bool.true_and, unlocked]

namespace KeyWallet

variable {fTestNet : Bool} {format : DumpFormat}

/-- The line of a key that the wallet does not have yet. -/
theorem importLine_dumpLine (plain : format.OneField) (w : KeyWallet) (setKeyPool : List (BitVec 160)) (key : PrivateKey)
    {nTime : Int64} (date : format.decodeDumpTime (format.encodeDumpTime nTime) = nTime) {state : Import}
    (unknown : state.wallet.keystore.haveKey (key.id crypto) = false) {keystore : CCryptoKeyStore}
    (added : state.wallet.keystore.addKey (key.toCKey crypto) = some (true, keystore)) :
    importLine crypto fTestNet format state (dumpLine crypto fTestNet format
        (CBitcoinSecret.setSecret fTestNet key.secret key.compressed) nTime (w.keyField setKeyPool (key.id crypto))
        (key.id crypto)) =
      some { state with
        nTimeBegin := if nTime < state.nTimeBegin then nTime else state.nTimeBegin
        wallet := state.wallet.withKey keystore (key.id crypto) nTime (w.labelOf (key.id crypto)) } := by
  have fields := splitOn_dumpLine crypto fTestNet plain
    (CBitcoinSecret.setSecret fTestNet key.secret key.compressed) nTime w setKeyPool (key.id crypto)
  have start : ∃ c rest, dumpLine crypto fTestNet format (CBitcoinSecret.setSecret fTestNet key.secret key.compressed) nTime
      (w.keyField setKeyPool (key.id crypto)) (key.id crypto) = c :: rest ∧ c ≠ 35 := by
    rw [dumpLine_eq, intercalate_cons_cons]
    obtain ⟨c, rest, shape⟩ := List.exists_cons_of_ne_nil
      (toText_ne_nil crypto.hash (CBitcoinSecret.setSecret fTestNet key.secret key.compressed))
    refine ⟨c, _, by rw [shape, List.cons_append], ?_⟩
    have large : 35 < c := toText_printable (shape ▸ List.mem_cons_self)
    rintro rfl
    exact absurd large (by decide)
  obtain ⟨c, rest, shape, visible⟩ := start
  have shown : ((dumpLine crypto fTestNet format (CBitcoinSecret.setSecret fTestNet key.secret key.compressed) nTime
      (w.keyField setKeyPool (key.id crypto)) (key.id crypto)).isEmpty || decide ((dumpLine crypto fTestNet format
      (CBitcoinSecret.setSecret fTestNet key.secret key.compressed) nTime (w.keyField setKeyPool (key.id crypto))
      (key.id crypto)).head? = some 35)) = false := by
    rw [shape]
    simp [visible]
  rw [importLine, shown, if_neg Bool.false_ne_true, fields]
  dsimp only
  rw [CBitcoinSecret.setString_setSecret _ _ key.size]
  dsimp only
  rw [if_neg (by decide), CBitcoinSecret.getSecret_setSecret _ key.size]
  dsimp only
  rw [setSecret_fresh]
  simp only [Option.bind_eq_bind, Option.bind_some, PrivateKey.getPubKey_toCKey]
  have id : crypto.hash160 (key.pubKey crypto) = key.id crypto := rfl
  rw [id, unknown, if_neg Bool.false_ne_true, added, Option.bind_some]
  dsimp only
  rw [if_neg (by decide), date, readFields_keyField]

/-- The state of an import into a wallet after the keys with some ids. -/
structure Imported (added addedBefore : AddedKeys) (w before : KeyWallet) (mapKeyBirth : AList fun _ : BitVec 160 => Int64)
    (ids : List (BitVec 160)) (state : Import) : Prop where
  fGood : state.fGood = true
  takes : state.wallet.keystore.TakesKeys
  holds : state.wallet.keystore.Holds crypto fun keyid => if keyid ∈ ids then added keyid else addedBefore keyid
  times : ∀ keyid, state.wallet.mapKeyMetadata.lookup keyid =
    if keyid ∈ ids then mapKeyBirth.lookup keyid else before.mapKeyMetadata.lookup keyid
  labels : ∀ dest, state.wallet.mapAddressBook dest =
    if dest ∈ ids.map CTxDestination.keyID then (w.mapAddressBook dest).or (before.mapAddressBook dest)
    else before.mapAddressBook dest

variable {added addedBefore : AddedKeys} {w before : KeyWallet} {mapKeyBirth : AList fun _ : BitVec 160 => Int64}

/-- The label of an imported key. -/
theorem withKey_labels (keystore : CCryptoKeyStore) (keyid : BitVec 160) (nTime : Int64) (state : KeyWallet)
    (dest : CTxDestination) :
    (state.withKey keystore keyid nTime (w.labelOf keyid)).mapAddressBook dest =
      if dest = .keyID keyid then (w.mapAddressBook dest).or (state.mapAddressBook dest) else state.mapAddressBook dest := by
  rw [withKey, labelOf]
  cases known : w.mapAddressBook (.keyID keyid) with
  | none =>
      change state.mapAddressBook dest = _
      by_cases same : dest = .keyID keyid
      · rw [if_pos same, same, known]
        rfl
      · rw [if_neg same]
  | some label =>
      change Function.update state.mapAddressBook (.keyID keyid) (some label) dest = _
      rw [Function.update_apply]
      by_cases same : dest = .keyID keyid
      · rw [if_pos same, if_pos same, same, known]
        rfl
      · rw [if_neg same, if_neg same]

theorem Imported.importLine (fTestNet : Bool) (plain : format.OneField) (setKeyPool : List (BitVec 160)) {ids : List (BitVec 160)}
    {state : Import} (imported : @Imported crypto added addedBefore w before mapKeyBirth ids state)
    {key : PrivateKey} {nTime : Int64}
    (date : format.decodeDumpTime (format.encodeDumpTime nTime) = nTime) (known : added (key.id crypto) = some key)
    (birth : mapKeyBirth.lookup (key.id crypto) = some nTime) (fresh : key.id crypto ∉ ids)
    (unknown : addedBefore (key.id crypto) = none) :
    ∃ next, KeyWallet.importLine crypto fTestNet format state (dumpLine crypto fTestNet format
        (CBitcoinSecret.setSecret fTestNet key.secret key.compressed) nTime (w.keyField setKeyPool (key.id crypto))
        (key.id crypto)) = some next ∧
      @Imported crypto added addedBefore w before mapKeyBirth (key.id crypto :: ids) next := by
  obtain ⟨keystore, taken, takes⟩ := imported.takes.addKey key
  have absent : state.wallet.keystore.haveKey (key.id crypto) = false := by
    rw [imported.holds.haveKey, if_neg fresh, unknown]
    rfl
  refine ⟨_, importLine_dumpLine plain w setKeyPool key date absent taken, imported.fGood, takes, ?_, fun keyid => ?_,
    fun dest => ?_⟩
  · obtain ⟨done, after, sameCall, holds⟩ := imported.holds.addKey key
    obtain ⟨rfl, rfl⟩ := Prod.mk.inj (Option.some.inj (taken.symm.trans sameCall))
    have same : KeyEvent.record crypto (fun keyid => if keyid ∈ ids then added keyid else addedBefore keyid) true
        (.addKey key) = fun keyid => if keyid ∈ key.id crypto :: ids then added keyid else addedBefore keyid := by
      funext keyid
      rw [CCryptoKeyStore.record_addKey]
      by_cases own : keyid = key.id crypto
      · rw [if_pos own, own, if_pos List.mem_cons_self, known]
      · simp [own]
    rw [← same]
    exact holds
  · change (state.wallet.mapKeyMetadata.insert (key.id crypto) nTime).lookup keyid = _
    rw [Library.Assoc.lookup_insert_eq, imported.times]
    by_cases own : keyid = key.id crypto
    · rw [if_pos own, own, if_pos List.mem_cons_self, birth]
    · simp [own]
  · rw [withKey_labels, imported.labels, List.map_cons]
    by_cases own : dest = .keyID (key.id crypto)
    · have outside : CTxDestination.keyID (key.id crypto) ∉ ids.map CTxDestination.keyID := by
        intro member
        obtain ⟨other, inside, same⟩ := List.mem_map.mp member
        exact fresh (CTxDestination.keyID.inj same ▸ inside)
      rw [if_pos own, own, if_neg outside, if_pos List.mem_cons_self]
    · simp [own]

/-- The line of a private key of the wallet. -/
def keyLine (crypto : KeyCrypto) (fTestNet : Bool) (format : DumpFormat) (w : KeyWallet) (setKeyPool : List (BitVec 160))
    (entry : Int64 × PrivateKey) : Bytes :=
  dumpLine crypto fTestNet format (CBitcoinSecret.setSecret fTestNet entry.2.secret entry.2.compressed) entry.1
    (w.keyField setKeyPool (entry.2.id crypto)) (entry.2.id crypto)

/-- The lines of some keys add them one by one. -/
theorem Imported.importLines (fTestNet : Bool) (plain : format.OneField) (setKeyPool : List (BitVec 160))
    (keys : List (Int64 × PrivateKey))
    {ids : List (BitVec 160)} {state : Import}
    (imported : @Imported crypto added addedBefore w before mapKeyBirth ids state)
    (dates : ∀ entry ∈ keys, format.decodeDumpTime (format.encodeDumpTime entry.1) = entry.1)
    (known : ∀ entry ∈ keys, added (entry.2.id crypto) = some entry.2 ∧
      mapKeyBirth.lookup (entry.2.id crypto) = some entry.1 ∧ addedBefore (entry.2.id crypto) = none)
    (fresh : (ids ++ keys.map fun entry => entry.2.id crypto).Nodup) :
    ∃ next, (keys.map (w.keyLine crypto fTestNet format setKeyPool)).foldlM (KeyWallet.importLine crypto fTestNet format)
        state = some next ∧
      @Imported crypto added addedBefore w before mapKeyBirth
        ((keys.map fun entry => entry.2.id crypto).reverse ++ ids) next := by
  induction keys generalizing ids state with
  | nil => exact ⟨state, rfl, imported⟩
  | cons entry rest ih =>
      obtain ⟨nTime, key⟩ := entry
      obtain ⟨date, dates⟩ := List.forall_mem_cons.mp dates
      obtain ⟨⟨first, birth, unknown⟩, known⟩ := List.forall_mem_cons.mp known
      rw [List.map_cons] at fresh
      have moved := List.nodup_middle.mp fresh
      obtain ⟨next, line, imported⟩ := imported.importLine fTestNet plain setKeyPool date first birth
        (fun member => (List.nodup_cons.mp moved).1 (List.mem_append_left _ member)) unknown
      obtain ⟨last, lines, imported⟩ := ih imported dates known moved
      refine ⟨last, ?_, ?_⟩
      · rw [List.map_cons, List.foldlM_cons, keyLine, line]
        exact lines
      · rw [List.map_cons, List.reverse_cons, List.append_assoc]
        exact imported

/-! ## Comments -/

variable {s : Node} {extractAffectedKeys : CScript → List (BitVec 160)} {setKeyPool : List (BitVec 160)}

section Concrete

/-- A date that is written as the library does, and numbers for the other ones. -/
def sampleFormat : DumpFormat where
  clientBuild := text ['v', '1']
  clientDate := text ['t', 'o', 'd', 'a', 'y']
  encodeDumpTime nTime :=
    if nTime = 1388534400 then
      text ['2', '0', '1', '4', '-', '0', '1', '-', '0', '1', 'T', '0', '0', ':', '0', '0', ':', '0', '0', 'Z']
    else i64tostr nTime
  decodeDumpTime str :=
    if str = text ['2', '0', '1', '4', '-', '0', '1', '-', '0', '1', 'T', '0', '0', ':', '0', '0', ':', '0', '0', 'Z'] then
      1388534400
    else atoi64 str

/-- A wallet without keys. -/
def emptyWallet : KeyWallet := ⟨.new, ∅, fun _ => none, [], fun _ => none, [], 0, false⟩

end Concrete

end KeyWallet

end InfiniteRicks
