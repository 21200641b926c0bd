import InfiniteRicks.KeystoreSpec
import InfiniteRicks.SigningSpec
import InfiniteRicks.StandardRun

/-!
# Signing what is mine

`IsMine` and `SignSignature` go through the same templates in two recursions. Below, what
`Solver` puts together with all keys at hand is run through the interpreter, template by
template. The two differ where a known redeem script is a script hash itself: `IsMine`
follows it, and `SignSignature` refuses it.
-/

namespace InfiniteRicks

open Library.Hoare CScript

/-- The byte of a hash type at the end of a signature. -/
def hashTypeByte (nHashType : Int32) : UInt8 := nHashType.toUInt32.toUInt8

/-- A signature with its hash type that the key verifies, in the form that the interpreter asks for. -/
structure Signs (crypto : SignCrypto) (nHashType : Int32) (hash : UInt256) (pubkey sig : Bytes) : Prop where
  canonical : isCanonicalSignature sig = true
  hashType : sig.getLast? = some (hashTypeByte nHashType)
  verifies : crypto.verify pubkey hash sig.dropLast = true
  /-- It is longer than a hash, so it is not one. -/
  long : 20 < sig.length

/-- A public key that the interpreter takes. -/
structure Usable (crypto : SignCrypto) (pubkey : Bytes) : Prop where
  canonical : isCanonicalPubKey pubkey = true
  set : (crypto.o2i pubkey).isSome = true

/-- A key under its id: its public key is the only one with this id, and it always signs. -/
structure HeldKey (crypto : SignCrypto) (signer : Signer) (nHashType : Int32) (keyID : BitVec 160)
    (key : CKey crypto.toKeyCrypto) (pubkey secret : Bytes) : Prop where
  pubKey : key.getPubKey = some pubkey
  held : key.secret = some secret
  id : ∀ other, crypto.hash160 other = keyID ↔ other = pubkey
  usable : Usable crypto pubkey
  signs : ∀ number hash, ∃ vchSig, signer number secret hash = some vchSig ∧
    Signs crypto nHashType hash pubkey (vchSig ++ [hashTypeByte nHashType])

namespace CKeyStore

variable {crypto : SignCrypto} (store : CKeyStore crypto.toKeyCrypto)

/-- What `IsMine` asks of the store. -/
def owner : OwnerStore := ⟨crypto.hash160, fun keyID => (store.getKey keyID).isSome, store.getCScript⟩

/-- `IsMine(keystore, scriptPubKey)` returns true. -/
def IsMine (scriptPubKey : CScript) : Prop := ∃ fuel, store.owner.isMine fuel scriptPubKey = some true

/-- All private keys are available and sign, a hash type is its byte, and what `AddCScript` keeps: redeem scripts
under their hashes, and none above `MAX_SCRIPT_ELEMENT_SIZE`. -/
structure SignsAll (signer : Signer) (nHashType : Int32) : Prop where
  hashType : (UInt32.ofNat (hashTypeByte nHashType).toNat).toInt32 = nHashType
  keys : ∀ keyID key, store.getKey keyID = some key →
    ∃ pubkey secret, HeldKey crypto signer nHashType keyID key pubkey secret
  scripts : ∀ scriptID redeemScript, store.getCScript scriptID = some redeemScript →
    crypto.hash160 redeemScript = scriptID ∧ redeemScript.length ≤ maxScriptElementSize

/-- Where a script is a script hash, the redeem script that the store knows for it is none. -/
def RedeemsFlat (scriptPubKey : CScript) : Prop :=
  scriptPubKey.isPayToScriptHash = true →
    ∀ redeemScript, store.getCScript (BitVec.ofNat 160 (littleEndian ((scriptPubKey.drop 2).take 20))) =
      some redeemScript → redeemScript.isPayToScriptHash = false

end CKeyStore

section Accept

variable {crypto : SignCrypto} {nHashType : Int32} {hash : UInt256} {pubkey sig : Bytes}

/-- The size of a signature and its first byte. -/
theorem front_of_canonicalSignature (canonical : isCanonicalSignature sig = true) :
    9 ≤ sig.length ∧ sig.length ≤ 73 ∧ sig.getD 0 0 = 0x30 := by
  unfold isCanonicalSignature at canonical
  by_cases short : sig.length < 9
  · rw [if_pos short] at canonical
    cases canonical
  rw [if_neg short] at canonical
  by_cases long : 73 < sig.length
  · rw [if_pos long] at canonical
    cases canonical
  rw [if_neg long] at canonical
  dsimp only at canonical
  by_cases type : (sig.getD (sig.length - 1) 0 &&& 0x7f) < 1 ∨ 3 < (sig.getD (sig.length - 1) 0 &&& 0x7f)
  · rw [if_pos type] at canonical
    cases canonical
  rw [if_neg type] at canonical
  by_cases first : sig.getD 0 0 ≠ 0x30
  · rw [if_pos first] at canonical
    cases canonical
  exact ⟨Nat.le_of_not_lt short, Nat.le_of_not_lt long, not_not.mp first⟩

theorem length_of_canonicalPubKey (canonical : isCanonicalPubKey pubkey = true) :
    33 ≤ pubkey.length ∧ pubkey.length ≤ 65 ∧ pubkey.getD 0 0 ≠ 0x30 := by
  unfold isCanonicalPubKey at canonical
  split_ifs at canonical with short four two
  · have size : pubkey.length = 65 := of_decide_eq_true canonical
    exact ⟨by omega, by omega, by rw [four]; decide⟩
  · have size : pubkey.length = 33 := of_decide_eq_true canonical
    refine ⟨by omega, by omega, ?_⟩
    rcases two with first | first <;> rw [first] <;> decide

/-- A signature starts with 0x30, and a public key does not. -/
theorem ne_of_canonical (key : isCanonicalPubKey pubkey = true) (canonical : isCanonicalSignature sig = true) :
    pubkey ≠ sig := by
  rintro rfl
  exact (length_of_canonicalPubKey key).2.2 (front_of_canonicalSignature canonical).2.2

/-- The context in which a script is run asks for what has been signed. -/
structure Asks (crypto : SignCrypto) (nHashType : Int32) (ctx : EvalContext) (scriptCode : CScript) (hash : UInt256) :
    Prop where
  scripts : ctx.crypto = crypto.scripts
  anyType : ctx.nHashType = 0
  hash : signatureHash crypto.hash scriptCode ctx.txTo ctx.nIn nHashType = hash

theorem accepts_of_signs {ctx : EvalContext} {scriptCode : CScript} (asks : Asks crypto nHashType ctx scriptCode hash)
    (byte : (UInt32.ofNat (hashTypeByte nHashType).toNat).toInt32 = nHashType) (usable : Usable crypto pubkey)
    (signs : Signs crypto nHashType hash pubkey sig) : ctx.accepts scriptCode sig pubkey = true := by
  have type : (SigCheck.mk sig pubkey scriptCode ctx.txTo ctx.nIn ctx.nHashType).hashType = some nHashType := by
    rw [SigCheck.hashType]
    dsimp only
    rw [signs.hashType]
    dsimp only
    rw [if_pos asks.anyType, byte]
  rw [EvalContext.accepts, signs.canonical, usable.canonical, checkSig, type, asks.scripts]
  have verified : crypto.verify pubkey (signatureHash crypto.hash scriptCode ctx.txTo ctx.nIn nHashType) sig.dropLast =
      true := by
    rw [asks.hash, signs.verifies]
  exact Bool.and_eq_true_iff.mpr ⟨rfl, Bool.and_eq_true_iff.mpr ⟨usable.set, verified⟩⟩

/-- The sizes of the operations bound the size of a script. -/
theorem length_le_of_parses {script : CScript} {ops : List Op} (parses : Parses script ops) (few : ops.length ≤ 20)
    (sizes : ∀ op ∈ ops, op.2.length ≤ 120) : script.length ≤ 10000 := by
  have whole := length_le_of_reads parses
  have each : (ops.map fun op => 5 + op.2.length).sum ≤ (ops.map fun op => 5 + op.2.length).length * 125 := by
    refine List.sum_le_card_nsmul _ _ fun size member => ?_
    obtain ⟨op, inside, rfl⟩ := List.mem_map.mp member
    have size := sizes op inside
    omega
  rw [List.length_map] at each
  rw [List.length_nil] at whole
  omega

theorem Signs.ne_nil (signs : Signs crypto nHashType hash pubkey sig) : sig ≠ [] := by
  rintro rfl
  exact Nat.not_lt_zero _ signs.long

/-- A hash that is written in a script. -/
theorem hash160_bytes {bytes vch : Bytes} (sized : bytes.length = 20)
    (same : crypto.hash160 vch = BitVec.ofNat 160 (littleEndian bytes)) :
    HashOp.opHash160.apply crypto.scripts vch = bytes := by
  have small := littleEndian_lt bytes
  rw [sized] at small
  have value : (BitVec.ofNat 160 (littleEndian bytes)).toNat = littleEndian bytes := by
    rw [BitVec.toNat_ofNat, Nat.mod_eq_of_lt (small.trans_le (by decide))]
  change littleEndianBytes 20 (crypto.hash160 vch).toNat = bytes
  rw [same, value, ← sized, littleEndianBytes_littleEndian]

end Accept

namespace CKeyStore

variable {crypto : SignCrypto} {store : CKeyStore crypto.toKeyCrypto} {signer : Signer} {nHashType : Int32}

/-- A key that is had signs for its public key. -/
theorem SignsAll.sign1 (signsAll : store.SignsAll signer nHashType) {keyID : BitVec 160}
    (held : (store.getKey keyID).isSome = true) (hash : UInt256) (number : Nat) (scriptSigRet : CScript) :
    ∃ pubkey sig, (∀ other, crypto.hash160 other = keyID ↔ other = pubkey) ∧ Usable crypto pubkey ∧
      store.getPubKey keyID = some pubkey ∧ Signs crypto nHashType hash pubkey sig ∧
      store.sign1 signer keyID hash nHashType number scriptSigRet = (true, scriptSigRet ++ pushData sig) := by
  obtain ⟨key, found⟩ := Option.isSome_iff_exists.mp held
  obtain ⟨pubkey, secret, held⟩ := signsAll.keys keyID key found
  obtain ⟨vchSig, signed, signs⟩ := held.signs number hash
  refine ⟨pubkey, vchSig ++ [hashTypeByte nHashType], held.id, held.usable, ?_, signs, ?_⟩
  · rw [getPubKey, found]
    exact held.pubKey
  · rw [CKeyStore.sign1, found]
    simp only [Option.bind_some, held.held, signed]
    rfl

/-- `SignN` signs for the first keys, as many as are required. -/
theorem SignsAll.signNLoop (signsAll : store.SignsAll signer nHashType) (hash : UInt256) (nRequired : Nat)
    {pubkeys : List Bytes} (held : ∀ pubkey ∈ pubkeys, (store.getKey (crypto.hash160 pubkey)).isSome = true)
    (number nSigned : Nat) (scriptSigRet : CScript) :
    ∃ sigs, List.Forall₂ (fun sig pubkey => Usable crypto pubkey ∧ Signs crypto nHashType hash pubkey sig) sigs
        (pubkeys.take (nRequired - nSigned)) ∧
      store.signNLoop signer hash nHashType nRequired pubkeys number nSigned scriptSigRet =
        (nSigned + min (nRequired - nSigned) pubkeys.length, scriptSigRet ++ sigs.flatMap pushData) := by
  induction pubkeys generalizing number nSigned scriptSigRet with
  | nil => exact ⟨[], by rw [List.take_nil]; exact .nil, by simp [CKeyStore.signNLoop]⟩
  | cons pubkey rest ih =>
      obtain ⟨own, others⟩ := List.forall_mem_cons.mp held
      rw [CKeyStore.signNLoop]
      split_ifs with more
      · obtain ⟨pubkey', sig, id, usable, -, signs, signed⟩ := signsAll.sign1 own hash number scriptSigRet
        obtain rfl := (id pubkey).mp rfl
        obtain ⟨sigs, each, run⟩ := ih others (number + 1) (nSigned + 1) (scriptSigRet ++ pushData sig)
        refine ⟨sig :: sigs, ?_, ?_⟩
        · rw [show nRequired - nSigned = (nRequired - (nSigned + 1)) + 1 by omega, List.take_succ_cons]
          exact .cons ⟨usable, signs⟩ each
        · rw [signed]
          dsimp only
          rw [if_pos rfl, run, List.flatMap_cons, List.append_assoc, List.length_cons]
          exact Prod.ext (by dsimp only; omega) rfl
      · refine ⟨[], ?_, ?_⟩
        · rw [show nRequired - nSigned = 0 by omega, List.take_zero]
          exact .nil
        · rw [show nRequired - nSigned = 0 by omega, Nat.zero_min, Nat.add_zero, List.flatMap_nil, List.append_nil]

/-- What `Solver` puts together for a script makes it answer yes, in every context that asks for this hash. -/
structure Solves (store : CKeyStore crypto.toKeyCrypto) (signer : Signer) (nHashType : Int32) (scriptPubKey : CScript)
    (hash : UInt256) (values : List Bytes) : Prop where
  solved : ∃ whichType, whichType ≠ .scriptHash ∧
    store.solver signer scriptPubKey hash nHashType = (true, CScript.pushAll values, whichType)
  answers : ∀ ctx, Asks crypto nHashType ctx scriptPubKey hash → Answers ctx scriptPubKey values.reverse true []
  sizes : ∀ v ∈ values, v.length ≤ 73
  few : values.length ≤ 17

variable {scriptPubKey : CScript} {hash : UInt256}

theorem SignsAll.solves_pubKey (signsAll : store.SignsAll signer nHashType) {opcode : UInt8} {key : Bytes}
    (parses : Parses scriptPubKey [(opcode, key), (opCheckSig, [])]) (sized : Solver.Sized key)
    (held : (store.getKey (crypto.hash160 key)).isSome = true) (hash : UInt256) :
    ∃ values, Solves store signer nHashType scriptPubKey hash values := by
  obtain ⟨pubkey, sig, id, usable, -, signs, signed⟩ := signsAll.sign1 held hash 0 []
  obtain rfl := (id key).mp rfl
  have answer := Solver.solver_of_template parses (.pubKey sized)
  have size := (front_of_canonicalSignature signs.canonical).2.1
  have clean : scriptPubKey.findAndDelete (pushData sig) = scriptPubKey := by
    refine findAndDelete_other (by omega) parses ?_
    simp only [List.forall_mem_cons, List.not_mem_nil, false_implies, implies_true, and_true]
    exact ⟨ne_of_canonical usable.canonical signs.canonical, signs.ne_nil.symm⟩
  have limit : scriptPubKey.length ≤ 10000 := length_le_of_parses parses (by simp) (by
    simp only [List.forall_mem_cons, List.not_mem_nil, false_implies, implies_true, and_true]
    exact ⟨sized.2, Nat.zero_le _⟩)
  refine ⟨[sig], ⟨.pubKey, by decide, ?_⟩, fun ctx asks => ?_, by simpa using size, by simp⟩
  · rw [CKeyStore.solver, answer]
    simp only [Bool.not_true, Bool.false_eq_true, if_false, List.head?_cons, Option.getD_some, signed]
    rfl
  · have answers := @answers_pubKey ctx scriptPubKey [] opcode key sig parses limit sized clean (by decide)
    rwa [accepts_of_signs asks signsAll.hashType usable signs] at answers

theorem SignsAll.solves_pubKeyHash (signsAll : store.SignsAll signer nHashType) {opcode : UInt8} {keyHash : Bytes}
    (parses : Parses scriptPubKey
      [(Solver.opDup, []), (opHash160, []), (opcode, keyHash), (Solver.opEqualVerify, []), (opCheckSig, [])])
    (sized : keyHash.length = 20)
    (held : (store.getKey (BitVec.ofNat 160 (littleEndian keyHash))).isSome = true) (hash : UInt256) :
    ∃ values, Solves store signer nHashType scriptPubKey hash values := by
  obtain ⟨pubkey, sig, id, usable, kept, signs, signed⟩ := signsAll.sign1 held hash 0 []
  have answer := Solver.solver_of_template parses (.pubKeyHash sized)
  have size := (front_of_canonicalSignature signs.canonical).2.1
  have clean : scriptPubKey.findAndDelete (pushData sig) = scriptPubKey := by
    refine findAndDelete_other (by omega) parses ?_
    have other : keyHash ≠ sig := by
      rintro rfl
      exact absurd signs.long (by omega)
    simp only [List.forall_mem_cons, List.not_mem_nil, false_implies, implies_true, and_true]
    exact ⟨signs.ne_nil.symm, signs.ne_nil.symm, other, signs.ne_nil.symm, signs.ne_nil.symm⟩
  have limit : scriptPubKey.length ≤ 10000 := length_le_of_parses parses (by simp) (by
    simp [sized])
  have same := hash160_bytes sized ((id pubkey).mpr rfl)
  refine ⟨[sig, pubkey], ⟨.pubKeyHash, by decide, ?_⟩, fun ctx asks => ?_, ?_, by simp⟩
  · rw [CKeyStore.solver, answer]
    simp only [Bool.not_true, Bool.false_eq_true, if_false, List.head?_cons, Option.getD_some, signed, kept]
    rfl
  · have answers := @answers_pubKeyHash ctx scriptPubKey [] opcode keyHash pubkey sig parses limit sized
      (by rw [asks.scripts]; exact same) clean (by decide)
    rwa [accepts_of_signs asks signsAll.hashType usable signs] at answers
  · have length := (length_of_canonicalPubKey usable.canonical).2.1
    simp only [List.forall_mem_cons, List.not_mem_nil, false_implies, implies_true, and_true]
    exact ⟨size, by omega⟩

/-- The public keys stand between the two numbers. -/
theorem keys_of_multisig (first last : Bytes) (keys : List Bytes) :
    ((first :: keys ++ [last]).drop 1).dropLast = keys := by
  rw [List.cons_append, List.drop_succ_cons, List.drop_zero, List.dropLast_concat]

theorem SignsAll.solves_multisig (signsAll : store.SignsAll signer nHashType) {m n : Nat} {pushes : List Op}
    (parses : Parses scriptPubKey ((Solver.opN m, []) :: pushes ++ [(Solver.opN n, []), (opCheckMultiSig, [])]))
    (required : 1 ≤ m ∧ m ≤ n ∧ n ≤ 16) (all : pushes.length = n) (sized : ∀ push ∈ pushes, Solver.Sized push.2)
    (held : ∀ pubkey ∈ pushes.map Prod.snd, (store.getKey (crypto.hash160 pubkey)).isSome = true) (hash : UInt256) :
    ∃ values, Solves store signer nHashType scriptPubKey hash values := by
  have answer := Solver.solver_of_template parses (.multisig required all sized)
  have count : (UInt8.ofNat m).toNat = m := by
    rw [UInt8.toNat_ofNat']
    omega
  obtain ⟨sigs, each, run⟩ := signsAll.signNLoop hash m held 0 0 [0]
  rw [Nat.sub_zero, List.length_map, all, Nat.zero_add, Nat.min_eq_left required.2.1] at run
  rw [Nat.sub_zero] at each
  have signed : sigs.length = m := by
    rw [each.length_eq, List.length_take, List.length_map, all, Nat.min_eq_left required.2.1]
  obtain ⟨canonical, -⟩ := (List.forall₂_and_left (p := fun sig => isCanonicalSignature sig = true ∧ sig ≠
    []) sigs _).mp
    (each.imp fun sig pubkey good => ⟨⟨good.2.canonical, good.2.ne_nil⟩, good⟩)
  have size : ∀ sig ∈ sigs, sig.length ≤ 73 := fun sig member =>
    (front_of_canonicalSignature (canonical sig member).1).2.1
  have keys : ∀ push ∈ pushes, isCanonicalPubKey push.2 = true := by
    intro push member
    obtain ⟨pubkey, sig, id, usable, -⟩ := signsAll.sign1 (held push.2 (List.mem_map_of_mem member)) hash 0 []
    rw [(id push.2).mp rfl]
    exact usable.canonical
  have clean : ∀ sig ∈ sigs, scriptPubKey.findAndDelete (pushData sig) = scriptPubKey := by
    intro sig member
    obtain ⟨own, some_⟩ := canonical sig member
    refine findAndDelete_other ((size sig member).trans_lt (by decide)) parses fun op inside => ?_
    simp only [List.cons_append, List.mem_cons, List.mem_append, List.not_mem_nil, or_false] at inside
    rcases inside with rfl | inside | rfl | rfl
    · exact some_.symm
    · exact ne_of_canonical (keys op inside) own
    · exact some_.symm
    · exact some_.symm
  have limit : scriptPubKey.length ≤ 10000 := by
    refine length_le_of_parses parses (by simp; omega) fun op inside => ?_
    simp only [List.cons_append, List.mem_cons, List.mem_append, List.not_mem_nil, or_false] at inside
    rcases inside with rfl | inside | rfl | rfl
    · exact Nat.zero_le _
    · exact (sized op inside).2
    · exact Nat.zero_le _
    · exact Nat.zero_le _
  refine ⟨[] :: sigs, ⟨.multisig, by decide, ?_⟩, fun ctx asks => ?_, ?_, by rw [List.length_cons]; omega⟩
  · have middle := keys_of_multisig [UInt8.ofNat m] [UInt8.ofNat n] (pushes.map Prod.snd)
    rw [List.cons_append] at middle
    rw [CKeyStore.solver, answer]
    simp only [Bool.not_true, Bool.false_eq_true, if_false, CKeyStore.signN, middle, List.cons_append, List.head?_cons,
      Option.getD_some, count, run, pushAll_eq, List.flatMap_cons]
    exact Prod.ext (decide_eq_true trivial) rfl
  · have answers := @answers_multisig ctx scriptPubKey [] m n pushes sigs.reverse [] parses limit required all sized
      (by rw [List.length_reverse, signed]) (fun sig member => clean sig (List.mem_reverse.mp member)) (by simp)
    have accepted : Library.Assignment.greedy (ctx.accepts scriptPubKey) sigs.reverse (pushes.map Prod.snd).reverse =
        true := by
      refine Library.Assignment.greedy_iff.mpr (Library.Assignment.assignable_iff_sublist.mpr ⟨_,
        (List.take_sublist m (pushes.map Prod.snd)).reverse, List.forall₂_reverse_iff.mpr (each.imp ?_)⟩)
      exact fun sig pubkey good => accepts_of_signs asks signsAll.hashType good.1 good.2
    rw [accepted] at answers
    rwa [List.reverse_cons]
  · exact List.forall_mem_cons.mpr ⟨Nat.zero_le _, size⟩

/-- What is mine and no script hash is solved. -/
theorem SignsAll.solves (signsAll : store.SignsAll signer nHashType) (mine : store.IsMine scriptPubKey)
    (other : scriptPubKey.isPayToScriptHash = false) (hash : UInt256) :
    ∃ values, Solves store signer nHashType scriptPubKey hash values := by
  obtain ⟨fuel, mine⟩ := mine
  cases fuel with
  | zero => cases mine
  | succ fuel =>
      rcases answer : InfiniteRicks.solver scriptPubKey with ⟨solved, t, sols⟩
      rw [OwnerStore.isMine, answer] at mine
      cases solved with
      | false => cases mine
      | true =>
          obtain ⟨ops, parses, template⟩ := Solver.template_of_solver answer
          cases template with
          | pubKey sized => exact signsAll.solves_pubKey parses sized (Option.some.inj mine) hash
          | pubKeyHash sized => exact signsAll.solves_pubKeyHash parses sized (Option.some.inj mine) hash
          | scriptHash sized =>
              rw [Solver.isPayToScriptHash_iff.mpr ⟨_, parses⟩] at other
              cases other
          | @multisig m n pushes required all sized =>
              refine signsAll.solves_multisig parses required all sized (fun pubkey member => ?_) hash
              have every := of_decide_eq_true (Option.some.inj mine)
              rw [keys_of_multisig, OwnerStore.haveKeys, List.countP_eq_length] at every
              exact every pubkey member
          | nullData => cases mine

section Sign

variable {txTo : CTransaction} {nIn : Nat}

/-- The context in which `SignSignature` tests what it has signed. -/
theorem asks_signed (scriptSig code : CScript) {before : CTransaction} (same : SameUnsigned before txTo) :
    Asks crypto nHashType ⟨crypto.scripts, txTo.setScriptSig nIn scriptSig, nIn, 0⟩ code
      (signatureHash crypto.hash code before nIn nHashType) where
  scripts := rfl
  anyType := rfl
  hash := signatureHash_congr crypto.hash code nIn nHashType ((txTo.setScriptSig_same nIn scriptSig).trans same.symm)

theorem length_pushData_le (vch : Bytes) : (pushData vch).length ≤ vch.length + 5 := by
  unfold pushData
  split_ifs <;> simp only [List.length_cons] <;> omega

theorem length_pushes_le {values : List Bytes} (sizes : ∀ v ∈ values, v.length ≤ 73) :
    (values.flatMap pushData).length ≤ values.length * 78 := by
  induction values with
  | nil => exact le_rfl
  | cons v rest ih =>
      obtain ⟨own, others⟩ := List.forall_mem_cons.mp sizes
      have first := length_pushData_le v
      have later := ih others
      rw [List.flatMap_cons, List.length_append, List.length_cons]
      omega

/-- A script hash is mine where its redeem script is known and mine. -/
theorem IsMine.redeem (mine : store.IsMine scriptPubKey) (p2sh : scriptPubKey.isPayToScriptHash = true) :
    ∃ hash redeemScript, hash.length = 20 ∧ Parses scriptPubKey [(opHash160, []), (20, hash), (opEqual, [])] ∧
      store.getCScript (BitVec.ofNat 160 (littleEndian hash)) = some redeemScript ∧ store.IsMine redeemScript := by
  obtain ⟨hash, parses⟩ := Solver.isPayToScriptHash_iff.mp p2sh
  have sized := (Solver.parses_scriptHash.mp parses).1
  have answer := Solver.solver_of_template parses (.scriptHash sized)
  obtain ⟨fuel, mine⟩ := mine
  cases fuel with
  | zero => cases mine
  | succ fuel =>
      rw [OwnerStore.isMine_scriptHash answer] at mine
      cases known : store.getCScript (BitVec.ofNat 160 (littleEndian hash)) with
      | none =>
          have unknown : store.owner.getCScript (BitVec.ofNat 160 (littleEndian ([hash].head?.getD []))) = none := known
          rw [unknown] at mine
          cases mine
      | some redeemScript =>
          have found : store.owner.getCScript (BitVec.ofNat 160 (littleEndian ([hash].head?.getD []))) =
            some redeemScript := known
          rw [found] at mine
          exact ⟨hash, redeemScript, sized, parses, known, fuel, mine⟩

/-- For a script hash `Solver` says so, whether it knows the script or not. -/
theorem solver_scriptHash (store : CKeyStore crypto.toKeyCrypto) (signer : Signer) (nHashType : Int32)
    (p2sh : scriptPubKey.isPayToScriptHash = true) (hash : UInt256) :
    ∃ solved scriptSig, store.solver signer scriptPubKey hash nHashType = (solved, scriptSig, .scriptHash) := by
  obtain ⟨keyHash, parses⟩ := Solver.isPayToScriptHash_iff.mp p2sh
  have answer := Solver.solver_of_template parses (.scriptHash (Solver.parses_scriptHash.mp parses).1)
  rw [CKeyStore.solver, answer]
  simp only [Bool.not_true, Bool.false_eq_true, if_false, List.head?_cons, Option.getD_some]
  cases store.getCScript (BitVec.ofNat 160 (littleEndian keyHash)) with
  | none => exact ⟨_, _, rfl⟩
  | some redeemScript => exact ⟨_, _, rfl⟩

/-- With all keys at hand, `SignSignature` succeeds for what is mine, except where the redeem script is a script
hash. -/
theorem signSignature_mine_iff (signsAll : store.SignsAll signer nHashType) (mine : store.IsMine scriptPubKey)
    (txTo : CTransaction) (nIn : Nat) :
    (store.signSignature signer scriptPubKey txTo nIn nHashType).1 = true ↔ store.RedeemsFlat scriptPubKey := by
  by_cases p2sh : scriptPubKey.isPayToScriptHash = true
  · obtain ⟨keyHash, redeemScript, sized, parses, known, own⟩ := mine.redeem p2sh
    have answer := Solver.solver_of_template parses (.scriptHash sized)
    have written : (scriptPubKey.drop 2).take 20 = keyHash := by
      rw [InfiniteRicks.solver, if_pos p2sh] at answer
      simpa using answer
    have flat : store.RedeemsFlat scriptPubKey ↔ redeemScript.isPayToScriptHash = false := by
      rw [RedeemsFlat, written]
      constructor
      · exact fun flat => flat p2sh redeemScript known
      · intro other _ redeemScript' known'
        rw [known] at known'
        rwa [← Option.some.inj known']
    rw [flat]
    have outer : ∀ hash, store.solver signer scriptPubKey hash nHashType = (true, redeemScript, .scriptHash) := by
      intro hash
      rw [CKeyStore.solver, answer]
      simp only [Bool.not_true, Bool.false_eq_true, if_false, List.head?_cons, Option.getD_some, known]
    by_cases nested : redeemScript.isPayToScriptHash = true
    · rw [nested]
      refine iff_of_false ?_ (by decide)
      obtain ⟨solved, scriptSig, inner⟩ := store.solver_scriptHash signer nHashType nested
        (signatureHash crypto.hash redeemScript (txTo.setScriptSig nIn redeemScript) nIn nHashType)
      rw [signSignature, signedScript, outer]
      dsimp only
      rw [inner]
      simp
    · refine iff_of_true ?_ (Bool.eq_false_iff.mpr nested)
      obtain ⟨same, size⟩ := signsAll.scripts _ redeemScript known
      obtain ⟨values, ⟨t, plain, solved⟩, answers, sizes, few⟩ := signsAll.solves own (Bool.eq_false_iff.mpr nested)
        (signatureHash crypto.hash redeemScript (txTo.setScriptSig nIn redeemScript) nIn nHashType)
      have built : CScript.pushAll values ++ pushData redeemScript = CScript.pushAll (values ++ [redeemScript]) := by
        rw [pushAll_eq, pushAll_eq, List.flatMap_append, List.flatMap_singleton]
      have signed : store.signedScript signer scriptPubKey txTo nIn nHashType =
          (true, CScript.pushAll (values ++ [redeemScript])) := by
        rw [signedScript, outer]
        dsimp only
        rw [solved]
        dsimp only
        rw [built, decide_eq_true plain]
        rfl
      rw [signSignature, signed]
      have small := length_pushes_le sizes
      have last := length_pushData_le redeemScript
      refine Bool.and_eq_true_iff.mpr ⟨rfl, verifyScript_redeem ⟨?_, ?_, ?_⟩ parses
        (hash160_bytes sized same) (answers _ (asks_signed _ _ (txTo.setScriptSig_same nIn redeemScript)))⟩
      · refine List.forall_mem_append.mpr ⟨fun v member => (sizes v member).trans (by decide), ?_⟩
        exact List.forall_mem_singleton.mpr size
      · rw [List.length_append, List.length_singleton]
        omega
      · rw [← built, pushAll_eq, List.length_append]
        rw [maxScriptElementSize] at size
        omega
  · have other := Bool.eq_false_iff.mpr p2sh
    refine iff_of_true ?_ ?_
    · obtain ⟨values, ⟨t, plain, solved⟩, answers, sizes, few⟩ :=
        signsAll.solves mine other (signatureHash crypto.hash scriptPubKey txTo nIn nHashType)
      have signed : store.signedScript signer scriptPubKey txTo nIn nHashType = (true, CScript.pushAll values) := by
        rw [signedScript, solved]
        cases t with
        | scriptHash => exact absurd rfl plain
        | _ => rfl
      rw [signSignature, signed]
      have small := length_pushes_le sizes
      refine Bool.and_eq_true_iff.mpr ⟨rfl, verifyScript_standard ⟨fun v member =>
        (sizes v member).trans (by decide), by omega, ?_⟩ other (answers _ (asks_signed _ _ (.refl txTo)))⟩
      rw [pushAll_eq]
      omega
    · exact fun yes => absurd yes p2sh

end Sign

end CKeyStore

section Concrete

/-- The public key of the secret 7, a script that pays to it, a script that pays to the hash 2 of that one, and one
that pays to the hash 3 of the second. -/
def ownPubKey : Bytes := 2 :: sampleSecret

def ownScript : CScript := pushData ownPubKey ++ [opCheckSig]

def payToHash (scriptID : BitVec 160) : CScript := opHash160 :: 20 :: (littleEndianBytes 20 scriptID.toNat ++ [opEqual])

/-- Ids for the key and the scripts; every signature verifies. -/
def ownCrypto : SignCrypto where
  toKeyCrypto := { KeyCrypto.sample with
    hash160 := fun vch => if vch = ownPubKey then 1 else if vch = ownScript then 2 else if vch =
      payToHash 2 then 3 else 0 }
  ripemd160 _ := 0
  sha1 _ := 0
  sha256 _ := 0
  verify _ _ _ := true

/-- A key store with the key and both redeem scripts. -/
def ownStore : CKeyStore ownCrypto.toKeyCrypto where
  getKey keyID := if keyID = 1 then some ⟨some sampleSecret, some sampleSecret, true, true, true⟩ else none
  getCScript scriptID := if scriptID = 2 then some ownScript else if scriptID = 3 then some (payToHash 2) else none

/-- A signature that does not depend on what is signed. -/
def ownSigner : Signer := fun _ _ _ =>
  some ([0x30, 24, 2, 10] ++ List.replicate 10 1 ++ [2, 10] ++ List.replicate 10 1)

theorem ownStore_signsAll : ownStore.SignsAll ownSigner 1 where
  hashType := by decide
  keys keyID key found := by
    simp only [ownStore] at found
    split_ifs at found with own
    obtain rfl := Option.some.inj found
    refine ⟨ownPubKey, sampleSecret, rfl, rfl, fun other => ?_, ⟨by decide +kernel, rfl⟩, fun _ _ => ⟨_, rfl, ?_⟩⟩
    · rw [own]
      simp only [ownCrypto]
      split_ifs with first second third
      · exact iff_of_true rfl first
      · exact iff_of_false (by decide) first
      · exact iff_of_false (by decide) first
      · exact iff_of_false (by decide) first
    · exact ⟨by decide +kernel, by decide, rfl, by decide⟩
  scripts scriptID redeemScript known := by
    simp only [ownStore] at known
    split_ifs at known with two three
    · obtain rfl := Option.some.inj known
      rw [two]
      exact ⟨by decide +kernel, by decide⟩
    · obtain rfl := Option.some.inj known
      rw [three]
      exact ⟨by decide +kernel, by decide⟩

/-- A script hash of a script hash is mine and is not signed. -/
theorem signSignature_mine_nested :
    ¬∀ (crypto : SignCrypto) (store : CKeyStore crypto.toKeyCrypto) (signer : Signer) (nHashType : Int32)
      (scriptPubKey : CScript) (txTo : CTransaction) (nIn : Nat), store.SignsAll signer nHashType →
      store.IsMine scriptPubKey → (store.signSignature signer scriptPubKey txTo nIn nHashType).1 = true := by
  intro claimed
  have signed := claimed ownCrypto ownStore ownSigner 1 (payToHash 3) sampleTx 0 ownStore_signsAll ⟨3,
    by decide +kernel⟩
  revert signed
  decide +kernel

theorem signSignature_mine_iff_single : (ownStore.signSignature ownSigner (payToHash 2) sampleTx 0 1).1 = true := by
  refine (CKeyStore.signSignature_mine_iff ownStore_signsAll ⟨2,
    by decide +kernel⟩ sampleTx 0).mpr fun _ redeem known => ?_
  have found : ownStore.getCScript (BitVec.ofNat 160 (littleEndian (((payToHash 2).drop 2).take 20))) =
    some ownScript := by
    decide +kernel
  obtain rfl := Option.some.inj (found.symm.trans known)
  decide +kernel

end Concrete

end InfiniteRicks
