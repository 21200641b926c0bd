import InfiniteRicks.Solver
import InfiniteRicks.WalletCoins

/-!
# Whose a script is

`ExtractDestination` and `IsMine` of a destination and of a script (`script.cpp`), with what they ask of a
`CKeyStore`. A destination of a redeem script is the wallet's where the script is known; the script that pays to it is
the wallet's where the redeem script is.
-/

namespace InfiniteRicks

/-- What `IsMine` asks of a key store, and the hash that is the id of a public key. -/
structure OwnerStore where
  hash160 : Bytes → BitVec 160
  haveKey : BitVec 160 → Bool
  getCScript : BitVec 160 → Option CScript

namespace OwnerStore

variable (store : OwnerStore)

/-- `HaveKeys`. -/
def haveKeys (pubkeys : List Bytes) : Nat := pubkeys.countP fun pubkey => store.haveKey (store.hash160 pubkey)

/-- `IsMine` of a destination. -/
def isMineDestination : CTxDestination → Bool
  | .none => false
  | .keyID keyID => store.haveKey keyID
  | .scriptID scriptID => (store.getCScript scriptID).isSome

/-- `ExtractDestination`. -/
def extractDestination (scriptPubKey : CScript) : Option CTxDestination :=
  let (solved, whichType, vSolutions) := solver scriptPubKey
  let front := vSolutions.head?.getD []
  if !solved then none
  else
    match whichType with
    | .pubKey => some (.keyID (store.hash160 front))
    | .pubKeyHash => some (.keyID (BitVec.ofNat 160 (CScript.littleEndian front)))
    | .scriptHash => some (.scriptID (BitVec.ofNat 160 (CScript.littleEndian front)))
    | .nonstandard | .multisig | .nullData => none

/-- `IsMine` of a script, where the recursion over redeem scripts ends within the fuel. -/
def isMine : Nat → CScript → Option Bool
  | 0, _ => none
  | fuel + 1, scriptPubKey =>
      let (solved, whichType, vSolutions) := solver scriptPubKey
      let front := vSolutions.head?.getD []
      if !solved then some false
      else
        match whichType with
        | .nonstandard | .nullData => some false
        | .pubKey => some (store.haveKey (store.hash160 front))
        | .pubKeyHash => some (store.haveKey (BitVec.ofNat 160 (CScript.littleEndian front)))
        | .scriptHash =>
            match store.getCScript (BitVec.ofNat 160 (CScript.littleEndian front)) with
            | none => some false
            | some subscript => isMine fuel subscript
        | .multisig =>
            let keys := (vSolutions.drop 1).dropLast
            some (decide (store.haveKeys keys = keys.length))

/-- The functions of a wallet with this key store; a recursion that does not end in the fuel counts as not mine. -/
def walletKeys (fuel : Nat) (nMinimumInputValue : Int64) : WalletKeys where
  isMine scriptPubKey := (store.isMine fuel scriptPubKey).getD false
  extractDestination := store.extractDestination
  isMineDestination := store.isMineDestination
  nMinimumInputValue := nMinimumInputValue

/-- A wallet has this key store, in which `IsMine` returns for every script. -/
structure Describes (keys : WalletKeys) : Prop where
  isMine : ∀ scriptPubKey, ∃ fuel, store.isMine fuel scriptPubKey = some (keys.isMine scriptPubKey)
  extractDestination : keys.extractDestination = store.extractDestination
  isMineDestination : keys.isMineDestination = store.isMineDestination

variable {store}

/-- No template is a payment to a script. -/
theorem solver_ne_scriptHash {scriptPubKey : CScript} (other : scriptPubKey.isPayToScriptHash = false) :
    (solver scriptPubKey).2.1 ≠ .scriptHash := by
  rw [solver, if_neg (Bool.eq_false_iff.mp other)]
  dsimp only
  split
  · exact TxnOutType.noConfusion
  · rename_i found
    obtain ⟨tplate, member, fits⟩ := List.exists_of_findSome?_eq_some found
    obtain ⟨_, -, same⟩ := Option.map_eq_some_iff.mp fits
    cases same
    have templates : ∀ tplate ∈ Solver.mTemplates, tplate.1 ≠ .scriptHash := by decide
    exact templates tplate member

/-- What `IsMine` says of a script that pays to a redeem script. -/
theorem isMine_scriptHash {fuel : Nat} {scriptPubKey : CScript} {vSolutions : List Bytes}
    (answer : solver scriptPubKey = (true, .scriptHash, vSolutions)) :
    store.isMine (fuel + 1) scriptPubKey =
      match store.getCScript (BitVec.ofNat 160 (CScript.littleEndian (vSolutions.head?.getD []))) with
      | none => some false
      | some subscript => store.isMine fuel subscript := by
  rw [isMine, answer]
  rfl

/-- Of other scripts, for which nothing is recursive. -/
theorem isMine_other {scriptPubKey : CScript} (other : (solver scriptPubKey).2.1 ≠ .scriptHash) (fuel more : Nat) :
    store.isMine (fuel + 1) scriptPubKey = store.isMine (more + 1) scriptPubKey := by
  rcases answer : solver scriptPubKey with ⟨solved, whichType, vSolutions⟩
  rw [answer] at other
  rw [isMine, isMine, answer]
  cases solved with
  | false => rfl
  | true =>
      cases whichType with
      | scriptHash => exact absurd rfl other
      | _ => rfl

theorem isMine_succ {fuel : Nat} {scriptPubKey : CScript} {mine : Bool}
    (returned : store.isMine fuel scriptPubKey = some mine) : store.isMine (fuel + 1) scriptPubKey = some mine := by
  induction fuel generalizing scriptPubKey with
  | zero => cases returned
  | succ fuel ih =>
      by_cases other : (solver scriptPubKey).2.1 = .scriptHash
      · rcases answer : solver scriptPubKey with ⟨solved, whichType, vSolutions⟩
        rw [answer] at other
        obtain rfl : whichType = .scriptHash := other
        cases solved with
        | false =>
            rw [isMine, answer] at returned ⊢
            exact returned
        | true =>
            rw [isMine_scriptHash answer] at returned ⊢
            split at returned
            · exact returned
            · exact ih returned
      · rw [isMine_other other (fuel + 1) fuel]
        exact returned

theorem isMine_unique {fuel more : Nat} {scriptPubKey : CScript} {mine other : Bool}
    (first : store.isMine fuel scriptPubKey = some mine) (second : store.isMine more scriptPubKey = some other) :
    mine = other := by
  have longer : ∀ extra, store.isMine (fuel + extra) scriptPubKey = some mine := fun extra => by
    induction extra with
    | zero => exact first
    | succ extra ih => exact isMine_succ ih
  have longer' : ∀ extra, store.isMine (more + extra) scriptPubKey = some other := fun extra => by
    induction extra with
    | zero => exact second
    | succ extra ih => exact isMine_succ ih
  have both := longer' fuel
  rw [Nat.add_comm, longer more] at both
  exact Option.some.inj both

/-- The recursion is one redeem script deep, where none pays to another one. -/
theorem isMine_flat (flat : ∀ scriptID subscript, store.getCScript scriptID = some subscript →
    CScript.isPayToScriptHash subscript = false) (scriptPubKey : CScript) : (store.isMine 2 scriptPubKey).isSome := by
  have ends : ∀ scriptPubKey, (solver scriptPubKey).2.1 ≠ .scriptHash → (store.isMine 1 scriptPubKey).isSome := by
    intro scriptPubKey other
    rcases answer : solver scriptPubKey with ⟨solved, whichType, vSolutions⟩
    rw [answer] at other
    rw [isMine, answer]
    cases solved with
    | false => rfl
    | true =>
        cases whichType with
        | scriptHash => exact absurd rfl other
        | _ => rfl
  by_cases other : (solver scriptPubKey).2.1 = .scriptHash
  · rcases answer : solver scriptPubKey with ⟨solved, whichType, vSolutions⟩
    rw [answer] at other
    obtain rfl : whichType = .scriptHash := other
    cases solved with
    | false =>
        rw [isMine, answer]
        rfl
    | true =>
        rw [isMine_scriptHash answer]
        split
        · rfl
        · rename_i subscript known
          exact ends subscript (solver_ne_scriptHash (flat _ subscript known))
  · rw [isMine_other other 1 0]
    exact ends scriptPubKey other

theorem describes_walletKeys {fuel : Nat} (ends : ∀ scriptPubKey, (store.isMine fuel scriptPubKey).isSome)
    (nMinimumInputValue : Int64) : store.Describes (store.walletKeys fuel nMinimumInputValue) where
  isMine scriptPubKey := by
    obtain ⟨mine, answer⟩ := Option.isSome_iff_exists.mp (ends scriptPubKey)
    refine ⟨fuel, ?_⟩
    show _ = some ((store.isMine fuel scriptPubKey).getD false)
    rw [answer]
    rfl
  extractDestination := rfl
  isMineDestination := rfl

/-- The empty script is nobody's. -/
theorem Describes.isMine_empty {keys : WalletKeys} (describes : store.Describes keys) : keys.isMine [] = false := by
  obtain ⟨fuel, mine⟩ := describes.isMine []
  cases fuel with
  | zero => cases mine
  | succ fuel => exact (Option.some.inj mine).symm

/-- Only a payment to a redeem script that is known and is not the wallet's own has a destination of the wallet and is
not the wallet's. -/
theorem Describes.known_not_mine_iff {keys : WalletKeys} (describes : store.Describes keys) {scriptPubKey : CScript}
    {address : CTxDestination} (found : store.extractDestination scriptPubKey = some address) :
    store.isMineDestination address = true ∧ keys.isMine scriptPubKey = false ↔
      ∃ scriptID subscript, address = .scriptID scriptID ∧ store.getCScript scriptID = some subscript ∧
        keys.isMine subscript = false := by
  obtain ⟨fuel, mine⟩ := describes.isMine scriptPubKey
  have deeper := isMine_succ mine
  rw [OwnerStore.extractDestination] at found
  rcases answer : solver scriptPubKey with ⟨solved, whichType, vSolutions⟩
  rw [answer] at found
  simp only at found
  cases solved with
  | false => cases found
  | true =>
      have key : ∀ keyID, keys.isMine scriptPubKey = store.haveKey keyID → address = .keyID keyID →
          (store.isMineDestination address = true ∧ keys.isMine scriptPubKey = false ↔
            ∃ scriptID subscript, address = .scriptID scriptID ∧ store.getCScript scriptID = some subscript ∧
              keys.isMine subscript = false) := by
        rintro keyID same rfl
        rw [same]
        constructor
        · rintro ⟨have_, lacks⟩
          exact absurd (have_.symm.trans lacks) (by decide)
        · rintro ⟨scriptID, subscript, wrong, -⟩
          cases wrong
      cases whichType with
      | nonstandard | multisig | nullData => cases found
      | pubKey | pubKeyHash =>
          rw [OwnerStore.isMine, answer] at deeper
          exact key _ (Option.some.inj deeper).symm (Option.some.inj found).symm
      | scriptHash =>
          obtain rfl := (Option.some.inj found).symm
          rw [isMine_scriptHash answer] at deeper
          rw [OwnerStore.isMineDestination]
          cases known : store.getCScript (BitVec.ofNat 160 (CScript.littleEndian (vSolutions.head?.getD []))) with
          | none =>
              constructor
              · rintro ⟨wrong, -⟩
                cases wrong
              · rintro ⟨scriptID, subscript, same, there, -⟩
                rw [← CTxDestination.scriptID.inj same, known] at there
                cases there
          | some subscript =>
              rw [known] at deeper
              obtain ⟨more, own⟩ := describes.isMine subscript
              have same : keys.isMine subscript = keys.isMine scriptPubKey := isMine_unique own deeper
              constructor
              · rintro ⟨-, lacks⟩
                exact ⟨_, subscript, rfl, known, same.trans lacks⟩
              · rintro ⟨scriptID, other, here, there, lacks⟩
                rw [← CTxDestination.scriptID.inj here, known] at there
                rw [← Option.some.inj there, same] at lacks
                exact ⟨rfl, lacks⟩

end OwnerStore

end InfiniteRicks
