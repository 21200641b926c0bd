import InfiniteRicks.Depth
import InfiniteRicks.SpentFlags
import InfiniteRicks.Wallet

/-!
# Confirmations of wallet transactions

A wallet transaction names one block. A notification with a block moves it there, one
without a block leaves it where it is, and a disconnection is not told to it at all. The
name is still right: transaction ids are fresh when a block is connected, so the last
notification of a transaction on the main chain came from the block that contains it.
-/

namespace InfiniteRicks

/-- What a wallet transaction says about its block. -/
structure TxPlace where
  tx : CTransaction
  hashBlock : UInt256
  vMerkleBranch : List UInt256
  nIndex : Int32
deriving DecidableEq

/-- The `CMerkleTx` in a wallet transaction. -/
def CWalletTx.place (wtx : CWalletTx) : TxPlace := ⟨wtx.tx, wtx.hashBlock, wtx.vMerkleBranch, wtx.nIndex⟩

namespace WalletCoins

section Notices

variable (env : Env) (keys : WalletKeys)

/-- `IsFromMe`. -/
def isFromMe (w : WalletCoins) (tx : CTransaction) : Option Bool :=
  (w.getDebitTx keys tx).map fun nDebit => decide (0 < nDebit)

/-- One input in `DisableTransaction`. -/
def disableInput (w : WalletCoins) (txin : CTxIn) : Except WalletCoins WalletCoins :=
  match w.mapWallet txin.prevout.hash with
  | none => .ok w
  | some prev =>
      match prev.tx.vout[txin.prevout.n.toNat]? with
      | none => .ok w
      | some txout =>
          if keys.isMine txout.scriptPubKey then
            match prev.markUnspent txin.prevout.n.toNat with
            | some prev => .ok (w.set txin.prevout.hash prev)
            | none => .error w
          else .ok w

/-- `DisableTransaction`. -/
def disableTransaction (w : WalletCoins) (tx : CTransaction) : Except WalletCoins WalletCoins :=
  if tx.isCoinStake then
    match w.isFromMe keys tx with
    | none => .error w
    | some false => .ok w
    | some true => tx.vin.foldlM (disableInput keys) w
  else .ok w

/-- `SyncWithWallets`, for one wallet. -/
def syncWithWallets (poolKeys : List (BitVec 160)) (w : WalletCoins) (tx : CTransaction) (pblock : Option CBlock)
    (fUpdate fConnect : Bool) : Except WalletCoins WalletCoins :=
  if fConnect then w.addToWalletIfInvolvingMe env keys poolKeys tx pblock fUpdate
  else if tx.isCoinStake then
    match w.isFromMe keys tx with
    | none => .error w
    | some false => .ok w
    | some true => w.disableTransaction keys tx
  else .ok w

end Notices

/-! ## What changes the place of a transaction -/

/-- The transactions are the same, and in the same places. -/
def SamePlaces (before after : WalletCoins) : Prop :=
  ∀ hash, (after.mapWallet hash).map CWalletTx.place = (before.mapWallet hash).map CWalletTx.place

theorem SamePlaces.refl (w : WalletCoins) : SamePlaces w w := fun _ => rfl

theorem SamePlaces.trans {first second third : WalletCoins} (left : SamePlaces first second)
    (right : SamePlaces second third) : SamePlaces first third := fun hash => (right hash).trans (left hash)

theorem SamePlaces.set {w : WalletCoins} {hash : UInt256} {wtx after : CWalletTx}
    (found : w.mapWallet hash = some wtx) (same : after.place = wtx.place) : SamePlaces w (w.set hash after) := by
  intro other
  rw [mapWallet_set]
  split
  · rename_i here
    rw [here, found, Option.map_some, Option.map_some, same]
  · rfl

section Marks

variable {env : Env} {keys : WalletKeys} {w before : WalletCoins}

theorem place_setSpent {wtx after : CWalletTx} {nOut : Nat} {fSpent : Bool}
    (marked : wtx.setSpent nOut fSpent = some after) : after.place = wtx.place := by
  unfold CWalletTx.setSpent at marked
  split at marked
  · cases marked
  · split at marked <;> (rw [← Option.some.inj marked]; rfl)

theorem place_getCredit (w : WalletCoins) (wtx : CWalletTx) (fUseCache : Bool) :
    (w.getCredit keys wtx fUseCache).2.place = wtx.place := by
  unfold getCredit
  split
  · rfl
  · split
    · rfl
    · split <;> rfl

theorem spendInput_places (txin : CTxIn) (same : SamePlaces before w) :
    SamePlaces before (resultState (spendInput keys w txin)) := by
  unfold spendInput
  cases found : w.mapWallet txin.prevout.hash with
  | none => exact same
  | some wtx =>
      dsimp only
      split
      · exact same
      · split
        · have asked := @place_getCredit keys w wtx true
          generalize w.getCredit keys wtx true = result at asked ⊢
          obtain ⟨_ | nCredit, wtx'⟩ := result
          · exact same.trans (.set found asked)
          · dsimp only
            cases marked : wtx'.markSpent txin.prevout.n.toNat with
            | none => exact same.trans (.set found asked)
            | some after => exact same.trans (.set found ((place_setSpent marked).trans asked))
        · exact same

theorem unspendOutput_places (hash : UInt256) (entry : CTxOut × Nat) (same : SamePlaces before w) :
    SamePlaces before (resultState (unspendOutput keys hash w entry)) := by
  unfold unspendOutput
  split
  · cases found : w.mapWallet hash with
    | none => exact same
    | some wtx =>
        rw [Option.bind_some]
        cases marked : wtx.markUnspent entry.2 with
        | none => exact same
        | some after => exact same.trans (.set found (place_setSpent marked))
  · exact same

theorem walletUpdateSpent_places (w : WalletCoins) (tx : CTransaction) (fBlock : Bool) :
    SamePlaces w (resultState (w.walletUpdateSpent env keys tx fBlock)) := by
  have spends := @resultState_foldlM _ _ (spendInput keys) (SamePlaces w) (fun _ txin => spendInput_places txin)
    tx.vin w (.refl w)
  unfold walletUpdateSpent
  cases result : tx.vin.foldlM (spendInput keys) w with
  | error w' =>
      rw [result] at spends
      exact spends
  | ok w' =>
      rw [result] at spends
      cases fBlock with
      | false => exact spends
      | true =>
          exact @resultState_foldlM _ _ (unspendOutput keys (env.txHash tx)) (SamePlaces w)
            (fun _ entry => unspendOutput_places (env.txHash tx) entry) tx.vout.zipIdx w' spends

theorem disableInput_places (txin : CTxIn) (same : SamePlaces before w) :
    SamePlaces before (resultState (disableInput keys w txin)) := by
  unfold disableInput
  cases found : w.mapWallet txin.prevout.hash with
  | none => exact same
  | some prev =>
      dsimp only
      split
      · exact same
      · split
        · cases marked : prev.markUnspent txin.prevout.n.toNat with
          | none => exact same
          | some after => exact same.trans (.set found (place_setSpent marked))
        · exact same

theorem disableTransaction_places (w : WalletCoins) (tx : CTransaction) :
    SamePlaces w (resultState (w.disableTransaction keys tx)) := by
  unfold disableTransaction
  split
  · split
    · exact .refl w
    · exact .refl w
    · exact @resultState_foldlM _ _ (disableInput keys) (SamePlaces w) (fun _ txin => disableInput_places txin)
        tx.vin w (.refl w)
  · exact .refl w

end Marks

section Additions

variable {env : Env} {keys : WalletKeys} {w after : WalletCoins} {poolKeys : List (BitVec 160)}

theorem addToWallet_places (w : WalletCoins) (wtxIn : CWalletTx) :
    SamePlaces (w.set (env.txHash wtxIn.tx) (w.added env wtxIn))
      (resultState (w.addToWallet env keys poolKeys wtxIn)) := by
  unfold addToWallet
  refine SamePlaces.trans ?_ (walletUpdateSpent_places _ _ _)
  intro hash
  split
  · rw [replaceDefaultKey_mapWallet]
  · rfl

/-- A notification adds or merges the transaction, or the wallet does not have it. -/
theorem addToWalletIfInvolvingMe_places (w : WalletCoins) (tx : CTransaction) (pblock : Option CBlock) :
    SamePlaces (w.set (env.txHash tx) (w.added env (CWalletTx.ofBlock env tx pblock)))
        (resultState (w.addToWalletIfInvolvingMe env keys poolKeys tx pblock true)) ∨
      w.mapWallet (env.txHash tx) = none ∧
        SamePlaces w (resultState (w.addToWalletIfInvolvingMe env keys poolKeys tx pblock true)) := by
  have sameTx : (CWalletTx.ofBlock env tx pblock).tx = tx := by
    cases pblock with
    | none => rfl
    | some block =>
        rw [CWalletTx.ofBlock, CWalletTx.setMerkleBranch]
        split <;> rfl
  have added := @addToWallet_places env keys poolKeys w
    (CWalletTx.ofBlock env tx pblock)
  rw [sameTx] at added
  unfold addToWalletIfInvolvingMe
  dsimp only
  rw [Bool.not_true, Bool.and_false, if_neg Bool.false_ne_true]
  split
  · exact .inl added
  · rename_i foreign
    have absent : w.mapWallet (env.txHash tx) = none := by
      rw [Bool.or_eq_true, not_or, Bool.not_eq_true, Option.isSome_eq_false_iff, Option.isNone_iff_eq_none] at foreign
      exact foreign.1
    split
    · exact .inr ⟨absent, .refl w⟩
    · split
      · exact .inl added
      · exact .inr ⟨absent, walletUpdateSpent_places _ _ _⟩

/-- A notification without a block puts a transaction nowhere, or leaves it in its place. -/
theorem place_added_loose (w : WalletCoins) (tx : CTransaction) :
    (w.added env (CWalletTx.ofTx tx)).place =
      ((w.mapWallet (env.txHash tx)).map CWalletTx.place).getD ⟨tx, 0, [], -1⟩ := by
  unfold added
  change (match w.mapWallet (env.txHash tx) with
    | none => (CWalletTx.ofTx tx).markDirty
    | some wtx => wtx.markDirty.merge (CWalletTx.ofTx tx)).place = _
  cases w.mapWallet (env.txHash tx) with
  | none => rfl
  | some wtx => rfl

/-- A merge with a transaction in a block takes over its place. -/
theorem place_merge {wtx wtxIn : CWalletTx} (real : wtxIn.hashBlock ≠ 0) (indexed : wtxIn.nIndex ≠ -1) :
    (wtx.merge wtxIn).place = ⟨wtx.tx, wtxIn.hashBlock, wtxIn.vMerkleBranch, wtxIn.nIndex⟩ := by
  have hashes : (wtx.merge wtxIn).hashBlock = wtxIn.hashBlock := by
    unfold CWalletTx.merge CWalletTx.updateSpent
    dsimp only
    split_ifs <;> simp_all
  have branches : (wtx.merge wtxIn).vMerkleBranch = wtxIn.vMerkleBranch ∧
      (wtx.merge wtxIn).nIndex = wtxIn.nIndex := by
    unfold CWalletTx.merge CWalletTx.updateSpent
    dsimp only
    split_ifs <;> simp_all
  rw [CWalletTx.place, (CWalletTx.merge_spec wtx wtxIn).1, hashes, branches.1, branches.2]

/-- The index of a transaction in a block is not the mark for having none. -/
theorem toInt_ofNat_idxOf {tx : CTransaction} {block : CBlock} (inside : tx ∈ block.vtx)
    (short : block.vtx.length ≤ maxBlockSize) :
    (Int32.ofNat (block.vtx.idxOf tx)).toInt = block.vtx.idxOf tx := by
  have below := List.idxOf_lt_length_of_mem inside
  rw [maxBlockSize] at short
  exact Int32.toInt_ofNat_of_lt (by omega)

theorem ofNat_idxOf_ne {tx : CTransaction} {block : CBlock} (inside : tx ∈ block.vtx)
    (short : block.vtx.length ≤ maxBlockSize) : Int32.ofNat (block.vtx.idxOf tx) ≠ -1 := by
  intro minus
  have value := toInt_ofNat_idxOf inside short
  rw [minus, show (-1 : Int32).toInt = -1 from rfl] at value
  omega

/-- A notification with the block puts the transaction into it. -/
theorem place_added_block (w : WalletCoins) {tx : CTransaction} {block : CBlock} (inside : tx ∈ block.vtx)
    (real : block.getHash env ≠ 0) (short : block.vtx.length ≤ maxBlockSize) :
    (w.added env (CWalletTx.ofBlock env tx (some block))).place =
      ⟨((w.mapWallet (env.txHash tx)).map CWalletTx.tx).getD tx, block.getHash env,
        block.getMerkleBranch env (block.vtx.idxOf tx), Int32.ofNat (block.vtx.idxOf tx)⟩ := by
  have found : CWalletTx.ofBlock env tx (some block) =
      { CWalletTx.ofTx tx with
        hashBlock := block.getHash env
        nIndex := Int32.ofNat (block.vtx.idxOf tx)
        vMerkleBranch := block.getMerkleBranch env (block.vtx.idxOf tx) } := by
    rw [CWalletTx.ofBlock, CWalletTx.setMerkleBranch]
    exact if_pos inside
  rw [found, added]
  dsimp only [CWalletTx.ofTx]
  cases w.mapWallet (env.txHash tx) with
  | none => rfl
  | some wtx => exact place_merge real (ofNat_idxOf_ne inside short)

end Additions

end WalletCoins

/-! ## Places on the main chain -/

open WalletCoins Ledger

/-- `SyncWithWallets` calls one after another, with what `AddToWallet` takes from the key pool. -/
inductive Synced (env : Env) (keys : WalletKeys) : List WalletNotice → WalletCoins → WalletCoins → Prop
  | nil {w} : Synced env keys [] w w
  | cons {notice rest w middle after} (poolKeys : List (BitVec 160))
      (first : w.syncWithWallets env keys poolKeys notice.tx (some notice.pblock) notice.fUpdate notice.fConnect =
        .ok middle)
      (later : Synced env keys rest middle after) : Synced env keys (notice :: rest) w after

theorem Synced.split {env : Env} {keys : WalletKeys} {first second : List WalletNotice} {w after : WalletCoins}
    (synced : Synced env keys (first ++ second) w after) :
    ∃ middle, Synced env keys first w middle ∧ Synced env keys second middle after := by
  induction first generalizing w with
  | nil => exact ⟨w, .nil, synced⟩
  | cons notice rest ih =>
      cases synced with
      | cons poolKeys step later =>
          obtain ⟨middle, front, back⟩ := ih later
          exact ⟨middle, .cons poolKeys step front, back⟩

/-- Every block of the tree has passed `AcceptBlock`, its entry has its Merkle root, and its hash is not the one that
stands for no block. The coinbase of genesis starts with a zero, as no height does. -/
structure AcceptedTree {env : Env} (tree : BlockTree env) (U : Set CTransaction) : Prop where
  admits : Admits tree (HeightRule U)
  merkleRoot : ∀ {entry pprev}, tree.mem (entry :: pprev) → entry.hashMerkleRoot = (tree.block entry).hashMerkleRoot
  real : ∀ {entry pprev}, tree.mem (entry :: pprev) → entry.hash ≠ 0
  bottom : tree.genesis.nHeight = 0
  genesisCoinBase : ∀ tx ∈ (tree.block tree.genesis).vtx, tx.isCoinBase = true ∧
    ∀ txin ∈ tx.vin, txin.scriptSig.head? = some 0

/-- The place is in the block, with a branch that proves it. -/
structure TxPlace.InBlock (env : Env) (place : TxPlace) (block : CBlock) : Prop where
  inside : place.tx ∈ block.vtx
  indexed : place.nIndex ≠ -1
  proven : CBlock.checkMerkleBranch env (env.txHash place.tx) place.vMerkleBranch place.nIndex.toInt =
    block.hashMerkleRoot

/-- A transaction of the wallet names a block that contains it, or none, and names the block of a chain that
contains it. -/
structure Located {env : Env} (tree : BlockTree env) (U : Set CTransaction) (pindex : BlockPtr) (hash : UInt256)
    (place : TxPlace) : Prop where
  keyed : env.txHash place.tx = hash
  known : place.tx ∈ U
  origin : place.hashBlock = 0 ∨ ∃ entry pprev, tree.mem (entry :: pprev) ∧ place.hashBlock = entry.hash ∧
    place.InBlock env (tree.block entry)
  latest : ∀ entry ∈ pindex, place.tx ∈ (tree.block entry).vtx → place.hashBlock = entry.hash

/-- All transactions of the wallet are located, and those that have arrived are in the block. -/
def Arriving {env : Env} (tree : BlockTree env) (U : Set CTransaction) (pindex : BlockPtr) (entry : CBlockIndex)
    (arrived : CTransaction → Prop) (w : WalletCoins) : Prop :=
  ∀ hash wtx, w.mapWallet hash = some wtx → Located tree U pindex hash wtx.place ∧
    (arrived wtx.tx → wtx.hashBlock = entry.hash)

/-- All transactions of the wallet are located. -/
def AllLocated {env : Env} (tree : BlockTree env) (U : Set CTransaction) (pindex : BlockPtr) (w : WalletCoins) :
    Prop :=
  ∀ hash wtx, w.mapWallet hash = some wtx → Located tree U pindex hash wtx.place

section Chain

variable {env : Env} {tree : BlockTree env} {U : Set CTransaction} {keys : WalletKeys} {w after : WalletCoins}
  {pindex : BlockPtr}

theorem SamePlaces.lookup (same : SamePlaces w after) {hash : UInt256} {wtx : CWalletTx}
    (found : after.mapWallet hash = some wtx) : ∃ old, w.mapWallet hash = some old ∧ wtx.place = old.place := by
  have equal := same hash
  rw [found, Option.map_some] at equal
  obtain ⟨old, present, place⟩ := Option.map_eq_some_iff.mp equal.symm
  exact ⟨old, present, place.symm⟩

theorem AllLocated.congr (all : AllLocated tree U pindex w) (same : SamePlaces w after) :
    AllLocated tree U pindex after := by
  intro hash wtx found
  obtain ⟨old, present, place⟩ := SamePlaces.lookup same found
  rw [place]
  exact all hash old present

theorem Arriving.congr {entry : CBlockIndex} {arrived : CTransaction → Prop}
    (all : Arriving tree U pindex entry arrived w) (same : SamePlaces w after) :
    Arriving tree U pindex entry arrived after := by
  intro hash wtx found
  obtain ⟨old, present, place⟩ := SamePlaces.lookup same found
  obtain ⟨located, there⟩ := all hash old present
  rw [show wtx.tx = old.tx from congrArg TxPlace.tx place,
    show wtx.hashBlock = old.hashBlock from congrArg TxPlace.hashBlock place, place]
  exact ⟨located, there⟩

/-- A chain that gets shorter keeps the wallet's transactions located. -/
theorem AllLocated.of_suffix {below : BlockPtr} (all : AllLocated tree U pindex w) (suffix : below <:+ pindex) :
    AllLocated tree U below w := by
  intro hash wtx found
  obtain ⟨keyed, known, origin, latest⟩ := all hash wtx found
  exact ⟨keyed, known, origin, fun entry member => latest entry (suffix.subset member)⟩

/-- A transaction of the block arrives. No block of the chain contains it yet. -/
theorem Arriving.arrive (collisionFree : Set.InjOn env.txHash U) {entry : CBlockIndex} {pprev : BlockPtr}
    {arrived : CTransaction → Prop} (all : Arriving tree U pindex entry arrived w)
    (member : tree.mem (entry :: pprev)) (real : entry.hash ≠ 0)
    (short : (tree.block entry).vtx.length ≤ maxBlockSize)
    (root : (tree.block entry).hashMerkleRoot = (tree.block entry).buildMerkleTree env) {tx : CTransaction}
    (inside : tx ∈ (tree.block entry).vtx) (known : tx ∈ U)
    (fresh : ∀ older ∈ pindex, tx ∉ (tree.block older).vtx) {poolKeys : List (BitVec 160)}
    (synced : w.syncWithWallets env keys poolKeys tx (some (tree.block entry)) true true = .ok after) :
    Arriving tree U pindex entry (fun other => other = tx ∨ arrived other) after := by
  have places := @addToWalletIfInvolvingMe_places env keys poolKeys w tx
    (some (tree.block entry))
  rw [syncWithWallets, if_pos rfl] at synced
  rw [synced, resultState] at places
  rcases places with added | ⟨absent, same⟩
  · refine Arriving.congr (fun hash wtx found => ?_) added
    rw [mapWallet_set] at found
    split at found
    · rename_i here
      have same : ((w.mapWallet (env.txHash tx)).map CWalletTx.tx).getD tx = tx := by
        cases old : w.mapWallet (env.txHash tx) with
        | none => rfl
        | some mine =>
            obtain ⟨located, -⟩ := all _ mine old
            exact collisionFree located.known known located.keyed
      have place := place_added_block w inside (tree.named member ▸ real) short
      rw [same, Option.some.inj found, tree.named member] at place
      have hashBlock : wtx.hashBlock = entry.hash := congrArg TxPlace.hashBlock place
      refine ⟨?_, fun _ => hashBlock⟩
      rw [place]
      have placed : TxPlace.InBlock env ⟨tx, entry.hash,
          (tree.block entry).getMerkleBranch env ((tree.block entry).vtx.idxOf tx),
          Int32.ofNat ((tree.block entry).vtx.idxOf tx)⟩ (tree.block entry) := by
        refine ⟨inside, ofNat_idxOf_ne inside short, ?_⟩
        rw [toInt_ofNat_idxOf inside short, root]
        exact CBlock.checkMerkleBranch_getMerkleBranch env _ (List.getElem?_idxOf inside)
      exact ⟨here.symm, known, .inr ⟨entry, pprev, member, rfl, placed⟩,
        fun older below holds => absurd holds (fresh older below)⟩
    · rename_i elsewhere
      obtain ⟨located, there⟩ := all hash wtx found
      refine ⟨located, ?_⟩
      rintro (rfl | before)
      · exact absurd located.keyed.symm elsewhere
      · exact there before
  · refine Arriving.congr (fun hash wtx found => ?_) same
    obtain ⟨located, there⟩ := all hash wtx found
    refine ⟨located, ?_⟩
    rintro (rfl | before)
    · rw [← located.keyed, show wtx.place.tx = wtx.tx from rfl] at found
      rw [found] at absent
      cases absent
    · exact there before

/-- All transactions of a connected block arrive. -/
theorem Arriving.arriveAll (collisionFree : Set.InjOn env.txHash U) {entry : CBlockIndex} {pprev : BlockPtr}
    {arrived : CTransaction → Prop} (all : Arriving tree U pindex entry arrived w)
    (member : tree.mem (entry :: pprev)) (real : entry.hash ≠ 0)
    (short : (tree.block entry).vtx.length ≤ maxBlockSize)
    (root : (tree.block entry).hashMerkleRoot = (tree.block entry).buildMerkleTree env) {vtx : List CTransaction}
    (known : ∀ tx ∈ vtx, tx ∈ (tree.block entry).vtx ∧ tx ∈ U)
    (fresh : ∀ tx ∈ vtx, ∀ older ∈ pindex, tx ∉ (tree.block older).vtx)
    (synced : Synced env keys (vtx.map fun tx => ⟨tx, tree.block entry, true, true⟩) w after) :
    Arriving tree U pindex entry (fun tx => arrived tx ∨ tx ∈ vtx) after := by
  induction vtx generalizing w arrived with
  | nil =>
      cases synced
      simpa using all
  | cons tx rest ih =>
      rw [List.map_cons] at synced
      cases synced with
      | cons poolKeys first later =>
          obtain ⟨inside, inU⟩ := known tx List.mem_cons_self
          have here := all.arrive collisionFree member real short root inside inU (fresh tx List.mem_cons_self) first
          have rest := ih here (fun tx member => known tx (List.mem_cons_of_mem _ member))
            (fun tx member => fresh tx (List.mem_cons_of_mem _ member)) later
          intro hash wtx found
          obtain ⟨located, there⟩ := rest hash wtx found
          refine ⟨located, fun arrives => there ?_⟩
          rcases arrives with before | now
          · exact .inl (.inr before)
          · rcases List.mem_cons.mp now with same | later
            · exact .inl (.inl same)
            · exact .inr later

/-- A disconnection changes no place. -/
theorem Synced.disconnected {block : CBlock} {vtx : List CTransaction}
    (synced : Synced env keys (vtx.map fun tx => ⟨tx, block, false, false⟩) w after) : SamePlaces w after := by
  induction vtx generalizing w with
  | nil =>
      cases synced
      exact .refl _
  | cons tx rest ih =>
      rw [List.map_cons] at synced
      cases synced with
      | cons poolKeys first later =>
          refine SamePlaces.trans ?_ (ih later)
          have disabled := @disableTransaction_places keys w tx
          dsimp only at first
          rw [syncWithWallets, if_neg Bool.false_ne_true] at first
          split at first
          · split at first
            · cases first
            · cases first
              exact .refl w
            · rw [first] at disabled
              exact disabled
          · cases first
            exact .refl w

/-! ## New transactions -/

/-- A transaction of a connected block is in the index. -/
theorem mem_ids_ledger {stack : List Linked} {linked : Linked} {tx : CTransaction} (member : linked ∈ stack)
    (inside : tx ∈ linked.1.vtx) : env.txHash tx ∈ ids env (ledger stack) := by
  induction stack with
  | nil => cases member
  | cons newest earlier ih =>
      obtain ⟨block, pindex⟩ := newest
      rw [ledger, ids, List.map_append, List.mem_append]
      rcases List.mem_cons.mp member with rfl | before
      · left
        rw [List.map_reverse, List.mem_reverse]
        change env.txHash tx ∈ ids env (block.entries pindex)
        rw [CBlock.ids_entries]
        exact List.mem_map_of_mem inside
      · exact .inr (ih before)

/-- A transaction whose id is not in the index is in no block of the chain above genesis. -/
theorem notMem_of_unindexed {stack : List Linked} {index : TxIndexMap} (represents : Represents tree stack pindex)
    (indexed : index = replay env (ledger stack)) {tx : CTransaction} (absent : index (env.txHash tx) = none) :
    ∀ entry ∈ pindex, entry ≠ tree.genesis → tx ∉ (tree.block entry).vtx := by
  intro entry member above inside
  rw [← represents.1, List.mem_append, List.mem_singleton] at member
  rcases member with connected | bottom
  · obtain ⟨linked, present, rfl⟩ := List.mem_map.mp connected
    rw [← represents.2 linked present] at inside
    have known := (@replay_isSome env _ _).mpr (mem_ids_ledger present inside)
    rw [← indexed, absent] at known
    cases known
  · exact above bottom

/-- The script of a height does not start with a zero. -/
theorem heightScript_starts {nHeight : Int32} (positive : 0 < nHeight.toInt) :
    ∃ first rest, heightScript nHeight = first :: rest ∧ first ≠ 0 := by
  rcases heightScript_cases positive with ⟨small, shape⟩ | ⟨large, shape⟩
  · refine ⟨_, _, shape, fun zero => ?_⟩
    have value := congrArg UInt8.toNat zero
    rw [UInt8.toNat_ofNat', show (0 : UInt8).toNat = 0 from rfl] at value
    omega
  · refine ⟨_, _, shape, fun zero => ?_⟩
    have short := getvch_length_le positive.le
    have value := congrArg UInt8.toNat zero
    rw [UInt8.toNat_ofNat', show (0 : UInt8).toNat = 0 from rfl] at value
    have empty : CBigNum.getvch nHeight.toInt = [] := List.eq_nil_of_length_eq_zero (by omega)
    have back := CBigNum.ofBigEndian_getvch positive.le
    rw [empty] at back
    simp [CBigNum.ofBigEndian] at back
    omega

/-- The transactions of a block that is connected are in no block of the chain. -/
theorem AcceptedTree.fresh (accepted : AcceptedTree tree U) (collisionFree : Set.InjOn env.txHash U)
    {stack : List Linked} {s next : Node} {entry prev : CBlockIndex} {grand : BlockPtr}
    (member : tree.mem (entry :: prev :: grand)) (represents : Represents tree stack (prev :: grand))
    (runs : Runs env (HeightRule U) stack s.txdb.txIndex)
    (connected : (tree.block entry).connectBlock env s entry (prev :: grand) = some next) :
    ∀ tx ∈ (tree.block entry).vtx, ∀ older ∈ prev :: grand, tx ∉ (tree.block older).vtx := by
  obtain ⟨sound, indexed⟩ := runs.sound fun earlier sound indexed rule connected =>
    fresh_of_height collisionFree earlier.heighted sound indexed rule connected
  have rule : HeightRule U stack s.txdb.txIndex (tree.block entry) := accepted.admits member represents
  obtain ⟨-, absent⟩ := fresh_of_height collisionFree runs.heighted sound indexed rule connected
  intro tx inside older below
  by_cases bottom : older = tree.genesis
  · -- The coinbase starts with its height.
    rintro again
    rw [bottom] at again
    obtain ⟨base, starts⟩ := accepted.genesisCoinBase tx again
    obtain ⟨coinbase, rest, shape, -, ordinary⟩ :=
      (CBlock.checked_of_checkBlock (CBlock.connectBlock_spec connected).checked).coinbase
    obtain rfl : tx = coinbase := by
      rw [shape] at inside
      rcases List.mem_cons.mp inside with same | later
      · exact same
      · rw [ordinary tx later] at base
        cases base
    obtain ⟨-, nHeight, height, prefixed⟩ := rule
    obtain ⟨first, more, script, nonzero⟩ := heightScript_starts (show 0 < nHeight.toInt by omega)
    simp only [CBlock.checkCoinbaseHeight, shape] at prefixed
    split at prefixed
    · rename_i txin others inputs
      obtain ⟨tail, whole⟩ := List.isPrefixOf_iff_prefix.mp prefixed
      have head := starts txin (inputs ▸ List.mem_cons_self)
      rw [← whole, script] at head
      exact nonzero (Option.some.inj head)
    · cases prefixed
  · exact notMem_of_unindexed represents indexed (absent tx inside) older below bottom

/-- `CheckBlock` bounds the number of transactions and checks their Merkle root. -/
theorem CBlock.merkleRoot_of_checkBlock {block : CBlock} {nAdjustedTime : Int} {fCheckPOW fCheckSig : Bool}
    (checked : block.checkBlock env nAdjustedTime fCheckPOW true fCheckSig = true) :
    block.vtx.length ≤ maxBlockSize ∧ block.hashMerkleRoot = block.buildMerkleTree env := by
  rw [checkBlock] at checked
  split_ifs at checked with sizes pow time base stake each distinct sigOps root
  simp only [Bool.or_eq_true, decide_eq_true_eq, not_or, not_lt] at sizes
  rw [Bool.true_and, decide_eq_true_eq, not_not] at root
  exact ⟨sizes.1.2, root⟩

/-- Along moves on the tree the notifications keep the wallet's transactions located. -/
theorem Moves.located (collisionFree : Set.InjOn env.txHash U) (accepted : AcceptedTree tree U) {first second : Tip}
    (moves : Moves tree first second)
    (started : ∃ stack, Represents tree stack first.pindex ∧ Runs env (HeightRule U) stack first.txIndex) :
    ∃ log, second.walletLog = first.walletLog ++ log ∧ ∀ w after, AllLocated tree U first.pindex w →
      Synced env keys log w after → AllLocated tree U second.pindex after := by
  induction moves with
  | refl =>
      refine ⟨[], (List.append_nil _).symm, fun w after all synced => ?_⟩
      cases synced
      exact all
  | @connect s next entry prev grand earlier member connected ih =>
      obtain ⟨log, logged, kept⟩ := ih
      obtain ⟨stack, represents, runs⟩ := earlier.runs accepted.admits started
      have spec := CBlock.connectBlock_spec connected
      obtain ⟨short, root⟩ := CBlock.merkleRoot_of_checkBlock spec.checked
      have fresh := accepted.fresh collisionFree member represents runs connected
      have rule : HeightRule U stack s.txdb.txIndex (tree.block entry) := accepted.admits member represents
      refine ⟨log ++ (tree.block entry).vtx.map fun tx => ⟨tx, tree.block entry, true, true⟩, ?_, ?_⟩
      · change next.walletLog = _
        rw [spec.notified, show s.walletLog = _ from logged, List.append_assoc]
      · intro w after all synced
        obtain ⟨middle, before, now⟩ := synced.split
        have located := kept w middle all before
        have arriving : Arriving tree U (prev :: grand) entry (fun _ => False) middle :=
          fun hash wtx found => ⟨located hash wtx found, False.elim⟩
        have arrived := arriving.arriveAll collisionFree member (accepted.real member) short root
          (fun tx inside => ⟨inside, rule.1 tx inside⟩) fresh now
        intro hash wtx found
        obtain ⟨⟨keyed, known, origin, latest⟩, there⟩ := arrived hash wtx found
        refine ⟨keyed, known, origin, fun older inChain inside => ?_⟩
        rcases List.mem_cons.mp inChain with rfl | below
        · exact there (.inr inside)
        · exact latest older below inside
  | @disconnect s next entry prev grand earlier member disconnected ih =>
      obtain ⟨log, logged, kept⟩ := ih
      have undone : (codeConnector env).disconnect s (tree.block entry) (entry :: prev :: grand) = .ok next :=
        disconnected
      refine ⟨log ++ (tree.block entry).vtx.map fun tx => ⟨tx, tree.block entry, false, false⟩, ?_, ?_⟩
      · change next.walletLog = _
        rw [(codeConnector_notifies env).disconnect undone, show s.walletLog = _ from logged, List.append_assoc]
        rfl
      · intro w after all synced
        obtain ⟨middle, before, now⟩ := synced.split
        exact ((kept w middle all before).of_suffix (List.suffix_cons _ _)).congr now.disconnected

/-- A transaction that a pool accepts is in no block of the chain. -/
theorem AcceptedTree.loose (accepted : AcceptedTree tree U) (collisionFree : Set.InjOn env.txHash U) {policy : Policy}
    {s next : Node} {tx : CTransaction} {stack : List Linked} (represents : Represents tree stack pindex)
    (runs : Runs env (HeightRule U) stack s.txdb.fresh.txIndex)
    (pooled : acceptToMemoryPool env policy s tx = some next) :
    ∀ older ∈ pindex, tx ∉ (tree.block older).vtx := by
  have passed := acceptToMemoryPool_cases pooled
  obtain ⟨-, indexed⟩ := runs.sound fun earlier sound indexed rule connected =>
    fresh_of_height collisionFree earlier.heighted sound indexed rule connected
  have absent : s.txdb.fresh.txIndex (env.txHash tx) = none := by
    have unknown := passed.unconfirmed
    rw [CTxDB.containsTx, CTxDB.existsKey] at unknown
    have unread : s.txdb.pdb (.tx (env.txHash tx)) = none := by
      change (s.txdb.pdb (.tx (env.txHash tx))).isSome = false at unknown
      rwa [Option.isSome_eq_false_iff, Option.isNone_iff_eq_none] at unknown
    rw [CTxDB.txIndex_eq, CTxDB.view_of_no_batch rfl]
    change CTxDB.txIndexOf (s.txdb.pdb (.tx (env.txHash tx))) = none
    rw [unread]
    rfl
  intro older below inside
  by_cases bottom : older = tree.genesis
  · rw [bottom] at inside
    have base := (accepted.genesisCoinBase tx inside).1
    rw [passed.notCoinBase] at base
    cases base
  · exact notMem_of_unindexed represents indexed absent older below bottom inside

/-- A notification without a block keeps the wallet's transactions located. -/
theorem AllLocated.loose (all : AllLocated tree U pindex w) {tx : CTransaction} (known : tx ∈ U)
    (absent : ∀ older ∈ pindex, tx ∉ (tree.block older).vtx) {poolKeys : List (BitVec 160)}
    (synced : w.syncWithWallets env keys poolKeys tx none true true = .ok after) : AllLocated tree U pindex after := by
  have places := @addToWalletIfInvolvingMe_places env keys poolKeys w tx none
  rw [syncWithWallets, if_pos rfl] at synced
  rw [synced, resultState] at places
  rcases places with added | ⟨-, same⟩
  · refine AllLocated.congr (fun hash wtx found => ?_) added
    rw [mapWallet_set] at found
    split at found
    · rename_i here
      have place := @place_added_loose env w tx
      rw [show w.added env (CWalletTx.ofTx tx) = wtx from Option.some.inj found] at place
      rw [place]
      cases old : w.mapWallet (env.txHash tx) with
      | none => exact ⟨here.symm, known, .inl rfl, fun older below inside => absurd inside (absent older below)⟩
      | some mine => exact here ▸ all _ mine old
    · exact all hash wtx found
  · exact all.congr same

end Chain

/-! ## Histories of a wallet -/

/-- A wallet with the flags `fMerkleVerified` of its transactions. -/
structure WalletView where
  coins : WalletCoins
  fMerkleVerified : UInt256 → Bool

/-- The block index holds entries of the tree under their hashes, each with its parent. -/
structure TreeIndex {env : Env} (tree : BlockTree env) (s : Node) : Prop where
  keyed : ∀ hash pindex, s.mapBlockIndex hash = some pindex →
    tree.mem pindex ∧ pindex.head?.map CBlockIndex.hash = some hash
  parent : ∀ hash entry prev grand, s.mapBlockIndex hash = some (entry :: prev :: grand) →
    s.mapBlockIndex prev.hash = some (prev :: grand)

/-- Histories of a node and a wallet that starts with no transactions: calls of `SetBestChain` that succeed, with the
notifications that they send, transactions that the memory pool accepts, with theirs, and depth queries. Blocks may be
added to the block index in between, and other queries fill the caches of amounts. -/
inductive WalletHistory {env : Env} (policy : Policy) (tree : BlockTree env) (U : Set CTransaction)
    (keys : WalletKeys) : Node → WalletView → Prop
  | start {s coins} (reached : Reached policy tree (PostponedConnected env policy) s) (indexed : TreeIndex tree s)
      (best : s.mapBlockIndex s.hashBestChain = some s.pindexBest) (empty : ∀ hash, coins.mapWallet hash = none) :
      WalletHistory policy tree U keys s ⟨coins, fun _ => false⟩
  | switch {s after w coins entry pprev log} (earlier : WalletHistory policy tree U keys s w)
      (found : s.mapBlockIndex entry.hash = some (entry :: pprev)) (onDisk : OnDisk tree s)
      (postponed : PostponedConnected env policy s (entry :: pprev))
      (switched : setBestChain env policy (codeConnector env) s (tree.block entry) (entry :: pprev) = .ok after)
      (logged : after.walletLog = s.walletLog ++ log) (synced : Synced env keys log w.coins coins) :
      WalletHistory policy tree U keys after ⟨coins, w.fMerkleVerified⟩
  | accept {s after w coins tx poolKeys} (earlier : WalletHistory policy tree U keys s w) (known : tx ∈ U)
      (pooled : acceptToMemoryPool env policy s tx = some after)
      (synced : w.coins.syncWithWallets env keys poolKeys tx none true true = .ok coins) :
      WalletHistory policy tree U keys after ⟨coins, w.fMerkleVerified⟩
  | query {s w hash wtx} (earlier : WalletHistory policy tree U keys s w)
      (found : w.coins.mapWallet hash = some wtx) :
      WalletHistory policy tree U keys s
        ⟨w.coins, Function.update w.fMerkleVerified hash
          (wtx.getDepthInMainChain env s (w.fMerkleVerified hash)).2⟩
  | outside {s after w coins} (earlier : WalletHistory policy tree U keys s w) (same : SameChain s after)
      (indexed : TreeIndex tree after)
      (grown : ∀ hash pindex, s.mapBlockIndex hash = some pindex → after.mapBlockIndex hash = some pindex)
      (places : SamePlaces w.coins coins) : WalletHistory policy tree U keys after ⟨coins, w.fMerkleVerified⟩

/-- The wallet keeps up with the chain. -/
structure KeepsUp {env : Env} (tree : BlockTree env) (U : Set CTransaction) (s : Node) (w : WalletView) : Prop where
  consistent : Consistent tree (HeightRule U) s
  indexed : TreeIndex tree s
  best : s.mapBlockIndex s.hashBestChain = some s.pindexBest
  located : AllLocated tree U s.pindexBest w.coins

section Histories

variable {env : Env} {policy : Policy} {tree : BlockTree env} {U : Set CTransaction} {keys : WalletKeys}
  {s after : Node} {w : WalletView}

theorem KeepsUp.outside (keepsUp : KeepsUp tree U s w) {coins : WalletCoins} {flags : UInt256 → Bool}
    (same : SameChain s after) (indexed : TreeIndex tree after)
    (grown : ∀ hash pindex, s.mapBlockIndex hash = some pindex → after.mapBlockIndex hash = some pindex)
    (places : AllLocated tree U s.pindexBest coins) : KeepsUp tree U after ⟨coins, flags⟩ := by
  refine ⟨keepsUp.consistent.outside same, indexed, ?_, ?_⟩
  · rw [same.hashBestChain, same.pindexBest]
    exact grown _ _ keepsUp.best
  · rw [same.pindexBest]
    exact places

theorem KeepsUp.switch (collisionFree : Set.InjOn env.txHash U) (accepted : AcceptedTree tree U)
    (keepsUp : KeepsUp tree U s w) {coins : WalletCoins} {flags : UInt256 → Bool} {entry : CBlockIndex}
    {pprev : BlockPtr} {log : List WalletNotice} (found : s.mapBlockIndex entry.hash = some (entry :: pprev))
    (onDisk : OnDisk tree s) (postponed : PostponedConnected env policy s (entry :: pprev))
    (switched : setBestChain env policy (codeConnector env) s (tree.block entry) (entry :: pprev) = .ok after)
    (logged : after.walletLog = s.walletLog ++ log) (synced : Synced env keys log w.coins coins) :
    KeepsUp tree U after ⟨coins, flags⟩ := by
  obtain ⟨consistent, indexed, -, located⟩ := keepsUp
  have member := (indexed.keyed _ _ found).1
  have moved := consistent.call accepted.admits member onDisk postponed switched
  obtain ⟨middle, rfl, same, -, moves⟩ := consistent.setBestChain_ok member onDisk postponed switched
  obtain ⟨stack, represents, runs⟩ := consistent.here.connected
  have started : Runs env (HeightRule U) stack s.txnBegin.txdb.txIndex := txIndex_txnBegin s ▸ runs
  obtain ⟨sent, logged', kept⟩ := moves.located collisionFree accepted ⟨stack, represents, started⟩
  have equal : log = sent := List.append_cancel_left (logged.symm.trans logged')
  have index : middle.mapBlockIndex = s.mapBlockIndex := same.mapBlockIndex
  refine ⟨moved, ⟨?_, ?_⟩, ?_, ?_⟩
  · change ∀ hash pindex, middle.mapBlockIndex hash = some pindex → _
    rw [index]
    exact indexed.keyed
  · change ∀ hash entry prev grand, middle.mapBlockIndex hash = _ → middle.mapBlockIndex _ = _
    rw [index]
    exact indexed.parent
  · change middle.mapBlockIndex ((tree.block entry).getHash env) = some (entry :: pprev)
    rw [index, tree.named member]
    exact found
  · exact kept w.coins coins located (equal ▸ synced)

/-- Along every history the wallet keeps up with the chain. -/
theorem WalletHistory.keepsUp (collisionFree : Set.InjOn env.txHash U) (accepted : AcceptedTree tree U)
    (history : WalletHistory policy tree U keys s w) : KeepsUp tree U s w := by
  induction history with
  | start reached indexed best empty =>
      refine ⟨reached.consistent accepted.admits fun allowed => allowed, indexed, best, fun hash wtx found => ?_⟩
      rw [empty] at found
      cases found
  | switch _ found onDisk postponed switched logged synced ih =>
      exact ih.switch collisionFree accepted found onDisk postponed switched logged synced
  | accept _ known pooled synced ih =>
      obtain ⟨stack, represents, runs⟩ := ih.consistent.here.connected
      have absent := accepted.loose collisionFree represents runs pooled
      have located := ih.located.loose known absent synced
      rw [(acceptToMemoryPool_cases pooled).result]
      exact ih.outside ⟨rfl, rfl, rfl, rfl, rfl, rfl, rfl⟩ ⟨ih.indexed.keyed, ih.indexed.parent⟩
        (fun _ _ found => found) located
  | query _ _ ih => exact ⟨ih.consistent, ih.indexed, ih.best, ih.located⟩
  | outside _ same indexed grown places ih => exact ih.outside same indexed grown (ih.located.congr places)

theorem KeepsUp.activeChain (accepted : AcceptedTree tree U) (keepsUp : KeepsUp tree U s w) :
    ActiveChain env tree.genesis s where
  genesisHash := tree.genesisNamed
  bottom := accepted.bottom
  started := keepsUp.consistent.started
  keyed hash pindex found := (keepsUp.indexed.keyed hash pindex found).2
  root hash entry found := Option.some.inj (tree.rooted (keepsUp.indexed.keyed hash _ found).1)
  parent hash entry prev grand found :=
    ⟨keepsUp.indexed.parent hash entry prev grand found, tree.height (keepsUp.indexed.keyed hash _ found).1⟩
  best := keepsUp.best
  links := keepsUp.consistent.here.links

/-- An entry at some distance below the tip is the head of an ancestor, whose height tells the distance. -/
theorem Rooted.getElem?_iff {genesis : CBlockIndex} {best : BlockPtr} (rooted : Rooted genesis best)
    {entry : CBlockIndex} {n : Nat} :
    best[n]? = some entry ↔ ∃ pprev, entry :: pprev <:+ best ∧ heightOf best - heightOf (entry :: pprev) = n := by
  have tall := rooted.heightOf_eq
  constructor
  · intro there
    obtain ⟨inside, rfl⟩ := List.getElem?_eq_some_iff.mp there
    have suffix : best[n] :: best.drop (n + 1) <:+ best := by
      rw [← List.drop_eq_getElem_cons inside]
      exact List.drop_suffix n best
    have height := (rooted.of_suffix suffix (List.cons_ne_nil _ _)).heightOf_eq
    rw [List.length_cons, List.length_drop] at height
    exact ⟨_, suffix, by omega⟩
  · rintro ⟨pprev, suffix, distance⟩
    have height := (rooted.of_suffix suffix (List.cons_ne_nil _ _)).heightOf_eq
    obtain ⟨newer, rfl⟩ := suffix
    rw [List.length_append] at tall
    obtain rfl : newer.length = n := by omega
    rw [List.getElem?_append_right (Nat.le_refl _), Nat.sub_self]
    rfl

/-- The depth of a transaction whose place is in a block of the active chain. -/
theorem CWalletTx.nDepth_of_inBlock {genesis : CBlockIndex} (chain : ActiveChain env genesis s) {wtx : CWalletTx}
    (flag : Bool) {entry : CBlockIndex} {pprev : BlockPtr} {block : CBlock} (active : entry :: pprev <:+ s.pindexBest)
    (named : wtx.hashBlock = entry.hash) (real : entry.hash ≠ 0) (inBlock : wtx.place.InBlock env block)
    (root : entry.hashMerkleRoot = block.hashMerkleRoot) :
    (wtx.getDepthInMainChainINTERNAL env s flag).nDepth = heightOf s.pindexBest - heightOf (entry :: pprev) + 1 := by
  have indexed := chain.grounded.indexed chain.best entry pprev active
  have inside := (chain.isInMainChain_iff indexed).mpr active
  have proven : some entry.hashMerkleRoot =
      some (CBlock.checkMerkleBranch env (env.txHash wtx.tx) wtx.vMerkleBranch wtx.nIndex.toInt) :=
    congrArg some (root.trans inBlock.proven.symm)
  have placed : ¬(wtx.hashBlock = 0 ∨ wtx.nIndex = -1) := by
    rintro (none | none)
    · exact real (named.symm.trans none)
    · exact inBlock.indexed none
  rw [getDepthInMainChainINTERNAL, if_neg placed, named, indexed]
  dsimp only
  rw [inside, if_neg Bool.true_eq_false.mp, if_neg fun wrong => wrong.2 proven]

/-- A transaction that has a depth has a block. -/
theorem CWalletTx.exists_pindexRet {wtx : CWalletTx} {flag : Bool}
    (deep : (wtx.getDepthInMainChainINTERNAL env s flag).nDepth ≠ 0) :
    wtx.hashBlock ≠ 0 ∧ ∃ pindex, (wtx.getDepthInMainChainINTERNAL env s flag).pindexRet = some pindex := by
  rw [getDepthInMainChainINTERNAL] at deep ⊢
  split at deep
  · exact absurd rfl deep
  rename_i placed
  rw [if_neg placed]
  refine ⟨fun none => placed (.inl none), ?_⟩
  split at deep
  · exact absurd rfl deep
  rename_i pindex known
  split at deep
  · exact absurd rfl deep
  rename_i active
  split at deep
  · exact absurd rfl deep
  rename_i proven
  rw [if_neg active, if_neg proven]
  exact ⟨pindex, rfl⟩

/-- Along every history of best-chain changes that succeed, memory-pool acceptances and queries, from a wallet with no
transactions, a transaction of the wallet has depth `d`, at least one, just if it is in the main-chain block `d - 1`
below the tip. -/
theorem getDepthInMainChain_iff (collisionFree : Set.InjOn env.txHash U) (accepted : AcceptedTree tree U)
    (history : WalletHistory policy tree U keys s w) {hash : UInt256} {wtx : CWalletTx}
    (found : w.coins.mapWallet hash = some wtx) {d : Int} (positive : 1 ≤ d) :
    (wtx.getDepthInMainChain env s (w.fMerkleVerified hash)).1 = d ↔
      ∃ entry, s.pindexBest[(d - 1).toNat]? = some entry ∧ wtx.tx ∈ (tree.block entry).vtx := by
  have keepsUp := history.keepsUp collisionFree accepted
  have chain := keepsUp.activeChain accepted
  have rooted := chain.rooted chain.best
  obtain ⟨-, -, origin, latest⟩ := keepsUp.located hash wtx found
  have depth : (wtx.getDepthInMainChain env s (w.fMerkleVerified hash)).1 = d ↔
      (wtx.getDepthInMainChainINTERNAL env s (w.fMerkleVerified hash)).nDepth = d := by
    rw [CWalletTx.getDepthInMainChain]
    dsimp only
    split <;> omega
  rw [depth]
  constructor
  · intro deep
    obtain ⟨placed, pindex, block⟩ := CWalletTx.exists_pindexRet (by rw [deep]; omega)
    obtain ⟨known, active, height⟩ := CWalletTx.pindexRet_spec block
    have suffix := (chain.isInMainChain_iff known).mp active
    obtain ⟨member, named⟩ := keepsUp.indexed.keyed _ _ known
    rcases origin with none | ⟨entry, pprev, memberEntry, namedEntry, inBlock⟩
    · exact absurd none placed
    · obtain ⟨top, rest, rfl⟩ := List.exists_cons_of_ne_nil (BlockTree.ne_nil member)
      obtain ⟨rfl, rfl⟩ :=
        List.cons.inj (tree.hashUnique member memberEntry ((Option.some.inj named).trans namedEntry))
      exact ⟨top, rooted.getElem?_iff.mpr ⟨rest, suffix, by omega⟩, inBlock.inside⟩
  · rintro ⟨entry, below, inside⟩
    obtain ⟨pprev, active, distance⟩ := rooted.getElem?_iff.mp below
    have named := latest entry (active.subset List.mem_cons_self) inside
    have member : tree.mem (entry :: pprev) :=
      BlockTree.mem_of_suffix keepsUp.consistent.here.mem active (List.cons_ne_nil _ _)
    rcases origin with none | ⟨other, grand, memberOther, namedOther, inBlock⟩
    · exact absurd (named.symm.trans none) (accepted.real member)
    · obtain ⟨rfl, rfl⟩ := List.cons.inj (tree.hashUnique member memberOther (named.symm.trans namedOther))
      rw [CWalletTx.nDepth_of_inBlock chain _ active named (accepted.real member) inBlock
        (accepted.merkleRoot member)]
      omega

end Histories

section Concrete

/-- A coinbase of height 1 that is mined on two branches. -/
def twinCoinBase : CTransaction := .labelledCoinBase 101 1000 [0x51, 0] [⟨1000 * coin, [0x51]⟩]

/-- Genesis, a branch of one block (1), and one of two (2, 3). -/
def twinBlocks : List CBlock :=
  [.labelled 0 0 1000 0x1f00ffff [.labelledCoinBase 100 1000 [0, 42] [⟨0, [0x51]⟩]],
    .labelled 1 (genesisHash true) 1000 0x1f00ffff [twinCoinBase],
    .labelled 2 (genesisHash true) 1000 0x1f00ffff [twinCoinBase],
    .labelled 3 2 1000 0x1f00ffff [.labelledCoinBase 103 1000 [0x52, 0] [⟨1000 * coin, [0x51]⟩]]]

def twinBlock (entry : CBlockIndex) : CBlock :=
  (twinBlocks.find? fun block => block.nNonce = entry.nNonce).getD smallGenesis

def twinEntry (label : UInt32) (nHeight : Nat) (hashMerkleRoot : UInt256) : CBlockIndex :=
  { forkEntry label nHeight with hashMerkleRoot := hashMerkleRoot }

def twinRoot : BlockPtr := [{ twinEntry 0 0 100 with hash := genesisHash true }]

def twinLight : BlockPtr := twinEntry 1 1 101 :: twinRoot

def twinHeavy : BlockPtr := twinEntry 3 2 103 :: twinEntry 2 1 101 :: twinRoot

def twinEntries : List BlockPtr := [twinRoot, twinLight, twinHeavy.tail, twinHeavy]

def twinTree : BlockTree (Env.labelled true) :=
  .ofList { twinEntry 0 0 100 with hash := genesisHash true } twinBlock twinEntries (by decide +kernel)

/-- The node after `SetBestChain` calls on some entries, all of which it knows from the start. -/
def twinNode : List BlockPtr → Node
  | [] =>
      { smallInitial twinBlocks with
        mapBlockIndex := fun hash => twinEntries.find? fun pindex => blockHash pindex = hash }
  | pindex :: earlier =>
      match pindex with
      | [] => twinNode earlier
      | entry :: _ => afterLoop (smallSwitch (twinNode earlier) (twinBlock entry) pindex)

/-- A wallet to which every output belongs. -/
def everyKey : WalletKeys := ⟨fun _ => true, fun _ => none, fun _ => false, 0⟩

/-- The wallet after some notifications. -/
def twinWallet (log : List WalletNotice) (w : WalletCoins) : Except WalletCoins WalletCoins :=
  log.foldlM (fun w notice => w.syncWithWallets (Env.labelled true) everyKey [] notice.tx (some notice.pblock)
    notice.fUpdate notice.fConnect) w

theorem synced_twinWallet {log : List WalletNotice} {w after : WalletCoins} (done : twinWallet log w = .ok after) :
    Synced (Env.labelled true) everyKey log w after := by
  induction log generalizing w with
  | nil =>
      obtain rfl := Except.ok.inj done
      exact .nil
  | cons notice rest ih =>
      rw [twinWallet, List.foldlM_cons] at done
      cases first : w.syncWithWallets (Env.labelled true) everyKey [] notice.tx (some notice.pblock) notice.fUpdate
          notice.fConnect with
      | error broken =>
          rw [first] at done
          cases done
      | ok middle =>
          rw [first] at done
          exact .cons [] first (ih done)

theorem twinTree_accepted :
    AcceptedTree twinTree {tx | tx ∈ twinBlocks.flatMap CBlock.vtx} := by
  have heights : ∀ pindex ∈ twinEntries, ∀ entry ∈ pindex.head?, ∀ _ ∈ pindex.tail.head?,
      (∀ tx ∈ (twinBlock entry).vtx, tx ∈ twinBlocks.flatMap CBlock.vtx) ∧
        (Int32.ofNat pindex.tail.length).toInt = pindex.tail.length ∧
        (twinBlock entry).checkCoinbaseHeight (Int32.ofNat pindex.tail.length) = true := by
    decide +kernel
  have entries : ∀ pindex ∈ twinEntries, ∀ entry ∈ pindex.head?,
      entry.hashMerkleRoot = (twinBlock entry).hashMerkleRoot ∧ entry.hash ≠ 0 := by
    decide +kernel
  refine ⟨?_, fun member => (entries _ member _ rfl).1, fun member => (entries _ member _ rfl).2, rfl, ?_⟩
  · intro entry prev grand stack index member represents
    obtain ⟨known, height, starts⟩ := heights _ member _ rfl _ rfl
    refine ⟨known, _, height.trans ?_, starts⟩
    have length := congrArg List.length represents.1
    simp at length ⊢
    omega
  · decide +kernel

theorem twinNode_indexed {s : Node} (index : s.mapBlockIndex = (twinNode []).mapBlockIndex) : TreeIndex twinTree s := by
  have members : ∀ hash pindex, (twinNode []).mapBlockIndex hash = some pindex →
      pindex ∈ twinEntries ∧ blockHash pindex = hash := by
    intro hash pindex found
    have found : twinEntries.find? (fun pindex => decide (blockHash pindex = hash)) = some pindex := found
    have holds := List.find?_some found
    exact ⟨List.mem_of_find?_eq_some found, of_decide_eq_true holds⟩
  refine ⟨fun hash pindex found => ?_, fun hash entry prev grand found => ?_⟩
  · rw [index] at found
    obtain ⟨member, rfl⟩ := members hash pindex found
    have named : ∀ pindex ∈ twinEntries, pindex.head?.map CBlockIndex.hash = some (blockHash pindex) := by
      decide +kernel
    exact ⟨member, named pindex member⟩
  · rw [index] at found ⊢
    obtain ⟨member, -⟩ := members hash _ found
    have parents : ∀ pindex ∈ twinEntries, pindex.tail ≠ [] →
        (twinNode []).mapBlockIndex (blockHash pindex.tail) = some pindex.tail := by
      decide +kernel
    exact parents _ member (List.cons_ne_nil _ _)

theorem twinNode_step {pindexes : List BlockPtr} {entry : CBlockIndex} {pprev : BlockPtr}
    (switched : observe (fun _ => ()) (smallSwitch (twinNode pindexes) (twinBlock entry) (entry :: pprev)) =
      (true, ())) :
    setBestChain (Env.labelled true) .lax (codeConnector (Env.labelled true)) (twinNode pindexes)
      (twinTree.block entry) (entry :: pprev) = .ok (twinNode ((entry :: pprev) :: pindexes)) :=
  ok_of_observe switched

theorem twinStart_reached :
    Reached .lax twinTree (PostponedConnected (Env.labelled true) .lax) (twinNode [twinRoot]) := by
  refine .start ⟨rfl, rfl, ?_⟩ (twinNode_step (by decide +kernel))
  funext id
  rw [CTxDB.txIndex_eq]
  rfl

/-- Histories of a wallet that owns every output. -/
abbrev TwinHistory : Node → WalletView → Prop :=
  WalletHistory .lax twinTree {tx | tx ∈ twinBlocks.flatMap CBlock.vtx} everyKey

/-- One more call that succeeds with nothing postponed. -/
theorem twinNode_switch {pindexes : List BlockPtr} {entry : CBlockIndex} {pprev : BlockPtr} {w : WalletView}
    {log : List WalletNotice} (earlier : TwinHistory (twinNode pindexes) w)
    (found : (twinNode pindexes).mapBlockIndex entry.hash = some (entry :: pprev))
    (stored : ∀ pindex ∈ twinEntries, ∀ block ∈ readBlock (Env.labelled true) (twinNode pindexes) pindex,
      ∀ entry ∈ pindex.head?, block = twinBlock entry)
    (nothing : (postpone (bestTrust (twinNode pindexes)) (entry :: pprev)).1 = [])
    (switched : observe (fun _ => ()) (smallSwitch (twinNode pindexes) (twinBlock entry) (entry :: pprev)) =
      (true, ()))
    (logged : (twinNode ((entry :: pprev) :: pindexes)).walletLog = (twinNode pindexes).walletLog ++ log)
    (synced : (twinWallet log w.coins).isOk = true) :
    TwinHistory (twinNode ((entry :: pprev) :: pindexes))
      ⟨resultState (twinWallet log w.coins), w.fMerkleVerified⟩ := by
  refine .switch earlier found (fun member found => stored _ member _ found _ rfl) (.of_nil nothing)
    (twinNode_step switched) logged (synced_twinWallet ?_)
  cases result : twinWallet log w.coins with
  | error broken =>
      rw [result] at synced
      cases synced
  | ok coins => rfl

def twinEmpty : WalletCoins := ⟨fun _ => none, none, fun _ => false, fun _ => 0⟩

/-- The notifications for block 1, and those for the switch to the other branch. -/
def twinLogs : List WalletNotice × List WalletNotice :=
  let connected (entry : CBlockIndex) := (twinBlock entry).vtx.map fun tx => ⟨tx, twinBlock entry, true, true⟩
  (connected (twinEntry 1 1 101),
    ((twinBlock (twinEntry 1 1 101)).vtx.map fun tx => ⟨tx, twinBlock (twinEntry 1 1 101), false, false⟩) ++
      connected (twinEntry 2 1 101) ++ connected (twinEntry 3 2 103))

/-- The coinbase is mined in block 1 and, after the switch, in block 2 below the new tip. -/
theorem getDepthInMainChain_iff_twin :
    ∃ s w wtx, TwinHistory s w ∧ w.coins.mapWallet 101 = some wtx ∧ wtx.tx = twinCoinBase ∧ s.hashBestChain = 3 ∧
      (wtx.getDepthInMainChain (Env.labelled true) s (w.fMerkleVerified 101)).1 = 2 := by
  have distinct : ∀ first ∈ twinBlocks.flatMap CBlock.vtx, ∀ second ∈ twinBlocks.flatMap CBlock.vtx,
      (Env.labelled true).txHash first = (Env.labelled true).txHash second → first = second := by
    decide +kernel
  have start : TwinHistory (twinNode [twinRoot]) ⟨twinEmpty, fun _ => false⟩ :=
    .start twinStart_reached (twinNode_indexed rfl) (by decide +kernel) fun _ => rfl
  have mined : TwinHistory (twinNode [twinLight, twinRoot])
      ⟨resultState (twinWallet twinLogs.1 twinEmpty), fun _ => false⟩ :=
    twinNode_switch start (by decide +kernel) (by decide +kernel) (by decide +kernel) (by decide +kernel)
      (by decide +kernel) (by decide +kernel)
  have present : ((resultState (twinWallet twinLogs.1 twinEmpty)).mapWallet 101).isSome = true := by decide +kernel
  -- The depth on the first branch is asked for, which sets the flag.
  obtain ⟨first, asked⟩ := Option.isSome_iff_exists.mp present
  have synced : (twinWallet twinLogs.2 (resultState (twinWallet twinLogs.1 twinEmpty))).isOk = true := by
    decide +kernel
  have moved : TwinHistory (twinNode [twinHeavy, twinLight, twinRoot])
      ⟨resultState (twinWallet twinLogs.2 (resultState (twinWallet twinLogs.1 twinEmpty))), _⟩ :=
    twinNode_switch (.query mined asked) (by decide +kernel) (by decide +kernel) (by decide +kernel)
      (by decide +kernel) (by decide +kernel) synced
  have held : ((resultState (twinWallet twinLogs.2 (resultState (twinWallet twinLogs.1 twinEmpty)))).mapWallet
      101).map CWalletTx.tx = some twinCoinBase := by
    decide +kernel
  obtain ⟨wtx, found, same⟩ := Option.map_eq_some_iff.mp held
  refine ⟨_, _, wtx, moved, found, same, by decide +kernel, ?_⟩
  refine (getDepthInMainChain_iff (fun first inFirst second inSecond => distinct first inFirst second inSecond)
    twinTree_accepted moved found (by decide)).mpr ⟨twinEntry 2 1 101, by decide +kernel, ?_⟩
  rw [same]
  decide +kernel

end Concrete

end InfiniteRicks
