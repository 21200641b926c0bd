import Mathlib.Data.List.NodupEquivFin
import InfiniteRicks.SupportingTx

/-!
# The order of supporting transactions

`AddSupportingTransactions` follows the inputs of a transaction breadth first and turns the list around.
The list is complete and without repetition. That each transaction comes after those it spends from is
another matter: it holds exactly when the walk meets every child before its parents, which an input that
is listed before a child of its own transaction defeats.
-/

namespace InfiniteRicks

open Library Library.WorkQueue

/-! ## What the list is for -/

/-- An input of `child` spends from `parent`. -/
abbrev SpendsFrom (env : Env) (child parent : CTransaction) : Prop := env.txHash parent ∈ child.prevHashes

/-- Each transaction comes after all that it spends from. -/
def ParentsFirst (env : Env) (txs : List CTransaction) : Prop :=
  ∀ ⦃i j : ℕ⦄ ⦃child parent⦄, txs[i]? = some child → txs[j]? = some parent → SpendsFrom env child parent → j < i

theorem ParentsFirst.sublist {env : Env} {txs chosen : List CTransaction} (ordered : ParentsFirst env txs)
    (part : chosen.Sublist txs) : ParentsFirst env chosen := by
  obtain ⟨place, same⟩ := List.sublist_iff_exists_orderEmbedding_getElem?_eq.mp part
  intro i j child parent at_i at_j spends
  rw [same] at at_i at_j
  exact place.lt_iff_lt.mp (ordered at_i at_j spends)

namespace SupportSources

variable {env : Env} (sources : SupportSources env)

/-- A transaction with a hash is in the wallet or in the database. -/
abbrev Has (hash : UInt256) : Prop :=
  (sources.mapWallet hash).isSome = true ∨ (sources.node.readDiskTx hash).isSome = true

/-- What `AddSupportingTransactions` is to leave in a transaction: a list without repetition that has the
inputs of the transaction, and of what it lists, as far as they are young and can be found; and whose order,
kept when it is submitted, has parents before children. -/
structure Supported (wtx : CWalletTxRecord) : Prop where
  once : ((sources.addSupportingTransactions wtx).vtxPrev.map fun prev => env.txHash prev.tx).Nodup
  complete : ∀ tx, tx = wtx.merkle.tx ∨ tx ∈ (sources.addSupportingTransactions wtx).vtxPrev.map CMerkleTx.tx →
    sources.depth tx < copyDepth → ∀ hash ∈ tx.prevHashes, sources.Has hash →
      hash ∈ (sources.addSupportingTransactions wtx).vtxPrev.map fun prev => env.txHash prev.tx
  ordered : ParentsFirst env ((sources.addSupportingTransactions wtx).vtxPrev.map CMerkleTx.tx)
  accepts : ∀ policy s, ∃ supporting, ParentsFirst env supporting ∧
    ((sources.addSupportingTransactions wtx).acceptWalletTransaction env policy s).1 =
      supporting ++ [wtx.merkle.tx]
  relays : ∀ txdb, ∃ supporting, ParentsFirst env supporting ∧
    (sources.addSupportingTransactions wtx).relayWalletTransaction env txdb =
      supporting ++ CWalletTxRecord.relayed env txdb [wtx.merkle.tx]

/-! ## The unfolding of the inputs -/

/-- The transactions met at chains of input positions, from the transaction at the empty chain. -/
abbrev Meets := Chain → Option CTransaction

/-- A chain leads to a hash: its last position is that of an input of a young transaction that is met before
the last position. -/
def Names (meets : Meets) (chain : Chain) (hash : UInt256) : Prop :=
  ∃ before j child, chain = before ++ [j] ∧ meets before = some child ∧ sources.depth child < copyDepth ∧
    child.prevHashes[j]? = some hash

/-- The last of some transactions with a hash. -/
def lastWithHash (env : Env) (hash : UInt256) (vtxPrev : List CMerkleTx) : Option CMerkleTx :=
  vtxPrev.reverse.find? fun prev => decide (env.txHash prev.tx = hash)

/-- The transaction of the wallet with hash `key` carries along a transaction with a hash. -/
def carried (key hash : UInt256) : Option CMerkleTx :=
  (sources.mapWallet key).bind fun wtx => lastWithHash env hash wtx.vtxPrev

/-- What is met at a chain carries along a transaction with a hash. -/
def Supplies (meets : Meets) (chain : Chain) (hash : UInt256) (prev : CMerkleTx) : Prop :=
  chain ≠ [] ∧ ∃ met, meets chain = some met ∧ sources.carried (env.txHash met) hash = some prev

/-- The transaction that a hash stands for at a chain: that of the wallet, else the one that was carried
along by what was met last, else that of the database. -/
inductive Found (meets : Meets) (chain : Chain) (hash : UInt256) : CTransaction → Prop
  | wallet {wtx : CWalletTxRecord} (found : sources.mapWallet hash = some wtx) : Found meets chain hash wtx.merkle.tx
  | supplied {earlier : Chain} {prev : CMerkleTx} (absent : sources.mapWallet hash = none)
      (before : Earlier earlier chain) (supplies : sources.Supplies meets earlier hash prev)
      (last : ∀ between other, Earlier earlier between → Earlier between chain →
        ¬sources.Supplies meets between hash other) : Found meets chain hash prev.tx
  | disk {tx : CTransaction} (absent : sources.mapWallet hash = none)
      (unsupplied : ∀ earlier prev, Earlier earlier chain → ¬sources.Supplies meets earlier hash prev)
      (found : sources.node.readDiskTx hash = some tx) : Found meets chain hash tx

/-- The breadth-first unfolding of the inputs: each hash stands for a transaction at the first chain that leads
to it. -/
def Unfolds (tx : CTransaction) (meets : Meets) : Prop :=
  ∀ chain met, meets chain = some met ↔ (chain = [] ∧ met = tx) ∨
    ∃ hash, sources.Names meets chain hash ∧ (∀ earlier, Earlier earlier chain → ¬sources.Names meets earlier hash) ∧
      sources.Found meets chain hash met

/-- Of the supporting transactions, each is met before all that it spends from. -/
def ChildrenFirst (env : Env) (meets : Meets) : Prop :=
  ∀ p q child parent, p ≠ [] → q ≠ [] → meets p = some child → meets q = some parent → SpendsFrom env child parent →
    Earlier p q

section Unique

variable {sources} {meets other : Meets} {chain : Chain} {hash : UInt256}

theorem Names.congr (names : sources.Names meets chain hash)
    (agree : ∀ earlier, Earlier earlier chain → meets earlier = other earlier) : sources.Names other chain hash := by
  obtain ⟨before, j, child, rfl, met, young, spent⟩ := names
  exact ⟨before, j, child, rfl, agree before (Earlier.append before j) ▸ met, young, spent⟩

theorem Supplies.congr {prev : CMerkleTx} (supplies : sources.Supplies meets chain hash prev)
    (agree : meets chain = other chain) : sources.Supplies other chain hash prev :=
  ⟨supplies.1, agree ▸ supplies.2⟩

theorem Found.congr {tx : CTransaction} (found : sources.Found meets chain hash tx)
    (agree : ∀ earlier, Earlier earlier chain → meets earlier = other earlier) :
    sources.Found other chain hash tx := by
  cases found with
  | wallet found => exact .wallet found
  | supplied absent before supplies last =>
      exact .supplied absent before (supplies.congr (agree _ before))
        fun between prev past past' supplies => last between prev past past' (supplies.congr (agree _ past').symm)
  | disk absent unsupplied found =>
      exact .disk absent (fun earlier prev before supplies =>
        unsupplied earlier prev before (supplies.congr (agree _ before).symm)) found

/-- What is met at a chain depends on what is met at earlier chains only. -/
theorem Unfolds.step {tx met : CTransaction} (first : sources.Unfolds tx meets) (second : sources.Unfolds tx other)
    (agree : ∀ earlier, Earlier earlier chain → meets earlier = other earlier) (found : meets chain = some met) :
    other chain = some met := by
  rcases (first chain met).mp found with root | ⟨hash, names, fresh, known⟩
  · exact (second chain met).mpr (.inl root)
  · refine (second chain met).mpr (.inr ⟨hash, names.congr agree, fun earlier before named => ?_, known.congr agree⟩)
    exact fresh earlier before (named.congr fun past order => (agree past (order.trans before)).symm)

theorem Unfolds.unique {tx : CTransaction} (first : sources.Unfolds tx meets) (second : sources.Unfolds tx other) :
    meets = other := by
  funext chain
  induction chain using Earlier.wellFounded.induction with
  | _ chain ih =>
      refine Option.ext fun met => ⟨first.step second ih, second.step first fun earlier before => ?_⟩
      exact (ih earlier before).symm

end Unique

/-! ## The walk -/

theorem setMerkleBranch_tx (s : Node) (merkle : CMerkleTx) : (merkle.setMerkleBranch env s).1.tx = merkle.tx := by
  unfold CMerkleTx.setMerkleBranch
  repeat' split
  all_goals rfl

/-- The depth depends on the transaction only. -/
theorem setMerkleBranch_depth (merkle : CMerkleTx) :
    (merkle.setMerkleBranch env sources.node).2 = sources.depth merkle.tx := by
  unfold depth CMerkleTx.setMerkleBranch CMerkleTx.new
  dsimp only
  cases sources.node.txdb.fresh.readTxIndex (env.txHash merkle.tx) with
  | none => rfl
  | some txindex =>
      dsimp only
      cases sources.node.readBlockAt env txindex.pos.nFile txindex.pos.nBlockPos with
      | none => rfl
      | some block => rfl

theorem remember_apply (known : UInt256 → Option CMerkleTx) (vtxPrev : List CMerkleTx) (hash : UInt256) :
    remember env known vtxPrev hash = (lastWithHash env hash vtxPrev).or (known hash) := by
  induction vtxPrev using List.reverseRecOn with
  | nil => rfl
  | append_singleton vtxPrev prev ih =>
      rw [remember] at ih ⊢
      rw [List.foldl_append, List.foldl_cons, List.foldl_nil, lastWithHash, List.reverse_append, List.reverse_singleton,
        List.singleton_append, List.find?_cons]
      by_cases same : env.txHash prev.tx = hash
      · simp [same]
      · simp only [same, decide_false]
        rw [Function.update_of_ne fun equal => same equal.symm]
        exact ih

theorem lookUp_remembered (mapWalletPrev : UInt256 → Option CMerkleTx) (key hash : UInt256) :
    (sources.lookUp mapWalletPrev key).2 hash = (sources.carried key hash).or (mapWalletPrev hash) := by
  unfold lookUp carried
  cases sources.mapWallet key with
  | some wtx => exact remember_apply _ _ _
  | none => cases mapWalletPrev key <;> rfl

theorem visit_remembered (state : SupportState) (key : UInt256) :
    (sources.visit state key).1.mapWalletPrev = (sources.lookUp state.mapWalletPrev key).2 := by
  unfold visit
  split <;> simp [*]

/-- `mapWalletPrev` has what the transaction of the wallet that was visited last carried along. -/
theorem remembered_after (keys : List UInt256) (hash : UInt256) :
    (after sources.visit SupportState.initial keys).mapWalletPrev hash =
      keys.reverse.findSome? fun key => sources.carried key hash := by
  induction keys using List.reverseRecOn with
  | nil => rfl
  | append_singleton keys key ih =>
      rw [after] at ih ⊢
      rw [List.foldl_append, List.foldl_cons, List.foldl_nil, visit_remembered, lookUp_remembered, ih,
        List.reverse_append, List.reverse_singleton, List.singleton_append, List.findSome?_cons]
      cases sources.carried key hash <;> rfl

/-- What a visit appends are the inputs of a young transaction. -/
theorem visit_appends {state : SupportState} {hash key : UInt256} {j : ℕ} :
    (sources.visit state hash).2[j]? = some key ↔ ∃ tx, (sources.lookUp state.mapWalletPrev hash).1 = some tx ∧
      sources.depth tx.tx < copyDepth ∧ tx.tx.prevHashes[j]? = some key := by
  unfold visit
  split
  · rename_i absent
    simp [absent]
  · rename_i tx mapWalletPrev found
    simp only [found, setMerkleBranch_depth, Option.some.injEq, exists_eq_left']
    split
    · rename_i young
      simp [young]
    · rename_i old
      simp [old]

theorem visit_vtxPrev (state : SupportState) (key : UInt256) :
    (sources.visit state key).1.vtxPrev.map CMerkleTx.tx = state.vtxPrev.map CMerkleTx.tx ++
      ((sources.lookUp state.mapWalletPrev key).1.map CMerkleTx.tx).toList := by
  unfold visit
  split
  · rename_i absent
    simp [absent]
  · rename_i found
    simp [found, setMerkleBranch_tx]

section Walk

variable (tx : CTransaction)

/-- The visits of the loop. -/
def visits : List (Visit UInt256 SupportState) :=
  trace sources.visit (label [] tx.prevHashes) ∅ SupportState.initial

/-- The transaction that a visit finds. -/
def foundAt (v : Visit UInt256 SupportState) : Option CTransaction :=
  (sources.lookUp v.before.mapWalletPrev v.key).1.map CMerkleTx.tx

/-- What the loop meets at a chain. -/
def walked : Meets := fun chain =>
  if chain = [] then some tx
  else ((sources.visits tx).find? fun v => decide (v.chain = chain)).bind sources.foundAt

variable {sources tx} {v : Visit UInt256 SupportState} {hash : UInt256} {prev : CMerkleTx} {met : CTransaction}
  {chain : Chain}

theorem breadthFirst : BreadthFirst sources.visit tx.prevHashes (sources.visits tx) := trace_breadthFirst _ _

theorem chain_ne_nil (visited : v ∈ sources.visits tx) : v.chain ≠ [] := by
  rcases breadthFirst.offered v visited with ⟨j, named, -⟩ | ⟨u, -, j, named, -⟩ <;> simp [named]

theorem walked_iff : sources.walked tx chain = some met ↔
    (chain = [] ∧ met = tx) ∨ ∃ v ∈ sources.visits tx, v.chain = chain ∧ sources.foundAt v = some met := by
  unfold walked
  split
  · rename_i root
    constructor
    · exact fun same => .inl ⟨root, (Option.some.inj same).symm⟩
    · rintro (⟨-, rfl⟩ | ⟨v, visited, here, -⟩)
      · rfl
      · exact absurd (here.trans root) (chain_ne_nil visited)
  · rename_i inner
    rw [Option.bind_eq_some_iff]
    constructor
    · rintro ⟨v, first, found⟩
      have here : v.chain = chain := by simpa using List.find?_some first
      exact .inr ⟨v, List.mem_of_find?_eq_some first, here, found⟩
    · rintro (⟨root, -⟩ | ⟨v, visited, rfl, found⟩)
      · exact absurd root inner
      · cases first : (sources.visits tx).find? fun u => decide (u.chain = v.chain) with
        | none => exact absurd (decide_eq_true rfl) (List.find?_eq_none.mp first v visited)
        | some u =>
            have same : u.chain = v.chain := by simpa using List.find?_some first
            obtain rfl := breadthFirst.eq_of_chain (List.mem_of_find?_eq_some first) visited same
            exact ⟨u, rfl, found⟩

theorem carried_hash {key : UInt256} (found : sources.carried key hash = some prev) : env.txHash prev.tx = hash := by
  obtain ⟨wtx, -, last⟩ := Option.bind_eq_some_iff.mp found
  rw [lastWithHash] at last
  simpa using List.find?_some last

theorem remembered_before {front rest : List (Visit UInt256 SupportState)}
    (split : sources.visits tx = front ++ v :: rest) (hash : UInt256) :
    v.before.mapWalletPrev hash = front.reverse.findSome? fun u => sources.carried u.key hash := by
  rw [before_eq split, remembered_after, ← List.map_reverse, List.findSome?_map]
  rfl

/-- At a visit `mapWalletPrev` has nothing under a hash when nothing visited before carries it along. -/
theorem remembered_none (visited : v ∈ sources.visits tx) : v.before.mapWalletPrev hash = none ↔
    ∀ u ∈ sources.visits tx, Earlier u.chain v.chain → sources.carried u.key hash = none := by
  obtain ⟨front, rest, split⟩ := List.append_of_mem visited
  rw [remembered_before split, List.findSome?_eq_none_iff]
  constructor
  · intro none u inside earlier
    exact none u (List.mem_reverse.mpr ((breadthFirst.mem_front split).mpr ⟨inside, earlier⟩))
  · intro none u inside
    obtain ⟨visited', earlier⟩ := (breadthFirst.mem_front split).mp (List.mem_reverse.mp inside)
    exact none u visited' earlier

/-- Otherwise it has what the last of them carries along. -/
theorem remembered_some (visited : v ∈ sources.visits tx) : v.before.mapWalletPrev hash = some prev ↔
    ∃ u ∈ sources.visits tx, Earlier u.chain v.chain ∧ sources.carried u.key hash = some prev ∧
      ∀ w ∈ sources.visits tx, Earlier u.chain w.chain → Earlier w.chain v.chain →
        sources.carried w.key hash = none := by
  obtain ⟨front, rest, split⟩ := List.append_of_mem visited
  rw [remembered_before split, List.findSome?_eq_some_iff]
  constructor
  · rintro ⟨later, u, earlier, shape, found, unsupplied⟩
    have shape' : front = earlier.reverse ++ u :: later.reverse := by
      rw [← List.reverse_reverse front, shape]
      simp
    have split' : sources.visits tx = earlier.reverse ++ u :: (later.reverse ++ v :: rest) := by
      rw [split, shape']
      simp
    obtain ⟨inside, before⟩ := (breadthFirst.mem_front split).mp (shape' ▸ List.mem_append_right _ List.mem_cons_self)
    refine ⟨u, inside, before, found, fun w inside past past' => ?_⟩
    have inFront := (breadthFirst.mem_front split).mpr ⟨inside, past'⟩
    rw [shape'] at inFront
    rcases List.mem_append.mp inFront with old | inFront
    · exact absurd past ((breadthFirst.mem_front split').mp old).2.asymm
    · rcases List.mem_cons.mp inFront with rfl | inFront
      · exact absurd past (Earlier.irrefl _)
      · exact unsupplied w (List.mem_reverse.mp inFront)
  · rintro ⟨u, inside, before, found, last⟩
    obtain ⟨earlier, later, shape⟩ := List.append_of_mem ((breadthFirst.mem_front split).mpr ⟨inside, before⟩)
    have split' : sources.visits tx = earlier ++ u :: (later ++ v :: rest) := by
      rw [split, shape]
      simp
    refine ⟨later.reverse, u, earlier.reverse, by simp [shape], found, fun w member => ?_⟩
    have inFront : w ∈ front := shape ▸ List.mem_append_right _ (List.mem_cons_of_mem _ (List.mem_reverse.mp member))
    obtain ⟨inside', past'⟩ := (breadthFirst.mem_front split).mp inFront
    refine last w inside' ?_ past'
    have sorted : (sources.visits tx).Pairwise fun v later => Earlier v.chain later.chain := breadthFirst.sorted
    rw [split', List.pairwise_append, List.pairwise_cons] at sorted
    exact sorted.2.1.1 w (List.mem_append_left _ (List.mem_reverse.mp member))

theorem foundAt_hash (visited : v ∈ sources.visits tx) (found : sources.foundAt v = some met) :
    env.txHash met = v.key := by
  obtain ⟨merkle, looked, rfl⟩ := Option.map_eq_some_iff.mp found
  unfold lookUp at looked
  split at looked
  · rename_i wtx inWallet
    cases looked
    exact sources.wallet_keyed inWallet
  · split at looked
    · rename_i prev remembered
      cases looked
      obtain ⟨u, -, -, supplied, -⟩ := (remembered_some visited).mp remembered
      exact carried_hash supplied
    · obtain ⟨tx', stored, rfl⟩ := Option.map_eq_some_iff.mp looked
      exact sources.disk_keyed stored

theorem foundAt_wallet {wtx : CWalletTxRecord} (inWallet : sources.mapWallet v.key = some wtx) :
    sources.foundAt v = some wtx.merkle.tx := by
  simp [foundAt, lookUp, inWallet]

/-- A transaction that is in the wallet or in the database is found. -/
theorem foundAt_of_has (has : sources.Has v.key) : ∃ met, sources.foundAt v = some met := by
  unfold foundAt lookUp
  cases inWallet : sources.mapWallet v.key with
  | some wtx => exact ⟨wtx.merkle.tx, rfl⟩
  | none =>
      cases v.before.mapWalletPrev v.key with
      | some prev => exact ⟨prev.tx, rfl⟩
      | none =>
          obtain ⟨stored, read⟩ := Option.isSome_iff_exists.mp (has.resolve_left (by simp [inWallet]))
          exact ⟨stored, by simp [read, CMerkleTx.new]⟩

theorem supplies_walked : sources.Supplies (sources.walked tx) chain hash prev ↔
    ∃ u ∈ sources.visits tx, u.chain = chain ∧ sources.carried u.key hash = some prev := by
  constructor
  · rintro ⟨inner, met, found, supplied⟩
    obtain ⟨root, -⟩ | ⟨u, visited, here, foundAt⟩ := walked_iff.mp found
    · exact absurd root inner
    · exact ⟨u, visited, here, foundAt_hash visited foundAt ▸ supplied⟩
  · rintro ⟨u, visited, rfl, supplied⟩
    obtain ⟨wtx, inWallet, -⟩ := Option.bind_eq_some_iff.mp supplied
    refine ⟨chain_ne_nil visited, wtx.merkle.tx, walked_iff.mpr (.inr ⟨u, visited, rfl, foundAt_wallet inWallet⟩), ?_⟩
    rw [sources.wallet_keyed inWallet]
    exact supplied

theorem found_walked (visited : v ∈ sources.visits tx) :
    sources.Found (sources.walked tx) v.chain v.key met ↔ sources.foundAt v = some met := by
  constructor
  · intro found
    unfold foundAt lookUp
    cases found with
    | wallet inWallet => rw [inWallet]; rfl
    | supplied absent before supplies last =>
        rename_i earlier prev
        obtain ⟨u, visited', rfl, supplied⟩ := supplies_walked.mp supplies
        have remembered : v.before.mapWalletPrev v.key = some prev := by
          refine (remembered_some visited).mpr ⟨u, visited', before, supplied, fun w inside past past' => ?_⟩
          rw [Option.eq_none_iff_forall_ne_some]
          exact fun other carried => last w.chain other past past' (supplies_walked.mpr ⟨w, inside, rfl, carried⟩)
        rw [absent]
        dsimp only
        rw [remembered]
        rfl
    | disk absent unsupplied stored =>
        have forgotten : v.before.mapWalletPrev v.key = none := by
          refine (remembered_none visited).mpr fun u inside before => ?_
          rw [Option.eq_none_iff_forall_ne_some]
          exact fun other carried => unsupplied u.chain other before (supplies_walked.mpr ⟨u, inside, rfl, carried⟩)
        rw [absent]
        dsimp only
        rw [forgotten]
        simp [stored, CMerkleTx.new]
  · intro found
    obtain ⟨merkle, looked, rfl⟩ := Option.map_eq_some_iff.mp found
    unfold lookUp at looked
    split at looked
    · rename_i wtx inWallet
      cases looked
      exact .wallet inWallet
    · rename_i absent
      split at looked
      · rename_i prev remembered
        cases looked
        obtain ⟨u, visited', before, supplied, last⟩ := (remembered_some visited).mp remembered
        refine .supplied absent before (supplies_walked.mpr ⟨u, visited', rfl, supplied⟩) ?_
        intro between other past past' supplies
        obtain ⟨w, inside, rfl, carried⟩ := supplies_walked.mp supplies
        rw [last w inside past past'] at carried
        cases carried
      · rename_i forgotten
        obtain ⟨tx', stored, rfl⟩ := Option.map_eq_some_iff.mp looked
        refine .disk absent (fun earlier prev before supplies => ?_) stored
        obtain ⟨u, inside, rfl, carried⟩ := supplies_walked.mp supplies
        rw [(remembered_none visited).mp forgotten u inside before] at carried
        cases carried

theorem names_walked (young : sources.depth tx < copyDepth) : sources.Names (sources.walked tx) chain hash ↔
    Offered sources.visit tx.prevHashes (sources.visits tx) chain hash := by
  constructor
  · rintro ⟨before, j, child, rfl, met, young', spent⟩
    rcases walked_iff.mp met with ⟨rfl, rfl⟩ | ⟨v, visited, rfl, found⟩
    · exact .inl ⟨j, rfl, spent⟩
    · obtain ⟨merkle, looked, rfl⟩ := Option.map_eq_some_iff.mp found
      exact .inr ⟨v, visited, j, rfl, (sources.visit_appends).mpr ⟨merkle, looked, young', spent⟩⟩
  · rintro (⟨j, rfl, spent⟩ | ⟨v, visited, j, rfl, appended⟩)
    · exact ⟨[], j, tx, rfl, walked_iff.mpr (.inl ⟨rfl, rfl⟩), young, spent⟩
    · obtain ⟨merkle, looked, young', spent⟩ := (sources.visit_appends).mp appended
      have found : sources.foundAt v = some merkle.tx := by simp [foundAt, looked]
      exact ⟨v.chain, j, merkle.tx, rfl, walked_iff.mpr (.inr ⟨v, visited, rfl, found⟩), young', spent⟩

/-- The loop meets the transactions of the unfolding. -/
theorem unfolds_walked (young : sources.depth tx < copyDepth) : sources.Unfolds tx (sources.walked tx) := by
  intro chain met
  rw [walked_iff]
  refine or_congr_right ⟨?_, ?_⟩
  · rintro ⟨v, visited, rfl, found⟩
    obtain ⟨offered, first⟩ := breadthFirst.visited_iff.mp ⟨v, visited, rfl, rfl⟩
    refine ⟨v.key, (names_walked young).mpr offered, fun earlier before names => ?_, (found_walked visited).mpr found⟩
    exact first earlier before ((names_walked young).mp names)
  · rintro ⟨hash, names, first, found⟩
    have unnamed : ∀ earlier, Earlier earlier chain →
        ¬Offered sources.visit tx.prevHashes (sources.visits tx) earlier hash :=
      fun earlier before offered => first earlier before ((names_walked young).mpr offered)
    obtain ⟨v, visited, rfl, rfl⟩ := breadthFirst.visited_iff.mpr ⟨(names_walked young).mp names, unnamed⟩
    exact ⟨v, visited, rfl, (found_walked visited).mp found⟩

/-! ## The list -/

theorem vtxPrev_after {front rest : List (Visit UInt256 SupportState)} (split : sources.visits tx = front ++ rest) :
    (after sources.visit SupportState.initial (front.map Visit.key)).vtxPrev.map CMerkleTx.tx =
      front.filterMap sources.foundAt := by
  induction front using List.reverseRecOn generalizing rest with
  | nil => rfl
  | append_singleton front v ih =>
      rw [List.append_assoc, List.singleton_append] at split
      have before := before_eq split
      have step := sources.visit_vtxPrev v.before v.key
      have earlier := ih split
      rw [← before] at earlier
      rw [List.map_append, List.map_singleton, after, List.foldl_append, List.foldl_cons, List.foldl_nil, ← after,
        ← before, step, earlier, List.filterMap_append]
      rfl

theorem listed_eq {wtx : CWalletTxRecord} (young : sources.depth wtx.merkle.tx < copyDepth) :
    (sources.addSupportingTransactions wtx).vtxPrev.map CMerkleTx.tx =
      ((sources.visits wtx.merkle.tx).filterMap sources.foundAt).reverse := by
  rw [← setMerkleBranch_depth] at young
  have keys : explore sources.visit ((label [] wtx.merkle.tx.prevHashes).map Prod.snd) ∅ SupportState.initial =
      after sources.visit SupportState.initial ((sources.visits wtx.merkle.tx).map Visit.key) := explore_eq _ _ _
  rw [label_keys] at keys
  rw [addSupportingTransactions]
  dsimp only
  rw [if_pos young, keys, List.map_reverse]
  congr 1
  exact vtxPrev_after (List.append_nil _).symm

theorem mem_listed {wtx : CWalletTxRecord} (young : sources.depth wtx.merkle.tx < copyDepth) :
    met ∈ (sources.addSupportingTransactions wtx).vtxPrev.map CMerkleTx.tx ↔
      ∃ v ∈ sources.visits wtx.merkle.tx, sources.foundAt v = some met := by
  rw [listed_eq young, List.mem_reverse, List.mem_filterMap]

theorem listed_once {wtx : CWalletTxRecord} (young : sources.depth wtx.merkle.tx < copyDepth) :
    (((sources.addSupportingTransactions wtx).vtxPrev.map CMerkleTx.tx).map env.txHash).Nodup := by
  rw [listed_eq young, List.map_reverse, List.nodup_reverse, List.nodup_iff_pairwise_ne, List.pairwise_map,
    List.pairwise_filterMap]
  refine breadthFirst.distinct.imp_of_mem fun visited visited' apart met found met' found' => ?_
  rw [foundAt_hash visited found, foundAt_hash visited' found']
  exact apart

/-- What is offered and can be found is listed. -/
theorem listed_complete {wtx : CWalletTxRecord} (young : sources.depth wtx.merkle.tx < copyDepth)
    (chosen : met = wtx.merkle.tx ∨ met ∈ (sources.addSupportingTransactions wtx).vtxPrev.map CMerkleTx.tx)
    (young' : sources.depth met < copyDepth) (spent : hash ∈ met.prevHashes) (has : sources.Has hash) :
    hash ∈ ((sources.addSupportingTransactions wtx).vtxPrev.map CMerkleTx.tx).map env.txHash := by
  obtain ⟨j, at_j⟩ := List.getElem?_of_mem spent
  have offered : ∃ chain, Offered sources.visit wtx.merkle.tx.prevHashes (sources.visits wtx.merkle.tx) chain hash := by
    rcases chosen with rfl | listed
    · exact ⟨[j], .inl ⟨j, rfl, at_j⟩⟩
    · obtain ⟨v, visited, found⟩ := (mem_listed young).mp listed
      have met_v : sources.walked wtx.merkle.tx v.chain = some met := walked_iff.mpr (.inr ⟨v, visited, rfl, found⟩)
      exact ⟨v.chain ++ [j], (names_walked young).mp ⟨v.chain, j, met, rfl, met_v, young', at_j⟩⟩
  obtain ⟨chain, offered⟩ := offered
  obtain ⟨v, visited, rfl, -⟩ := breadthFirst.reached offered
  obtain ⟨parent, found⟩ := foundAt_of_has has
  exact List.mem_map.mpr ⟨parent, (mem_listed young).mpr ⟨v, visited, found⟩, foundAt_hash visited found⟩

/-- In a list that is sorted by chains, the order of the places is that of the chains. -/
theorem place_lt_iff {met : List (Chain × CTransaction)} (sorted : met.Pairwise fun a b => Earlier a.1 b.1) {i j : ℕ}
    {a b : Chain × CTransaction} (at_i : met[i]? = some a) (at_j : met[j]? = some b) : i < j ↔ Earlier a.1 b.1 := by
  obtain ⟨inside, rfl⟩ := List.getElem?_eq_some_iff.mp at_i
  obtain ⟨inside', rfl⟩ := List.getElem?_eq_some_iff.mp at_j
  have ordered := List.pairwise_iff_getElem.mp sorted
  refine ⟨ordered i j inside inside', fun earlier => ?_⟩
  rcases lt_trichotomy i j with less | rfl | greater
  · exact less
  · exact absurd earlier (Earlier.irrefl _)
  · exact absurd earlier (ordered j i inside' inside greater).asymm

/-- A reversed list has parents first when the list has children first. -/
theorem parentsFirst_reverse {txs : List CTransaction} : ParentsFirst env txs.reverse ↔
    ∀ ⦃i j : ℕ⦄ ⦃child parent⦄, txs[i]? = some child → txs[j]? = some parent → SpendsFrom env child parent → i < j := by
  have turned : ∀ {i : ℕ} {tx}, txs[i]? = some tx → i < txs.length ∧ txs.reverse[txs.length - 1 - i]? = some tx := by
    intro i tx at_i
    obtain ⟨inside, -⟩ := List.getElem?_eq_some_iff.mp at_i
    refine ⟨inside, ?_⟩
    rw [List.getElem?_reverse (by omega)]
    rwa [show txs.length - 1 - (txs.length - 1 - i) = i by omega]
  have back : ∀ {i : ℕ} {tx}, txs.reverse[i]? = some tx → i < txs.length ∧ txs[txs.length - 1 - i]? = some tx := by
    intro i tx at_i
    obtain ⟨inside, -⟩ := List.getElem?_eq_some_iff.mp at_i
    rw [List.length_reverse] at inside
    exact ⟨inside, by rwa [List.getElem?_reverse inside] at at_i⟩
  constructor
  · intro ordered i j child parent at_i at_j spends
    obtain ⟨inside, at_i⟩ := turned at_i
    obtain ⟨inside', at_j⟩ := turned at_j
    have less := ordered at_i at_j spends
    omega
  · intro ordered i j child parent at_i at_j spends
    obtain ⟨inside, at_i⟩ := back at_i
    obtain ⟨inside', at_j⟩ := back at_j
    have less := ordered at_i at_j spends
    omega

/-- The list has parents first exactly when the loop meets children first. -/
theorem listed_parentsFirst_iff {wtx : CWalletTxRecord} (young : sources.depth wtx.merkle.tx < copyDepth) :
    ParentsFirst env ((sources.addSupportingTransactions wtx).vtxPrev.map CMerkleTx.tx) ↔
      ChildrenFirst env (sources.walked wtx.merkle.tx) := by
  set visits := sources.visits wtx.merkle.tx with visits_eq
  let mets := visits.filterMap fun v => (sources.foundAt v).map fun met => (v.chain, met)
  have names : mets.map Prod.snd = visits.filterMap sources.foundAt := by
    rw [List.map_filterMap]
    refine List.filterMap_congr fun v _ => ?_
    cases sources.foundAt v <;> rfl
  have sorted : mets.Pairwise fun a b => Earlier a.1 b.1 := by
    rw [List.pairwise_filterMap]
    refine breadthFirst.sorted.imp fun earlier a found b found' => ?_
    obtain ⟨met, -, rfl⟩ := Option.map_eq_some_iff.mp found
    obtain ⟨met', -, rfl⟩ := Option.map_eq_some_iff.mp found'
    exact earlier
  have member : ∀ {chain met}, (chain, met) ∈ mets ↔ chain ≠ [] ∧ sources.walked wtx.merkle.tx chain = some met := by
    intro chain met
    rw [List.mem_filterMap, walked_iff]
    constructor
    · rintro ⟨v, visited, found⟩
      obtain ⟨met, found, same⟩ := Option.map_eq_some_iff.mp found
      cases same
      exact ⟨chain_ne_nil visited, .inr ⟨v, visited, rfl, found⟩⟩
    · rintro ⟨inner, ⟨root, -⟩ | ⟨v, visited, rfl, found⟩⟩
      · exact absurd root inner
      · exact ⟨v, visited, by rw [found]; rfl⟩
  rw [listed_eq young, ← visits_eq, ← names, parentsFirst_reverse]
  constructor
  · intro ordered p q child parent inner inner' met met' spends
    obtain ⟨i, at_i⟩ := List.getElem?_of_mem (member.mpr ⟨inner, met⟩)
    obtain ⟨j, at_j⟩ := List.getElem?_of_mem (member.mpr ⟨inner', met'⟩)
    exact (place_lt_iff sorted at_i at_j).mp (ordered (by simp [at_i]) (by simp [at_j]) spends)
  · intro first i j child parent at_i at_j spends
    rw [List.getElem?_map, Option.map_eq_some_iff] at at_i at_j
    obtain ⟨⟨p, child⟩, at_i, rfl⟩ := at_i
    obtain ⟨⟨q, parent⟩, at_j, rfl⟩ := at_j
    obtain ⟨inner, met⟩ := member.mp (List.mem_of_getElem? at_i)
    obtain ⟨inner', met'⟩ := member.mp (List.mem_of_getElem? at_j)
    exact (place_lt_iff sorted at_i at_j).mpr (first p q child parent inner inner' met met' spends)

end Walk

end SupportSources

namespace CWalletTxRecord

variable (env : Env)

/-- The submissions are some of the list, in its order. -/
theorem acceptSupporting_sublist (policy : Policy) (s : Node) (vtxPrev : List CMerkleTx) :
    (acceptSupporting env policy s vtxPrev).1.Sublist (vtxPrev.map CMerkleTx.tx) := by
  induction vtxPrev generalizing s with
  | nil => exact .slnil
  | cons prev vtxPrev ih =>
      rw [acceptSupporting, List.map_cons]
      split
      · exact (ih s).cons _
      · split
        · exact (ih _).cons_cons _
        · exact (ih s).cons _

theorem relayed_sublist (txdb : CTxDB) (txs : List CTransaction) : (relayed env txdb txs).Sublist txs :=
  List.filter_sublist

end CWalletTxRecord

namespace SupportSources

variable {env : Env} {sources : SupportSources env} {wtx : CWalletTxRecord}

/-- The supporting transactions of a young transaction are complete, without repetition and in order exactly
when the breadth-first walk over the inputs meets each child before its parents. -/
theorem supported_iff_childrenFirst (young : sources.depth wtx.merkle.tx < copyDepth) :
    sources.Supported wtx ↔ ∃ meets, sources.Unfolds wtx.merkle.tx meets ∧ ChildrenFirst env meets := by
  have hashes : ((sources.addSupportingTransactions wtx).vtxPrev.map fun prev => env.txHash prev.tx) =
      ((sources.addSupportingTransactions wtx).vtxPrev.map CMerkleTx.tx).map env.txHash := by
    rw [List.map_map]
    rfl
  constructor
  · intro supported
    exact ⟨_, unfolds_walked young, (listed_parentsFirst_iff young).mp supported.ordered⟩
  · rintro ⟨meets, unfolds, first⟩
    obtain rfl := unfolds.unique (unfolds_walked young)
    have ordered := (listed_parentsFirst_iff young).mpr first
    refine ⟨?_, ?_, ordered, fun policy s => ?_, fun txdb => ?_⟩
    · rw [hashes]
      exact listed_once young
    · intro met chosen young' hash spent has
      rw [hashes]
      exact listed_complete young chosen young' spent has
    · refine ⟨_, ordered.sublist (CWalletTxRecord.acceptSupporting_sublist env policy s _), ?_⟩
      exact congrArg (fun tx => _ ++ [tx]) (setMerkleBranch_tx _ _)
    · refine ⟨_, ordered.sublist (CWalletTxRecord.relayed_sublist env txdb _), ?_⟩
      exact congrArg (fun tx => _ ++ CWalletTxRecord.relayed env txdb [tx]) (setMerkleBranch_tx _ _)

/-- A transaction that only spends the outputs of some others. -/
def spendingFrom (nLockTime : UInt32) (hashes : List UInt256) : CTransaction :=
  ⟨1, 0, hashes.map fun hash => ⟨⟨hash, 0⟩, [], 0xffffffff⟩, [⟨1, [1]⟩], nLockTime⟩

/-- A record of the wallet that carries nothing along. -/
def plainRecord (tx : CTransaction) : CWalletTxRecord := ⟨CMerkleTx.new tx, [], ∅, [], 0, 0, 0, 0, [], [], -1⟩

/-- Two transactions of the wallet, the first of which spends from the second. -/
def childAndParent : SupportSources (Env.labelled false) where
  node := Node.initial ⟨fun _ => none, fun _ _ => none⟩ (fun _ => true) 0
  mapWallet hash :=
    if hash = 1 then some (plainRecord (spendingFrom 1 [2]))
    else if hash = 2 then some (plainRecord (spendingFrom 2 [9]))
    else none
  wallet_keyed := by
    intro hash wtx found
    split_ifs at found with first second
    · cases found
      exact first.symm
    · cases found
      exact second.symm
  disk_keyed := by
    intro hash tx found
    cases found

/-- A transaction that spends from the parent and then from the child. -/
def spendsBoth : CWalletTxRecord := plainRecord (spendingFrom 3 [2, 1])

theorem listed_childAndParent : (childAndParent.addSupportingTransactions spendsBoth).vtxPrev.map CMerkleTx.tx =
    [spendingFrom 1 [2], spendingFrom 2 [9]] := by
  let parent := CMerkleTx.new (spendingFrom 2 [9])
  let child := CMerkleTx.new (spendingFrom 1 [2])
  have first : childAndParent.visit SupportState.initial 2 = (⟨[parent], fun _ => none⟩, [9]) := rfl
  have second : childAndParent.visit ⟨[parent], fun _ => none⟩ 1 = (⟨[parent, child], fun _ => none⟩, [2]) := rfl
  have third : childAndParent.visit ⟨[parent, child], fun _ => none⟩ 9 = (⟨[parent, child], fun _ => none⟩, []) := rfl
  have walk : WorkQueue.explore childAndParent.visit [2, 1] ∅ SupportState.initial =
      ⟨[parent, child], fun _ => none⟩ := by
    rw [explore, if_neg (by decide), first, List.singleton_append, explore, if_neg (by decide), second,
      List.singleton_append, explore, if_neg (by decide), third, List.append_nil, explore, if_pos (by decide), explore]
  change ((explore childAndParent.visit [2, 1] ∅ SupportState.initial).vtxPrev.reverse).map CMerkleTx.tx = _
  rw [walk]
  rfl

/-- The child is listed, and submitted, before its parent. -/
theorem parent_listed_after_child : ¬childAndParent.Supported spendsBoth := by
  intro supported
  have ordered := supported.ordered
  rw [listed_childAndParent] at ordered
  have less : 1 < 0 := ordered (i := 0) (j := 1) rfl rfl (by decide)
  omega

/-- The condition, where it is not met. -/
theorem supported_iff_childrenFirst_spendsBoth : childAndParent.Supported spendsBoth ↔
    ∃ meets, childAndParent.Unfolds spendsBoth.merkle.tx meets ∧ ChildrenFirst (Env.labelled false) meets :=
  supported_iff_childrenFirst (by decide)

end SupportSources

end InfiniteRicks
