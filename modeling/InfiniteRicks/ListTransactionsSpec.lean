import InfiniteRicks.ListTransactions

/-!
# Pages of the history

The walk collects a beginning of the history that is long enough for the page, and the page is cut out
of it. That takes sums of `int` which do not overflow: a walk over any item adds both numbers of
the request.
-/

namespace InfiniteRicks

namespace HistoryWallet

/-! ## Pages of a list -/

/-- So many entries from a place on, the last ones first. -/
def page {α : Type} (entries : List α) (count start : Nat) : List α := ((entries.drop start).take count).reverse

section Lists

variable {α : Type}

/-- A page is the same in every beginning of the list that reaches its end. -/
theorem page_of_beginning {collected entries : List α} {count start : Nat} (beginning : collected <+: entries)
    (enough : collected = entries ∨ start + count ≤ collected.length) :
    page collected count start = page entries count start := by
  obtain ⟨rest, rfl⟩ := beginning
  rcases enough with whole | enough
  · rw [← whole]
  · rw [page, page, List.drop_append_of_le_length (by omega), List.take_append_of_le_length]
    rw [List.length_drop]
    omega

/-- Pages of equal size, one after the other, make up the list. -/
theorem pages_tile (entries : List α) (size pages : Nat) :
    ((List.range pages).map fun i => (page entries size (i * size)).reverse).flatten = entries.take (pages * size) := by
  induction pages with
  | zero => rw [Nat.zero_mul, List.take_zero, List.range_zero, List.map_nil, List.flatten_nil]
  | succ pages ih =>
      rw [List.range_succ, List.map_append, List.flatten_append, ih, List.map_singleton, List.flatten_singleton, page,
        List.reverse_reverse, ← List.take_add, Nat.succ_mul]

end Lists

/-! ## Sums of two numbers -/

theorem addInt_ok {a b : Int32} (low : -2 ^ 31 ≤ a.toInt + b.toInt) (high : a.toInt + b.toInt < 2 ^ 31) :
    addInt a b = .ok (a + b) ∧ (a + b).toInt = a.toInt + b.toInt := by
  refine ⟨if_pos ⟨low, high⟩, ?_⟩
  rw [Int32.toInt_add, Int.bmod_def]
  split <;> omega

theorem toInt_size {n : Nat} (fits : n < 2 ^ 31) : (Int32.ofNat n).toInt = n := by
  rw [Int32.toInt_ofNat_of_lt (by omega)]

/-! ## The walk -/

variable {rpc : ListEnv} {w : HistoryWallet} {strAccount : Bytes} {nCount nFrom : Int32}

/-- What the walk has collected is a beginning of the history, and all of it or enough. -/
theorem walk_beginning {items : List HistoryItem} {lists : List (List JsonObject)}
    (expanded : items.mapM (itemEntries rpc w strAccount) = some lists) {sum : Int32}
    (added : addInt nCount nFrom = .ok sum) (ret : List JsonObject) (fits : (ret ++ lists.flatten).length < 2 ^ 31) :
    ∃ collected, walk rpc w strAccount nCount nFrom items ret = .ok collected ∧ collected <+: ret ++ lists.flatten ∧
      (collected = ret ++ lists.flatten ∨ sum.toInt ≤ collected.length) := by
  induction items generalizing lists ret with
  | nil =>
      obtain rfl := Option.some.inj expanded
      exact ⟨ret, rfl, List.prefix_append _ _, .inl (List.append_nil ret).symm⟩
  | cons item rest ih =>
      rw [List.mapM_cons] at expanded
      obtain ⟨entries, here, expanded⟩ := Option.bind_eq_some_iff.mp expanded
      obtain ⟨others, later, same⟩ := Option.bind_eq_some_iff.mp expanded
      obtain rfl := Option.some.inj same
      rw [List.flatten_cons, ← List.append_assoc] at fits ⊢
      have size : (ret ++ entries).length < 2 ^ 31 := by
        rw [List.length_append] at fits
        omega
      have step : walk rpc w strAccount nCount nFrom (item :: rest) ret =
          if sum ≤ Int32.ofNat (ret ++ entries).length then .ok (ret ++ entries)
          else walk rpc w strAccount nCount nFrom rest (ret ++ entries) := by
        rw [walk, here]
        dsimp only
        rw [added]
        rfl
      rw [step]
      by_cases enough : sum ≤ Int32.ofNat (ret ++ entries).length
      · rw [if_pos enough]
        refine ⟨ret ++ entries, rfl, List.prefix_append _ _, .inr ?_⟩
        rw [Int32.le_iff_toInt_le, toInt_size size] at enough
        exact enough
      · rw [if_neg enough]
        exact ih later _ fits

/-- A walk over any item adds the two numbers. -/
theorem walk_overflow {item : HistoryItem} {rest : List HistoryItem} {entries : List JsonObject}
    (here : itemEntries rpc w strAccount item = some entries) (overflow : 2 ^ 31 ≤ nCount.toInt + nFrom.toInt)
    (ret : List JsonObject) : walk rpc w strAccount nCount nFrom (item :: rest) ret = .error .undefined := by
  have undefined : addInt nCount nFrom = .error .undefined := if_neg fun inside => by omega
  rw [walk, here]
  dsimp only
  rw [undefined]
  rfl

/-! ## The page -/

/-- The two clamps and the two erasures leave the page. -/
theorem cutPage_eq {ret : List JsonObject} (count : 0 ≤ nCount.toInt) (start : 0 ≤ nFrom.toInt)
    (size : ret.length < 2 ^ 31) (inRange : min nFrom.toInt ret.length + nCount.toInt < 2 ^ 31) :
    cutPage ret nCount nFrom = .ok (page ret nCount.toInt.toNat nFrom.toInt.toNat) := by
  have sizeInt := toInt_size size
  have least : (if Int32.ofNat ret.length < nFrom then Int32.ofNat ret.length else nFrom).toInt =
      min nFrom.toInt ret.length := by
    split <;> rename_i order <;> rw [Int32.lt_iff_toInt_lt, sizeInt] at order <;> omega
  rw [cutPage]
  dsimp only
  generalize (if Int32.ofNat ret.length < nFrom then Int32.ofNat ret.length else nFrom) = first at least ⊢
  obtain ⟨added, after⟩ := @addInt_ok first nCount (by omega) (by omega)
  rw [added]
  dsimp only [bind, Except.bind]
  have rest : (if Int32.ofNat ret.length < first + nCount then Int32.ofNat ret.length - first else nCount).toInt =
      min nCount.toInt (ret.length - first.toInt) := by
    split <;> rename_i order <;> rw [Int32.lt_iff_toInt_lt, sizeInt, after] at order
    · rw [Int32.toInt_sub, sizeInt, Int.bmod_def]
      split <;> omega
    · omega
  generalize (if Int32.ofNat ret.length < first + nCount then Int32.ofNat ret.length - first else nCount) = left
    at rest ⊢
  obtain ⟨ended, last⟩ := @addInt_ok first left (by omega) (by omega)
  rw [ended]
  dsimp only
  rw [slice, if_pos]
  · refine congrArg (fun cut => Except.ok (List.reverse cut)) ?_
    rw [last, List.drop_take]
    by_cases inside : nFrom.toInt ≤ ret.length
    · have firstNat : first.toInt.toNat = nFrom.toInt.toNat := by omega
      rw [firstNat]
      refine List.take_eq_take_iff.mpr ?_
      rw [List.length_drop]
      omega
    · rw [List.drop_eq_nil_of_le (by omega), List.drop_eq_nil_of_le (by omega), List.take_nil, List.take_nil]
  · have zero : (0 : Int32).toInt = 0 := rfl
    rw [Int32.le_iff_toInt_le, Int32.le_iff_toInt_le, last, zero]
    omega

/-- The call answers with its page of the history. -/
def AnswersPage (rpc : ListEnv) (w : HistoryWallet) (strAccount : Bytes) (entries : List JsonObject)
    (nCount nFrom : Int32) : Prop :=
  listtransactions rpc w strAccount nCount nFrom = .ok (page entries nCount.toInt.toNat nFrom.toInt.toNat)

theorem listtransactions_eq (count : 0 ≤ nCount) (start : 0 ≤ nFrom) :
    listtransactions rpc w strAccount nCount nFrom =
      (walk rpc w strAccount nCount nFrom (w.orderedTxItems strAccount).reverse []).bind
        fun ret => cutPage ret nCount nFrom := by
  rw [listtransactions, if_neg (Int32.not_lt.mpr count), if_neg (Int32.not_lt.mpr start)]
  rfl

/-- A request whose two numbers have a sum is answered with its page. -/
theorem answersPage_of_lt {entries : List JsonObject} (complete : history rpc w strAccount = some entries)
    (count : 0 ≤ nCount) (start : 0 ≤ nFrom) (fits : entries.length < 2 ^ 31)
    (small : nCount.toInt + nFrom.toInt < 2 ^ 31) : AnswersPage rpc w strAccount entries nCount nFrom := by
  obtain ⟨lists, expanded, rfl⟩ := Option.map_eq_some_iff.mp complete
  have countInt := Int32.le_iff_toInt_le.mp count
  have startInt := Int32.le_iff_toInt_le.mp start
  rw [Int32.toInt_zero] at countInt startInt
  obtain ⟨added, sum⟩ := @addInt_ok nCount nFrom (by omega) small
  obtain ⟨collected, walked, beginning, enough⟩ := walk_beginning expanded added [] fits
  rw [List.nil_append] at beginning enough
  have size := beginning.length_le
  rw [AnswersPage, listtransactions_eq count start, walked, Except.bind,
    cutPage_eq countInt startInt (by omega) (by omega)]
  refine congrArg Except.ok (page_of_beginning beginning (enough.imp_right fun long => ?_))
  omega

/-- So many pages of one size, from the newest one, hold as much of the history. -/
def PagesCover (rpc : ListEnv) (w : HistoryWallet) (strAccount : Bytes) (entries : List JsonObject) (nCount : Int32)
    (pages : Nat) : Prop :=
  ∃ answers, (List.range pages).mapM (fun i =>
      listtransactions rpc w strAccount nCount (Int32.ofNat (i * nCount.toInt.toNat))) = .ok answers ∧
    (answers.map List.reverse).flatten = entries.take (pages * nCount.toInt.toNat)

theorem mapM_ok {α β : Type} {f : α → Except ListFailure β} {value : α → β} {items : List α}
    (each : ∀ item ∈ items, f item = .ok (value item)) : items.mapM f = .ok (items.map value) := by
  induction items with
  | nil => rfl
  | cons item rest ih =>
      obtain ⟨here, others⟩ := List.forall_mem_cons.mp each
      rw [List.mapM_cons, here, ih others]
      rfl

theorem pagesCover {entries : List JsonObject} (complete : history rpc w strAccount = some entries)
    (count : 0 ≤ nCount) (fits : entries.length < 2 ^ 31) {pages : Nat} (small : pages * nCount.toInt < 2 ^ 31) :
    PagesCover rpc w strAccount entries nCount pages := by
  have countInt := Int32.le_iff_toInt_le.mp count
  rw [Int32.toInt_zero] at countInt
  obtain ⟨size, sized⟩ := Int.eq_ofNat_of_zero_le countInt
  refine ⟨(List.range pages).map fun i => page entries nCount.toInt.toNat (i * nCount.toInt.toNat),
    mapM_ok fun i inside => ?_, ?_⟩
  · have before : i + 1 ≤ pages := List.mem_range.mp inside
    have whole : i * size + size ≤ pages * size := by
      rw [← Nat.succ_mul]
      exact Nat.mul_le_mul_right size before
    rw [sized] at small
    have bound : pages * size < 2 ^ 31 := by exact_mod_cast small
    have start : (Int32.ofNat (i * nCount.toInt.toNat)).toInt = (i * size : Nat) := by
      rw [sized, Int.toNat_natCast]
      exact toInt_size (by omega)
    have nonneg : (0 : Int32) ≤ Int32.ofNat (i * nCount.toInt.toNat) := by
      rw [Int32.le_iff_toInt_le, start, Int32.toInt_zero]
      omega
    have answers := answersPage_of_lt complete count nonneg fits (by rw [start, sized]; omega)
    rw [AnswersPage, start, Int.toNat_natCast] at answers
    rw [answers, sized, Int.toNat_natCast]
  · rw [List.map_map]
    exact pages_tile entries _ pages

/-- A call answers with its page of the history exactly where the history has no items, or the two numbers have a
sum. Then consecutive pages of equal size make up the history. -/
theorem listtransactions_page_iff {entries : List JsonObject} (complete : history rpc w strAccount = some entries)
    (count : 0 ≤ nCount) (start : 0 ≤ nFrom) (fits : nCount.toInt + nFrom.toInt < 2 ^ 31 → entries.length < 2 ^ 31) :
    (AnswersPage rpc w strAccount entries nCount nFrom ↔
        w.orderedTxItems strAccount = [] ∨ nCount.toInt + nFrom.toInt < 2 ^ 31) ∧
      (nCount.toInt + nFrom.toInt < 2 ^ 31 → ∀ pages : Nat, pages * nCount.toInt < 2 ^ 31 →
        PagesCover rpc w strAccount entries nCount pages) := by
  refine ⟨⟨?_, ?_⟩, fun small pages bound => pagesCover complete count (fits small) bound⟩
  · intro answers
    by_contra neither
    obtain ⟨some_, overflow⟩ := not_or.mp neither
    obtain ⟨item, rest, shape⟩ := List.exists_cons_of_ne_nil (mt List.reverse_eq_nil_iff.mp some_)
    rw [history, shape, List.mapM_cons] at complete
    obtain ⟨lists, expanded, -⟩ := Option.map_eq_some_iff.mp complete
    obtain ⟨entries, here, -⟩ := Option.bind_eq_some_iff.mp expanded
    rw [AnswersPage, listtransactions_eq count start, shape, walk_overflow here (not_lt.mp overflow)] at answers
    cases answers
  · rintro (empty | small)
    · rw [history, empty] at complete
      obtain rfl : [] = entries := Option.some.inj complete
      have countInt := Int32.le_iff_toInt_le.mp count
      have startInt := Int32.le_iff_toInt_le.mp start
      have below := nCount.toInt_lt
      rw [Int32.toInt_zero] at countInt startInt
      rw [AnswersPage, listtransactions_eq count start, empty]
      refine cutPage_eq countInt startInt (by decide) ?_
      rw [List.length_nil]
      omega
    · exact answersPage_of_lt complete count start (fits small) small

end HistoryWallet

section Concrete

open HistoryWallet

/-- A chain without blocks, and keys that own nothing. -/
def ListEnv.sample : ListEnv where
  chain := ⟨fun _ => true, fun _ => 0, 0⟩
  nBlockTime _ := 0
  keys := ⟨fun _ => false, fun _ => none, fun _ => false, 0⟩
  fTestNet := true
  hash _ := 0

/-- An accounting entry that moves some coins, at a position. -/
def movedCoins (nCreditDebit nOrderPos : Int64) : CAccountingEntry :=
  ⟨[], nCreditDebit, 1000, [97], [], ∅, nOrderPos, 0, []⟩

/-- A wallet with two accounting entries and no transactions. -/
def HistoryWallet.moves : HistoryWallet where
  accounts := ⟨∅, ∅, [movedCoins 5 1, movedCoins 6 2]⟩
  details _ := ⟨∅, 0, 0, 0⟩

/-- The history of that wallet. -/
def movesHistory : List JsonObject := acentryToJSON (movedCoins 6 2) [42] ++ acentryToJSON (movedCoins 5 1) [42]

theorem orderedTxItems_moves :
    HistoryWallet.moves.orderedTxItems [42] = [.entry (movedCoins 5 1), .entry (movedCoins 6 2)] := by
  have txs : (HistoryWallet.moves.accounts.mapWallet.entries.mergeSort fun a b => a.1.toNat ≤ b.1.toNat) = [] :=
    List.mergeSort_nil
  rw [orderedTxItems, txs]
  refine List.mergeSort_of_pairwise (List.pairwise_pair.mpr (decide_eq_true ?_))
  exact (by decide : (1 : Int64) ≤ 2)

theorem history_moves : history .sample .moves [42] = some movesHistory := by
  rw [history, orderedTxItems_moves]
  rfl

/-- The second page of a history of two entries. -/
theorem listtransactions_page_sample : AnswersPage .sample .moves [42] movesHistory 1 1 :=
  (listtransactions_page_iff history_moves (by decide) (by decide) fun _ => by decide).1.mpr (.inr (by decide))

/-- As many entries as an `int` can tell, from the second one on: the sum of both numbers overflows. -/
theorem listtransactions_overflow :
    ¬∀ (rpc : ListEnv) (w : HistoryWallet) (strAccount : Bytes) (entries : List JsonObject) (nCount nFrom : Int32),
      history rpc w strAccount = some entries → 0 ≤ nCount → 0 ≤ nFrom →
        AnswersPage rpc w strAccount entries nCount nFrom := by
  intro claim
  have answers := claim .sample .moves [42] movesHistory 2147483647 1 history_moves (by decide) (by decide)
  rw [AnswersPage, listtransactions_eq (by decide) (by decide), orderedTxItems_moves] at answers
  cases answers.symm.trans (congrArg (Except.bind · _) (walk_overflow rfl (by decide) []))

end Concrete

end InfiniteRicks
