import Mathlib.Data.List.Perm.Basic
import InfiniteRicks.Library.Insertion
import InfiniteRicks.Reorder

/-!
# What the order of a wallet is after `ReorderTransactions`

The loop is a run of `Library.Insertion` over the items in the order of their times, as long as no
position leaves an `int64_t`. Entries of named accounts are not visited and stay where they are.
-/

namespace InfiniteRicks

open Library Library.Insertion

namespace OrderWallet

/-! ## Positions that are set -/

/-- An item where a position has been set. -/
def setItem (item : TxPair) (nOrderPos : Int64) (e : TxPair) : TxPair :=
  if e.key = item.key then e.moved nOrderPos else e

theorem key_moved (e : TxPair) (nOrderPos : Int64) : (e.moved nOrderPos).key = e.key := by
  cases e <;> rfl

theorem nOrderPos_moved (e : TxPair) (nOrderPos : Int64) : (e.moved nOrderPos).nOrderPos = nOrderPos := by
  cases e <;> rfl

theorem key_setItem (item e : TxPair) (nOrderPos : Int64) : (setItem item nOrderPos e).key = e.key := by
  rw [setItem]
  split_ifs
  · exact key_moved e nOrderPos
  · rfl

theorem setItem_own {item e : TxPair} (nOrderPos : Int64) (own : e.key = item.key) :
    setItem item nOrderPos e = e.moved nOrderPos := if_pos own

theorem setItem_other {item e : TxPair} (nOrderPos : Int64) (other : e.key ≠ item.key) :
    setItem item nOrderPos e = e := if_neg other

theorem tx_setOrderPos (w : OrderWallet) (item : TxPair) (nOrderPos : Int64) :
    (w.setOrderPos item nOrderPos).mapWallet.map (fun e => TxPair.tx e.1 e.2) =
      w.mapWallet.map fun e => setItem item nOrderPos (TxPair.tx e.1 e.2) := by
  cases item with
  | tx hash wtx =>
      rw [setOrderPos, List.map_map]
      refine List.map_congr_left fun e _ => ?_
      show TxPair.tx (if e.1 = hash then (e.1, _) else e).1 (if e.1 = hash then (e.1, _) else e).2 = _
      by_cases own : e.1 = hash
      · rw [if_pos own, setItem_own nOrderPos (by rw [TxPair.key, TxPair.key, own])]
        rfl
      · have other : (TxPair.tx e.1 e.2).key ≠ (TxPair.tx hash wtx).key := fun same => own (OrderKey.tx.inj same)
        rw [if_neg own, setItem_other nOrderPos other]
  | entry acentry => exact List.map_congr_left fun e _ => (setItem_other nOrderPos (by rintro ⟨⟩)).symm

theorem entry_setOrderPos (w : OrderWallet) (item : TxPair) (nOrderPos : Int64) :
    (w.setOrderPos item nOrderPos).acentries.map TxPair.entry =
      w.acentries.map fun e => setItem item nOrderPos (TxPair.entry e) := by
  cases item with
  | tx hash wtx => exact List.map_congr_left fun e _ => (setItem_other nOrderPos (by rintro ⟨⟩)).symm
  | entry acentry =>
      rw [setOrderPos, List.map_map]
      refine List.map_congr_left fun e _ => ?_
      show TxPair.entry (if e.strAccount = acentry.strAccount ∧ e.nEntryNo = acentry.nEntryNo then _ else e) = _
      by_cases own : e.strAccount = acentry.strAccount ∧ e.nEntryNo = acentry.nEntryNo
      · rw [if_pos own, setItem_own nOrderPos (by rw [TxPair.key, TxPair.key, own.1, own.2])]
        rfl
      · have other : (TxPair.entry e).key ≠ (TxPair.entry acentry).key := fun same => own (OrderKey.entry.inj same)
        rw [if_neg own, setItem_other nOrderPos other]

theorem items_setOrderPos (w : OrderWallet) (item : TxPair) (nOrderPos : Int64) :
    (w.setOrderPos item nOrderPos).items = w.items.map (setItem item nOrderPos) := by
  rw [items, tx_setOrderPos, entry_setOrderPos, items, List.map_append, List.map_map, List.map_map]
  rfl

/-! ## Positions of all that has been visited -/

/-- An item after visits, each of an item and the position that it is given. -/
def placed (visits : List (TxPair × Int)) (e : TxPair) : TxPair :=
  visits.foldl (fun e visit => setItem visit.1 (Int64.ofInt visit.2) e) e

theorem key_placed (visits : List (TxPair × Int)) (e : TxPair) : (placed visits e).key = e.key := by
  induction visits generalizing e with
  | nil => rfl
  | cons visit rest ih => exact (ih _).trans (key_setItem visit.1 e _)

theorem placed_concat (visits : List (TxPair × Int)) (visit : TxPair × Int) (e : TxPair) :
    placed (visits ++ [visit]) e = setItem visit.1 (Int64.ofInt visit.2) (placed visits e) := by
  rw [placed, List.foldl_append]
  rfl

theorem placed_other {visits : List (TxPair × Int)} {e : TxPair} (unvisited : ∀ visit ∈ visits, visit.1.key ≠ e.key) :
    placed visits e = e := by
  induction visits with
  | nil => rfl
  | cons visit rest ih =>
      obtain ⟨apart, others⟩ := List.forall_mem_cons.mp unvisited
      show placed rest (setItem visit.1 _ e) = e
      rw [setItem_other _ apart.symm, ih others]

theorem placed_own {visits : List (TxPair × Int)} (keys : (visits.map fun visit => visit.1.key).Nodup)
    {visit : TxPair × Int} (member : visit ∈ visits) :
    placed visits visit.1 = visit.1.moved (Int64.ofInt visit.2) := by
  induction visits with
  | nil => cases member
  | cons first rest ih =>
      rw [List.map_cons, List.nodup_cons] at keys
      show placed rest (setItem first.1 _ visit.1) = _
      rcases List.mem_cons.mp member with rfl | later
      · rw [setItem_own _ rfl, placed_other]
        intro other there same
        rw [key_moved] at same
        exact keys.1 (List.mem_map.mpr ⟨other, there, same⟩)
      · have apart : visit.1.key ≠ first.1.key := fun same => keys.1 (List.mem_map.mpr ⟨visit, later, same⟩)
        rw [setItem_other _ apart, ih keys.2 later]

/-! ## One pass through the loop -/

/-- `nOrderPosOff`. -/
def offset (nOrderPosOffsets : List Int64) (nOrderPos : Int64) : Int64 :=
  nOrderPosOffsets.foldl (fun nOrderPosOff nOffsetStart =>
    if nOffsetStart ≤ nOrderPos then nOrderPosOff + 1 else nOrderPosOff) 0

theorem visit_cases {write : TxPair → Bool} {s visited : Reordering} {item : TxPair}
    (ok : visit write s item = some visited) :
    item.nOrderPos = -1 ∧
        visited.w.items = s.w.items.map (setItem item s.w.nOrderPosNext) ∧
        visited.w.nOrderPosNext = s.w.nOrderPosNext + 1 ∧
        visited.nOrderPosOffsets = s.nOrderPosOffsets ++ [s.w.nOrderPosNext] ∨
      item.nOrderPos ≠ -1 ∧
        visited.w.items =
          s.w.items.map (setItem item (item.nOrderPos + offset s.nOrderPosOffsets item.nOrderPos)) ∧
        visited.w.nOrderPosNext =
          (if s.w.nOrderPosNext < item.nOrderPos + offset s.nOrderPosOffsets item.nOrderPos + 1 then
            item.nOrderPos + offset s.nOrderPosOffsets item.nOrderPos + 1
          else s.w.nOrderPosNext) ∧
        visited.nOrderPosOffsets = s.nOrderPosOffsets := by
  rw [visit] at ok
  by_cases unplaced : item.nOrderPos = -1
  · rw [if_pos unplaced] at ok
    dsimp only at ok
    split at ok
    · cases ok
    · cases ok
      exact .inl ⟨unplaced, items_setOrderPos s.w item _, rfl, rfl⟩
  · rw [if_neg unplaced] at ok
    dsimp only at ok
    split at ok
    · cases ok
    · cases ok
      exact .inr ⟨unplaced, items_setOrderPos s.w item _, rfl, rfl⟩

/-! ## The loop as a run of insertions -/

/-- The position of an item that has one. -/
def mark (item : TxPair) : Option Int := if item.nOrderPos = -1 then none else some item.nOrderPos.toInt

theorem toInt_counted (nOrderPosOffsets : List Int64) (nOrderPos start : Int64) (nonneg : 0 ≤ start.toInt)
    (few : start.toInt + nOrderPosOffsets.length < 2 ^ 63) :
    (nOrderPosOffsets.foldl (fun nOrderPosOff nOffsetStart =>
        if nOffsetStart ≤ nOrderPos then nOrderPosOff + 1 else nOrderPosOff) start).toInt =
      start.toInt + (nOrderPosOffsets.map Int64.toInt).countP fun point => point ≤ nOrderPos.toInt := by
  induction nOrderPosOffsets generalizing start with
  | nil => exact (add_zero _).symm
  | cons first rest ih =>
      rw [List.length_cons] at few
      rw [List.foldl_cons, List.map_cons, List.countP_cons]
      by_cases here : first ≤ nOrderPos
      · have more : (start + 1).toInt = start.toInt + 1 := by
          rw [Int64.toInt_add, Int64.toInt_one, Int.bmod_eq_of_le (by omega) (by omega)]
        rw [if_pos here, ih (start + 1) (by omega) (by omega), more,
          if_pos (decide_eq_true (Int64.le_iff_toInt_le.mp here))]
        omega
      · rw [if_neg here, ih start nonneg (by omega),
          if_neg fun less => here (Int64.le_iff_toInt_le.mpr (of_decide_eq_true less))]
        omega

theorem toInt_offset {nOrderPosOffsets : List Int64} (few : (nOrderPosOffsets.length : Int) < 2 ^ 63)
    (nOrderPos : Int64) :
    (offset nOrderPosOffsets nOrderPos).toInt =
      (nOrderPosOffsets.map Int64.toInt).countP fun point => point ≤ nOrderPos.toInt := by
  have counted := toInt_counted nOrderPosOffsets nOrderPos 0 le_rfl (by rw [Int64.toInt_zero]; omega)
  rw [Int64.toInt_zero, zero_add] at counted
  exact counted

/-- The state of the loop after some items is that of the insertions. -/
structure Agrees (w : OrderWallet) (before : List TxPair) (s : Reordering) : Prop where
  fits : (run (before.map mark)).next < 2 ^ 63
  next : s.w.nOrderPosNext.toInt = (run (before.map mark)).next
  points : s.nOrderPosOffsets.map Int64.toInt = (run (before.map mark)).points
  items : s.w.items = w.items.map (placed (before.zip (run (before.map mark)).places))

/-- A position left an `int64_t`: an item has one that is negative, or than which there is no greater one. -/
structure Lost (before : List TxPair) (s : Reordering) : Prop where
  exceeds : 2 ^ 63 ≤ (run (before.map mark)).next
  lost : ∃ e ∈ s.w.items, e.key ∈ before.map TxPair.key ∧ (e.nOrderPos.toInt < 0 ∨ e.nOrderPos.toInt = 2 ^ 63 - 1)

variable {w : OrderWallet} {before : List TxPair} {s visited : Reordering} {item : TxPair}

theorem run_mark_concat (before : List TxPair) (item : TxPair) :
    run ((before ++ [item]).map mark) = step (run (before.map mark)) (mark item) := by
  rw [List.map_append, List.map_singleton, run_concat]

theorem Agrees.few (agrees : Agrees w before s) : (s.nOrderPosOffsets.length : Int) < 2 ^ 63 := by
  have most := length_points_le (before.map mark)
  have fits := agrees.fits
  rw [← agrees.points, List.length_map] at most
  omega

/-- The item that is visited has the position that is set. -/
theorem Agrees.set (agrees : Agrees w before s) (member : item ∈ w.items) {nOrderPos : Int64}
    (items : visited.w.items = s.w.items.map (setItem item nOrderPos)) :
    ∃ e ∈ visited.w.items, e.key = item.key ∧ e.nOrderPos = nOrderPos := by
  refine ⟨setItem item nOrderPos (placed (before.zip (run (before.map mark)).places) item), ?_, ?_, ?_⟩
  · rw [items, agrees.items, List.map_map]
    exact List.mem_map_of_mem member
  · rw [key_setItem, key_placed]
  · rw [setItem_own _ (key_placed _ item), nOrderPos_moved]

theorem Agrees.items_concat (agrees : Agrees w before s) {nOrderPos : Int64} {place : Int}
    (items : visited.w.items = s.w.items.map (setItem item nOrderPos)) (value : nOrderPos.toInt = place) :
    visited.w.items = w.items.map (placed ((before ++ [item]).zip ((run (before.map mark)).places ++ [place]))) := by
  have length := (visited_run (before.map mark)).length
  rw [List.length_map] at length
  rw [items, agrees.items, List.map_map, List.zip_append length.symm, ← value]
  refine List.map_congr_left fun e _ => ?_
  show setItem item nOrderPos (placed _ e) = placed (_ ++ [(item, nOrderPos.toInt)]) e
  rw [placed_concat, Int64.ofInt_toInt]

theorem Agrees.lost (agrees : Agrees w before s) (member : item ∈ w.items) {nOrderPos : Int64}
    (items : visited.w.items = s.w.items.map (setItem item nOrderPos))
    (exceeds : 2 ^ 63 ≤ (step (run (before.map mark)) (mark item)).next)
    (outside : nOrderPos.toInt < 0 ∨ nOrderPos.toInt = 2 ^ 63 - 1) : Lost (before ++ [item]) visited := by
  obtain ⟨e, there, own, value⟩ := agrees.set member items
  refine ⟨by rwa [run_mark_concat], e, there, ?_, by rwa [value]⟩
  rw [List.map_append, own]
  exact List.mem_append_right _ (List.mem_singleton_self _)

theorem Agrees.visit {write : TxPair → Bool} (agrees : Agrees w before s) (member : item ∈ w.items)
    (nonneg : item.nOrderPos = -1 ∨ 0 ≤ item.nOrderPos) (ok : visit write s item = some visited) :
    Agrees w (before ++ [item]) visited ∨ Lost (before ++ [item]) visited := by
  have fits := agrees.fits
  have next := (visited_run (before.map mark)).next
  rcases visit_cases ok with ⟨unplaced, items, last, offsets⟩ | ⟨isPlaced, items, last, offsets⟩
  · have marked : mark item = none := if_pos unplaced
    by_cases room : (run (before.map mark)).next + 1 < 2 ^ 63
    · refine .inl ⟨?_, ?_, ?_, ?_⟩ <;> rw [run_mark_concat, marked]
      · exact room
      · rw [last, Int64.toInt_add, Int64.toInt_one, agrees.next, Int.bmod_eq_of_le (by omega) (by omega)]
        rfl
      · rw [offsets, List.map_append, agrees.points, List.map_singleton, agrees.next]
        rfl
      · exact agrees.items_concat items agrees.next
    · refine .inr (agrees.lost member items ?_ (.inr ?_))
      · rw [marked]
        exact not_lt.mp room
      · rw [agrees.next]
        omega
  · have marked : mark item = some item.nOrderPos.toInt := if_neg isPlaced
    have low : 0 ≤ item.nOrderPos.toInt := Int64.le_iff_toInt_le.mp (nonneg.resolve_left isPlaced)
    have high : item.nOrderPos.toInt < 2 ^ 63 := Int64.toInt_lt item.nOrderPos
    have count := toInt_offset agrees.few item.nOrderPos
    have most := Int64.toInt_lt (offset s.nOrderPosOffsets item.nOrderPos)
    rw [agrees.points] at count
    have value : moved (run (before.map mark)).points item.nOrderPos.toInt =
        item.nOrderPos.toInt + (offset s.nOrderPosOffsets item.nOrderPos).toInt := by rw [moved, count]
    have sum := Int64.toInt_add item.nOrderPos (offset s.nOrderPosOffsets item.nOrderPos)
    rw [← value] at sum
    by_cases room : moved (run (before.map mark)).points item.nOrderPos.toInt + 1 < 2 ^ 63
    · rw [Int.bmod_eq_of_le (by omega) (by omega)] at sum
      have after := Int64.toInt_add (item.nOrderPos + offset s.nOrderPosOffsets item.nOrderPos) 1
      rw [sum, Int64.toInt_one, Int.bmod_eq_of_le (by omega) (by omega)] at after
      refine .inl ⟨?_, ?_, ?_, ?_⟩ <;> rw [run_mark_concat, marked]
      · exact max_lt fits room
      · show _ = max _ _
        rw [last, ← after, ← agrees.next]
        by_cases less : s.w.nOrderPosNext < item.nOrderPos + offset s.nOrderPosOffsets item.nOrderPos + 1
        · rw [if_pos less, max_eq_right (Int64.lt_iff_toInt_lt.mp less).le]
        · rw [if_neg less, max_eq_left (not_lt.mp fun greater => less (Int64.lt_iff_toInt_lt.mpr greater))]
      · rw [offsets, agrees.points]
        rfl
      · exact agrees.items_concat items sum
    · refine .inr (agrees.lost member items ?_ ?_)
      · rw [marked]
        exact (not_lt.mp room).trans (le_max_right _ _)
      · rw [sum, Int.bmod_def]
        omega

theorem Lost.visit {write : TxPair → Bool} (lost : Lost before s) (apart : item.key ∉ before.map TxPair.key)
    (ok : visit write s item = some visited) : Lost (before ++ [item]) visited := by
  obtain ⟨e, there, known, outside⟩ := lost.lost
  have same : ∃ nOrderPos, visited.w.items = s.w.items.map (setItem item nOrderPos) := by
    rcases visit_cases ok with ⟨-, items, -⟩ | ⟨-, items, -⟩
    · exact ⟨_, items⟩
    · exact ⟨_, items⟩
  obtain ⟨nOrderPos, items⟩ := same
  refine ⟨?_, e, ?_, ?_, outside⟩
  · rw [run_mark_concat]
    exact lost.exceeds.trans (next_le_step _ _)
  · rw [items]
    exact List.mem_map.mpr ⟨e, there, setItem_other nOrderPos fun own => apart (own ▸ known)⟩
  · rw [List.map_append]
    exact List.mem_append_left _ known

/-- The whole loop. -/
theorem agrees_or_lost {write : TxPair → Bool} (visits : List TxPair) (members : ∀ item ∈ visits, item ∈ w.items)
    (nonneg : ∀ item ∈ visits, item.nOrderPos = -1 ∨ 0 ≤ item.nOrderPos) (keys : (visits.map TxPair.key).Nodup)
    (ok : visits.foldlM (OrderWallet.visit write) ⟨{ w with nOrderPosNext := 0 }, []⟩ = some visited) :
    Agrees w visits visited ∨ Lost visits visited := by
  induction visits using List.reverseRecOn generalizing visited with
  | nil =>
      cases ok
      exact .inl ⟨by decide, rfl, rfl, (List.map_id _).symm⟩
  | append_singleton before item ih =>
      rw [List.foldlM_append, Option.bind_eq_bind, Option.bind_eq_some_iff] at ok
      obtain ⟨s, earlier, last⟩ := ok
      rw [List.foldlM_cons, Option.bind_eq_bind, Option.bind_eq_some_iff] at last
      obtain ⟨_, last, finished⟩ := last
      cases finished
      rw [List.map_append, List.nodup_append] at keys
      have own : item ∈ before ++ [item] := List.mem_append_right _ (List.mem_singleton_self item)
      have apart : item.key ∉ before.map TxPair.key := fun known =>
        keys.2.2 _ known _ (List.mem_singleton_self item.key) rfl
      rcases ih (fun e there => members e (List.mem_append_left _ there))
          (fun e there => nonneg e (List.mem_append_left _ there)) keys.1 earlier with agrees | lost
      · exact agrees.visit (members item own) (nonneg item own) last
      · exact .inr (lost.visit apart last)

/-! ## Where items are after the loop -/

/-- The entries that are not visited. -/
def named (w : OrderWallet) : List CAccountingEntry := w.acentries.filter fun acentry => acentry.strAccount ≠ []

/-- The insertions of the loop: what has no position comes, in the order of times, after all that comes before it. -/
def insertions (w : OrderWallet) : Library.Insertion.State := run (w.txByTime.map mark)

/-- Positions are `-1`, or distinct and not negative. -/
structure Ordered (w : OrderWallet) : Prop where
  nonneg : ∀ e ∈ w.items, e.nOrderPos = -1 ∨ 0 ≤ e.nOrderPos
  distinct : w.items.Pairwise fun a b => a.nOrderPos = b.nOrderPos → a.nOrderPos = -1

theorem items_perm (w : OrderWallet) : w.items.Perm (w.txByTime ++ w.named.map TxPair.entry) := by
  have parts : w.acentries.Perm (w.unnamed ++ w.named) := by
    have filtered := List.filter_append_perm (fun acentry : CAccountingEntry => decide (acentry.strAccount = [])) w.acentries
    rw [unnamed, named]
    simpa only [decide_not] using filtered.symm
  rw [items]
  refine ((parts.map TxPair.entry).append_left _).trans ?_
  rw [List.map_append, ← List.append_assoc]
  exact (List.mergeSort_perm _ _).symm.append_right _

theorem keys_parts (keys : (w.items.map TxPair.key).Nodup) :
    (w.txByTime.map TxPair.key ++ (w.named.map TxPair.entry).map TxPair.key).Nodup := by
  rw [← List.map_append]
  exact ((items_perm w).map _).nodup_iff.mp keys

theorem txByTime_subset {e : TxPair} (member : e ∈ w.txByTime) : e ∈ w.items :=
  (items_perm w).mem_iff.mpr (List.mem_append_left _ member)

theorem named_subset {e : TxPair} (member : e ∈ w.named.map TxPair.entry) : e ∈ w.items :=
  (items_perm w).mem_iff.mpr (List.mem_append_right _ member)

theorem eq_of_key (keys : (w.items.map TxPair.key).Nodup) {a b : TxPair} (first : a ∈ w.items) (second : b ∈ w.items)
    (same : a.key = b.key) : a = b := List.inj_on_of_nodup_map keys first second same

/-- The items that are visited, each with its place. -/
def visits (w : OrderWallet) : List (TxPair × Int) := w.txByTime.zip w.insertions.places

theorem length_places (w : OrderWallet) : w.insertions.places.length = w.txByTime.length := by
  rw [insertions, (visited_run _).length, List.length_map]

theorem fst_visits (w : OrderWallet) : w.visits.map Prod.fst = w.txByTime :=
  List.map_fst_zip (length_places w).ge

theorem snd_visits (w : OrderWallet) : w.visits.map Prod.snd = w.insertions.places :=
  List.map_snd_zip (length_places w).le

theorem keys_visits (keys : (w.items.map TxPair.key).Nodup) : (w.visits.map fun visit => visit.1.key).Nodup := by
  have visited := (List.nodup_append.mp (keys_parts keys)).1
  rw [← fst_visits, List.map_map] at visited
  exact visited

theorem place_range (ordered : Ordered w) {place : Int} (member : place ∈ w.insertions.places) :
    0 ≤ place ∧ place < w.insertions.next := by
  have visited := visited_run (w.txByTime.map mark)
  rcases List.mem_append.mp (visited.perm.mem_iff.mp member) with point | move
  · exact visited.range place point
  · obtain ⟨p, marked, rfl⟩ := List.mem_map.mp move
    rw [List.reduceOption_mem_iff] at marked
    obtain ⟨e, there, value⟩ := List.mem_map.mp marked
    refine ⟨le_trans ?_ (le_moved _ p), visited.fixed p marked⟩
    rw [mark] at value
    split_ifs at value with unplaced
    rw [← Option.some.inj value]
    exact Int64.le_iff_toInt_le.mp ((ordered.nonneg e (txByTime_subset there)).resolve_left unplaced)

/-- An item that is visited comes to its place. -/
theorem Agrees.visited_place (agrees : Agrees w w.txByTime s) (keys : (w.items.map TxPair.key).Nodup)
    (ordered : Ordered w) {visit : TxPair × Int} (member : visit ∈ w.visits) :
    (placed w.visits visit.1).nOrderPos.toInt = visit.2 := by
  have place : visit.2 ∈ w.insertions.places := snd_visits w ▸ List.mem_map_of_mem member
  have range := place_range ordered place
  have fits : w.insertions.next < 2 ^ 63 := agrees.fits
  rw [placed_own (keys_visits keys) member, nOrderPos_moved, Int64.toInt_ofInt_of_le (by omega) (by omega)]

/-- An entry that is not visited stays where it is. -/
theorem placed_named (keys : (w.items.map TxPair.key).Nodup) {e : TxPair} (member : e ∈ w.named.map TxPair.entry) :
    placed w.visits e = e := by
  refine placed_other fun visit there => ?_
  have visited : visit.1 ∈ w.txByTime := fst_visits w ▸ List.mem_map_of_mem there
  exact (List.nodup_append.mp (keys_parts keys)).2.2 _ (List.mem_map_of_mem visited) _ (List.mem_map_of_mem member)

theorem Agrees.positions (agrees : Agrees w w.txByTime s) (keys : (w.items.map TxPair.key).Nodup)
    (ordered : Ordered w) :
    (s.w.items.map fun e => e.nOrderPos.toInt).Perm
      (w.insertions.places ++ w.named.map fun acentry => acentry.nOrderPos.toInt) := by
  have visited : w.txByTime.map (fun e => (placed w.visits e).nOrderPos.toInt) = w.insertions.places := by
    have split : w.txByTime.map (fun e => (placed w.visits e).nOrderPos.toInt) =
        (w.visits.map Prod.fst).map fun e => (placed w.visits e).nOrderPos.toInt := by rw [fst_visits]
    rw [split, ← snd_visits, List.map_map]
    exact List.map_congr_left fun visit member => agrees.visited_place keys ordered member
  have others : (w.named.map TxPair.entry).map (fun e => (placed w.visits e).nOrderPos.toInt) =
      w.named.map fun acentry => acentry.nOrderPos.toInt := by
    rw [List.map_map]
    refine List.map_congr_left fun acentry member => ?_
    show (placed w.visits (TxPair.entry acentry)).nOrderPos.toInt = _
    rw [placed_named keys (List.mem_map_of_mem member)]
    rfl
  have all := (items_perm w).map fun e => (placed w.visits e).nOrderPos.toInt
  rw [List.map_append, visited, others] at all
  rw [agrees.items, List.map_map]
  exact all

/-- What has had a position and has been visited is moved by the insertion points. -/
theorem Agrees.moved_position (agrees : Agrees w w.txByTime s) (keys : (w.items.map TxPair.key).Nodup)
    (ordered : Ordered w) {e : TxPair} (member : e ∈ w.txByTime) (isPlaced : e.nOrderPos ≠ -1) :
    (placed w.visits e).nOrderPos.toInt = moved w.insertions.points e.nOrderPos.toInt := by
  rw [← fst_visits] at member
  obtain ⟨visit, there, rfl⟩ := List.mem_map.mp member
  rw [agrees.visited_place keys ordered there]
  have zipped : (mark visit.1, visit.2) ∈ (w.txByTime.map mark).zip w.insertions.places := by
    rw [List.zip_map_left]
    exact List.mem_map.mpr ⟨visit, there, rfl⟩
  exact (visited_run (w.txByTime.map mark)).places _ zipped _ (if_neg isPlaced)

/-! ## When the order is kept -/

/-- Every item has a position of its own, below the next one, and those that had positions are in their order. -/
structure Reordered (w reordered : OrderWallet) : Prop where
  keys : reordered.items.map TxPair.key = w.items.map TxPair.key
  distinct : (reordered.items.map TxPair.nOrderPos).Nodup
  range : ∀ e ∈ reordered.items, 0 ≤ e.nOrderPos ∧ e.nOrderPos < reordered.nOrderPosNext
  order : ∀ a ∈ w.items, ∀ b ∈ w.items, a.nOrderPos ≠ -1 → b.nOrderPos ≠ -1 → a.nOrderPos < b.nOrderPos →
    ∀ a' ∈ reordered.items, ∀ b' ∈ reordered.items, a'.key = a.key → b'.key = b.key → a'.nOrderPos < b'.nOrderPos

/-- No item is moved onto an insertion point, and every entry of a named account has a position where nothing is
inserted and over which nothing is moved. -/
structure Clear (w : OrderWallet) : Prop where
  fits : w.insertions.next < 2 ^ 63
  apart : ∀ e ∈ w.txByTime, e.nOrderPos ≠ -1 → moved w.insertions.points e.nOrderPos.toInt ∉ w.insertions.points
  isPlaced : ∀ acentry ∈ w.named, acentry.nOrderPos ≠ -1
  free : ∀ acentry ∈ w.named, acentry.nOrderPos.toInt ∉ w.insertions.points
  below : ∀ acentry ∈ w.named, acentry.nOrderPos.toInt < w.insertions.next
  before : ∀ acentry ∈ w.named, ∀ e ∈ w.txByTime, e.nOrderPos ≠ -1 → e.nOrderPos < acentry.nOrderPos →
    moved w.insertions.points e.nOrderPos.toInt < acentry.nOrderPos.toInt

theorem Ordered.toInt_nonneg (ordered : Ordered w) {e : TxPair} (member : e ∈ w.items) (isPlaced : e.nOrderPos ≠ -1) :
    0 ≤ e.nOrderPos.toInt := Int64.le_iff_toInt_le.mp ((ordered.nonneg e member).resolve_left isPlaced)

/-- An item of the reordered wallet is one of the wallet. -/
theorem Agrees.origin (agrees : Agrees w w.txByTime s) {e' : TxPair} (member : e' ∈ s.w.items) :
    ∃ e ∈ w.items, e' = placed w.visits e := by
  rw [agrees.items] at member
  obtain ⟨e, there, rfl⟩ := List.mem_map.mp member
  exact ⟨e, there, rfl⟩

/-- The order in terms of where items are placed. -/
theorem Agrees.order_iff (agrees : Agrees w w.txByTime s) (keys : (w.items.map TxPair.key).Nodup) {a b : TxPair}
    (first : a ∈ w.items) (second : b ∈ w.items) :
    (∀ a' ∈ s.w.items, ∀ b' ∈ s.w.items, a'.key = a.key → b'.key = b.key → a'.nOrderPos < b'.nOrderPos) ↔
      (placed w.visits a).nOrderPos.toInt < (placed w.visits b).nOrderPos.toInt := by
  constructor
  · intro order
    refine Int64.lt_iff_toInt_lt.mp (order _ ?_ _ ?_ (key_placed _ a) (key_placed _ b)) <;> rw [agrees.items]
    · exact List.mem_map_of_mem first
    · exact List.mem_map_of_mem second
  · intro less a' here b' there sameA sameB
    obtain ⟨a0, known, rfl⟩ := agrees.origin here
    obtain ⟨b0, other, rfl⟩ := agrees.origin there
    rw [key_placed] at sameA sameB
    rw [eq_of_key keys known first sameA, eq_of_key keys other second sameB]
    exact Int64.lt_iff_toInt_lt.mpr less

theorem Ordered.parts (ordered : Ordered w) :
    (w.txByTime ++ w.named.map TxPair.entry).Pairwise fun a b => a.nOrderPos = b.nOrderPos → a.nOrderPos = -1 :=
  ((items_perm w).pairwise_iff fun other same => same ▸ other same.symm).mp ordered.distinct

theorem Ordered.marks (ordered : Ordered w) : (w.txByTime.map mark).reduceOption.Nodup := by
  have visited := (List.pairwise_append.mp ordered.parts).1
  rw [List.reduceOption, List.filterMap_map]
  refine visited.filterMap _ fun a b other p first q second same => ?_
  simp only [Function.comp_apply, id_eq, mark] at first second
  split_ifs at first second with unplaced
  refine unplaced (other (Int64.toInt_inj.mp ?_))
  rw [Option.some.inj first, Option.some.inj second, same]

theorem Ordered.named_distinct (ordered : Ordered w) (isPlaced : ∀ acentry ∈ w.named, acentry.nOrderPos ≠ -1) :
    (w.named.map fun acentry => acentry.nOrderPos.toInt).Nodup := by
  have others := List.pairwise_map.mp (List.pairwise_append.mp ordered.parts).2.1
  refine List.pairwise_map.mpr (others.imp_of_mem fun member _ other same => ?_)
  exact isPlaced _ member (other (Int64.toInt_inj.mp same))

theorem Ordered.apart (ordered : Ordered w) {e : TxPair} (visited : e ∈ w.txByTime) {acentry : CAccountingEntry}
    (other : acentry ∈ w.named) (same : e.nOrderPos = acentry.nOrderPos) : e.nOrderPos = -1 :=
  (List.pairwise_append.mp ordered.parts).2.2 e visited _ (List.mem_map_of_mem other) same

theorem mark_isSome {e : TxPair} {p : Int} (marked : mark e = some p) :
    e.nOrderPos ≠ -1 ∧ e.nOrderPos.toInt = p := by
  rw [mark] at marked
  split_ifs at marked with unplaced
  exact ⟨unplaced, Option.some.inj marked⟩

theorem mem_points_places {point : Int} (member : point ∈ w.insertions.points) : point ∈ w.insertions.places :=
  (visited_run (w.txByTime.map mark)).perm.mem_iff.mpr (List.mem_append_left _ member)

theorem nodup_places_iff (ordered : Ordered w) :
    w.insertions.places.Nodup ↔
      ∀ e ∈ w.txByTime, e.nOrderPos ≠ -1 → moved w.insertions.points e.nOrderPos.toInt ∉ w.insertions.points := by
  have exact := (visited_run (w.txByTime.map mark)).nodup_places_iff ordered.marks
  refine exact.trans ⟨fun apart e member isPlaced => apart _ (List.mem_map.mpr ⟨e, member, if_neg isPlaced⟩), ?_⟩
  intro apart p member
  obtain ⟨e, there, marked⟩ := List.mem_map.mp member
  rw [← (mark_isSome marked).2]
  exact apart e there (mark_isSome marked).1

theorem Agrees.nodup_iff (agrees : Agrees w w.txByTime s) (keys : (w.items.map TxPair.key).Nodup)
    (ordered : Ordered w) :
    (s.w.items.map TxPair.nOrderPos).Nodup ↔
      (w.insertions.places ++ w.named.map fun acentry => acentry.nOrderPos.toInt).Nodup := by
  rw [← (agrees.positions keys ordered).nodup_iff]
  have injective : Function.Injective Int64.toInt := fun a b same => Int64.toInt_inj.mp same
  have both := List.nodup_map_iff injective (l := s.w.items.map TxPair.nOrderPos)
  rw [List.map_map] at both
  exact both.symm

theorem Agrees.clear (agrees : Agrees w w.txByTime s) (keys : (w.items.map TxPair.key).Nodup) (ordered : Ordered w)
    (reordered : Reordered w s.w) : Clear w := by
  obtain ⟨places, -, apart⟩ := List.nodup_append.mp ((agrees.nodup_iff keys ordered).mp reordered.distinct)
  have entry : ∀ acentry ∈ w.named, TxPair.entry acentry ∈ s.w.items := fun acentry member => by
    have own := List.mem_map_of_mem (f := TxPair.entry) member
    rw [agrees.items]
    exact List.mem_map.mpr ⟨_, named_subset own, placed_named keys own⟩
  have isPlaced : ∀ acentry ∈ w.named, acentry.nOrderPos ≠ -1 := fun acentry member missing => by
    have nonneg := (reordered.range _ (entry acentry member)).1
    rw [TxPair.nOrderPos, missing] at nonneg
    exact absurd nonneg (by decide)
  refine ⟨agrees.fits, (nodup_places_iff ordered).mp places, isPlaced, ?_, ?_, ?_⟩
  · intro acentry member point
    exact apart _ (mem_points_places point) _ (List.mem_map_of_mem member) rfl
  · intro acentry member
    have below := Int64.lt_iff_toInt_lt.mp (reordered.range _ (entry acentry member)).2
    rw [agrees.next] at below
    exact below
  · intro acentry member e visited old less
    have own := named_subset (List.mem_map_of_mem member)
    have order := reordered.order e (txByTime_subset visited) _ own old (isPlaced acentry member) less
    rw [agrees.order_iff keys (txByTime_subset visited) own, agrees.moved_position keys ordered visited old,
      placed_named keys (List.mem_map_of_mem member)] at order
    exact order

/-- What is moved does not come to where an entry of a named account is, and stays on its side of it. -/
theorem Clear.moved_ne (clear : Clear w) (ordered : Ordered w) {e : TxPair} (visited : e ∈ w.txByTime)
    (old : e.nOrderPos ≠ -1) {acentry : CAccountingEntry} (other : acentry ∈ w.named) :
    moved w.insertions.points e.nOrderPos.toInt ≠ acentry.nOrderPos.toInt := by
  intro same
  have most := le_moved w.insertions.points e.nOrderPos.toInt
  by_cases less : e.nOrderPos < acentry.nOrderPos
  · exact absurd same (clear.before acentry other e visited old less).ne
  · have above := not_lt.mp fun below => less (Int64.lt_iff_toInt_lt.mpr below)
    exact old (ordered.apart visited other (Int64.toInt_inj.mp (le_antisymm (same ▸ most) above)))

theorem Clear.nodup (clear : Clear w) (ordered : Ordered w) :
    (w.insertions.places ++ w.named.map fun acentry => acentry.nOrderPos.toInt).Nodup := by
  refine List.nodup_append.mpr ⟨(nodup_places_iff ordered).mpr clear.apart, ordered.named_distinct clear.isPlaced, ?_⟩
  intro place there position member same
  obtain ⟨acentry, other, rfl⟩ := List.mem_map.mp member
  have visited := visited_run (w.txByTime.map mark)
  rcases List.mem_append.mp (visited.perm.mem_iff.mp there) with point | move
  · exact clear.free acentry other (same ▸ point)
  · obtain ⟨p, marked, rfl⟩ := List.mem_map.mp move
    obtain ⟨e, known, isMarked⟩ := List.mem_map.mp (List.reduceOption_mem_iff.mp marked)
    obtain ⟨old, rfl⟩ := mark_isSome isMarked
    exact clear.moved_ne ordered known old other same

theorem Agrees.ordered_less (agrees : Agrees w w.txByTime s) (keys : (w.items.map TxPair.key).Nodup)
    (ordered : Ordered w) (clear : Clear w) {a b : TxPair} (first : a ∈ w.items) (second : b ∈ w.items)
    (oldA : a.nOrderPos ≠ -1) (oldB : b.nOrderPos ≠ -1) (less : a.nOrderPos < b.nOrderPos) :
    (placed w.visits a).nOrderPos.toInt < (placed w.visits b).nOrderPos.toInt := by
  have before := Int64.lt_iff_toInt_lt.mp less
  rcases List.mem_append.mp ((items_perm w).mem_iff.mp first) with visitedA | entryA <;>
    rcases List.mem_append.mp ((items_perm w).mem_iff.mp second) with visitedB | entryB
  · rw [agrees.moved_position keys ordered visitedA oldA, agrees.moved_position keys ordered visitedB oldB]
    exact moved_strictMono _ before
  · rw [agrees.moved_position keys ordered visitedA oldA, placed_named keys entryB]
    obtain ⟨acentry, member, rfl⟩ := List.mem_map.mp entryB
    exact clear.before acentry member a visitedA oldA less
  · rw [agrees.moved_position keys ordered visitedB oldB, placed_named keys entryA]
    exact lt_of_lt_of_le before (le_moved _ _)
  · rw [placed_named keys entryA, placed_named keys entryB]
    exact before

theorem Agrees.reordered (agrees : Agrees w w.txByTime s) (keys : (w.items.map TxPair.key).Nodup) (ordered : Ordered w)
    (clear : Clear w) : Reordered w s.w := by
  refine ⟨?_, (agrees.nodup_iff keys ordered).mpr (clear.nodup ordered), fun e member => ?_, ?_⟩
  · rw [agrees.items, List.map_map]
    exact List.map_congr_left fun e _ => key_placed _ e
  · have next : s.w.nOrderPosNext.toInt = w.insertions.next := agrees.next
    have position : e.nOrderPos.toInt ∈ s.w.items.map fun e => e.nOrderPos.toInt := List.mem_map_of_mem member
    have range : 0 ≤ e.nOrderPos.toInt ∧ e.nOrderPos.toInt < w.insertions.next := by
      rcases List.mem_append.mp ((agrees.positions keys ordered).mem_iff.mp position) with place | stays
      · exact place_range ordered place
      · obtain ⟨acentry, other, same⟩ := List.mem_map.mp stays
        rw [← same]
        exact ⟨ordered.toInt_nonneg (named_subset (List.mem_map_of_mem other)) (clear.isPlaced acentry other),
          clear.below acentry other⟩
    rw [← next] at range
    exact ⟨Int64.le_iff_toInt_le.mpr range.1, Int64.lt_iff_toInt_lt.mpr range.2⟩
  · intro a first b second oldA oldB less
    exact (agrees.order_iff keys first second).mpr (agrees.ordered_less keys ordered clear first second oldA oldB less)

/-- Where a position left an `int64_t` the order is not kept. -/
theorem Lost.not_reordered (lost : Lost before s) (reordered : Reordered w s.w) : False := by
  obtain ⟨e, member, -, outside⟩ := lost.lost
  have range := reordered.range e member
  have nonneg := Int64.le_iff_toInt_le.mp range.1
  have below := Int64.lt_iff_toInt_lt.mp range.2
  have most := Int64.toInt_lt s.w.nOrderPosNext
  rw [Int64.toInt_zero] at nonneg
  omega

/-- The order is kept just where every item that is moved finds its place free. -/
theorem reorderTransactions_keeps_order_iff (write : TxPair → Bool) (w w' : OrderWallet)
    (keys : (w.items.map TxPair.key).Nodup) (ordered : Ordered w) (ok : reorderTransactions write w = some w') :
    Reordered w w' ↔ Clear w := by
  obtain ⟨s, visited, rfl⟩ := Option.map_eq_some_iff.mp ok
  have unique := (List.nodup_append.mp (keys_parts keys)).1
  rcases agrees_or_lost w.txByTime (fun e member => txByTime_subset member)
      (fun e member => ordered.nonneg e (txByTime_subset member)) unique visited with agrees | lost
  · exact ⟨agrees.clear keys ordered, agrees.reordered keys ordered⟩
  · constructor
    · intro reordered
      exact (lost.not_reordered reordered).elim
    · intro clear
      exact absurd clear.fits (not_lt.mpr lost.exceeds)

/-- A wallet whose file has entries of the default account, each with its time and position, in the order of times. -/
def upgraded (entries : List (Int64 × Int64)) : OrderWallet :=
  ⟨[], entries.map fun entry => ⟨[], 0, entry.1, [], [], ∅, entry.2, entry.1.toUInt64, []⟩, 0⟩

theorem txByTime_upgraded {entries : List (Int64 × Int64)} (sorted : entries.Pairwise fun a b => a.1 ≤ b.1) :
    (upgraded entries).txByTime = (upgraded entries).items := by
  have all : (upgraded entries).unnamed = (upgraded entries).acentries := by
    refine List.filter_eq_self.mpr fun acentry member => ?_
    obtain ⟨entry, -, rfl⟩ := List.mem_map.mp member
    rfl
  rw [txByTime, all]
  refine List.mergeSort_of_pairwise ?_
  show (((entries.map _).map TxPair.entry)).Pairwise _
  rw [List.pairwise_map, List.pairwise_map]
  exact sorted.imp fun less => decide_eq_true less

/-- A new entry before and one after two old ones. -/
theorem upgraded_keeps_order :
    Reordered (upgraded [(1, -1), (2, 0), (3, 4), (4, -1)])
      { upgraded [(1, 0), (2, 1), (3, 5), (4, 6)] with nOrderPosNext := 7 } := by
  have sorted : (upgraded [(1, -1), (2, 0), (3, 4), (4, -1)]).txByTime = _ := txByTime_upgraded (by decide)
  have ok : reorderTransactions (fun _ => true) (upgraded [(1, -1), (2, 0), (3, 4), (4, -1)]) =
      some { upgraded [(1, 0), (2, 1), (3, 5), (4, 6)] with nOrderPosNext := 7 } := by
    rw [reorderTransactions, sorted]
    rfl
  refine (reorderTransactions_keeps_order_iff _ _ _ (by decide) ⟨by decide, by decide⟩ ok).mpr ⟨?_, ?_, ?_, ?_, ?_, ?_⟩
  · rw [insertions, sorted]
    decide
  · rw [insertions, sorted]
    decide
  all_goals exact List.forall_mem_nil _

/-- Two new entries stand between three old ones: the second new one and the old one after it come to one position. -/
theorem upgrade_loses_order :
    ¬ ∀ (write : TxPair → Bool) (w w' : OrderWallet), (w.items.map TxPair.key).Nodup → Ordered w →
      reorderTransactions write w = some w' → Reordered w w' := by
  intro claim
  have sorted : (upgraded [(1, 5), (2, -1), (3, 6), (4, -1), (5, 7)]).txByTime = _ := txByTime_upgraded (by decide)
  have ok : reorderTransactions (fun _ => true) (upgraded [(1, 5), (2, -1), (3, 6), (4, -1), (5, 7)]) =
      some { upgraded [(1, 5), (2, 6), (3, 7), (4, 8), (5, 8)] with nOrderPosNext := 9 } := by
    rw [reorderTransactions, sorted]
    rfl
  have reordered := claim _ _ _ (by decide) ⟨by decide, by decide⟩ ok
  exact absurd reordered.distinct (by decide)

end OrderWallet

end InfiniteRicks
