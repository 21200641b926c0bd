import InfiniteRicks.AddrCheck
import InfiniteRicks.Library.Shuffle
import Mathlib.Algebra.Order.BigOperators.Group.Finset

/-!
# Which tried entry is evicted

`SelectTried` remembers the position at which it found the oldest entry, but has swapped that entry
to the front in the same round. The position is right where the swap did nothing, or where a later
round has put an entry there that is as old.
-/

namespace InfiniteRicks

open Function Library Library.Shuffle Library.Tables

namespace CAddrMan

variable {dated : Prop} {s : CAddrMan}

/-- The entries of a tried bucket are in `mapInfo`, under different ids that are not negative. -/
structure HoldsTried (s : CAddrMan) (nKBucket : Fin triedBucketCount) : Prop where
  known : ∀ id ∈ s.vvTried nKBucket, ∃ info, s.mapInfo[id]? = some info
  named : ∀ id ∈ s.vvTried nKBucket, 0 ≤ id
  nodup : (s.vvTried nKBucket).Nodup

/-- `nLastSuccess` of an entry. -/
def lastSuccess (s : CAddrMan) (id : Int) : Int := (s.mapInfo[id]?.map fun info => info.nLastSuccess.toInt).getD 0

/-- The position that round `i` of `SelectTried` draws in a bucket of this size. -/
def drawnAt (chance : Chance) (call length i : Nat) : Nat := chance.getRandInt (call + i) (length - i) + i

/-- The number of rounds. -/
def inspected (vTried : List Int) : Nat := min triedEntriesInspectOnEvict vTried.length

/-- The bucket after the rounds. -/
def shuffledBucket (chance : Chance) (call : Nat) (vTried : List Int) : List Int :=
  shuffle (drawnAt chance call vTried.length) vTried (inspected vTried)

/-- `nLastSuccess` of what round `i` draws. -/
def drawnSuccess (s : CAddrMan) (chance : Chance) (call : Nat) (vTried : List Int) (i : Nat) : Int :=
  ((drawn (drawnAt chance call vTried.length) vTried i).map s.lastSuccess).getD 0

/-- The position of the result holds an inspected entry, and none of those was successful less recently. -/
def EvictsLeast (s : CAddrMan) (vTried : List Int) (nPos : Int) : Prop :=
  ∃ id ∈ vTried.take triedEntriesInspectOnEvict, slot vTried nPos = some id ∧
    ∀ other ∈ vTried.take triedEntriesInspectOnEvict, s.lastSuccess id ≤ s.lastSuccess other

/-- The round that draws the first of the oldest entries draws it from one of the inspected positions, and what the round
of that position draws is as old. -/
def DrawnInPlace (s : CAddrMan) (chance : Chance) (call : Nat) (vTried : List Int) : Prop :=
  ∃ i, FirstLeast (s.drawnSuccess chance call vTried) (inspected vTried) i ∧
    drawnAt chance call vTried.length i < inspected vTried ∧
    s.drawnSuccess chance call vTried (drawnAt chance call vTried.length i) = s.drawnSuccess chance call vTried i

section Loop

variable {chance : Chance} {call : Nat} {vTried : List Int}

theorem drawnAt_draws (chance : Chance) (call : Nat) (vTried : List Int) :
    Draws (drawnAt chance call vTried.length) vTried (inspected vTried) := by
  intro i below
  have range : i < vTried.length := lt_of_lt_of_le below (min_le_right _ _)
  have drawn : chance.getRandInt (call + i) (vTried.length - i) < vTried.length - i := by
    rw [Chance.getRandInt, if_neg (by omega)]
    exact Nat.mod_lt _ (by omega)
  unfold drawnAt
  omega

theorem lastSuccess_of_known {id : Int} {info : CAddrInfo} (known : s.mapInfo[id]? = some info) :
    s.lastSuccess id = info.nLastSuccess.toInt := by
  rw [lastSuccess, known]
  rfl

/-- The variables of the loop after `n` rounds: the list with the first `n` draws in front, the first of the oldest
entries drawn, and the position that it was drawn from. -/
structure Selected (s : CAddrMan) (chance : Chance) (call : Nat) (vTried : List Int) (n : Nat) (chosen : Selection) :
    Prop where
  shuffled : chosen.vTried = shuffle (drawnAt chance call vTried.length) vTried n
  start : n = 0 → chosen.nOldest = -1
  oldest : 0 < n → ∃ i, FirstLeast (s.drawnSuccess chance call vTried) n i ∧
    drawn (drawnAt chance call vTried.length) vTried i = some chosen.nOldest ∧
    chosen.nOldestPos = drawnAt chance call vTried.length i

/-- One round. -/
theorem Selected.inspect {n : Nat} {chosen : Selection} (selected : s.Selected chance call vTried n chosen)
    (known : ∀ id ∈ vTried, ∃ info, s.mapInfo[id]? = some info) (named : ∀ id ∈ vTried, 0 ≤ id)
    (below : n < inspected vTried) :
    ∃ next, s.inspect chance call chosen n = some next ∧ s.Selected chance call vTried (n + 1) next := by
  have draws := drawnAt_draws chance call vTried
  obtain ⟨range, posRange, step⟩ := shuffle_succ (draws.mono below)
  obtain ⟨nTemp, member, drew⟩ := exists_drawn draws below
  have atPos : (shuffle (drawnAt chance call vTried.length) vTried n)[drawnAt chance call vTried.length n] = nTemp :=
    Option.some.inj ((List.getElem?_eq_getElem posRange).symm.trans drew)
  have position : chance.getRandInt (call + n)
      ((shuffle (drawnAt chance call vTried.length) vTried n).length - n) + n = drawnAt chance call vTried.length n := by
    rw [length_shuffle, drawnAt]
  have ownKey : s.drawnSuccess chance call vTried n = s.lastSuccess nTemp := by
    rw [drawnSuccess, drew, Option.map_some, Option.getD_some]
  rw [atPos] at step
  -- the comparison of the entry drawn with the oldest one so far
  obtain ⟨older, compared, replaced, kept⟩ : ∃ older, s.lastSuccessBefore nTemp chosen.nOldest = some older ∧
      (older = true → FirstLeast (s.drawnSuccess chance call vTried) (n + 1) n) ∧
      (older = false → ∃ i, FirstLeast (s.drawnSuccess chance call vTried) (n + 1) i ∧
        drawn (drawnAt chance call vTried.length) vTried i = some chosen.nOldest ∧
        chosen.nOldestPos = drawnAt chance call vTried.length i) := by
    cases n with
    | zero =>
        rw [lastSuccessBefore, if_pos (selected.start rfl)]
        exact ⟨true, rfl, fun _ => firstLeast_one _, fun absurd => by cases absurd⟩
    | succ n =>
        obtain ⟨i, least, drewOldest, place⟩ := selected.oldest (Nat.zero_lt_succ n)
        obtain ⟨oldest, oldestMember, same⟩ := exists_drawn (draws.mono below.le) least.below
        cases drewOldest.symm.trans same
        obtain ⟨infoTemp, temp⟩ := known _ member
        obtain ⟨infoOldest, there⟩ := known _ oldestMember
        have present : chosen.nOldest ≠ -1 := by
          have := named _ oldestMember
          omega
        have oldestKey : s.drawnSuccess chance call vTried i = infoOldest.nLastSuccess.toInt := by
          rw [drawnSuccess, drewOldest, Option.map_some, Option.getD_some, lastSuccess_of_known there]
        rw [lastSuccess_of_known temp] at ownKey
        rw [lastSuccessBefore, if_neg present]
        simp only [Option.bind_eq_bind, temp, there, Option.bind_some]
        refine ⟨_, rfl, fun less => least.replace ?_, fun notLess => ⟨i, least.keep ?_, drewOldest, place⟩⟩
        · rw [ownKey, oldestKey]
          exact Int64.lt_iff_toInt_lt.mp (of_decide_eq_true less)
        · rw [ownKey, oldestKey]
          exact fun less => of_decide_eq_false notLess (Int64.lt_iff_toInt_lt.mpr less)
  unfold CAddrMan.inspect
  simp only [selected.shuffled, position, List.getElem?_eq_getElem posRange, List.getElem?_eq_getElem range,
    Option.bind_eq_bind, Option.bind_some, atPos, compared, ← step]
  refine ⟨_, rfl, ?_⟩
  cases older with
  | true => exact ⟨rfl, (fun none => by cases none), fun _ => ⟨n, replaced rfl, drew, rfl⟩⟩
  | false => exact ⟨rfl, (fun none => by cases none), fun _ => kept rfl⟩

/-- The whole loop. -/
theorem selectTried_selected {nKBucket : Fin triedBucketCount} (holds : s.HoldsTried nKBucket)
    (occupied : s.vvTried nKBucket ≠ []) (chance : Chance) (call : Nat) :
    ∃ i, FirstLeast (s.drawnSuccess chance call (s.vvTried nKBucket)) (inspected (s.vvTried nKBucket)) i ∧
      s.selectTried nKBucket chance call =
        some ((drawnAt chance call (s.vvTried nKBucket).length i : Int),
          { s with vvTried := update s.vvTried nKBucket (shuffledBucket chance call (s.vvTried nKBucket)) }) := by
  have loop : ∀ n ≤ inspected (s.vvTried nKBucket), ∃ chosen,
      (List.range n).foldlM (s.inspect chance call) ⟨s.vvTried nKBucket, -1, -1⟩ = some chosen ∧
        s.Selected chance call (s.vvTried nKBucket) n chosen := by
    intro n
    induction n with
    | zero => exact fun _ => ⟨_, rfl, rfl, fun _ => rfl, fun some => absurd some (Nat.lt_irrefl 0)⟩
    | succ n ih =>
        intro within
        obtain ⟨chosen, run, selected⟩ := ih (Nat.le_of_succ_le within)
        obtain ⟨next, done, still⟩ := selected.inspect holds.known holds.named within
        refine ⟨next, ?_, still⟩
        rw [List.range_succ, List.foldlM_append, run, Option.bind_eq_bind, Option.bind_some, List.foldlM_cons, done]
        rfl
  obtain ⟨chosen, run, selected⟩ := loop _ le_rfl
  have positive : 0 < inspected (s.vvTried nKBucket) :=
    lt_min (Nat.zero_lt_succ _) (List.length_pos_iff.mpr occupied)
  obtain ⟨i, least, -, place⟩ := selected.oldest positive
  refine ⟨i, least, ?_⟩
  rw [selectTried]
  change ((List.range (inspected (s.vvTried nKBucket))).foldlM (s.inspect chance call) ⟨s.vvTried nKBucket, -1, -1⟩ >>= _) = _
  rw [run, Option.bind_eq_bind, Option.bind_some, place, selected.shuffled]
  rfl

/-- An inspected position holds what its round has drawn. -/
theorem shuffledBucket_inspected (s : CAddrMan) (chance : Chance) (call : Nat) {vTried : List Int} {i : Nat}
    (below : i < inspected vTried) :
    ∃ id, (shuffledBucket chance call vTried)[i]? = some id ∧
      drawn (drawnAt chance call vTried.length) vTried i = some id ∧
      s.drawnSuccess chance call vTried i = s.lastSuccess id := by
  have draws := drawnAt_draws chance call vTried
  obtain ⟨id, -, drew⟩ := exists_drawn draws below
  exact ⟨id, (getElem?_shuffle draws below).trans drew, drew, by
    rw [drawnSuccess, drew, Option.map_some, Option.getD_some]⟩

theorem mem_inspected (chance : Chance) (call : Nat) (vTried : List Int) (id : Int) :
    id ∈ (shuffledBucket chance call vTried).take triedEntriesInspectOnEvict ↔
      ∃ i < inspected vTried, (shuffledBucket chance call vTried)[i]? = some id := by
  have length : (shuffledBucket chance call vTried).length = vTried.length := length_shuffle _ _ _
  rw [List.mem_take_iff_getElem]
  constructor
  · rintro ⟨i, range, rfl⟩
    rw [length] at range
    exact ⟨i, range, List.getElem?_eq_getElem _⟩
  · rintro ⟨i, below, found⟩
    obtain ⟨range, value⟩ := List.getElem?_eq_some_iff.mp found
    exact ⟨i, by rw [length]; exact below, value⟩

/-- `SelectTried` on a bucket that is not empty returns. The position that it returns is that of an inspected entry with
the least `nLastSuccess` exactly when the oldest entry was drawn in place. -/
theorem selectTried_evictsLeast_iff {nKBucket : Fin triedBucketCount} (holds : s.HoldsTried nKBucket)
    (occupied : s.vvTried nKBucket ≠ []) (chance : Chance) (call : Nat) :
    ∃ nPos after, s.selectTried nKBucket chance call = some (nPos, after) ∧
      (s.EvictsLeast (after.vvTried nKBucket) nPos ↔ s.DrawnInPlace chance call (s.vvTried nKBucket)) := by
  obtain ⟨i, least, result⟩ := selectTried_selected holds occupied chance call
  refine ⟨_, _, result, ?_⟩
  dsimp only
  rw [update_self]
  constructor
  · rintro ⟨id, member, place, oldest⟩
    obtain ⟨j, below, found⟩ := (mem_inspected chance call _ id).mp member
    have nodup : (shuffledBucket chance call (s.vvTried nKBucket)).Nodup := (shuffle_perm _ _ _).nodup_iff.mpr holds.nodup
    rw [slot_natCast] at place
    have same : j = drawnAt chance call (s.vvTried nKBucket).length i :=
      (List.getElem?_inj (List.getElem?_eq_some_iff.mp found).1 nodup).mp (found.trans place.symm)
    refine ⟨i, least, same ▸ below, ?_⟩
    rw [← same]
    obtain ⟨own, atOwn, -, ownKey⟩ := shuffledBucket_inspected s chance call below
    cases found.symm.trans atOwn
    obtain ⟨other, atOther, -, otherKey⟩ := shuffledBucket_inspected s chance call least.below
    have older := oldest other ((mem_inspected chance call _ other).mpr ⟨i, least.below, atOther⟩)
    rw [← ownKey, ← otherKey] at older
    exact le_antisymm older (least.least j below)
  · rintro ⟨j, again, below, same⟩
    cases least.unique again
    obtain ⟨id, found, -, key⟩ := shuffledBucket_inspected s chance call below
    refine ⟨id, (mem_inspected chance call _ id).mpr ⟨_, below, found⟩, (slot_natCast _ _).trans found, ?_⟩
    intro other member
    obtain ⟨k, within, atOther⟩ := (mem_inspected chance call _ other).mp member
    obtain ⟨own, atOwn, -, ownKey⟩ := shuffledBucket_inspected s chance call within
    cases atOther.symm.trans atOwn
    rw [← key, ← ownKey, same]
    exact least.least k within

end Loop

section Concrete

/-- The entries of a full bucket. Only number 10 was successful as long ago as at time 1. -/
def fullTriedInfo (i : Nat) : CAddrInfo :=
  { CAddrInfo.ofAddress (sampleAddress i.toUInt8) (sampleService 8).toCNetAddr with
    nLastSuccess := if i = 10 then 1 else 2, fInTried := true, nRandomPos := i }

/-- A state with nothing but a full tried bucket. -/
def fullTried : CAddrMan where
  nKey := []
  nIdCount := 64
  mapInfo := (List.range 64).foldl (fun map (i : Nat) => map.insert (i : Int) (fullTriedInfo i)) ∅
  mapAddr := (List.range 64).foldl (fun map (i : Nat) => map.insert (fullTriedInfo i).toCNetAddr (i : Int)) ∅
  vRandom := (List.range 64).map Nat.cast
  nTried := 64
  vvTried nKBucket := if nKBucket = 0 then (List.range 64).map Nat.cast else []
  nNew := 0
  vvNew _ := ∅

theorem fullTried_holdsTried : fullTried.HoldsTried 0 where
  known id member := by
    have all : ∀ id ∈ fullTried.vvTried 0, (fullTried.mapInfo[id]?).isSome = true := by decide +kernel
    exact Option.isSome_iff_exists.mp (all id member)
  named := by decide +kernel
  nodup := by decide +kernel

/-- The first round draws position 10 or 0, and every other round draws in place. -/
def firstDraw (pos : Nat) : Chance := ⟨fun call => if call = 0 then pos else 0, fun _ => 0⟩

/-- All draws are in place. -/
theorem fullTried_evictsLeast :
    ∃ nPos after, fullTried.selectTried 0 (firstDraw 0) 0 = some (nPos, after) ∧
      fullTried.EvictsLeast (after.vvTried 0) nPos := by
  obtain ⟨nPos, after, result, iff⟩ := selectTried_evictsLeast_iff fullTried_holdsTried (by decide +kernel) (firstDraw 0) 0
  refine ⟨nPos, after, result, iff.mpr ⟨0, ⟨by decide +kernel, by decide +kernel, by decide⟩, by decide +kernel, rfl⟩⟩

/-- The first round draws the oldest entry, number 10, from position 10. `SelectTried` returns that position, where
number 0 is by then. `Check_` finds nothing wrong with the state. -/
theorem fullTried_evicts_other :
    fullTried.check_ = 0 ∧ (fullTried.vvTried 0).length = triedBucketSize ∧
      ¬ ∃ nPos after, fullTried.selectTried 0 (firstDraw 10) 0 = some (nPos, after) ∧
        fullTried.EvictsLeast (after.vvTried 0) nPos := by
  refine ⟨by decide +kernel, by decide +kernel, ?_⟩
  rintro ⟨nPos, after, result, id, inspected, place, -⟩
  have value : (fullTried.selectTried 0 (firstDraw 10) 0).map (fun result =>
      (slot (result.2.vvTried 0) result.1, (result.2.vvTried 0).take triedEntriesInspectOnEvict)) =
        some (some 0, [10, 1, 2, 3]) := by
    decide +kernel
  rw [result, Option.map_some] at value
  obtain ⟨found, front⟩ := Prod.mk.inj (Option.some.inj value)
  cases place.symm.trans found
  dsimp only at front
  rw [front] at inspected
  exact absurd inspected (by decide)

end Concrete

end CAddrMan

end InfiniteRicks
