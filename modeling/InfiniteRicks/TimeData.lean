import InfiniteRicks.Library.Runs
import InfiniteRicks.NetAddr
import Mathlib.Data.List.Sort

/-!
# Network-adjusted time

`CMedianFilter` (`util.h`) and `AddTimeData` (`util.cpp`). The offset is the median of the peers'
samples where that is less than 70 minutes by `abs64`, which is negative at the least sample.
-/

namespace InfiniteRicks

/-- `CMedianFilter`. -/
structure CMedianFilter (α : Type) where
  vValues : List α
  vSorted : List α
  nSize : Nat

namespace CMedianFilter

variable {α : Type}

/-- The constructor. -/
def new (size : Nat) (initial_value : α) : CMedianFilter α := ⟨[initial_value], [initial_value], size⟩

/-- `size`. -/
def size (filter : CMedianFilter α) : Nat := filter.vValues.length

variable [LE α] [DecidableLE α]

/-- `input`. -/
def input (filter : CMedianFilter α) (value : α) : CMedianFilter α :=
  let kept := if filter.vValues.length = filter.nSize then filter.vValues.drop 1 else filter.vValues
  let vValues := kept ++ [value]
  { filter with vValues := vValues, vSorted := vValues.insertionSort (· ≤ ·) }

/-- `median`; `none` where its assertion fails. -/
def median [Add α] [Div α] [OfNat α 2] (filter : CMedianFilter α) : Option α :=
  let size := filter.vSorted.length
  if size % 2 = 1 then filter.vSorted[size / 2]?
  else do
    let low ← filter.vSorted[size / 2 - 1]?
    let high ← filter.vSorted[size / 2]?
    return (low + high) / 2

end CMedianFilter

/-- `abs64`. -/
def abs64 (n : Int64) : Int64 := if 0 ≤ n then n else -n

/-- The variables behind `AddTimeData`: `vTimeOffsets`, `nTimeOffset` and `strMiscWarning`, and its static ones. -/
structure TimeData where
  setKnown : List CNetAddr
  vTimeOffsets : CMedianFilter Int64
  nTimeOffset : Int64
  fDone : Bool
  strMiscWarning : String

namespace TimeData

/-- The variables when the program starts. -/
def initial : TimeData := ⟨[], .new 200 0, 0, false, ""⟩

/-- The warning about the clock. -/
def clockWarning : String :=
  "Warning: Please check that your computer's date and time are correct! If your clock is wrong InfiniteRicks will not work properly."

/-- Some time of the peers is different from ours, but within 5 minutes. -/
def fMatch (vSorted : List Int64) : Bool := vSorted.any fun nOffset => nOffset ≠ 0 ∧ abs64 nOffset < 5 * 60

/-- The recalculation of the offset. -/
def recalculate (s : TimeData) : Option TimeData := do
  let nMedian ← s.vTimeOffsets.median
  if abs64 nMedian < 70 * 60 then return { s with nTimeOffset := nMedian }
  else if s.fDone || fMatch s.vTimeOffsets.vSorted then return { s with nTimeOffset := 0 }
  else return { s with nTimeOffset := 0, fDone := true, strMiscWarning := clockWarning }

/-- `AddTimeData`, when `GetTime` is `now`. -/
def addTimeData (s : TimeData) (ip : CNetAddr) (nTime now : Int64) : Option TimeData :=
  let nOffsetSample := nTime - now
  if ip ∈ s.setKnown then some s
  else
    let s := { s with setKnown := ip :: s.setKnown, vTimeOffsets := s.vTimeOffsets.input nOffsetSample }
    if 5 ≤ s.vTimeOffsets.size ∧ s.vTimeOffsets.size % 2 = 1 then s.recalculate else some s

/-- One call of `AddTimeData`, with the clock. -/
structure Call where
  ip : CNetAddr
  nTime : Int64
  now : Int64

/-- The state after some calls. -/
def run (s : TimeData) (calls : List Call) : Option TimeData :=
  calls.foldlM (fun s call => s.addTimeData call.ip call.nTime call.now) s

/-- The offset is less than 70 minutes either way. -/
def Bounded (s : TimeData) : Prop := -(70 * 60) < s.nTimeOffset.toInt ∧ s.nTimeOffset.toInt < 70 * 60

/-- Where the call recalculates the offset, less than half of the samples are the least `int64_t`. -/
def Call.Moderate (s : TimeData) (call : Call) : Prop :=
  let vValues := (s.vTimeOffsets.input (call.nTime - call.now)).vValues
  call.ip ∉ s.setKnown → 5 ≤ vValues.length → vValues.length % 2 = 1 →
    2 * vValues.count Int64.minValue < vValues.length

section Median

/-- In a sorted list the least `int64_t` fills the front. -/
theorem getElem?_eq_minValue_iff {sorted : List Int64} (pairwise : sorted.Pairwise (· ≤ ·)) (i : Nat) :
    sorted[i]? = some Int64.minValue ↔ i < sorted.count Int64.minValue := by
  induction sorted generalizing i with
  | nil => simp
  | cons first rest ih =>
      obtain ⟨below, others⟩ := List.pairwise_cons.mp pairwise
      by_cases same : first = Int64.minValue
      · cases i with
        | zero => simp [same]
        | succ i => simp [same, ih others i]
      · have absent : Int64.minValue ∉ first :: rest := by
          intro member
          rcases List.mem_cons.mp member with rfl | later
          · exact same rfl
          · exact same (Int64.le_antisymm (below _ later) first.minValue_le)
        rw [List.count_eq_zero_of_not_mem absent]
        exact ⟨fun found => absurd (List.mem_of_getElem? found) absent, fun none => absurd none (Nat.not_lt_zero i)⟩

/-- The median of an odd number of samples is the least `int64_t` exactly where more than half of them are. -/
theorem median_input (filter : CMedianFilter Int64) (value : Int64) (odd : (filter.input value).size % 2 = 1) :
    ∃ median, (filter.input value).median = some median ∧
      (median = Int64.minValue ↔
        ¬ 2 * (filter.input value).vValues.count Int64.minValue < (filter.input value).vValues.length) := by
  obtain ⟨vValues, whole⟩ : ∃ vValues, (filter.input value).vValues = vValues := ⟨_, rfl⟩
  have sortedEq : (filter.input value).vSorted = vValues.insertionSort (· ≤ ·) :=
    congrArg (List.insertionSort (· ≤ ·)) whole
  have perm := List.perm_insertionSort (· ≤ ·) vValues
  have pairwise := List.pairwise_insertionSort (· ≤ ·) vValues
  rw [CMedianFilter.size, whole] at odd
  have range : vValues.length / 2 < (vValues.insertionSort (· ≤ ·)).length := by
    rw [perm.length_eq]
    omega
  obtain ⟨median, middle⟩ : ∃ median, (vValues.insertionSort (· ≤ ·))[vValues.length / 2]? = some median :=
    ⟨_, List.getElem?_eq_getElem range⟩
  refine ⟨median, ?_, ?_⟩
  · rw [CMedianFilter.median, sortedEq, perm.length_eq, if_pos odd, middle]
  · have front := getElem?_eq_minValue_iff pairwise (vValues.length / 2)
    rw [middle, Option.some.injEq, perm.count_eq] at front
    rw [front, whole]
    omega

end Median

section Recalculation

variable {s : TimeData}

/-- The test of the median lets through what is less than 70 minutes, and the least `int64_t`. -/
theorem abs64_lt_iff (n : Int64) :
    abs64 n < 70 * 60 ↔ n = Int64.minValue ∨ -(70 * 60) < n.toInt ∧ n.toInt < 70 * 60 := by
  have limit : ((70 : Int64) * 60).toInt = 70 * 60 := by decide
  have low : Int64.minValue.toInt = -2 ^ 63 := Int64.toInt_minValue
  have lower := n.minValue_le_toInt
  have upper := n.toInt_lt
  rw [Int64.lt_iff_toInt_lt, limit, abs64]
  by_cases positive : 0 ≤ n
  · rw [if_pos positive]
    rw [Int64.le_iff_toInt_le, Int64.toInt_zero] at positive
    have notLeast : n ≠ Int64.minValue := by
      rintro rfl
      omega
    simp only [notLeast, false_or]
    omega
  · rw [if_neg positive]
    rw [Int64.le_iff_toInt_le, Int64.toInt_zero] at positive
    by_cases same : n = Int64.minValue
    · subst same
      simp only [true_or, iff_true]
      decide
    · have notLeast : n.toInt ≠ -2 ^ 63 := fun equal => same (Int64.toInt_inj.mp (equal.trans low.symm))
      have negated : (-n).toInt = -n.toInt := by
        rw [Int64.toInt_neg, Int.bmod_eq_of_le (by omega) (by omega)]
      simp only [same, false_or, negated]
      omega

/-- After a recalculation the offset is within the limits unless it is the least `int64_t`. -/
theorem recalculate_spec {median : Int64} (found : s.vTimeOffsets.median = some median) :
    ∃ after, s.recalculate = some after ∧ (after.Bounded ↔ median ≠ Int64.minValue) := by
  unfold recalculate
  rw [found, Option.bind_eq_bind, Option.bind_some]
  have zero : (0 : Int64).toInt = 0 := Int64.toInt_zero
  split
  · rename_i small
    refine ⟨_, rfl, ?_⟩
    unfold Bounded
    dsimp only
    rcases (abs64_lt_iff median).mp small with rfl | inside
    · exact ⟨fun inside => absurd inside (by decide), fun differs => absurd rfl differs⟩
    · refine ⟨fun _ same => ?_, fun _ => inside⟩
      rw [same] at inside
      exact absurd inside (by decide)
  · rename_i large
    have notLeast : median ≠ Int64.minValue := fun same => large ((abs64_lt_iff median).mpr (Or.inl same))
    split
    · refine ⟨_, rfl, fun _ => notLeast, fun _ => ?_⟩
      unfold Bounded
      rw [zero]
      decide
    · refine ⟨_, rfl, fun _ => notLeast, fun _ => ?_⟩
      unfold Bounded
      rw [zero]
      decide

/-- One call returns, and keeps the offset within the limits exactly when it is moderate. -/
theorem addTimeData_spec (s : TimeData) (call : Call) :
    ∃ after, s.addTimeData call.ip call.nTime call.now = some after ∧
      (s.Bounded → (after.Bounded ↔ call.Moderate s)) := by
  unfold addTimeData Call.Moderate
  dsimp only
  by_cases known : call.ip ∈ s.setKnown
  · rw [if_pos known]
    exact ⟨s, rfl, fun bounded => ⟨fun _ fresh => absurd known fresh, fun _ => bounded⟩⟩
  rw [if_neg known]
  by_cases due : 5 ≤ (s.vTimeOffsets.input (call.nTime - call.now)).size ∧
      (s.vTimeOffsets.input (call.nTime - call.now)).size % 2 = 1
  · rw [if_pos due]
    obtain ⟨median, found, least⟩ := median_input s.vTimeOffsets (call.nTime - call.now) due.2
    obtain ⟨after, result, bounded⟩ := @recalculate_spec { s with
      setKnown := call.ip :: s.setKnown, vTimeOffsets := s.vTimeOffsets.input (call.nTime - call.now) } median found
    refine ⟨after, result, fun _ => bounded.trans ?_⟩
    rw [ne_eq, least, not_not]
    exact ⟨fun few _ _ _ => few, fun moderate => moderate known due.1 due.2⟩
  · rw [if_neg due]
    exact ⟨_, rfl, fun bounded => ⟨fun _ _ enough odd => absurd ⟨enough, odd⟩ due, fun _ => bounded⟩⟩

theorem initial_bounded : initial.Bounded := by
  unfold Bounded
  decide

/-- Every sequence of calls returns, and the offset stays within the limits in all its states exactly when each call is
moderate in the state that it finds. -/
theorem timeOffset_bounded_iff (calls : List Call) :
    (∀ front, front <+: calls → ∃ s, initial.run front = some s) ∧
      ((∀ front s, front <+: calls → initial.run front = some s → s.Bounded) ↔
        ∀ front call rest s, calls = front ++ call :: rest → initial.run front = some s → call.Moderate s) := by
  have steps : Library.Runs.Steps (fun s (call : Call) => addTimeData s call.ip call.nTime call.now) (fun _ => True)
      Bounded fun s call => call.Moderate s := by
    refine ⟨fun _ call => ?_⟩
    obtain ⟨after, result, bounded⟩ := addTimeData_spec _ call
    exact ⟨after, result, trivial, bounded⟩
  refine ⟨fun front _ => ?_, steps.always_iff calls trivial initial_bounded⟩
  obtain ⟨s, result, -⟩ := steps.run front (s := initial) trivial
  exact ⟨s, result⟩

end Recalculation

section Concrete

/-- A peer that reports the least `int64_t` as its distance from our clock, which stands at 1000. -/
def distantCall (last : UInt8) : Call := ⟨⟨List.replicate 15 0 ++ [last], rfl⟩, Int64.minValue + 1000, 1000⟩

/-- Four such peers set the offset to the least `int64_t`. -/
theorem distant_peers_unbounded :
    ¬ ∀ (calls : List Call) (s : TimeData), initial.run calls = some s → s.Bounded := by
  intro claim
  have value : (initial.run [distantCall 1, distantCall 2, distantCall 3, distantCall 4]).map (·.nTimeOffset) =
      some Int64.minValue := by
    decide +kernel
  obtain ⟨s, run, offset⟩ := Option.map_eq_some_iff.mp value
  have bounded := (claim _ s run).1
  rw [offset] at bounded
  exact absurd bounded (by decide)

end Concrete

end TimeData

end InfiniteRicks
