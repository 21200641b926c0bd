import Mathlib.Data.Finset.Card
import Mathlib.Data.List.DropRight

/-!
# The bounded set of recent elements

`mruset<T>` (`mruset.h`) keeps its elements twice, in a `std::set` and in a queue by age, and updates the
two separately. Every run of `insert`, `max_size` and `clear` is a run of one window over the elements
that were newly inserted.
-/

namespace InfiniteRicks

structure MruSet (T : Type) where
  set : Finset T
  /-- Oldest first. -/
  queue : List T
  /-- 0 is no limit. -/
  nMaxSize : Nat

/-- A call that changes the container. -/
inductive MruOp (T : Type) where
  | insert (x : T)
  | maxSize (s : Nat)
  | clear

namespace MruSet

variable {T K : Type}

section Model

variable [DecidableEq T] [DecidableEq K]

/-- The constructor. -/
def new (nMaxSizeIn : Nat) : MruSet T := ⟨∅, [], nMaxSizeIn⟩

def size (m : MruSet T) : Nat := m.set.card

def clear (m : MruSet T) : MruSet T := { m with set := ∅, queue := [] }

-- `operator<` puts neither of two elements before the other exactly when their keys agree.
variable (key : T → K)

/-- `std::set::insert`, with the second component of what it returns. -/
def setInsert (set : Finset T) (x : T) : Finset T × Bool :=
  if ∃ y ∈ set, key y = key x then (set, false) else (Insert.insert x set, true)

/-- `std::set::erase`. -/
def setErase (set : Finset T) (x : T) : Finset T := set.filter fun y => key y ≠ key x

/-- `set.erase(queue.front())` and `queue.pop_front()`. -/
def popFront (m : MruSet T) : MruSet T :=
  match m.queue with
  | [] => m
  | front :: rest => { m with set := setErase key m.set front, queue := rest }

/-- `insert`, with `ret.second`. -/
def insert (m : MruSet T) (x : T) : MruSet T × Bool :=
  let ret := setInsert key m.set x
  let m := { m with set := ret.1 }
  if ret.2 then
    let m := if m.nMaxSize ≠ 0 ∧ m.queue.length = m.nMaxSize then m.popFront key else m
    ({ m with queue := m.queue ++ [x] }, true)
  else (m, false)

/-- `while (queue.size() > s)`, on the two containers. -/
def shrink (s : Nat) : Finset T → List T → Finset T × List T
  | set, [] => (set, [])
  | set, front :: rest =>
      if s < (front :: rest).length then shrink s (setErase key set front) rest else (set, front :: rest)

/-- `max_size(s)`. -/
def maxSize (m : MruSet T) (s : Nat) : MruSet T :=
  let kept := if s ≠ 0 then shrink key s m.set m.queue else (m.set, m.queue)
  { set := kept.1, queue := kept.2, nMaxSize := s }

/-- One call, with the elements that were newly inserted since the last `clear`, oldest first. -/
def step (run : MruSet T × List T) : MruOp T → MruSet T × List T
  | .insert x =>
      let ret := run.1.insert key x
      (ret.1, if ret.2 then run.2 ++ [x] else run.2)
  | .maxSize s => (run.1.maxSize key s, run.2)
  | .clear => (run.1.clear, [])

/-- The calls `ops` on a new container. -/
def run (nMaxSizeIn : Nat) (ops : List (MruOp T)) : MruSet T × List T :=
  ops.foldl (step key) (new nMaxSizeIn, [])

end Model

/-- What the container is for: the newest elements under the limit. -/
structure Recent (T : Type) where
  limit : Nat
  window : List T

/-- The newest `limit` elements, or all of them where there is no limit. -/
def newest (limit : Nat) (elements : List T) : List T :=
  if limit = 0 then elements else elements.rtake limit

def Recent.step [DecidableEq K] (key : T → K) (r : Recent T) : MruOp T → Recent T
  | .insert x => if ∃ y ∈ r.window, key y = key x then r else { r with window := newest r.limit (r.window ++ [x]) }
  | .maxSize s => ⟨s, newest s r.window⟩
  | .clear => { r with window := [] }

def Recent.run [DecidableEq K] (key : T → K) (limit : Nat) (ops : List (MruOp T)) : Recent T :=
  ops.foldl (Recent.step key) ⟨limit, []⟩

/-- The container `m` holds the window `r`, with `inserted` what was newly inserted since the last `clear`. -/
structure Holds [DecidableEq T] (key : T → K) (m : MruSet T) (inserted : List T) (r : Recent T) : Prop where
  distinct : (m.queue.map key).Nodup
  elements : m.queue.toFinset = m.set
  bounded : m.nMaxSize ≠ 0 → m.size ≤ m.nMaxSize
  limit : m.nMaxSize = r.limit
  contents : m.queue = r.window
  latest : m.queue <:+ inserted

variable {key : T → K}

/-! ## The newest elements -/

theorem newest_suffix (limit : Nat) (elements : List T) : newest limit elements <:+ elements := by
  unfold newest
  split
  · exact List.suffix_refl elements
  · exact List.drop_suffix _ elements

theorem newest_of_length_le {limit : Nat} {elements : List T} (short : limit ≠ 0 → elements.length ≤ limit) :
    newest limit elements = elements := by
  unfold newest
  split
  case isTrue => rfl
  case isFalse limited => rw [List.rtake, Nat.sub_eq_zero_of_le (short limited), List.drop_zero]

theorem newest_cons {limit : Nat} (limited : limit ≠ 0) {front : T} {rest : List T} (long : limit ≤ rest.length) :
    newest limit (front :: rest) = newest limit rest := by
  rw [newest, newest, if_neg limited, if_neg limited, List.rtake, List.rtake, List.length_cons, Nat.succ_sub long,
    List.drop_succ_cons]

theorem length_newest_le {limit : Nat} (limited : limit ≠ 0) (elements : List T) :
    (newest limit elements).length ≤ limit := by
  rw [newest, if_neg limited, List.rtake, List.length_drop]
  omega

theorem newest_append (limit : Nat) (elements : List T) (x : T) :
    newest limit (newest limit elements ++ [x]) = newest limit (elements ++ [x]) := by
  by_cases limited : limit = 0
  · simp only [newest, if_pos limited]
  · simp only [newest, if_neg limited, List.rtake]
    have inside : elements.length - limit ≤ elements.length := Nat.sub_le _ _
    rw [← List.drop_append_of_le_length inside, List.drop_drop, List.length_drop, List.length_append,
      List.length_singleton]
    congr 1
    omega

theorem nodup_append {queue : List T} (distinct : (queue.map key).Nodup) {x : T}
    (fresh : ¬ ∃ y ∈ queue, key y = key x) : ((queue ++ [x]).map key).Nodup := by
  rw [List.map_append, List.map_singleton, List.nodup_append_comm, List.singleton_append, List.nodup_cons]
  refine ⟨fun present => fresh ?_, distinct⟩
  obtain ⟨y, inQueue, same⟩ := List.mem_map.mp present
  exact ⟨y, inQueue, same⟩

theorem nodup_newest {queue : List T} (distinct : (queue.map key).Nodup) (limit : Nat) :
    ((newest limit queue).map key).Nodup :=
  distinct.sublist ((newest_suffix limit queue).sublist.map key)

theorem Recent.run_append [DecidableEq K] (key : T → K) (limit : Nat) (ops : List (MruOp T)) (op : MruOp T) :
    Recent.run key limit (ops ++ [op]) = (Recent.run key limit ops).step key op := by
  rw [Recent.run, List.foldl_append, List.foldl_cons, List.foldl_nil, ← Recent.run]

theorem limit_of_insertions [DecidableEq K] (key : T → K) (limit : Nat) (xs : List T) :
    (Recent.run key limit (xs.map .insert)).limit = limit := by
  induction xs using List.reverseRecOn with
  | nil => rfl
  | append_singleton xs x ih =>
      rw [List.map_append, List.map_singleton, Recent.run_append, Recent.step]
      split
      · exact ih
      · exact ih

/-! ## The two containers together -/

variable [DecidableEq T]

/-- The container whose set and queue hold `queue`. -/
def ofQueue (limit : Nat) (queue : List T) : MruSet T := ⟨queue.toFinset, queue, limit⟩

section Containers

variable [DecidableEq K]

theorem setErase_toFinset {front : T} {rest : List T} (distinct : ((front :: rest).map key).Nodup) :
    setErase key (front :: rest).toFinset front = rest.toFinset := by
  rw [List.map_cons, List.nodup_cons] at distinct
  ext y
  simp only [setErase, Finset.mem_filter, List.mem_toFinset, List.mem_cons]
  constructor
  · rintro ⟨rfl | inRest, differs⟩
    · exact absurd rfl differs
    · exact inRest
  · intro inRest
    refine ⟨Or.inr inRest, fun same => distinct.1 ?_⟩
    rw [← same]
    exact List.mem_map_of_mem inRest

theorem setInsert_toFinset (queue : List T) (x : T) :
    setInsert key queue.toFinset x =
      if ∃ y ∈ queue, key y = key x then (queue.toFinset, false) else ((queue ++ [x]).toFinset, true) := by
  have grown : Insert.insert x queue.toFinset = (queue ++ [x]).toFinset := by
    ext y
    simp [or_comm]
  simp only [setInsert, List.mem_toFinset, grown]

/-- One element too many is the front's place: the equality test finds every overflow while the bound holds. -/
theorem insert_ofQueue {limit : Nat} {queue : List T} (distinct : (queue.map key).Nodup)
    (bounded : limit ≠ 0 → queue.length ≤ limit) (x : T) :
    (ofQueue limit queue).insert key x =
      if ∃ y ∈ queue, key y = key x then (ofQueue limit queue, false)
      else (ofQueue limit (newest limit (queue ++ [x])), true) := by
  simp only [insert, ofQueue, setInsert_toFinset]
  by_cases present : ∃ y ∈ queue, key y = key x
  · simp only [if_pos present, Bool.false_eq_true, if_false]
  · simp only [if_neg present, if_true]
    by_cases full : limit ≠ 0 ∧ queue.length = limit
    · rw [if_pos full]
      cases queue with
      | nil => exact absurd full.2.symm full.1
      | cons front rest =>
          have erased : setErase key (front :: (rest ++ [x])).toFinset front = (rest ++ [x]).toFinset :=
            setErase_toFinset (nodup_append distinct present)
          have long : limit ≤ (rest ++ [x]).length := by
            rw [List.length_append, List.length_singleton, ← List.length_cons, full.2]
          rw [List.cons_append, newest_cons full.1 long, newest_of_length_le fun _ => ?_]
          · simp only [popFront, List.cons_append, erased]
          · rw [List.length_append, List.length_singleton, ← List.length_cons, full.2]
    · rw [if_neg full, newest_of_length_le fun limited => ?_]
      have under := bounded limited
      have unequal := not_and.mp full limited
      rw [List.length_append, List.length_singleton]
      omega

theorem shrink_toFinset {s : Nat} (limited : s ≠ 0) {queue : List T} (distinct : (queue.map key).Nodup) :
    shrink key s queue.toFinset queue = ((newest s queue).toFinset, newest s queue) := by
  induction queue with
  | nil => rw [newest_of_length_le fun _ => Nat.zero_le s, shrink]
  | cons front rest ih =>
      rw [shrink]
      split
      case isTrue long =>
        rw [setErase_toFinset distinct, newest_cons limited (Nat.le_of_lt_succ long)]
        exact ih (List.nodup_cons.mp distinct).2
      case isFalse short => rw [newest_of_length_le fun _ => Nat.le_of_not_lt short]

theorem maxSize_ofQueue {limit : Nat} {queue : List T} (distinct : (queue.map key).Nodup) (s : Nat) :
    (ofQueue limit queue).maxSize key s = ofQueue s (newest s queue) := by
  by_cases limited : s ≠ 0
  · simp only [maxSize, ofQueue, if_pos limited, shrink_toFinset limited distinct]
  · have kept : newest s queue = queue := if_pos (not_not.mp limited)
    simp only [maxSize, ofQueue, if_neg limited, kept]

end Containers

/-! ## Runs -/

theorem Holds.eq_ofQueue {m : MruSet T} {inserted : List T} {r : Recent T} (holds : Holds key m inserted r) :
    m = ofQueue r.limit r.window := by
  rw [ofQueue, ← holds.limit, ← holds.contents, holds.elements]

theorem size_ofQueue (limit : Nat) {queue : List T} (distinct : (queue.map key).Nodup) :
    (ofQueue limit queue).size = queue.length :=
  List.toFinset_card_of_nodup (List.Nodup.of_map key distinct)

theorem holds_ofQueue {limit : Nat} {queue inserted : List T} (distinct : (queue.map key).Nodup)
    (bounded : limit ≠ 0 → queue.length ≤ limit) (latest : queue <:+ inserted) :
    Holds key (ofQueue limit queue) inserted ⟨limit, queue⟩ where
  distinct := distinct
  elements := rfl
  bounded := fun limited => by
    rw [size_ofQueue limit distinct]
    exact bounded limited
  limit := rfl
  contents := rfl
  latest := latest

theorem holds_empty (key : T → K) (limit : Nat) : Holds key (ofQueue limit []) [] ⟨limit, []⟩ :=
  holds_ofQueue (List.nodup_nil : (List.map key []).Nodup) (fun _ => Nat.zero_le limit) (List.suffix_refl [])

theorem Holds.window_distinct {m : MruSet T} {inserted : List T} {r : Recent T} (holds : Holds key m inserted r) :
    (r.window.map key).Nodup := by
  rw [← holds.contents]
  exact holds.distinct

theorem Holds.window_bounded {m : MruSet T} {inserted : List T} {r : Recent T} (holds : Holds key m inserted r) :
    r.limit ≠ 0 → r.window.length ≤ r.limit := by
  rw [← size_ofQueue r.limit holds.window_distinct, ← holds.eq_ofQueue, ← holds.limit]
  exact holds.bounded

variable [DecidableEq K]

theorem Holds.step_insert {m : MruSet T} {inserted : List T} {r : Recent T} (holds : Holds key m inserted r) (x : T) :
    MruSet.step key (m, inserted) (.insert x) =
      if ∃ y ∈ r.window, key y = key x then (m, inserted)
      else (ofQueue r.limit (newest r.limit (r.window ++ [x])), inserted ++ [x]) := by
  rw [holds.eq_ofQueue]
  simp only [MruSet.step, insert_ofQueue holds.window_distinct holds.window_bounded]
  by_cases present : ∃ y ∈ r.window, key y = key x
  · simp only [if_pos present, Bool.false_eq_true, if_false]
  · simp only [if_neg present, if_true]

/-- The window after a call is held by the container after that call. -/
theorem Holds.step {m : MruSet T} {inserted : List T} {r : Recent T} (holds : Holds key m inserted r)
    (op : MruOp T) :
    Holds key (step key (m, inserted) op).1 (step key (m, inserted) op).2 (r.step key op) := by
  have distinct := holds.window_distinct
  have latest : r.window <:+ inserted := by
    rw [← holds.contents]
    exact holds.latest
  cases op with
  | insert x =>
      rw [holds.step_insert, Recent.step]
      by_cases present : ∃ y ∈ r.window, key y = key x
      · rw [if_pos present, if_pos present]
        exact holds
      · rw [if_neg present, if_neg present]
        have grown : r.window ++ [x] <:+ inserted ++ [x] := List.suffix_append_self_iff.mpr latest
        exact holds_ofQueue (nodup_newest (nodup_append distinct present) r.limit)
          (fun limited => length_newest_le limited _) ((newest_suffix r.limit _).trans grown)
  | maxSize s =>
      rw [holds.eq_ofQueue]
      simp only [MruSet.step, Recent.step, maxSize_ofQueue distinct]
      exact holds_ofQueue (nodup_newest distinct s) (fun limited => length_newest_le limited _)
        ((newest_suffix s r.window).trans latest)
  | clear =>
      rw [holds.eq_ofQueue]
      exact holds_empty key r.limit

theorem Holds.foldl (ops : List (MruOp T)) {run : MruSet T × List T} {r : Recent T} (holds : Holds key run.1 run.2 r) :
    Holds key (ops.foldl (MruSet.step key) run).1 (ops.foldl (MruSet.step key) run).2
      (ops.foldl (Recent.step key) r) := by
  induction ops generalizing run r with
  | nil => exact holds
  | cons op rest ih => exact ih (holds.step op)

/-- In every run the queue and the set hold one window of pairwise different elements, within the limit, and that
window is the newest part of what was newly inserted. -/
theorem run_keeps_newest (key : T → K) (nMaxSizeIn : Nat) (ops : List (MruOp T)) :
    Holds key (run key nMaxSizeIn ops).1 (run key nMaxSizeIn ops).2 (Recent.run key nMaxSizeIn ops) :=
  Holds.foldl ops (holds_empty key nMaxSizeIn)

example : (run (id : Nat → Nat) 2 [.insert 1, .insert 2, .insert 1, .insert 3, .maxSize 3, .insert 4]).1.queue
    = [2, 3, 4] := by decide

theorem run_append (key : T → K) (nMaxSizeIn : Nat) (ops : List (MruOp T)) (op : MruOp T) :
    run key nMaxSizeIn (ops ++ [op]) = step key (run key nMaxSizeIn ops) op := by
  rw [run, List.foldl_append, List.foldl_cons, List.foldl_nil, ← run]

/-- While the limit stays as it is, the queue is the newest elements of all that were newly inserted. -/
theorem queue_of_insertions (key : T → K) (nMaxSizeIn : Nat) (xs : List T) :
    (run key nMaxSizeIn (xs.map .insert)).1.queue = newest nMaxSizeIn (run key nMaxSizeIn (xs.map .insert)).2 := by
  induction xs using List.reverseRecOn with
  | nil => exact (newest_of_length_le fun _ => Nat.zero_le nMaxSizeIn).symm
  | append_singleton xs x ih =>
      have holds : Holds key (run key nMaxSizeIn (xs.map .insert)).1 (run key nMaxSizeIn (xs.map .insert)).2
          (Recent.run key nMaxSizeIn (xs.map .insert)) := Holds.foldl _ (holds_empty key nMaxSizeIn)
      have limit := limit_of_insertions key nMaxSizeIn xs
      rw [List.map_append, List.map_singleton, run_append]
      generalize run key nMaxSizeIn (xs.map .insert) = before at *
      rw [holds.step_insert]
      split
      · exact ih
      · show newest _ (_ ++ [x]) = newest nMaxSizeIn (before.2 ++ [x])
        rw [← holds.contents, limit, ih, newest_append]

end MruSet

end InfiniteRicks
