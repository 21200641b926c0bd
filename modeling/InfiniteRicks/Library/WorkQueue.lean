import Mathlib.Data.Finset.Card
import Mathlib.Data.List.Nodup
import Mathlib.Data.List.Shortlex
import Mathlib.SetTheory.Cardinal.Finite

/-!
# A work queue with a set of keys that are done

A key is taken from the front of the queue and visited unless it is done; the visit appends further keys
to the queue, and may depend on a state that it changes. Which keys are visited, and in which order, is
told by the chains of positions that lead to a key: each key is visited at the first chain that leads to
it, and chains are ordered by length and then by positions.
-/

namespace InfiniteRicks.Library.WorkQueue

/-! ## Chains of positions -/

abbrev Chain := List ℕ

/-- The order in which a queue comes to the chains. -/
abbrev Earlier : Chain → Chain → Prop := List.Shortlex (· < ·)

namespace Earlier

variable {p q r : Chain} {i j : ℕ}

theorem wellFounded : WellFounded Earlier := List.Shortlex.wf wellFounded_lt

theorem irrefl (p : Chain) : ¬Earlier p p := fun loop => asymm_of Earlier loop loop

theorem asymm (earlier : Earlier p q) : ¬Earlier q p := asymm_of Earlier earlier

theorem trans (first : Earlier p q) (second : Earlier q r) : Earlier p r := by
  rw [Earlier, List.shortlex_def] at first second ⊢
  rcases first with shorter | ⟨same, lex⟩ <;> rcases second with shorter' | ⟨same', lex'⟩
  · exact .inl (by omega)
  · exact .inl (by omega)
  · exact .inl (by omega)
  · exact .inr ⟨same.trans same', List.lt_trans lex lex'⟩

theorem append (p : Chain) (j : ℕ) : Earlier p (p ++ [j]) := List.Shortlex.of_length_lt (by simp)

theorem siblings (less : i < j) (p : Chain) : Earlier (p ++ [i]) (p ++ [j]) :=
  List.Shortlex.append_left ((List.shortlex_singleton_iff i j).mpr less) p

private theorem lex_children (lex : List.Lex (· < ·) p q) (same : p.length = q.length) :
    List.Lex (· < ·) (p ++ [i]) (q ++ [j]) := by
  induction lex with
  | nil => simp at same
  | cons _ ih => exact .cons (ih (by simpa using same))
  | rel less => exact .rel less

theorem children (earlier : Earlier p q) : Earlier (p ++ [i]) (q ++ [j]) := by
  rw [Earlier, List.shortlex_def] at earlier ⊢
  rcases earlier with shorter | ⟨same, lex⟩
  · exact .inl (by simpa using shorter)
  · exact .inr ⟨by simpa using same, lex_children lex same⟩

end Earlier

/-! ## The loop -/

section Loop

variable {κ σ : Type}

/-- Keys with the chains that lead to them from a key at a chain. -/
def label (chain : Chain) (keys : List κ) : List (Chain × κ) := keys.mapIdx fun j key => (chain ++ [j], key)

theorem label_keys (chain : Chain) (keys : List κ) : (label chain keys).map Prod.snd = keys := by
  refine List.ext_getElem? fun j => ?_
  cases found : keys[j]? <;> simp [label, found]

theorem mem_label {chain : Chain} {keys : List κ} {entry : Chain × κ} :
    entry ∈ label chain keys ↔ ∃ j, entry.1 = chain ++ [j] ∧ keys[j]? = some entry.2 := by
  simp only [label, List.mem_mapIdx]
  constructor
  · rintro ⟨j, inside, rfl⟩
    exact ⟨j, rfl, List.getElem?_eq_getElem inside⟩
  · rintro ⟨j, named, found⟩
    obtain ⟨inside, same⟩ := List.getElem?_eq_some_iff.mp found
    exact ⟨j, inside, Prod.ext named.symm same⟩

theorem label_sorted (chain : Chain) (keys : List κ) :
    (label chain keys).Pairwise fun entry later => Earlier entry.1 later.1 := by
  rw [List.pairwise_iff_getElem]
  intro i j inside inside' less
  simp only [label, List.getElem_mapIdx]
  exact Earlier.siblings less chain

/-- A key that is not done is done after its visit, and fewer are left. -/
private theorem left_decreases [DecidableEq κ] [Finite κ] {key : κ} {done : Finset κ} (fresh : key ∉ done) :
    Nat.card κ - (insert key done).card < Nat.card κ - done.card := by
  have : Fintype κ := Fintype.ofFinite κ
  have room : (insert key done).card ≤ Nat.card κ := by
    rw [Nat.card_eq_fintype_card]
    exact Finset.card_le_univ _
  rw [Finset.card_insert_of_notMem fresh] at room ⊢
  omega

/-- A visit: the chain that leads to the key there, and the state before it. -/
structure Visit (κ σ : Type) where
  chain : Chain
  key : κ
  before : σ

variable (visit : σ → κ → σ × List κ)

/-- The state after visits to some keys. -/
def after (state : σ) (keys : List κ) : σ := keys.foldl (fun state key => (visit state key).1) state

variable [DecidableEq κ]

/-- The state when the queue is empty. -/
def explore [Finite κ] : List κ → Finset κ → σ → σ
  | [], _, state => state
  | key :: queue, done, state =>
      if key ∈ done then explore queue done state
      else explore (queue ++ (visit state key).2) (insert key done) (visit state key).1
termination_by queue done => (Nat.card κ - done.card, queue.length)
decreasing_by
  · exact Prod.Lex.right _ (by simp)
  · rename_i fresh
    exact Prod.Lex.left _ _ (left_decreases fresh)

/-- The visits of `explore`, whose queue carries the chains along. -/
def trace [Finite κ] : List (Chain × κ) → Finset κ → σ → List (Visit κ σ)
  | [], _, _ => []
  | entry :: queue, done, state =>
      if entry.2 ∈ done then trace queue done state
      else ⟨entry.1, entry.2, state⟩ ::
        trace (queue ++ label entry.1 (visit state entry.2).2) (insert entry.2 done) (visit state entry.2).1
termination_by queue done => (Nat.card κ - done.card, queue.length)
decreasing_by
  · exact Prod.Lex.right _ (by simp)
  · rename_i fresh
    exact Prod.Lex.left _ _ (left_decreases fresh)

variable {visit}

/-- The loop ends in the state after the keys of its visits. -/
theorem explore_eq [Finite κ] (queue : List (Chain × κ)) (done : Finset κ) (state : σ) :
    explore visit (queue.map Prod.snd) done state =
      after visit state ((trace visit queue done state).map Visit.key) := by
  induction queue, done, state using trace.induct visit with
  | case1 => simp [explore, trace, after]
  | case2 entry queue done state known ih =>
      rw [List.map_cons, explore, trace, if_pos known, if_pos known]
      exact ih
  | case3 entry queue done state fresh ih =>
      rw [List.map_cons, explore, trace, if_neg fresh, if_neg fresh, List.map_cons, after, List.foldl_cons]
      rw [List.map_append, label_keys] at ih
      exact ih

/-- The state before a visit is the one after the visits before it. -/
theorem before_eq [Finite κ] {queue : List (Chain × κ)} {done : Finset κ} {state : σ} {front rest : List (Visit κ σ)}
    {v : Visit κ σ} (split : trace visit queue done state = front ++ v :: rest) :
    v.before = after visit state (front.map Visit.key) := by
  induction queue, done, state using trace.induct visit generalizing front with
  | case1 => simp [trace] at split
  | case2 entry queue done state known ih =>
      rw [trace, if_pos known] at split
      exact ih split
  | case3 entry queue done state fresh ih =>
      rw [trace, if_neg fresh] at split
      cases front with
      | nil =>
          obtain ⟨rfl, -⟩ := List.cons.inj split
          rfl
      | cons first front =>
          obtain ⟨rfl, tail⟩ := List.cons.inj split
          exact ih tail

end Loop

/-! ## The order of the visits -/

section Order

variable {κ σ : Type} {visit : σ → κ → σ × List κ}

/-- A root at its position, or what a visit appended at its position after the chain of the visit. -/
def Offered (visit : σ → κ → σ × List κ) (roots : List κ) (visits : List (Visit κ σ)) (chain : Chain) (key : κ) :
    Prop :=
  (∃ j, chain = [j] ∧ roots[j]? = some key) ∨
    ∃ v ∈ visits, ∃ j, chain = v.chain ++ [j] ∧ (visit v.before v.key).2[j]? = some key

/-- Each key that is offered is visited once, at the first chain that leads to it, and the visits are in the
order of their chains. -/
structure BreadthFirst (visit : σ → κ → σ × List κ) (roots : List κ) (visits : List (Visit κ σ)) : Prop where
  sorted : visits.Pairwise fun v later => Earlier v.chain later.chain
  distinct : visits.Pairwise fun v later => v.key ≠ later.key
  offered : ∀ v ∈ visits, Offered visit roots visits v.chain v.key
  reached : ∀ {chain key}, Offered visit roots visits chain key →
    ∃ v ∈ visits, v.key = key ∧ (v.chain = chain ∨ Earlier v.chain chain)

/-- The queue is in order, after the chain that was visited last, and holds only what was appended at that
chain or before. -/
structure Ordered (last : Chain) (queue : List (Chain × κ)) : Prop where
  sorted : queue.Pairwise fun entry later => Earlier entry.1 later.1
  later : ∀ entry ∈ queue, Earlier last entry.1
  appended : ∀ entry ∈ queue, ∃ before j, entry.1 = before ++ [j] ∧ (before = last ∨ Earlier before last)

namespace Ordered

variable {last : Chain} {entry : Chain × κ} {queue : List (Chain × κ)}

theorem roots (keys : List κ) : Ordered [] (label [] keys) := by
  refine ⟨label_sorted [] keys, fun entry member => ?_, fun entry member => ?_⟩
  · obtain ⟨j, named, -⟩ := mem_label.mp member
    exact named ▸ Earlier.append [] j
  · obtain ⟨j, named, -⟩ := mem_label.mp member
    exact ⟨[], j, named, .inl rfl⟩

theorem skip (ordered : Ordered last (entry :: queue)) : Ordered last queue where
  sorted := (List.pairwise_cons.mp ordered.sorted).2
  later other member := ordered.later other (List.mem_cons_of_mem _ member)
  appended other member := ordered.appended other (List.mem_cons_of_mem _ member)

/-- What a visit appends comes after everything in the queue. -/
theorem step (ordered : Ordered last (entry :: queue)) (keys : List κ) :
    Ordered entry.1 (queue ++ label entry.1 keys) := by
  obtain ⟨first, sorted⟩ := List.pairwise_cons.mp ordered.sorted
  have now := ordered.later entry List.mem_cons_self
  have before_now : ∀ other ∈ queue, ∃ before j, other.1 = before ++ [j] ∧ Earlier before entry.1 := by
    intro other member
    obtain ⟨before, j, named, rfl | past⟩ := ordered.appended other (List.mem_cons_of_mem _ member)
    · exact ⟨before, j, named, now⟩
    · exact ⟨before, j, named, past.trans now⟩
  refine ⟨List.pairwise_append.mpr ⟨sorted, label_sorted _ _, fun other member child new => ?_⟩,
    fun other member => ?_, fun other member => ?_⟩
  · obtain ⟨before, j, named, past⟩ := before_now other member
    obtain ⟨i, named', -⟩ := mem_label.mp new
    rw [named, named']
    exact past.children
  · rcases List.mem_append.mp member with old | new
    · exact first other old
    · obtain ⟨j, named, -⟩ := mem_label.mp new
      exact named ▸ Earlier.append _ j
  · rcases List.mem_append.mp member with old | new
    · obtain ⟨before, j, named, past⟩ := before_now other old
      exact ⟨before, j, named, .inr past⟩
    · obtain ⟨j, named, -⟩ := mem_label.mp new
      exact ⟨_, j, named, .inl rfl⟩

end Ordered

section Trace

variable [DecidableEq κ] [Finite κ] {queue : List (Chain × κ)} {done : Finset κ} {state : σ}

theorem trace_sorted {last : Chain} (ordered : Ordered last queue) :
    (∀ v ∈ trace visit queue done state, Earlier last v.chain) ∧
      (trace visit queue done state).Pairwise fun v later => Earlier v.chain later.chain := by
  induction queue, done, state using trace.induct visit generalizing last with
  | case1 => simp [trace]
  | case2 entry queue done state known ih =>
      rw [trace, if_pos known]
      exact ih ordered.skip
  | case3 entry queue done state fresh ih =>
      rw [trace, if_neg fresh]
      obtain ⟨later, sorted⟩ := ih (ordered.step _)
      have now := ordered.later entry List.mem_cons_self
      refine ⟨fun v member => ?_, List.pairwise_cons.mpr ⟨later, sorted⟩⟩
      rcases List.mem_cons.mp member with rfl | member
      · exact now
      · exact now.trans (later v member)

theorem trace_distinct : (∀ v ∈ trace visit queue done state, v.key ∉ done) ∧
    (trace visit queue done state).Pairwise fun v later => v.key ≠ later.key := by
  induction queue, done, state using trace.induct visit with
  | case1 => simp [trace]
  | case2 entry queue done state known ih =>
      rw [trace, if_pos known]
      exact ih
  | case3 entry queue done state fresh ih =>
      rw [trace, if_neg fresh]
      obtain ⟨absent, distinct⟩ := ih
      refine ⟨fun v member => ?_, List.pairwise_cons.mpr ⟨fun v member same => ?_, distinct⟩⟩
      · rcases List.mem_cons.mp member with rfl | member
        · exact fresh
        · exact fun known => absent v member (Finset.mem_insert_of_mem known)
      · exact absent v member (same ▸ Finset.mem_insert_self _ _)

/-- A visit is one of what was in the queue, or of what a visit appended. -/
theorem trace_offered : ∀ v ∈ trace visit queue done state,
    (v.chain, v.key) ∈ queue ∨ ∃ u ∈ trace visit queue done state,
      (v.chain, v.key) ∈ label u.chain (visit u.before u.key).2 := by
  induction queue, done, state using trace.induct visit with
  | case1 => simp [trace]
  | case2 entry queue done state known ih =>
      rw [trace, if_pos known]
      exact fun v member => (ih v member).imp_left (List.mem_cons_of_mem _)
  | case3 entry queue done state fresh ih =>
      rw [trace, if_neg fresh]
      intro v member
      rcases List.mem_cons.mp member with rfl | member
      · exact .inl List.mem_cons_self
      · rcases ih v member with queued | ⟨u, visited, child⟩
        · rcases List.mem_append.mp queued with old | child
          · exact .inl (List.mem_cons_of_mem _ old)
          · exact .inr ⟨_, List.mem_cons_self, child⟩
        · exact .inr ⟨u, List.mem_cons_of_mem _ visited, child⟩

/-- Everything in the queue, and everything that a visit appends, is done before or visited at its chain or
earlier. -/
theorem trace_reached {last : Chain} (ordered : Ordered last queue) {entry : Chain × κ}
    (offered : entry ∈ queue ∨ ∃ u ∈ trace visit queue done state, entry ∈ label u.chain (visit u.before u.key).2) :
    entry.2 ∈ done ∨ ∃ v ∈ trace visit queue done state, v.key = entry.2 ∧
      (v.chain = entry.1 ∨ Earlier v.chain entry.1) := by
  induction queue, done, state using trace.induct visit generalizing last with
  | case1 => simp [trace] at offered
  | case2 head queue done state known ih =>
      rw [trace, if_pos known] at offered ⊢
      rcases offered with queued | appended
      · rcases List.mem_cons.mp queued with rfl | queued
        · exact .inl known
        · exact ih ordered.skip (.inl queued)
      · exact ih ordered.skip (.inr appended)
  | case3 head queue done state fresh ih =>
      have next := ordered.step (visit state head.2).2
      rw [trace, if_neg fresh] at offered ⊢
      have now : entry = head ∨ (entry ∈ queue ++ label head.1 (visit state head.2).2 ∨
          ∃ u ∈ trace visit (queue ++ label head.1 (visit state head.2).2) (insert head.2 done) (visit state head.2).1,
            entry ∈ label u.chain (visit u.before u.key).2) := by
        rcases offered with queued | ⟨u, visited, child⟩
        · exact (List.mem_cons.mp queued).imp_right fun old => .inl (List.mem_append_left _ old)
        · rcases List.mem_cons.mp visited with rfl | visited
          · exact .inr (.inl (List.mem_append_right _ child))
          · exact .inr (.inr ⟨u, visited, child⟩)
      rcases now with rfl | now
      · exact .inr ⟨_, List.mem_cons_self, rfl, .inl rfl⟩
      rcases ih next now with known | ⟨v, visited, same, order⟩
      · rcases Finset.mem_insert.mp known with same | known
        · refine .inr ⟨_, List.mem_cons_self, same.symm, .inr ?_⟩
          rcases now with queued | ⟨u, visited, child⟩
          · exact next.later entry queued
          · obtain ⟨j, named, -⟩ := mem_label.mp child
            rw [named]
            exact ((trace_sorted next).1 u visited).trans (Earlier.append _ j)
        · exact .inl known
      · exact .inr ⟨v, List.mem_cons_of_mem _ visited, same, order⟩

theorem trace_breadthFirst (roots : List κ) (state : σ) :
    BreadthFirst visit roots (trace visit (label [] roots) ∅ state) where
  sorted := (trace_sorted (Ordered.roots roots)).2
  distinct := trace_distinct.2
  offered v member := by
    rcases trace_offered v member with root | ⟨u, visited, child⟩
    · obtain ⟨j, named, found⟩ := mem_label.mp root
      exact .inl ⟨j, named, found⟩
    · obtain ⟨j, named, found⟩ := mem_label.mp child
      exact .inr ⟨u, visited, j, named, found⟩
  reached := by
    intro chain key offered
    have queued : (chain, key) ∈ label [] roots ∨ ∃ u ∈ trace visit (label [] roots) ∅ state,
        (chain, key) ∈ label u.chain (visit u.before u.key).2 := by
      rcases offered with ⟨j, named, found⟩ | ⟨u, visited, j, named, found⟩
      · exact .inl (mem_label.mpr ⟨j, named, found⟩)
      · exact .inr ⟨u, visited, mem_label.mpr ⟨j, named, found⟩⟩
    exact (trace_reached (Ordered.roots roots) queued).resolve_left (Finset.notMem_empty _)

end Trace

theorem BreadthFirst.apart {roots : List κ} {visits : List (Visit κ σ)} (walk : BreadthFirst visit roots visits)
    {u v : Visit κ σ} (inside : u ∈ visits) (inside' : v ∈ visits) (other : u ≠ v) : u.key ≠ v.key :=
  have : Std.Symm fun v later : Visit κ σ => v.key ≠ later.key := ⟨fun _ _ apart => apart.symm⟩
  walk.distinct.forall inside inside' other

theorem BreadthFirst.eq_of_chain {roots : List κ} {visits : List (Visit κ σ)} (walk : BreadthFirst visit roots visits)
    {u v : Visit κ σ} (inside : u ∈ visits) (inside' : v ∈ visits) (same : u.chain = v.chain) : u = v := by
  by_contra other
  have distinct : visits.Pairwise fun v later => v.chain ≠ later.chain := by
    refine walk.sorted.imp fun {v later} earlier equal => ?_
    rw [equal] at earlier
    exact Earlier.irrefl _ earlier
  have : Std.Symm fun v later : Visit κ σ => v.chain ≠ later.chain := ⟨fun _ _ apart => apart.symm⟩
  exact distinct.forall inside inside' other same

/-- The visits before a visit are those at earlier chains. -/
theorem BreadthFirst.mem_front {roots : List κ} {visits front rest : List (Visit κ σ)}
    (walk : BreadthFirst visit roots visits) {u v : Visit κ σ} (split : visits = front ++ v :: rest) :
    u ∈ front ↔ u ∈ visits ∧ Earlier u.chain v.chain := by
  have sorted := walk.sorted
  rw [split, List.pairwise_append, List.pairwise_cons] at sorted
  obtain ⟨-, ⟨later, -⟩, before⟩ := sorted
  constructor
  · exact fun inside => ⟨split ▸ List.mem_append_left _ inside, before u inside v List.mem_cons_self⟩
  · rintro ⟨inside, earlier⟩
    rw [split] at inside
    rcases List.mem_append.mp inside with inside | inside
    · exact inside
    · rcases List.mem_cons.mp inside with rfl | inside
      · exact absurd earlier (Earlier.irrefl _)
      · exact absurd earlier (later u inside).asymm

/-- A key is visited at a chain exactly when the chain leads to it and no earlier one does. -/
theorem BreadthFirst.visited_iff {roots : List κ} {visits : List (Visit κ σ)}
    (walk : BreadthFirst visit roots visits) {chain : Chain} {key : κ} :
    (∃ v ∈ visits, v.chain = chain ∧ v.key = key) ↔ Offered visit roots visits chain key ∧
      ∀ earlier, Earlier earlier chain → ¬Offered visit roots visits earlier key := by
  constructor
  · rintro ⟨v, visited, rfl, rfl⟩
    refine ⟨walk.offered v visited, fun earlier before offered => ?_⟩
    obtain ⟨u, visited', same, order⟩ := walk.reached offered
    have past : Earlier u.chain v.chain := order.elim (fun here => here ▸ before) fun order => order.trans before
    have other : u ≠ v := fun equal => Earlier.irrefl _ (equal ▸ past)
    exact walk.apart visited' visited other same
  · rintro ⟨offered, first⟩
    obtain ⟨v, visited, rfl, here | past⟩ := walk.reached offered
    · exact ⟨v, visited, here, rfl⟩
    · exact absurd (walk.offered v visited) (first _ past)

end Order

end InfiniteRicks.Library.WorkQueue
