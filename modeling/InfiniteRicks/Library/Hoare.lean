import Mathlib.Logic.Basic

/-!
# Pre- and postconditions of programs that can leave early

Programs are of core's `EStateM`: they end with a value or leave with an exit, and the
state at that point is kept in both cases. `Triple` states what holds of each; its
rules follow the program text.
-/

namespace InfiniteRicks.Library.Hoare

variable {ε σ α β : Type}

/-- What holds at the end of a run. -/
def Ends (post : α → σ → Prop) (exits : ε → σ → Prop) : EStateM.Result ε σ α → Prop
  | .ok value after => post value after
  | .error exit after => exits exit after

/-- From a state with `pre` the program ends with `post` or leaves with `exits`. -/
def Triple (pre : σ → Prop) (program : EStateM ε σ α) (post : α → σ → Prop) (exits : ε → σ → Prop) : Prop :=
  ∀ s, pre s → Ends post exits (program s)

variable {pre : σ → Prop} {post : α → σ → Prop} {exits : ε → σ → Prop}

theorem Triple.pure {value : α} (holds : ∀ s, pre s → post value s) :
    Triple pre (Pure.pure value : EStateM ε σ α) post exits :=
  fun s start => holds s start

theorem Triple.bind {program : EStateM ε σ α} {next : α → EStateM ε σ β} {final : β → σ → Prop}
    (first : Triple pre program post exits) (rest : ∀ value, Triple (post value) (next value) final exits) :
    Triple pre (program >>= next) final exits := by
  intro s start
  have here := first s start
  change Ends final exits (EStateM.bind program next s)
  unfold EStateM.bind
  cases run : program s with
  | ok value after =>
      rw [run] at here
      exact rest value after here
  | error exit after =>
      rw [run] at here
      exact here

/-- The run of a program whose first part is known to end. -/
theorem bind_ok {program : EStateM ε σ α} {next : α → EStateM ε σ β} {s after : σ} {value : α}
    (run : program s = .ok value after) : (program >>= next) s = next value after := by
  change EStateM.bind program next s = next value after
  unfold EStateM.bind
  rw [run]

/-- Less to start from, or less to show. -/
theorem Triple.weaken {pre' : σ → Prop} {post' : α → σ → Prop} {exits' : ε → σ → Prop} {program : EStateM ε σ α}
    (triple : Triple pre program post exits) (start : ∀ s, pre' s → pre s)
    (final : ∀ value s, post value s → post' value s) (leaves : ∀ exit s, exits exit s → exits' exit s) :
    Triple pre' program post' exits' := by
  intro s here
  have result := triple s (start s here)
  cases run : program s with
  | ok value after =>
      rw [run] at result
      exact final value after result
  | error exit after =>
      rw [run] at result
      exact leaves exit after result

theorem Triple.conseq {post' : α → σ → Prop} {program : EStateM ε σ α} (triple : Triple pre program post exits)
    (final : ∀ value s, post value s → post' value s) : Triple pre program post' exits :=
  triple.weaken (fun _ start => start) final fun _ _ exit => exit

theorem Triple.throw {exit : ε} (leaves : ∀ s, pre s → exits exit s) :
    Triple pre (MonadExcept.throw exit : EStateM ε σ α) post exits :=
  fun s start => leaves s start

theorem Triple.ite {condition : Prop} [Decidable condition] {first second : EStateM ε σ α}
    (holds : condition → Triple pre first post exits) (fails : ¬ condition → Triple pre second post exits) :
    Triple pre (if condition then first else second) post exits := by
  by_cases here : condition
  · rw [if_pos here]
    exact holds here
  · rw [if_neg here]
    exact fails here

/-- A fact that does not speak of the state can be used in the program. -/
theorem Triple.assume {fact : Prop} {program : EStateM ε σ α}
    (triple : fact → Triple pre program post exits) :
    Triple (fun s => pre s ∧ fact) program post exits :=
  fun s start => triple start.2 s start.1

/-- The first program leaves a fact about its value, which the second one uses. -/
theorem Triple.bindFact {middle : σ → Prop} {fact : α → Prop} {program : EStateM ε σ α}
    {next : α → EStateM ε σ β} {final : β → σ → Prop}
    (first : Triple pre program (fun value s => middle s ∧ fact value) exits)
    (rest : ∀ value, fact value → Triple middle (next value) final exits) :
    Triple pre (program >>= next) final exits :=
  first.bind fun value => Triple.assume (rest value)

theorem Triple.get : Triple pre (MonadState.get : EStateM ε σ σ) (fun value s => pre s ∧ value = s) exits :=
  fun _ start => ⟨start, rfl⟩

/-- Where it does not matter which part of the state a program reads. -/
theorem Triple.bindGet {next : σ → EStateM ε σ β} {final : β → σ → Prop}
    (rest : ∀ before, Triple pre (next before) final exits) :
    Triple pre (MonadState.get >>= next) final exits :=
  Triple.get.bind fun before s start => rest before s start.1

theorem Triple.modify {change : σ → σ} {after : σ → Prop} (holds : ∀ s, pre s → after (change s)) :
    Triple pre (modify change : EStateM ε σ PUnit) (fun _ => after) exits :=
  fun s start => holds s start

/-- Two things shown of one program. -/
theorem Triple.and {post' : α → σ → Prop} {exits' : ε → σ → Prop} {program : EStateM ε σ α}
    (first : Triple pre program post exits) (second : Triple pre program post' exits') :
    Triple pre program (fun value s => post value s ∧ post' value s) (fun exit s => exits exit s ∧ exits' exit s) := by
  intro s start
  have left := first s start
  have right := second s start
  cases run : program s with
  | ok value after =>
      rw [run] at left right
      exact ⟨left, right⟩
  | error exit after =>
      rw [run] at left right
      exact ⟨left, right⟩

end InfiniteRicks.Library.Hoare
