import InfiniteRicks.Relay

/-!
# Asking for data

`CNode::AskFor` (`net.h`) and the part of `SendMessages` (`main.cpp`) that sends `getdata`. Each peer has a queue of
requests with their times; when something was asked for last is common to all peers. Times are in microseconds and
do not overflow. The clock may go back.
-/

namespace InfiniteRicks

/-- The queues of the peers, what is common to them, and the `getdata` messages: to whom, when and for what. -/
structure AskState where
  mapAlreadyAskedFor : CInv → Int
  nLastTime : Int
  mapAskFor : Nat → List (Int × CInv)
  sent : List (Nat × Int × List CInv)

namespace AskState

def start : AskState := ⟨fun _ => 0, 0, fun _ => [], []⟩

/-- Each retry is two minutes after the last. -/
def retry : Int := 2 * 60 * 1000000

/-- `nNow` in `AskFor`, which uses no time index twice. -/
def index (s : AskState) (time : Int) : Int := max ((time - 1) * 1000000) (s.nLastTime + 1)

/-- `nRequestTime`. -/
def requestTime (s : AskState) (time : Int) (inv : CInv) : Int :=
  max (s.mapAlreadyAskedFor inv + retry) (s.index time)

/-- `AskFor` at a time of the clock. The queue is a `multimap`: behind what has the same time. -/
def askFor (s : AskState) (pnode : Nat) (time : Int) (inv : CInv) : AskState :=
  { s with
    mapAlreadyAskedFor := Function.update s.mapAlreadyAskedFor inv (s.requestTime time inv)
    nLastTime := s.index time
    mapAskFor := Function.update s.mapAskFor pnode
      ((s.mapAskFor pnode).orderedInsert (fun request other => request.1 < other.1) (s.requestTime time inv, inv)) }

/-- Whether the time of a request has come. -/
def isDue (time : Int) (request : Int × CInv) : Bool := decide (request.1 ≤ time * 1000000)

/-- What a call of `SendMessages` asks the peer for. -/
def wanted (s : AskState) (pto : Nat) (time : Int) (alreadyHave : CInv → Bool) : List CInv :=
  (((s.mapAskFor pto).takeWhile (isDue time)).map Prod.snd).filter fun inv => !alreadyHave inv

/-- `push_back`, and the message when it has its greatest size. -/
def collect (data : List (List CInv) × List CInv) (inv : CInv) : List (List CInv) × List CInv :=
  let vGetData := data.2 ++ [inv]
  if maxAnnounced ≤ vGetData.length then (data.1 ++ [vGetData], []) else (data.1, vGetData)

/-- The messages, the rest as the last one. -/
def messages (invs : List CInv) : List (List CInv) :=
  let data := invs.foldl collect ([], [])
  if data.2 = [] then data.1 else data.1 ++ [data.2]

/-- The end of `SendMessages`. -/
def sendMessages (s : AskState) (pto : Nat) (time : Int) (alreadyHave : CInv → Bool) : AskState :=
  { s with
    mapAlreadyAskedFor := fun inv =>
      if inv ∈ s.wanted pto time alreadyHave then time * 1000000 else s.mapAlreadyAskedFor inv
    mapAskFor := Function.update s.mapAskFor pto ((s.mapAskFor pto).dropWhile (isDue time))
    sent := s.sent ++ (messages (s.wanted pto time alreadyHave)).map fun vGetData => (pto, time, vGetData) }

end AskState

inductive AskEvent where
  | askFor (pnode : Nat) (time : Int) (inv : CInv)
  | sendMessages (pto : Nat) (time : Int) (alreadyHave : CInv → Bool)
  /-- `mapAlreadyAskedFor.erase(inv)`, when it has come. -/
  | received (inv : CInv)

def AskEvent.step (s : AskState) : AskEvent → AskState
  | askFor pnode time inv => s.askFor pnode time inv
  | sendMessages pto time alreadyHave => s.sendMessages pto time alreadyHave
  | received inv => { s with mapAlreadyAskedFor := Function.update s.mapAlreadyAskedFor inv 0 }

namespace AskState

def run (events : List AskEvent) : AskState := events.foldl AskEvent.step .start

variable {s : AskState} {event : AskEvent} {events : List AskEvent} {request : Int × CInv} {pnode : Nat}

/-! ## One call -/

theorem foldl_collect (invs : List CInv) {data : List (List CInv) × List CInv} (short : data.2.length < maxAnnounced)
    (sizes : ∀ vGetData ∈ data.1, vGetData ≠ [] ∧ vGetData.length ≤ maxAnnounced) :
    (invs.foldl collect data).1.flatten ++ (invs.foldl collect data).2 = data.1.flatten ++ data.2 ++ invs ∧
      (invs.foldl collect data).2.length < maxAnnounced ∧
      ∀ vGetData ∈ (invs.foldl collect data).1, vGetData ≠ [] ∧ vGetData.length ≤ maxAnnounced := by
  induction invs generalizing data with
  | nil => exact ⟨(List.append_nil _).symm, short, sizes⟩
  | cons inv rest ih =>
      have length : (data.2 ++ [inv]).length = data.2.length + 1 := List.length_append
      rw [List.foldl_cons, collect]
      split
      · obtain ⟨all, bounds⟩ := @ih (data.1 ++ [data.2 ++ [inv]], []) (Nat.zero_lt_succ 999) fun vGetData member => by
          rcases List.mem_append.mp member with earlier | last
          · exact sizes vGetData earlier
          · rw [List.mem_singleton.mp last]
            exact ⟨List.concat_ne_nil _ _, by omega⟩
        refine ⟨?_, bounds⟩
        rw [all]
        simp
      · obtain ⟨all, bounds⟩ := @ih (data.1, data.2 ++ [inv]) (by dsimp only; omega) sizes
        refine ⟨?_, bounds⟩
        rw [all]
        simp

/-- The messages ask for everything in its order, and none of them is empty or too long. -/
theorem messages_spec (invs : List CInv) :
    (messages invs).flatten = invs ∧ ∀ vGetData ∈ messages invs, vGetData ≠ [] ∧ vGetData.length ≤ maxAnnounced := by
  obtain ⟨all, short, sizes⟩ := @foldl_collect invs ([], []) (Nat.zero_lt_succ 999) (by simp)
  have whole : (invs.foldl collect ([], [])).1.flatten ++ (invs.foldl collect ([], [])).2 = invs := by simpa using all
  rw [messages]
  split
  · rename_i none
    rw [none, List.append_nil] at whole
    exact ⟨whole, sizes⟩
  · rename_i some_
    refine ⟨by simpa using whole, fun vGetData member => ?_⟩
    rcases List.mem_append.mp member with earlier | last
    · exact sizes vGetData earlier
    · rw [List.mem_singleton.mp last]
      exact ⟨some_, short.le⟩

/-- The queues are in the order of the times. -/
def Queued (s : AskState) : Prop :=
  ∀ pnode, (s.mapAskFor pnode).Pairwise fun request other => request.1 ≤ other.1

theorem pairwise_insert {requests : List (Int × CInv)}
    (sorted : requests.Pairwise fun request other => request.1 ≤ other.1) :
    (requests.orderedInsert (fun request other => request.1 < other.1) request).Pairwise
      fun request other => request.1 ≤ other.1 := by
  induction requests with
  | nil => exact List.pairwise_singleton _ _
  | cons first rest ih =>
      obtain ⟨least, others⟩ := List.pairwise_cons.mp sorted
      rw [List.orderedInsert_cons]
      split
      · rename_i before
        refine List.pairwise_cons.mpr ⟨fun other member => ?_, sorted⟩
        rcases List.mem_cons.mp member with rfl | later
        · exact before.le
        · exact before.le.trans (least other later)
      · rename_i behind
        refine List.pairwise_cons.mpr ⟨fun other member => ?_, ih others⟩
        rcases (List.mem_orderedInsert _).mp member with rfl | later
        · exact not_lt.mp behind
        · exact least other later

theorem Queued.step (queued : s.Queued) (event : AskEvent) : (event.step s).Queued := by
  intro pnode
  cases event with
  | askFor other time inv =>
      simp only [AskEvent.step, askFor, Function.update_apply]
      split
      · rename_i here
        exact pairwise_insert (here ▸ queued pnode)
      · exact queued pnode
  | sendMessages pto time alreadyHave =>
      simp only [AskEvent.step, sendMessages, Function.update_apply]
      split
      · rename_i here
        exact (here ▸ queued pnode).sublist (List.dropWhile_sublist _)
      · exact queued pnode
  | received inv => exact queued pnode

/-- In a call that is among the events, the request was made, or there was nothing to ask for. -/
def Settled (s : AskState) (events : List AskEvent) (pnode : Nat) (request : Int × CInv) : Prop :=
  ∃ before time alreadyHave after, events = before ++ .sendMessages pnode time alreadyHave :: after ∧
    request.1 ≤ time * 1000000 ∧ (alreadyHave request.2 = true ∨
      request.2 ∈ (before.foldl AskEvent.step s).wanted pnode time alreadyHave)

/-- A request stays in its queue up to the call that makes it. -/
theorem Queued.leaves (queued : s.Queued) (waiting : request ∈ s.mapAskFor pnode)
    (left : request ∉ (event.step s).mapAskFor pnode) : Settled s [event] pnode request := by
  cases event with
  | askFor other time inv =>
      refine absurd ?_ left
      simp only [AskEvent.step, askFor, Function.update_apply]
      split
      · rename_i here
        exact (List.mem_orderedInsert _).mpr (.inr (here ▸ waiting))
      · exact waiting
  | sendMessages pto time alreadyHave =>
      simp only [AskEvent.step, sendMessages, Function.update_apply] at left
      split at left
      · rename_i here
        subst here
        rw [← @List.takeWhile_append_dropWhile _ (isDue time) (s.mapAskFor pnode)] at waiting
        have taken := (List.mem_append.mp waiting).resolve_right left
        have due : isDue time request = true := List.mem_takeWhile_imp taken
        refine ⟨[], time, alreadyHave, [], rfl, of_decide_eq_true due, ?_⟩
        by_cases known : alreadyHave request.2 = true
        · exact .inl known
        · exact .inr (List.mem_filter.mpr ⟨List.mem_map_of_mem taken, by simpa using known⟩)
      · exact absurd waiting left
  | received inv => exact absurd waiting left

theorem Queued.waits (queued : s.Queued) (waiting : request ∈ s.mapAskFor pnode) :
    request ∈ (events.foldl AskEvent.step s).mapAskFor pnode ∨ Settled s events pnode request := by
  induction events generalizing s with
  | nil => exact .inl waiting
  | cons event rest ih =>
      by_cases still : request ∈ (event.step s).mapAskFor pnode
      · refine (ih (queued.step event) still).imp_right fun settled => ?_
        obtain ⟨before, time, alreadyHave, after, rfl, due, made⟩ := settled
        exact ⟨event :: before, time, alreadyHave, after, rfl, due, made⟩
      · obtain ⟨before, time, alreadyHave, after, split, due, made⟩ := queued.leaves waiting still
        obtain ⟨rfl, rfl, rfl⟩ : before = [] ∧ event = .sendMessages pnode time alreadyHave ∧ after = [] := by
          cases before with
          | nil => simpa using split
          | cons first others => simp at split
        exact .inr ⟨[], time, alreadyHave, rest, rfl, due, made⟩

/-- The event does not lower the time from which retries count. -/
def Raises (low : Int) (inv : CInv) : AskEvent → Prop
  | .askFor _ _ _ => True
  | .sendMessages _ time _ => low ≤ time * 1000000
  | .received other => other ≠ inv

theorem Raises.step {low : Int} {inv : CInv} (raises : Raises low inv event) (asked : low ≤ s.mapAlreadyAskedFor inv) :
    low ≤ (event.step s).mapAlreadyAskedFor inv := by
  cases event with
  | askFor pnode time other =>
      simp only [AskEvent.step, askFor, Function.update_apply, requestTime, retry]
      split
      · rename_i here
        subst here
        exact le_max_of_le_left (by omega)
      · exact asked
  | sendMessages pto time alreadyHave =>
      simp only [AskEvent.step, sendMessages]
      split
      · exact raises
      · exact asked
  | received other =>
      simp only [AskEvent.step, Function.update_of_ne (Ne.symm raises)]
      exact asked

/-- Every message that was sent has some entries, and not too many. -/
def Sized (s : AskState) : Prop := ∀ message ∈ s.sent, message.2.2 ≠ [] ∧ message.2.2.length ≤ maxAnnounced

theorem Sized.step (sized : s.Sized) (event : AskEvent) : (event.step s).Sized := by
  cases event with
  | askFor pnode time inv => exact sized
  | sendMessages pto time alreadyHave =>
      intro message member
      rcases List.mem_append.mp member with earlier | now
      · exact sized message earlier
      · obtain ⟨vGetData, sent, rfl⟩ := List.mem_map.mp now
        exact (messages_spec _).2 vGetData sent
  | received inv => exact sized

end AskState

end InfiniteRicks
