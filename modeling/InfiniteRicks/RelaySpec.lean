import InfiniteRicks.Relay

/-!
# Announcements to a peer

Whatever the order of calls, an entry that is queued is announced, or the peer gets to know it otherwise; and it is not
announced again while the set remembers it. `Outbox.Good` is what each call keeps, `Visited` what each round of the loop
of `SendMessages` does.
-/

namespace InfiniteRicks

open MruSet (newest)

variable {T K : Type} {key : T → K} {limit : Nat} {Queued Learned : T → Prop} {waits : T → Bool} {o : Outbox T}
  {r : Round T} {x : T}

section Lists

/-- Two entries with one key are more than `limit` places apart, where there is a limit. -/
def Spaced (key : T → K) (limit : Nat) (entries : List T) : Prop :=
  ∀ i j a b, entries[i]? = some a → entries[j]? = some b → i < j → key a = key b → limit ≠ 0 ∧ limit < j - i

theorem newest_nil : newest limit ([] : List T) = [] := MruSet.newest_of_length_le fun _ => Nat.zero_le limit

theorem mem_newest {entries : List T} {i : Nat} {a : T} (found : entries[i]? = some a)
    (recent : limit ≠ 0 → entries.length ≤ limit + i) : a ∈ newest limit entries := by
  unfold newest
  split
  · exact List.mem_of_getElem? found
  · rename_i limited
    rw [List.rtake]
    have low := recent limited
    apply List.mem_of_getElem? (i := i - (entries.length - limit))
    rw [List.getElem?_drop, ← found]
    congr 1
    omega

theorem newest_append_subset {first second : List T} (recent : x ∈ newest limit (first ++ second)) :
    x ∈ newest limit first ∨ x ∈ second := by
  unfold newest at recent ⊢
  split at recent
  · rename_i unlimited
    exact (List.mem_append.mp recent).imp_left fun inside => (if_pos unlimited).symm ▸ inside
  · rename_i limited
    rw [if_neg limited]
    rw [List.rtake, List.drop_append, List.length_append] at recent
    refine (List.mem_append.mp recent).imp (fun inside => ?_) List.mem_of_mem_drop
    rw [List.rtake]
    exact List.drop_subset_drop_left _ (by omega) inside

/-- A new entry keeps the distance to what is still remembered. -/
theorem Spaced.append {entries : List T} (spaced : Spaced key limit entries)
    (fresh : ¬ ∃ y ∈ newest limit entries, key y = key x) : Spaced key limit (entries ++ [x]) := by
  intro i j a b first second apart same
  have inside := (List.getElem?_eq_some_iff.mp second).1
  rw [List.length_append, List.length_singleton] at inside
  rw [List.getElem?_append_left (by omega)] at first
  by_cases last : j < entries.length
  · rw [List.getElem?_append_left last] at second
    exact spaced i j a b first second apart same
  · obtain rfl : j = entries.length := by omega
    rw [List.getElem?_append_right le_rfl, Nat.sub_self, List.getElem?_cons_zero, Option.some.injEq] at second
    subst second
    by_contra close
    exact fresh ⟨a, mem_newest first fun limited => by omega, same⟩

namespace Outbox

/-- What went into the set. -/
def entries (o : Outbox T) : List T := o.told.map Prod.snd

def announcements (o : Outbox T) : List T := (o.told.filter Prod.fst).map Prod.snd

/-- Since `base` there was a moment when the set had an entry with this key. -/
def Settled (key : T → K) (limit : Nat) (base : List (Bool × T)) (o : Outbox T) (x : T) : Prop :=
  ∃ now, base <+: now ∧ now <+: o.told ∧ ∃ y ∈ newest limit (now.map Prod.snd), key y = key x

theorem Settled.grow {base : List (Bool × T)} {after : Outbox T} (settled : o.Settled key limit base x)
    (grown : o.told <+: after.told) : after.Settled key limit base x :=
  settled.imp fun _ moment => ⟨moment.1, moment.2.1.trans grown, moment.2.2⟩

/-- What was not in the set at first has been told since. -/
theorem Settled.since {base : List (Bool × T)} (settled : o.Settled key limit base x)
    (absent : ¬ ∃ y ∈ newest limit (base.map Prod.snd), key y = key x) :
    ∃ entry ∈ o.told.drop base.length, key entry.2 = key x := by
  obtain ⟨now, ⟨more, rfl⟩, ⟨rest, grown⟩, y, recent, same⟩ := settled
  rw [List.map_append] at recent
  rcases newest_append_subset recent with old | new
  · exact absurd ⟨y, old, same⟩ absent
  · obtain ⟨entry, member, rfl⟩ := List.mem_map.mp new
    refine ⟨entry, ?_, same⟩
    rw [← grown, List.append_assoc, List.drop_left]
    exact List.mem_append_left rest member

/-- What has been sent is what was announced, in messages of a size that the receiver takes. -/
structure Sent (o : Outbox T) (vec : List T) : Prop where
  all : o.sent.flatten ++ vec = o.announcements
  sizes : ∀ message ∈ o.sent, message ≠ [] ∧ message.length ≤ maxAnnounced
  short : vec.length < maxAnnounced

theorem sent_new : (new limit : Outbox T).Sent [] := ⟨rfl, nofun, Nat.zero_lt_succ 999⟩

theorem Sent.push [DecidableEq K] {vec : List T} (sent : o.Sent vec) : (o.push key x).Sent vec := by
  unfold Outbox.push
  split
  · exact sent
  · exact ⟨sent.all, sent.sizes, sent.short⟩

end Outbox

namespace Round

theorem collect_sent (vec : r.vec.length < maxAnnounced) (sizes : ∀ message ∈ r.outbox.sent,
      message ≠ [] ∧ message.length ≤ maxAnnounced)
    (all : r.outbox.sent.flatten ++ r.vec ++ [x] = r.outbox.announcements) :
    (r.collect x).outbox.Sent (r.collect x).vec := by
  have length : (r.vec ++ [x]).length = r.vec.length + 1 := List.length_append
  unfold collect
  dsimp only
  split
  · rename_i full
    refine ⟨?_, fun message member => ?_, Nat.zero_lt_succ 999⟩
    · rw [List.append_nil, List.flatten_append, List.flatten_singleton, ← List.append_assoc]
      exact all
    · rcases List.mem_append.mp member with old | new
      · exact sizes message old
      · rw [List.mem_singleton.mp new]
        exact ⟨by simp, by omega⟩
  · rename_i room
    exact ⟨(List.append_assoc _ _ _).symm.trans all, sizes, Nat.lt_of_not_le room⟩

theorem collect_outbox : (r.collect x).outbox = { r.outbox with sent := (r.collect x).outbox.sent } := by
  unfold collect
  dsimp only
  split <;> rfl

theorem collect_wait : (r.collect x).wait = r.wait := by
  unfold collect
  dsimp only
  split <;> rfl

end Round

end Lists

section Outboxes

variable [DecidableEq T]

namespace Outbox

structure Good (key : T → K) (limit : Nat) (Queued Learned : T → Prop) (o : Outbox T) : Prop where
  known : o.known = .ofQueue limit (newest limit o.entries)
  distinct : ((newest limit o.entries).map key).Nodup
  spaced : Spaced key limit o.entries
  waiting : ∀ x ∈ o.toSend, Queued x
  origin : ∀ entry ∈ o.told, if entry.1 then Queued entry.2 else Learned entry.2

theorem good_new : Good key limit Queued Learned (.new limit) where
  known := by
    rw [entries, new, List.map_nil, newest_nil]
    rfl
  distinct := by
    rw [entries, new, List.map_nil, newest_nil]
    exact List.nodup_nil
  spaced := fun i j a b first => by cases first
  waiting := nofun
  origin := nofun

/-- Clearing the set is as good as a new one. -/
theorem Good.forget (good : Good key limit Queued Learned o) : Good key limit Queued Learned o.forget where
  known := by
    change o.known.clear = .ofQueue limit (newest limit [])
    rw [good.known, newest_nil]
    rfl
  distinct := by
    change ((newest limit []).map key).Nodup
    rw [newest_nil]
    exact List.nodup_nil
  spaced := fun i j a b first => by cases first
  waiting := good.waiting
  origin := nofun

end Outbox

variable [DecidableEq K]

theorem MruSet.insert_of_count {m : MruSet T} (present : m.count key x = true) : m.insert key x = (m, false) := by
  simp only [MruSet.insert, MruSet.setInsert, if_pos (of_decide_eq_true present), Bool.false_eq_true, if_false]

namespace Outbox

theorem note_known (present : o.known.count key x = true) (announced : Bool) : o.note key announced x = o := by
  rw [note, MruSet.insert_of_count present]
  rfl

namespace Good

theorem count_iff (good : Good key limit Queued Learned o) :
    o.known.count key x = true ↔ ∃ y ∈ newest limit o.entries, key y = key x := by
  rw [MruSet.count, decide_eq_true_iff, good.known]
  simp only [MruSet.ofQueue, List.mem_toFinset]

theorem settled_of_count (good : Good key limit Queued Learned o) (present : o.known.count key x = true)
    {base : List (Bool × T)} (grown : base <+: o.told) : o.Settled key limit base x :=
  ⟨o.told, grown, List.prefix_rfl, good.count_iff.mp present⟩

theorem insert_fresh (good : Good key limit Queued Learned o) (absent : ¬ o.known.count key x = true) :
    o.known.insert key x = (.ofQueue limit (newest limit (o.entries ++ [x])), true) := by
  rw [good.count_iff] at absent
  rw [good.known, MruSet.insert_ofQueue good.distinct fun limited => MruSet.length_newest_le limited _, if_neg absent,
    MruSet.newest_append]

theorem note_fresh (good : Good key limit Queued Learned o) (absent : ¬ o.known.count key x = true) (announced : Bool) :
    o.note key announced x = { o with
      known := .ofQueue limit (newest limit (o.entries ++ [x])), told := o.told ++ [(announced, x)] } := by
  rw [Outbox.note, good.insert_fresh absent]
  rfl

/-- An entry that is noted keeps the outbox good, whoever it comes from. -/
theorem note (good : Good key limit Queued Learned o) {announced : Bool}
    (origin : if announced then Queued x else Learned x) : Good key limit Queued Learned (o.note key announced x) := by
  by_cases present : o.known.count key x = true
  · rw [note_known present]
    exact good
  · have fresh := fun recent => present (good.count_iff.mpr recent)
    rw [good.note_fresh present]
    have grown : entries { o with
        known := .ofQueue limit (newest limit (o.entries ++ [x])), told := o.told ++ [(announced, x)] } =
        o.entries ++ [x] := List.map_append
    refine ⟨?_, ?_, ?_, good.waiting, fun entry member => ?_⟩
    · rw [grown]
    · rw [grown, ← MruSet.newest_append]
      exact MruSet.nodup_newest (MruSet.nodup_append good.distinct fresh) limit
    · rw [grown]
      exact good.spaced.append fresh
    · rcases List.mem_append.mp member with old | new
      · exact good.origin entry old
      · rw [List.mem_singleton.mp new]
        exact origin

theorem push (good : Good key limit Queued Learned o) (queued : Queued x) :
    Good key limit Queued Learned (o.push key x) := by
  unfold Outbox.push
  split
  · exact good
  · refine { good with waiting := fun y member => ?_ }
    rcases List.mem_append.mp member with old | new
    · exact good.waiting y old
    · exact List.mem_singleton.mp new ▸ queued

end Good

theorem told_prefix_note (announced : Bool) : o.told <+: (o.note key announced x).told := by
  simp only [note]
  split
  · exact List.prefix_append _ _
  · exact List.prefix_rfl

theorem Sent.learn {vec : List T} (sent : o.Sent vec) : (o.note key false x).Sent vec := by
  refine ⟨?_, sent.sizes, sent.short⟩
  rw [note, announcements]
  dsimp only
  split
  · rw [List.filter_append, List.map_append]
    exact sent.all.trans (List.append_nil _).symm
  · exact sent.all

end Outbox

open Outbox

/-- The loop has visited `visited`, from `start` on. -/
structure Visited (key : T → K) (limit : Nat) (Queued Learned : T → Prop) (waits : T → Bool) (start : Outbox T)
    (visited : List T) (r : Round T) : Prop where
  good : Good key limit Queued Learned r.outbox
  sent : r.outbox.Sent r.vec
  toSend : r.outbox.toSend = start.toSend
  grown : start.told <+: r.outbox.told
  waiting : ∀ x ∈ r.wait, x ∈ visited ∧ waits x = true
  settled : ∀ x ∈ visited, x ∈ r.wait ∨ r.outbox.Settled key limit start.told x

variable {start : Outbox T} {visited : List T}

theorem Visited.visit (done : Visited key limit Queued Learned waits start visited r) (queued : Queued x) :
    Visited key limit Queued Learned waits start (visited ++ [x]) (r.visit key waits x) := by
  have later : ∀ {after : Round T}, r.wait ⊆ after.wait → r.outbox.told <+: after.outbox.told →
      (x ∈ after.wait ∨ after.outbox.Settled key limit start.told x) →
      ∀ y ∈ visited ++ [x], y ∈ after.wait ∨ after.outbox.Settled key limit start.told y := by
    intro after wait grown here y member
    rcases List.mem_append.mp member with old | new
    · exact (done.settled y old).imp (fun inside => wait inside) fun settled => settled.grow grown
    · exact List.mem_singleton.mp new ▸ here
  have before : ∀ y ∈ r.wait, y ∈ visited ++ [x] ∧ waits y = true :=
    fun y member => ⟨List.mem_append_left _ (done.waiting y member).1, (done.waiting y member).2⟩
  unfold Round.visit
  split
  · rename_i present
    exact ⟨done.good, done.sent, done.toSend, done.grown, before,
      later (List.Subset.refl _) List.prefix_rfl (.inr (done.good.settled_of_count present done.grown))⟩
  rename_i absent
  split
  · rename_i later_
    refine ⟨done.good, done.sent, done.toSend, done.grown, fun y member => ?_,
      later (List.subset_append_left _ _) List.prefix_rfl (.inl (List.mem_append_right _ (List.mem_singleton_self x)))⟩
    rcases List.mem_append.mp member with old | new
    · exact before y old
    · rw [List.mem_singleton.mp new]
      exact ⟨List.mem_append_right _ (List.mem_singleton_self x), later_⟩
  · have told : (r.outbox.note key true x).told = r.outbox.told ++ [(true, x)] := by
      rw [done.good.note_fresh absent]
    have offered : r.offer key x = Round.collect { r with outbox := r.outbox.note key true x } x := by
      rw [Round.offer, done.good.insert_fresh absent]
      rfl
    have noted : Good key limit Queued Learned (r.outbox.note key true x) := done.good.note queued
    have good : Good key limit Queued Learned (r.offer key x).outbox := by
      rw [offered, Round.collect_outbox]
      exact ⟨noted.known, noted.distinct, noted.spaced, noted.waiting, noted.origin⟩
    have after : (r.offer key x).outbox.told = r.outbox.told ++ [(true, x)] := by
      rw [offered, Round.collect_outbox]
      exact told
    have wait : (r.offer key x).wait = r.wait := by
      rw [offered, Round.collect_wait]
    have grown : start.told <+: (r.offer key x).outbox.told := after ▸ done.grown.trans (List.prefix_append _ _)
    refine ⟨good, ?_, ?_, grown, wait.symm ▸ before, later (wait ▸ List.Subset.refl _) (after ▸ List.prefix_append _ _)
      (.inr ⟨_, grown, List.prefix_rfl, x, ?_, rfl⟩)⟩
    · rw [offered]
      refine Round.collect_sent done.sent.short done.sent.sizes ?_
      change (r.outbox.sent.flatten ++ r.vec) ++ [x] = announcements (r.outbox.note key true x)
      rw [done.sent.all, announcements, announcements, told, List.filter_append, List.map_append]
      rfl
    · rw [offered, Round.collect_outbox]
      exact done.toSend
    · rw [after, List.map_append]
      exact mem_newest (List.getElem?_concat_length) fun limited => by
        rw [List.length_append]
        exact Nat.add_comm limit _ ▸ Nat.add_le_add_left (Nat.one_le_iff_ne_zero.mpr limited) _

theorem Visited.foldl {rest : List T} (done : Visited key limit Queued Learned waits start visited r)
    (queued : ∀ x ∈ rest, Queued x) :
    Visited key limit Queued Learned waits start (visited ++ rest) (rest.foldl (Round.visit key waits) r) := by
  induction rest generalizing visited r with
  | nil => exact (List.append_nil visited).symm ▸ done
  | cons x rest ih =>
      obtain ⟨here, others⟩ := List.forall_mem_cons.mp queued
      rw [List.foldl_cons, ← List.singleton_append, ← List.append_assoc]
      exact ih (done.visit here) others

namespace Outbox

/-- What a call of `SendMessages` does to an outbox: what waited has been settled, but for what is to wait. -/
structure Announced (key : T → K) (limit : Nat) (waits : T → Bool) (o after : Outbox T) : Prop where
  grown : o.told <+: after.told
  waiting : ∀ x ∈ after.toSend, x ∈ o.toSend ∧ waits x = true
  settled : ∀ x ∈ o.toSend, x ∈ after.toSend ∨ after.Settled key limit o.told x

theorem Good.announce (good : Good key limit Queued Learned o) (sent : o.Sent []) (waits : T → Bool) :
    Good key limit Queued Learned (o.announce key waits) ∧ (o.announce key waits).Sent [] ∧
      Announced key limit waits o (o.announce key waits) := by
  have first : Visited key limit Queued Learned waits o [] ⟨o, [], []⟩ :=
    ⟨good, sent, rfl, List.prefix_rfl, nofun, nofun⟩
  have done := first.foldl good.waiting
  rw [List.nil_append] at done
  obtain ⟨whole, messages, toSend, grown, waiting, settled⟩ := done
  unfold Outbox.announce
  generalize o.toSend.foldl (Round.visit key waits) ⟨o, [], []⟩ = r at *
  refine ⟨⟨whole.known, whole.distinct, whole.spaced, fun x member => good.waiting x (waiting x member).1,
    whole.origin⟩, ⟨?_, fun message member => ?_, Nat.zero_lt_succ 999⟩, grown, waiting, settled⟩
  · rw [List.append_nil]
    refine Eq.trans ?_ messages.all
    unfold Round.finish
    dsimp only
    split
    · rename_i empty
      rw [empty, List.append_nil]
    · rw [List.flatten_append, List.flatten_singleton]
  · unfold Round.finish at member
    dsimp only at member
    split at member
    · exact messages.sizes message member
    · rename_i rest
      rcases List.mem_append.mp member with old | new
      · exact messages.sizes message old
      · rw [List.mem_singleton.mp new]
        exact ⟨rest, messages.short.le⟩

/-- The loop over the addresses is the one over the inventory, with nothing that waits. -/
theorem announceAll_eq : o.announceAll key = o.announce key fun _ => false := by
  have same : Round.offer key = Round.visit key fun _ : T => false := by
    funext r x
    unfold Round.visit
    split
    · rename_i present
      rw [Round.offer, note_known present, MruSet.insert_of_count present]
      rfl
    · rfl
  rw [announceAll, announce, same]

end Outbox

end Outboxes

namespace CNode

open Outbox

variable {env : RelayEnv} {nMaxSize : Nat} {events : List RelayEvent} {pnode : CNode}

/-- What holds of a connection where at most the events `Happened` have happened. -/
structure Relays (nMaxSize : Nat) (Happened : RelayEvent → Prop) (pnode : CNode) : Prop where
  inventory : pnode.inventory.Good id nMaxSize (fun inv => Happened (.pushInventory inv))
    fun inv => Happened (.addInventoryKnown inv)
  inventorySent : pnode.inventory.Sent []
  addresses : pnode.addresses.Good CAddress.toCService 5000 (fun addr => addr.isValid = true) fun _ => True
  addressesSent : pnode.addresses.Sent []

theorem relays_new (Happened : RelayEvent → Prop) : Relays nMaxSize Happened (.new nMaxSize) :=
  ⟨good_new, sent_new, good_new, sent_new⟩

theorem Relays.pushAddress {Happened : RelayEvent → Prop} (relays : Relays nMaxSize Happened pnode)
    (addr : CAddress) : Relays nMaxSize Happened (pnode.pushAddress addr) := by
  unfold CNode.pushAddress
  split
  · rename_i valid
    exact { relays with addresses := relays.addresses.push valid, addressesSent := relays.addressesSent.push }
  · exact relays

/-- An entry that was queued when `base` had been told is still queued, or the peer has got to know it since. -/
structure Kept (nMaxSize : Nat) (base : List (Bool × CInv)) (inv : CInv) (pnode : CNode) : Prop where
  grown : base <+: pnode.inventory.told
  settled : inv ∈ pnode.inventory.toSend ∨ pnode.inventory.Settled id nMaxSize base inv

theorem inventory_pushAddress (addr : CAddress) : (pnode.pushAddress addr).inventory = pnode.inventory := by
  unfold CNode.pushAddress
  split <;> rfl

theorem inventory_getaddr (vAddr : List CAddress) :
    (RelayEvent.step env pnode (.getaddr vAddr)).inventory = pnode.inventory := by
  have pushed : ∀ (addrs : List CAddress) (pnode : CNode),
      (addrs.foldl CNode.pushAddress pnode).inventory = pnode.inventory := by
    intro addrs
    induction addrs with
    | nil => exact fun _ => rfl
    | cons addr rest ih => exact fun pnode => (ih _).trans (inventory_pushAddress addr)
  exact pushed vAddr _

theorem Relays.sendMessages {Happened : RelayEvent → Prop} (relays : Relays nMaxSize Happened pnode)
    (fSendTrickle : Bool) (fFromMe : UInt256 → Bool) :
    Relays nMaxSize Happened (pnode.sendMessages env fSendTrickle fFromMe) := by
  unfold CNode.sendMessages
  split
  · exact relays
  · obtain ⟨inventory, inventorySent, -⟩ := relays.inventory.announce relays.inventorySent fun inv =>
      inv.type == CInv.msgTx && !fSendTrickle && trickleWait env fFromMe inv
    obtain ⟨addresses, addressesSent, -⟩ := relays.addresses.announce relays.addressesSent fun _ => false
    rw [announceAll_eq]
    cases fSendTrickle with
    | false => exact ⟨inventory, inventorySent, relays.addresses, relays.addressesSent⟩
    | true => exact ⟨inventory, inventorySent, addresses, addressesSent⟩

theorem Relays.step {Happened : RelayEvent → Prop} (relays : Relays nMaxSize Happened pnode) (event : RelayEvent)
    (happened : Happened event) : Relays nMaxSize Happened (event.step env pnode) := by
  cases event with
  | version nVersion => exact ⟨relays.inventory, relays.inventorySent, relays.addresses, relays.addressesSent⟩
  | pushInventory inv =>
      exact { relays with inventory := relays.inventory.push happened, inventorySent := relays.inventorySent.push }
  | addInventoryKnown inv =>
      exact { relays with inventory := relays.inventory.note happened, inventorySent := relays.inventorySent.learn }
  | pushAddress addr => exact relays.pushAddress addr
  | addAddressKnown addr =>
      exact { relays with addresses := relays.addresses.note trivial, addressesSent := relays.addressesSent.learn }
  | getaddr vAddr =>
      have cleared : Relays nMaxSize Happened
          { pnode with addresses := { pnode.addresses with toSend := [] } } :=
        { relays with
          addresses := { relays.addresses with waiting := nofun }
          addressesSent := ⟨relays.addressesSent.all, relays.addressesSent.sizes, relays.addressesSent.short⟩ }
      have pushed : ∀ (addrs : List CAddress) (pnode : CNode), Relays nMaxSize Happened pnode →
          Relays nMaxSize Happened (addrs.foldl CNode.pushAddress pnode) := by
        intro addrs
        induction addrs with
        | nil => exact fun _ relays => relays
        | cons addr rest ih => exact fun _ relays => ih _ (relays.pushAddress addr)
      exact pushed vAddr _ cleared
  | clearAddrKnown =>
      exact { relays with addresses := relays.addresses.forget, addressesSent := ⟨rfl, nofun, Nat.zero_lt_succ 999⟩ }
  | sendMessages fSendTrickle fFromMe => exact relays.sendMessages fSendTrickle fFromMe

theorem Relays.foldl {Happened : RelayEvent → Prop} {rest : List RelayEvent} (relays : Relays nMaxSize Happened pnode)
    (happened : ∀ event ∈ rest, Happened event) :
    Relays nMaxSize Happened (rest.foldl (RelayEvent.step env) pnode) := by
  induction rest generalizing pnode with
  | nil => exact relays
  | cons event rest ih =>
      obtain ⟨here, others⟩ := List.forall_mem_cons.mp happened
      exact ih (relays.step event here) others

theorem relays_run {before : List RelayEvent} (happened : ∀ event ∈ before, event ∈ events) :
    Relays nMaxSize (· ∈ events) (run env nMaxSize before) :=
  (relays_new _).foldl happened

/-- What is queued stays queued until the peer knows of it. -/
theorem Relays.kept {Happened : RelayEvent → Prop} (relays : Relays nMaxSize Happened pnode) (event : RelayEvent)
    {inv : CInv} {base : List (Bool × CInv)} (kept : Kept nMaxSize base inv pnode) :
    Kept nMaxSize base inv (event.step env pnode) := by
  cases event with
  | version nVersion => exact ⟨kept.grown, kept.settled⟩
  | pushInventory other =>
      refine ⟨?_, ?_⟩ <;> simp only [RelayEvent.step, CNode.pushInventory, Outbox.push] <;> split
      · exact kept.grown
      · exact kept.grown
      · exact kept.settled
      · exact kept.settled.imp_left (List.mem_append_left _)
  | addInventoryKnown other =>
      exact ⟨kept.grown.trans (told_prefix_note false), kept.settled.imp_right fun settled =>
        settled.grow (told_prefix_note false)⟩
  | pushAddress addr =>
      have same := @inventory_pushAddress pnode addr
      exact ⟨same ▸ kept.grown, same ▸ kept.settled⟩
  | addAddressKnown addr => exact ⟨kept.grown, kept.settled⟩
  | getaddr vAddr =>
      have same := @inventory_getaddr env pnode vAddr
      exact ⟨same ▸ kept.grown, same ▸ kept.settled⟩
  | clearAddrKnown => exact ⟨kept.grown, kept.settled⟩
  | sendMessages fSendTrickle fFromMe =>
      simp only [RelayEvent.step, CNode.sendMessages]
      split
      · exact kept
      · obtain ⟨-, -, announced⟩ := relays.inventory.announce relays.inventorySent fun inv =>
          inv.type == CInv.msgTx && !fSendTrickle && trickleWait env fFromMe inv
        refine ⟨kept.grown.trans announced.grown, kept.settled.elim (fun waiting => ?_) fun settled =>
          .inr (settled.grow announced.grown)⟩
        exact (announced.settled inv waiting).imp_right fun ⟨now, since, rest⟩ => ⟨now, kept.grown.trans since, rest⟩

theorem Relays.kept_foldl {Happened : RelayEvent → Prop} {inv : CInv} {base : List (Bool × CInv)}
    {rest : List RelayEvent} (relays : Relays nMaxSize Happened pnode) (happened : ∀ event ∈ rest, Happened event)
    (kept : Kept nMaxSize base inv pnode) : Kept nMaxSize base inv (rest.foldl (RelayEvent.step env) pnode) := by
  induction rest generalizing pnode with
  | nil => exact kept
  | cons event rest ih =>
      obtain ⟨here, others⟩ := List.forall_mem_cons.mp happened
      exact ih (relays.step event here) others (relays.kept event kept)

/-- What a peer hears of the inventory. -/
structure InventoryRelayed (env : RelayEnv) (nMaxSize : Nat) (events : List RelayEvent) (pto : CNode) : Prop where
  sizes : ∀ vInv ∈ pto.inventory.sent, vInv ≠ [] ∧ vInv.length ≤ maxAnnounced
  announced : pto.inventory.sent.flatten = pto.inventory.announcements
  pushed : ∀ inv ∈ pto.inventory.sent.flatten, .pushInventory inv ∈ events
  kept : ∀ before inv after, events = before ++ .pushInventory inv :: after →
    inv ∈ newest nMaxSize (run env nMaxSize before).inventory.entries ∨ inv ∈ pto.inventory.toSend ∨
      ∃ entry ∈ pto.inventory.told.drop (run env nMaxSize before).inventory.told.length, entry.2 = inv
  spaced : Spaced id nMaxSize pto.inventory.entries
  trickled : ∀ fSendTrickle fFromMe, pto.nVersion ≠ 0 →
    ∀ inv ∈ (pto.sendMessages env fSendTrickle fFromMe).inventory.toSend,
      fSendTrickle = false ∧ inv.type = CInv.msgTx ∧ trickleWait env fFromMe inv = true

/-- Whatever happens to a connection, and in whatever order: the inventory is announced in messages of 1 to 1000
entries, each of them was queued, nothing that was queued is lost, an entry is repeated only when more than `nMaxSize`
have come in between, and only transactions wait. -/
theorem inventory_relayed (env : RelayEnv) (nMaxSize : Nat) (events : List RelayEvent) :
    InventoryRelayed env nMaxSize events (run env nMaxSize events) := by
  have relays : Relays nMaxSize (· ∈ events) (run env nMaxSize events) := relays_run fun _ => id
  have all : (run env nMaxSize events).inventory.sent.flatten = (run env nMaxSize events).inventory.announcements :=
    (List.append_nil _).symm.trans relays.inventorySent.all
  refine ⟨relays.inventorySent.sizes, all, fun inv sent => ?_, fun before inv after order => ?_,
    relays.inventory.spaced, ?_⟩
  · rw [all, announcements, List.mem_map] at sent
    obtain ⟨⟨announced, other⟩, member, rfl⟩ := sent
    obtain ⟨told, isAnnounced⟩ := List.mem_filter.mp member
    have origin := relays.inventory.origin _ told
    rw [if_pos isAnnounced] at origin
    exact origin
  · obtain ⟨first, second, rest⟩ : (∀ event ∈ before, event ∈ events) ∧ .pushInventory inv ∈ events ∧
        ∀ event ∈ after, event ∈ events := by
      rw [order]
      simp +contextual
    have earlier : Relays nMaxSize (· ∈ events) (run env nMaxSize before) := relays_run first
    by_cases present : (run env nMaxSize before).inventory.known.count id inv = true
    · obtain ⟨other, recent, rfl⟩ := earlier.inventory.count_iff.mp present
      exact .inl recent
    have pushed : (RelayEvent.step env (run env nMaxSize before) (.pushInventory inv)).inventory =
        { (run env nMaxSize before).inventory with toSend := (run env nMaxSize before).inventory.toSend ++ [inv] } :=
      if_neg present
    have now : Kept nMaxSize (run env nMaxSize before).inventory.told inv
        (RelayEvent.step env (run env nMaxSize before) (.pushInventory inv)) := by
      refine ⟨?_, .inl ?_⟩
      · rw [pushed]
      · rw [pushed]
        exact List.mem_append_right _ (List.mem_singleton_self inv)
    have kept : Kept nMaxSize (run env nMaxSize before).inventory.told inv (run env nMaxSize events) := by
      have whole : run env nMaxSize (before ++ .pushInventory inv :: after) = after.foldl (RelayEvent.step env)
          (RelayEvent.step env (run env nMaxSize before) (.pushInventory inv)) := List.foldl_append
      rw [order, whole]
      exact (earlier.step _ second).kept_foldl rest now
    refine .inr (kept.settled.imp_right fun settled => settled.since fun recent => present ?_)
    exact earlier.inventory.count_iff.mpr recent
  · intro fSendTrickle fFromMe known inv waiting
    obtain ⟨-, -, announced⟩ := relays.inventory.announce relays.inventorySent fun inv =>
      inv.type == CInv.msgTx && !fSendTrickle && trickleWait env fFromMe inv
    rw [CNode.sendMessages, if_neg known] at waiting
    have waits := (announced.waiting inv waiting).2
    simpa [and_assoc, and_left_comm] using waits

example : ((run ⟨id, 1⟩ 2 [.version 60013, .pushInventory ⟨1, 7⟩, .pushInventory ⟨2, 8⟩, .pushInventory ⟨1, 4⟩,
    .addInventoryKnown ⟨1, 4⟩, .sendMessages false fun _ => false]).inventory.sent,
    (run ⟨id, 1⟩ 2 [.version 60013, .pushInventory ⟨1, 7⟩, .pushInventory ⟨2, 8⟩, .pushInventory ⟨1, 4⟩,
    .addInventoryKnown ⟨1, 4⟩, .sendMessages false fun _ => false]).inventory.toSend) = ([[⟨2, 8⟩]], [⟨1, 7⟩]) := by
  decide

/-- What a peer hears of addresses, since the set was cleared. -/
structure AddressesRelayed (env : RelayEnv) (pto : CNode) : Prop where
  sizes : ∀ vAddr ∈ pto.addresses.sent, vAddr ≠ [] ∧ vAddr.length ≤ maxAnnounced
  announced : pto.addresses.sent.flatten = pto.addresses.announcements
  valid : ∀ addr ∈ pto.addresses.sent.flatten, addr.isValid = true
  spaced : Spaced CAddress.toCService 5000 pto.addresses.entries
  trickled : ∀ fFromMe, pto.nVersion ≠ 0 → (pto.sendMessages env true fFromMe).addresses.toSend = [] ∧
    ∀ addr ∈ pto.addresses.toSend,
      (pto.sendMessages env true fFromMe).addresses.Settled CAddress.toCService 5000 pto.addresses.told addr

/-- Addresses are announced in messages of 1 to 1000 valid ones. Between two announcements of one service more than
5000 others came in between or the set was cleared, and after a trickle the peer knows of all that waited. -/
theorem addresses_relayed (env : RelayEnv) (nMaxSize : Nat) (events : List RelayEvent) :
    AddressesRelayed env (run env nMaxSize events) := by
  have relays : Relays nMaxSize (· ∈ events) (run env nMaxSize events) := relays_run fun _ => id
  have all : (run env nMaxSize events).addresses.sent.flatten = (run env nMaxSize events).addresses.announcements :=
    (List.append_nil _).symm.trans relays.addressesSent.all
  refine ⟨relays.addressesSent.sizes, all, fun addr sent => ?_, relays.addresses.spaced, fun fFromMe known => ?_⟩
  · rw [all, announcements, List.mem_map] at sent
    obtain ⟨⟨announced, other⟩, member, rfl⟩ := sent
    obtain ⟨told, isAnnounced⟩ := List.mem_filter.mp member
    have origin := relays.addresses.origin _ told
    rw [if_pos isAnnounced] at origin
    exact origin
  · obtain ⟨-, -, announced⟩ := relays.addresses.announce relays.addressesSent fun _ => false
    rw [CNode.sendMessages, if_neg known]
    simp only [if_true, announceAll_eq]
    have empty : (announce CAddress.toCService (fun _ => false) (run env nMaxSize events).addresses).toSend = [] :=
      List.eq_nil_iff_forall_not_mem.mpr fun addr member => Bool.false_ne_true (announced.waiting addr member).2
    refine ⟨empty, fun addr waiting => (announced.settled addr waiting).resolve_left ?_⟩
    rw [empty]
    exact List.not_mem_nil

end CNode

end InfiniteRicks
