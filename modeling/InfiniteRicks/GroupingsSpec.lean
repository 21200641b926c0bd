import InfiniteRicks.Groupings
import InfiniteRicks.Library.Components

/-!
# Address groupings are components

The merging of groups through pointers keeps the classes of the library's `merge` in
memory (`GroupHeap.Holds`), and never goes through a pointer that was deleted. What the
wallet groups is then the partition of its addresses into components, wherever every
access to a previous output is inside of it.
-/

namespace InfiniteRicks

open Library.Components Function

section Sets

variable {α : Type} [DecidableEq α] {less : α → α → Bool} {entry other : α} {entries : List α}

@[simp] theorem mem_insertInto : other ∈ insertInto less entry entries ↔ other = entry ∨ other ∈ entries := by
  rw [insertInto]
  split_ifs with there
  · refine ⟨Or.inr, fun member => member.elim (fun same => same ▸ there) id⟩
  · exact List.mem_orderedInsert _

theorem nodup_insertInto (nodup : entries.Nodup) : (insertInto less entry entries).Nodup := by
  rw [insertInto]
  split_ifs with there
  · exact nodup
  · exact (List.perm_orderedInsert _ _ _).nodup_iff.mpr (List.nodup_cons.mpr ⟨there, nodup⟩)

end Sets

@[simp] theorem AddressSet.mem_add {address other : CTxDestination} {addresses : AddressSet} :
    other ∈ addresses.add address ↔ other = address ∨ other ∈ addresses := mem_insertInto

@[simp] theorem AddressSets.mem_add {addresses other : AddressSet} {sets : AddressSets} :
    other ∈ sets.add addresses ↔ other = addresses ∨ other ∈ sets := mem_insertInto

theorem AddressSet.mem_foldl_add {members merged : AddressSet} {address : CTxDestination} :
    address ∈ members.foldl (fun merged address => AddressSet.add address merged) merged ↔
      address ∈ members ∨ address ∈ merged := by
  induction members generalizing merged with
  | nil => simp
  | cons first rest ih =>
      rw [List.foldl_cons, ih, mem_add, List.mem_cons]
      tauto

/-- The elements of a list as a set. -/
def AddressSet.elements (addresses : AddressSet) : Set CTxDestination := {address | address ∈ addresses}

namespace GroupHeap

/-- The groups in memory. -/
def classes (s : GroupHeap) : Set (Set CTxDestination) := {c | ∃ p members, s.groups p = some members ∧ c = members.elements}

/-- The pointers are those of the groups in memory, and these are the components of the groups so far. -/
structure Holds (s : GroupHeap) (groups : Set (Set CTxDestination)) : Prop where
  live : ∀ p, p ∈ s.uniqueGroupings ↔ (s.groups p).isSome = true
  nodup : s.uniqueGroupings.Nodup
  fresh : ∀ p, (s.groups p).isSome = true → p < s.fresh
  setmap : ∀ a p, s.setmap a = some p ↔ ∃ members, s.groups p = some members ∧ a ∈ members
  components : AreComponents groups s.classes

variable {s after : GroupHeap} {groups : Set (Set CTxDestination)} {grouping merged : AddressSet} {p : Nat}

theorem holds_empty : empty.Holds ∅ where
  live := fun p => iff_of_false List.not_mem_nil Bool.false_ne_true
  nodup := List.nodup_nil
  fresh := fun p wrong => by cases wrong
  setmap := fun a p => iff_of_false (fun wrong => by cases wrong) fun found => by
    obtain ⟨members, wrong, -⟩ := found
    cases wrong
  components := by
    have nothing : empty.classes = ∅ := by
      refine Set.eq_empty_of_forall_notMem fun c member => ?_
      obtain ⟨p, members, wrong, -⟩ := member
      cases wrong
    rw [nothing]
    exact areComponents_empty

theorem mem_hits : p ∈ s.hits grouping ↔ ∃ address ∈ grouping, s.setmap address = some p := by
  have loop : ∀ found : List Nat, p ∈ grouping.foldl s.addHit found ↔
      p ∈ found ∨ ∃ address ∈ grouping, s.setmap address = some p := by
    induction grouping with
    | nil => simp
    | cons first rest ih =>
        intro found
        rw [List.foldl_cons, ih, List.exists_mem_cons_iff, addHit]
        cases known : s.setmap first with
        | none => simp
        | some hit =>
            rw [mem_insertInto, Option.some_inj, @eq_comm _ hit p]
            tauto
  simpa [hits] using loop []

theorem nodup_hits : (s.hits grouping).Nodup := by
  have loop : ∀ found : List Nat, found.Nodup → (grouping.foldl s.addHit found).Nodup := by
    induction grouping with
    | nil => exact fun _ nodup => nodup
    | cons first rest ih =>
        intro found nodup
        rw [List.foldl_cons, addHit]
        cases s.setmap first with
        | none => exact ih found nodup
        | some hit => exact ih _ (nodup_insertInto nodup)
  exact loop [] List.nodup_nil

/-- The heap after some groups went into the merged one. -/
structure Absorbed (s after : GroupHeap) (absorbed : List Nat) : Prop where
  groups : ∀ p, after.groups p = if p ∈ absorbed then none else s.groups p
  pointers : after.uniqueGroupings = s.uniqueGroupings.filter (· ∉ absorbed)
  fresh : after.fresh = s.fresh
  setmap : after.setmap = s.setmap

/-- Groups that are in memory can be absorbed, each once. -/
theorem absorb_ok {hits : List Nat} (live : ∀ hit ∈ hits, (s.groups hit).isSome = true) (distinct : hits.Nodup)
    (nodup : s.uniqueGroupings.Nodup) (merged : AddressSet) :
    ∃ result after, hits.foldlM absorb (merged, s) = some (result, after) ∧ s.Absorbed after hits ∧
      ∀ a, a ∈ result ↔ a ∈ merged ∨ ∃ hit ∈ hits, ∃ members, s.groups hit = some members ∧ a ∈ members := by
  induction hits generalizing s merged with
  | nil => exact ⟨merged, s, rfl, ⟨fun p => rfl, by simp, rfl, rfl⟩, fun a => by simp⟩
  | cons hit rest ih =>
      obtain ⟨fresh, distinct⟩ := List.nodup_cons.mp distinct
      obtain ⟨members, known⟩ := Option.isSome_iff_exists.mp (live hit List.mem_cons_self)
      have kept : ∀ other ∈ rest, (s.discard hit).groups other = s.groups other := fun other member =>
        update_of_ne (fun same => fresh (same.subst (motive := fun p => p ∈ rest) member)) _ _
      obtain ⟨result, after, done, absorbed, contents⟩ := @ih (s.discard hit)
        (fun other member => (congrArg Option.isSome (kept other member)).trans (live other (List.mem_cons_of_mem _ member)))
        distinct (nodup.erase hit) (members.foldl (fun merged address => merged.add address) merged)
      refine ⟨result, after, ?_, ⟨fun p => ?_, ?_, absorbed.fresh, absorbed.setmap⟩, fun a => ?_⟩
      · rw [List.foldlM_cons, absorb, known]
        exact done
      · rw [absorbed.groups p]
        by_cases same : p = hit
        · rw [same, if_pos List.mem_cons_self, if_neg fresh]
          exact update_self hit none s.groups
        · rw [show (s.discard hit).groups p = s.groups p from update_of_ne same _ _]
          simp only [List.mem_cons, same, false_or]
      · rw [absorbed.pointers, discard, nodup.erase_eq_filter, List.filter_filter]
        refine List.filter_congr fun p _ => ?_
        rw [Bool.eq_iff_iff]
        simp [and_comm]
      · have others : (∃ other ∈ rest, ∃ members, (s.discard hit).groups other = some members ∧ a ∈ members) ↔
            ∃ other ∈ rest, ∃ members, s.groups other = some members ∧ a ∈ members :=
          exists_congr fun other => and_congr_right fun member => by rw [kept other member]
        rw [contents, AddressSet.mem_foldl_add, others, List.exists_mem_cons_iff, known]
        simp only [Option.some.injEq, exists_eq_left']
        exact or_assoc.trans or_left_comm

theorem foldl_setmap {setmap : CTxDestination → Option Nat} (p : Nat) (a : CTxDestination) :
    merged.foldl (fun setmap element => update setmap element (some p)) setmap a =
      if a ∈ merged then some p else setmap a := by
  induction merged generalizing setmap with
  | nil => rfl
  | cons first rest ih =>
      rw [List.foldl_cons, ih]
      by_cases later : a ∈ rest
      · rw [if_pos later, if_pos (List.mem_cons_of_mem _ later)]
      · rw [if_neg later]
        by_cases same : a = first
        · rw [same, update_self, if_pos List.mem_cons_self]
        · rw [update_of_ne same, if_neg fun member => (List.mem_cons.mp member).elim same later]

/-- The group that a pointer is hit for shares an address with the new one, and the other way round. -/
theorem Holds.hit_iff (holds : s.Holds groups) {members : AddressSet} (known : s.groups p = some members) :
    p ∈ s.hits grouping ↔ (members.elements ∩ grouping.elements).Nonempty := by
  rw [mem_hits]
  constructor
  · rintro ⟨address, inGrouping, pointed⟩
    obtain ⟨others, found, inMembers⟩ := (holds.setmap address p).mp pointed
    obtain rfl := Option.some.inj (known.symm.trans found)
    exact ⟨address, inMembers, inGrouping⟩
  · rintro ⟨address, inMembers, inGrouping⟩
    exact ⟨address, inGrouping, (holds.setmap address p).mpr ⟨members, known, inMembers⟩⟩

/-- The merged group is that of the library. -/
theorem Holds.elements_merged (holds : s.Holds groups)
    (contents : ∀ a, a ∈ merged ↔
      a ∈ grouping ∨ ∃ hit ∈ s.hits grouping, ∃ members, s.groups hit = some members ∧ a ∈ members) :
    merged.elements = Library.Components.merged s.classes grouping.elements := by
  ext a
  refine (contents a).trans (or_congr_right ?_)
  constructor
  · rintro ⟨hit, isHit, members, known, inMembers⟩
    exact ⟨members.elements, ⟨⟨hit, members, known, rfl⟩, (holds.hit_iff known).mp isHit⟩, inMembers⟩
  · rintro ⟨_, ⟨⟨hit, members, known, rfl⟩, touched⟩, inMembers⟩
    exact ⟨hit, (holds.hit_iff known).mpr touched, members, known, inMembers⟩

/-- A round of the merging loop goes through no deleted pointer, and adds a group. -/
theorem Holds.addGroup (holds : s.Holds groups) (grouping : AddressSet) :
    ∃ after, s.addGroup grouping = some after ∧ after.Holds (insert grouping.elements groups) := by
  have live : ∀ hit ∈ s.hits grouping, (s.groups hit).isSome = true := by
    intro hit isHit
    obtain ⟨address, -, pointed⟩ := mem_hits.mp isHit
    obtain ⟨members, known, -⟩ := (holds.setmap address hit).mp pointed
    rw [known]
    rfl
  obtain ⟨merged, rest, done, absorbed, contents⟩ := absorb_ok live nodup_hits holds.nodup grouping
  refine ⟨rest.record merged, by rw [GroupHeap.addGroup, done]; rfl, ?_⟩
  have groupsAt : ∀ p, (rest.record merged).groups p =
      if p = s.fresh then some merged else if p ∈ s.hits grouping then none else s.groups p := by
    intro p
    exact (update_apply _ _ _ p).trans (by rw [absorbed.fresh, absorbed.groups])
  have pointedAt : ∀ a, (rest.record merged).setmap a = if a ∈ merged then some s.fresh else s.setmap a := by
    intro a
    exact (foldl_setmap _ a).trans (by rw [absorbed.fresh, absorbed.setmap])
  have unused : ∀ {p members}, s.groups p = some members → p ≠ s.fresh := fun known =>
    (holds.fresh _ (known ▸ rfl)).ne
  have hitIff : ∀ {a p members}, s.groups p = some members → a ∈ members → (p ∈ s.hits grouping ↔ a ∈ merged) := by
    intro a p members known inMembers
    refine ⟨fun isHit => (contents a).mpr (.inr ⟨p, isHit, members, known, inMembers⟩), fun there => ?_⟩
    have pointed := (holds.setmap a p).mpr ⟨members, known, inMembers⟩
    rcases (contents a).mp there with inGrouping | ⟨hit, isHit, others, found, inOthers⟩
    · exact mem_hits.mpr ⟨a, inGrouping, pointed⟩
    · have same := (holds.setmap a hit).mpr ⟨others, found, inOthers⟩
      obtain rfl := Option.some.inj (pointed.symm.trans same)
      exact isHit
  constructor
  · intro p
    rw [groupsAt, record, mem_insertInto, absorbed.fresh, absorbed.pointers, List.mem_filter, holds.live]
    split_ifs with new isHit
    · exact iff_of_true (.inl new) rfl
    · refine iff_of_false (fun there => ?_) Bool.false_ne_true
      exact there.elim new fun kept => of_decide_eq_true kept.2 isHit
    · exact ⟨fun there => (there.resolve_left new).1, fun there => .inr ⟨there, decide_eq_true isHit⟩⟩
  · rw [record, absorbed.pointers]
    exact nodup_insertInto (holds.nodup.filter _)
  · intro p there
    rw [groupsAt] at there
    change p < rest.fresh + 1
    rw [absorbed.fresh]
    split_ifs at there with new isHit
    · omega
    · cases there
    · exact Nat.lt_succ_of_lt (holds.fresh p there)
  · intro a p
    rw [groupsAt, pointedAt]
    by_cases there : a ∈ merged
    · rw [if_pos there]
      constructor
      · rintro pointed
        rw [if_pos (Option.some.inj pointed).symm]
        exact ⟨merged, rfl, there⟩
      · rintro ⟨members, known, inMembers⟩
        split_ifs at known with new isHit
        · rw [new]
        · exact absurd ((hitIff known inMembers).mpr there) isHit
    · rw [if_neg there, holds.setmap]
      constructor
      · rintro ⟨members, known, inMembers⟩
        rw [if_neg (unused known), if_neg fun isHit => there ((hitIff known inMembers).mp isHit)]
        exact ⟨members, known, inMembers⟩
      · rintro ⟨members, known, inMembers⟩
        split_ifs at known with new isHit
        · exact absurd (Option.some.inj known ▸ inMembers) there
        · exact ⟨members, known, inMembers⟩
  · have classesEq : (rest.record merged).classes =
        insert (Library.Components.merged s.classes grouping.elements) (missed s.classes grouping.elements) := by
      rw [← holds.elements_merged contents]
      ext c
      constructor
      · rintro ⟨p, members, known, rfl⟩
        rw [groupsAt] at known
        split_ifs at known with new isHit
        · exact .inl (Option.some.inj known ▸ rfl)
        · exact .inr ⟨⟨p, members, known, rfl⟩, fun touched => isHit ((holds.hit_iff known).mpr touched)⟩
      · rintro (rfl | ⟨⟨p, members, known, rfl⟩, untouched⟩)
        · exact ⟨s.fresh, merged, by rw [groupsAt, if_pos rfl], rfl⟩
        · refine ⟨p, members, ?_, rfl⟩
          rw [groupsAt, if_neg (unused known), if_neg fun isHit => untouched ((holds.hit_iff known).mp isHit), known]
    rw [classesEq]
    exact holds.components.merge grouping.elements

/-- The last loop copies every group whose pointer it goes through. -/
theorem release_ok {pointers : List Nat} (live : ∀ p ∈ pointers, (s.groups p).isSome = true) (distinct : pointers.Nodup)
    (ret : AddressSets) :
    ∃ result rest, pointers.foldlM release (ret, s) = some (result, rest) ∧
      ∀ g, g ∈ result ↔ g ∈ ret ∨ ∃ p ∈ pointers, s.groups p = some g := by
  induction pointers generalizing s ret with
  | nil => exact ⟨ret, s, rfl, fun g => by simp⟩
  | cons p later ih =>
      obtain ⟨fresh, distinct⟩ := List.nodup_cons.mp distinct
      obtain ⟨members, known⟩ := Option.isSome_iff_exists.mp (live p List.mem_cons_self)
      have kept : ∀ other ∈ later, update s.groups p none other = s.groups other := by
        intro other member
        refine update_of_ne ?_ _ _
        rintro rfl
        exact fresh member
      obtain ⟨result, rest, done, contents⟩ := @ih { s with groups := update s.groups p none }
        (fun other member => (congrArg Option.isSome (kept other member)).trans (live other (List.mem_cons_of_mem _ member)))
        distinct (ret.add members)
      refine ⟨result, rest, ?_, fun g => ?_⟩
      · rw [List.foldlM_cons, release, known]
        exact done
      · have others : (∃ other ∈ later, update s.groups p none other = some g) ↔ ∃ other ∈ later, s.groups other = some g :=
          exists_congr fun other => and_congr_right fun member => by rw [kept other member]
        rw [contents, AddressSets.mem_add, others, List.exists_mem_cons_iff, known, Option.some_inj, @eq_comm _ members g]
        exact or_assoc.trans or_left_comm

/-- All rounds of the merging loop. -/
theorem Holds.addGroups (holds : s.Holds groups) (groupings : AddressSets) :
    ∃ after, groupings.foldlM GroupHeap.addGroup s = some after ∧
      after.Holds (groups ∪ {group | ∃ grouping ∈ groupings, group = grouping.elements}) := by
  induction groupings generalizing s groups with
  | nil =>
      refine ⟨s, rfl, ?_⟩
      simpa using holds
  | cons grouping rest ih =>
      obtain ⟨next, added, holdsNext⟩ := holds.addGroup grouping
      obtain ⟨after, done, holdsAfter⟩ := ih holdsNext
      refine ⟨after, by rw [List.foldlM_cons, added]; exact done, ?_⟩
      have same : insert grouping.elements groups ∪ {group | ∃ grouping ∈ rest, group = grouping.elements} =
          groups ∪ {group | ∃ other ∈ grouping :: rest, group = other.elements} := by
        ext group
        simp only [Set.mem_union, Set.mem_insert_iff, Set.mem_ofPred_eq, List.exists_mem_cons_iff]
        exact or_assoc.trans or_left_comm
      exact same ▸ holdsAfter

end GroupHeap

/-- The groups in a set of sets. -/
def AddressSets.groups (sets : AddressSets) : Set (Set CTxDestination) := {group | ∃ grouping ∈ sets, group = grouping.elements}

/-- The merging goes through no deleted pointer, and its result are the components of the groups. -/
theorem mergeGroupings_components (groupings : AddressSets) :
    ∃ ret, mergeGroupings groupings = some ret ∧
      (∀ first ∈ ret, ∀ second ∈ ret, ∀ a, a ∈ first → a ∈ second → first = second) ∧
      ∀ a b, (∃ g ∈ ret, a ∈ g ∧ b ∈ g) ↔ Chained groupings.groups a b := by
  obtain ⟨s, merged, holds⟩ := GroupHeap.holds_empty.addGroups groupings
  obtain ⟨ret, rest, released, contents⟩ := GroupHeap.release_ok (fun p member => (holds.live p).mp member) holds.nodup []
  have mem_ret : ∀ g, g ∈ ret ↔ ∃ p, s.groups p = some g := by
    intro g
    rw [contents]
    constructor
    · rintro (wrong | ⟨p, -, known⟩)
      · cases wrong
      · exact ⟨p, known⟩
    · rintro ⟨p, known⟩
      exact .inr ⟨p, (holds.live p).mpr (known ▸ rfl), known⟩
  refine ⟨ret, ?_, fun first inFirst second inSecond a here there => ?_, fun a b => ?_⟩
  · rw [mergeGroupings, merged, Option.bind_eq_bind, Option.bind_some, released]
    rfl
  · obtain ⟨p, knownFirst⟩ := (mem_ret first).mp inFirst
    obtain ⟨q, knownSecond⟩ := (mem_ret second).mp inSecond
    have left := (holds.setmap a p).mpr ⟨first, knownFirst, here⟩
    have right := (holds.setmap a q).mpr ⟨second, knownSecond, there⟩
    obtain rfl := Option.some.inj (left.symm.trans right)
    exact Option.some.inj (knownFirst.symm.trans knownSecond)
  · have groupsEq : (∅ ∪ {group | ∃ grouping ∈ groupings, group = grouping.elements}) = groupings.groups := Set.empty_union _
    rw [← groupsEq, ← holds.components.linked]
    constructor
    · rintro ⟨g, inRet, inA, inB⟩
      obtain ⟨p, known⟩ := (mem_ret g).mp inRet
      exact ⟨g.elements, ⟨p, g, known, rfl⟩, inA, inB⟩
    · rintro ⟨_, ⟨p, g, known, rfl⟩, inA, inB⟩
      exact ⟨g, (mem_ret g).mpr ⟨p, known⟩, inA, inB⟩

theorem AddressSets.groups_add (addresses : AddressSet) (sets : AddressSets) :
    (sets.add addresses).groups = insert addresses.elements sets.groups := by
  ext group
  simp only [groups, Set.mem_insert_iff, Set.mem_ofPred_eq, mem_add, exists_eq_or_imp]

namespace AccountWallet

section Addresses

variable (keys : WalletKeys) (w : AccountWallet)

/-- The output that an input spends, where the wallet has it. -/
def outputOf (txin : CTxIn) : Option CTxOut :=
  (w.mapWallet.lookup txin.prevout.hash).bind fun prev => prev.wtx.tx.vout[txin.prevout.n.toNat]?

/-- Every input of a transaction whose first input is mine spends an output of a transaction in `mapWallet`. -/
def InputsKnown : Prop :=
  ∀ t ∈ w.txs, w.firstInputMine keys t.wtx.tx = true → ∀ txin ∈ t.wtx.tx.vin, (w.outputOf txin).isSome = true

/-- An input spends from the address. -/
def SpendsFrom (tx : CTransaction) (address : CTxDestination) : Prop :=
  ∃ txin ∈ tx.vin, ∃ txout, w.outputOf txin = some txout ∧ keys.extractDestination txout.scriptPubKey = some address

/-- Change goes to the address. -/
def ChangesTo (tx : CTransaction) (address : CTxDestination) : Prop :=
  ∃ txout ∈ tx.vout, w.isChange keys txout = true ∧ keys.extractDestination txout.scriptPubKey = some address

/-- The transaction groups the address: its first input is mine. -/
def Groups (tx : CTransaction) (address : CTxDestination) : Prop :=
  w.firstInputMine keys tx = true ∧ (w.SpendsFrom keys tx address ∨ w.ChangesTo keys tx address)

/-- An own output pays to the address. -/
def PaysOwn (tx : CTransaction) (address : CTxDestination) : Prop :=
  ∃ txout ∈ tx.vout, keys.isMine txout.scriptPubKey = true ∧ keys.extractDestination txout.scriptPubKey = some address

/-- The groups that a transaction makes. -/
def txGroups (tx : CTransaction) : Set (Set CTxDestination) :=
  {group | w.firstInputMine keys tx = true ∧ group = {address | w.Groups keys tx address}} ∪
    {group | ∃ address, PaysOwn keys tx address ∧ group = {address}}

end Addresses

variable {keys : WalletKeys} {w : AccountWallet} {grouping : AddressSet} {groupings : AddressSets} {txin : CTxIn}
  {tx : CTransaction}

theorem mem_addDestination {scriptPubKey : CScript} {address : CTxDestination} :
    address ∈ addDestination keys scriptPubKey grouping ↔
      address ∈ grouping ∨ keys.extractDestination scriptPubKey = some address := by
  rw [addDestination]
  cases keys.extractDestination scriptPubKey with
  | none => simp
  | some found => rw [AddressSet.mem_add, or_comm, Option.some_inj, @eq_comm _ address]

theorem walletAt_of_known {hash : UInt256} (known : (w.mapWallet.lookup hash).isSome = true) :
    (w.walletAt hash).2 = w := by
  obtain ⟨t, found⟩ := Option.isSome_iff_exists.mp known
  rw [walletAt, found]

/-- An input whose output the wallet has changes nothing but the group. -/
theorem groupInput_known {txout : CTxOut} (known : w.outputOf txin = some txout) :
    groupInput keys (grouping, w) txin = .ok (addDestination keys txout.scriptPubKey grouping, w) := by
  obtain ⟨prev, found, output⟩ := Option.bind_eq_some_iff.mp known
  rw [groupInput, walletAt, found]
  simp only [output]

/-- For any other input the access is outside of the outputs. -/
theorem groupInput_unknown (unknown : w.outputOf txin = none) :
    ∃ after, groupInput keys (grouping, w) txin = .error after := by
  rw [groupInput, walletAt]
  cases found : w.mapWallet.lookup txin.prevout.hash with
  | none => exact ⟨_, rfl⟩
  | some prev =>
      rw [outputOf, found, Option.bind_some] at unknown
      simp only [unknown]
      exact ⟨w, rfl⟩

theorem groupInputs_known {vin : List CTxIn} (known : ∀ txin ∈ vin, (w.outputOf txin).isSome = true)
    (grouping : AddressSet) :
    ∃ result, vin.foldlM (groupInput keys) (grouping, w) = .ok (result, w) ∧ ∀ address, address ∈ result ↔
      address ∈ grouping ∨ ∃ txin ∈ vin, ∃ txout, w.outputOf txin = some txout ∧
        keys.extractDestination txout.scriptPubKey = some address := by
  induction vin generalizing grouping with
  | nil => exact ⟨grouping, rfl, fun address => by simp⟩
  | cons txin rest ih =>
      obtain ⟨txout, found⟩ := Option.isSome_iff_exists.mp (known txin List.mem_cons_self)
      obtain ⟨result, done, contents⟩ := ih (fun other member => known other (List.mem_cons_of_mem _ member))
        (addDestination keys txout.scriptPubKey grouping)
      refine ⟨result, ?_, fun address => ?_⟩
      · rw [List.foldlM_cons, groupInput_known found]
        exact done
      · rw [contents, mem_addDestination, List.exists_mem_cons_iff, found]
        simp only [Option.some.injEq, exists_eq_left', or_assoc]

theorem groupInputs_unknown {vin : List CTxIn} (unknown : ∃ txin ∈ vin, w.outputOf txin = none) (grouping : AddressSet) :
    ∃ after, vin.foldlM (groupInput keys) (grouping, w) = .error after := by
  induction vin generalizing grouping with
  | nil =>
      obtain ⟨_, member, -⟩ := unknown
      cases member
  | cons txin rest ih =>
      rw [List.foldlM_cons]
      cases found : w.outputOf txin with
      | none =>
          obtain ⟨after, failed⟩ := @groupInput_unknown keys w grouping txin found
          exact ⟨after, by rw [failed]; rfl⟩
      | some txout =>
          rw [groupInput_known found]
          refine ih ?_ _
          obtain ⟨other, member, missing⟩ := unknown
          rcases List.mem_cons.mp member with rfl | later
          · rw [found] at missing
            cases missing
          · exact ⟨other, later, missing⟩

/-- The change of a transaction whose first input is mine. -/
theorem groupChanges_ok (mine : w.firstInputMine keys tx = true) (vout : List CTxOut) (grouping : AddressSet) :
    ∃ result, vout.foldlM (groupChange keys tx.vin) (grouping, w) = .ok (result, w) ∧ ∀ address, address ∈ result ↔
      address ∈ grouping ∨ ∃ txout ∈ vout, w.isChange keys txout = true ∧
        keys.extractDestination txout.scriptPubKey = some address := by
  obtain ⟨first, rest, inputs, known⟩ : ∃ first rest, tx.vin = first :: rest ∧
      (w.mapWallet.lookup first.prevout.hash).isSome = true := by
    rw [firstInputMine] at mine
    cases inputs : tx.vin with
    | nil =>
        rw [inputs] at mine
        cases mine
    | cons first rest =>
        refine ⟨first, rest, rfl, ?_⟩
        simp only [inputs, isMineInput] at mine
        cases found : w.mapWallet.lookup first.prevout.hash with
        | none =>
            rw [found] at mine
            cases mine
        | some prev => rfl
  have round : ∀ grouping txout, groupChange keys tx.vin (grouping, w) txout =
      .ok (if w.isChange keys txout then addDestination keys txout.scriptPubKey grouping else grouping, w) := by
    intro grouping txout
    rw [inputs]
    unfold groupChange
    dsimp only
    split_ifs
    · rw [walletAt_of_known known]
    · rfl
  induction vout generalizing grouping with
  | nil => exact ⟨grouping, rfl, fun address => by simp⟩
  | cons txout later ih =>
      obtain ⟨result, done, contents⟩ := ih
        (if w.isChange keys txout then addDestination keys txout.scriptPubKey grouping else grouping)
      refine ⟨result, ?_, fun address => ?_⟩
      · rw [List.foldlM_cons, round]
        exact done
      · rw [contents, List.exists_mem_cons_iff]
        split_ifs with isChange
        · rw [mem_addDestination, or_assoc, and_iff_right isChange]
        · exact or_congr_right (or_iff_right fun wrong => isChange wrong.1).symm

/-- The group of a transaction whose first input is mine and whose inputs are known. -/
theorem groupSpender_known (known : w.firstInputMine keys tx = true → ∀ txin ∈ tx.vin, (w.outputOf txin).isSome = true)
    (groupings : AddressSets) :
    ∃ result, groupSpender keys groupings w tx = .ok (result, w) ∧ ∀ group, group ∈ result.groups ↔
      group ∈ groupings.groups ∨
        (w.firstInputMine keys tx = true ∧ group = {address | w.Groups keys tx address}) := by
  rw [groupSpender]
  split_ifs with mine
  · obtain ⟨inputs, spent, inputsContents⟩ := @groupInputs_known keys _ _ (known mine) []
    obtain ⟨grouping, changed, contents⟩ := groupChanges_ok mine tx.vout inputs
    refine ⟨groupings.add grouping, ?_, fun group => ?_⟩
    · rw [groupTransaction, spent]
      exact congrArg (· >>= fun result => Except.ok (AddressSets.add result.1 groupings, result.2)) changed
    · have elements : grouping.elements = {address | w.Groups keys tx address} := by
        ext address
        refine (contents address).trans ?_
        rw [inputsContents, or_iff_right List.not_mem_nil]
        exact (and_iff_right mine).symm
      rw [AddressSets.groups_add, elements, Set.mem_insert_iff, or_comm, and_iff_right mine]
  · exact ⟨groupings, rfl, fun group => (or_iff_left fun wrong => mine wrong.1).symm⟩

theorem groups_foldl_output (vout : List CTxOut) (groupings : AddressSets) (group : Set CTxDestination) :
    group ∈ (vout.foldl (groupOutput keys) groupings).groups ↔ group ∈ groupings.groups ∨
      ∃ txout ∈ vout, ∃ address, (keys.isMine txout.scriptPubKey = true ∧
        keys.extractDestination txout.scriptPubKey = some address) ∧ group = {address} := by
  induction vout generalizing groupings with
  | nil => simp
  | cons txout rest ih =>
      have here : group ∈ (groupOutput keys groupings txout).groups ↔ group ∈ groupings.groups ∨
          ∃ address, (keys.isMine txout.scriptPubKey = true ∧
            keys.extractDestination txout.scriptPubKey = some address) ∧ group = {address} := by
        rw [groupOutput]
        split_ifs with mine
        · cases destination : keys.extractDestination txout.scriptPubKey with
          | none => simp
          | some address =>
              have single : AddressSet.elements [address] = {address} := by
                ext other
                exact List.mem_singleton
              simp [AddressSets.groups_add, single, mine, or_comm]
        · simp [mine]
      rw [List.foldl_cons, ih, here, List.exists_mem_cons_iff, or_assoc]

/-- A round of the loop over `mapWallet`. -/
theorem groupRound_known {t : AccountTx}
    (known : w.firstInputMine keys t.wtx.tx = true → ∀ txin ∈ t.wtx.tx.vin, (w.outputOf txin).isSome = true)
    (groupings : AddressSets) :
    ∃ result, groupRound keys (groupings, w) t = .ok (result, w) ∧
      ∀ group, group ∈ result.groups ↔ group ∈ groupings.groups ∨ group ∈ w.txGroups keys t.wtx.tx := by
  obtain ⟨spent, grouped, contents⟩ := groupSpender_known known groupings
  refine ⟨t.wtx.tx.vout.foldl (groupOutput keys) spent, ?_, fun group => ?_⟩
  · rw [groupRound, grouped]
    rfl
  · rw [groups_foldl_output, contents, or_assoc]
    refine or_congr_right (or_congr_right ?_)
    constructor
    · rintro ⟨txout, member, address, own, same⟩
      exact ⟨address, ⟨txout, member, own⟩, same⟩
    · rintro ⟨address, ⟨txout, member, own⟩, same⟩
      exact ⟨txout, member, address, own, same⟩

theorem groupRounds_known {txs : List AccountTx} (known : ∀ t ∈ txs, w.firstInputMine keys t.wtx.tx = true →
      ∀ txin ∈ t.wtx.tx.vin, (w.outputOf txin).isSome = true) (groupings : AddressSets) :
    ∃ result, txs.foldlM (groupRound keys) (groupings, w) = .ok (result, w) ∧
      ∀ group, group ∈ result.groups ↔ group ∈ groupings.groups ∨ ∃ t ∈ txs, group ∈ w.txGroups keys t.wtx.tx := by
  induction txs generalizing groupings with
  | nil => exact ⟨groupings, rfl, fun group => by simp⟩
  | cons t rest ih =>
      obtain ⟨next, round, contentsNext⟩ := groupRound_known (known t List.mem_cons_self) groupings
      obtain ⟨result, done, contents⟩ := ih (fun other member => known other (List.mem_cons_of_mem _ member)) next
      refine ⟨result, ?_, fun group => ?_⟩
      · rw [List.foldlM_cons, round]
        exact done
      · rw [contents, contentsNext, List.exists_mem_cons_iff, or_assoc]

/-- A round fails on a transaction whose first input is mine and that has an unknown input. -/
theorem groupRounds_unknown {txs : List AccountTx} (unknown : ∃ t ∈ txs, w.firstInputMine keys t.wtx.tx = true ∧
      ∃ txin ∈ t.wtx.tx.vin, w.outputOf txin = none) (groupings : AddressSets) :
    ∃ after, txs.foldlM (groupRound keys) (groupings, w) = .error after := by
  induction txs generalizing groupings with
  | nil =>
      obtain ⟨_, member, -⟩ := unknown
      cases member
  | cons t rest ih =>
      rw [List.foldlM_cons]
      by_cases here : w.firstInputMine keys t.wtx.tx = true ∧ ∃ txin ∈ t.wtx.tx.vin, w.outputOf txin = none
      · obtain ⟨after, failed⟩ := @groupInputs_unknown keys _ _ here.2 []
        refine ⟨after, ?_⟩
        rw [groupRound, groupSpender, if_pos here.1, groupTransaction, failed]
        rfl
      · have known : w.firstInputMine keys t.wtx.tx = true →
            ∀ txin ∈ t.wtx.tx.vin, (w.outputOf txin).isSome = true := by
          intro mine txin member
          by_contra missing
          exact here ⟨mine, txin, member, Option.not_isSome_iff_eq_none.mp missing⟩
        obtain ⟨next, round, -⟩ := groupRound_known known groupings
        rw [round]
        refine ih ?_ next
        obtain ⟨other, member, fails⟩ := unknown
        rcases List.mem_cons.mp member with rfl | later
        · exact absurd fails here
        · exact ⟨other, later, fails⟩

/-- The call goes through, with the wallet as it was, where every input is known. -/
theorem getAddressGroupings_known (known : w.InputsKnown keys) :
    ∃ groupings groups, w.getAddressGroupings keys = .ok (groups, w) ∧ mergeGroupings groupings = some groups ∧
      ∀ group, group ∈ groupings.groups ↔ ∃ t ∈ w.txs, group ∈ w.txGroups keys t.wtx.tx := by
  obtain ⟨groupings, rounds, contents⟩ := groupRounds_known known []
  obtain ⟨groups, merged, -⟩ := mergeGroupings_components groupings
  refine ⟨groupings, groups, ?_, merged, fun group => (contents group).trans (or_iff_right ?_)⟩
  · rw [getAddressGroupings, rounds]
    change endGroupings w (mergeGroupings groupings) = _
    rw [merged]
    rfl
  · rintro ⟨_, member, -⟩
    cases member

theorem getAddressGroupings_unknown (unknown : ¬ w.InputsKnown keys) :
    ∃ after, w.getAddressGroupings keys = .error after := by
  simp only [InputsKnown, not_forall] at unknown
  obtain ⟨t, member, mine, txin, inVin, missing⟩ := unknown
  obtain ⟨after, failed⟩ := groupRounds_unknown
    ⟨t, member, mine, txin, inVin, Option.not_isSome_iff_eq_none.mp missing⟩ []
  exact ⟨after, by rw [getAddressGroupings, failed]; rfl⟩

/-- The call accesses no vector out of range and leaves the wallet as it was exactly where every input of a
transaction whose first input is mine spends an output of a transaction in `mapWallet`. -/
theorem getAddressGroupings_total_iff (keys : WalletKeys) (w : AccountWallet) :
    (∃ groups, w.getAddressGroupings keys = .ok (groups, w)) ↔ w.InputsKnown keys := by
  refine ⟨fun total => ?_, fun known => ?_⟩
  · by_contra unknown
    obtain ⟨groups, ended⟩ := total
    obtain ⟨after, failed⟩ := getAddressGroupings_unknown unknown
    rw [ended] at failed
    cases failed
  · obtain ⟨-, groups, ended, -⟩ := getAddressGroupings_known known
    exact ⟨groups, ended⟩

section Partition

variable (keys w)

/-- A transaction groups both addresses. -/
def CoGrouped (a b : CTxDestination) : Prop := ∃ t ∈ w.txs, w.Groups keys t.wtx.tx a ∧ w.Groups keys t.wtx.tx b

/-- An address that some transaction groups, or that an own output pays to. -/
def Grouped (a : CTxDestination) : Prop := ∃ t ∈ w.txs, w.Groups keys t.wtx.tx a ∨ PaysOwn keys t.wtx.tx a

/-- The sets are the classes of addresses that chains of transactions link. -/
structure Partitions (sets : AddressSets) : Prop where
  disjoint : ∀ first ∈ sets, ∀ second ∈ sets, ∀ a, a ∈ first → a ∈ second → first = second
  covers : ∀ a, (∃ g ∈ sets, a ∈ g) ↔ w.Grouped keys a
  linked : ∀ a b, w.Grouped keys a → ((∃ g ∈ sets, a ∈ g ∧ b ∈ g) ↔ Relation.ReflTransGen (w.CoGrouped keys) a b)

end Partition

theorem together_iff {groups : Set (Set CTxDestination)}
    (contents : ∀ group, group ∈ groups ↔ ∃ t ∈ w.txs, group ∈ w.txGroups keys t.wtx.tx) {a b : CTxDestination} :
    Together groups a b ↔ w.CoGrouped keys a b ∨ (a = b ∧ ∃ t ∈ w.txs, PaysOwn keys t.wtx.tx a) := by
  constructor
  · rintro ⟨group, inGroups, inA, inB⟩
    obtain ⟨t, member, ⟨-, rfl⟩ | ⟨address, own, rfl⟩⟩ := (contents group).mp inGroups
    · exact .inl ⟨t, member, inA, inB⟩
    · obtain rfl : a = address := inA
      obtain rfl : b = a := inB
      exact .inr ⟨rfl, t, member, own⟩
  · rintro (⟨t, member, inA, inB⟩ | ⟨rfl, t, member, own⟩)
    · exact ⟨_, (contents _).mpr ⟨t, member, .inl ⟨inA.1, rfl⟩⟩, inA, inB⟩
    · exact ⟨_, (contents _).mpr ⟨t, member, .inr ⟨a, own, rfl⟩⟩, rfl, rfl⟩

theorem Grouped.together {groups : Set (Set CTxDestination)}
    (contents : ∀ group, group ∈ groups ↔ ∃ t ∈ w.txs, group ∈ w.txGroups keys t.wtx.tx) {a : CTxDestination}
    (grouped : w.Grouped keys a) : Together groups a a := by
  obtain ⟨t, member, here | own⟩ := grouped
  · exact (together_iff contents).mpr (.inl ⟨t, member, here, here⟩)
  · exact (together_iff contents).mpr (.inr ⟨rfl, t, member, own⟩)

/-- The components of the groups of all transactions partition the addresses. -/
theorem partitions_of_merged {groupings groups : AddressSets} (merged : mergeGroupings groupings = some groups)
    (contents : ∀ group, group ∈ groupings.groups ↔ ∃ t ∈ w.txs, group ∈ w.txGroups keys t.wtx.tx) :
    w.Partitions keys groups := by
  obtain ⟨ret, same, disjoint, chained⟩ := mergeGroupings_components groupings
  obtain rfl := Option.some.inj (same.symm.trans merged)
  refine ⟨disjoint, fun a => ⟨fun there => ?_, fun grouped => ?_⟩, fun a b grouped => (chained a b).trans ⟨fun chain => ?_, fun path => ?_⟩⟩
  · obtain ⟨g, inRet, inG⟩ := there
    obtain ⟨group, inGroups, inGroup⟩ := ((chained a a).mp ⟨g, inRet, inG, inG⟩).covered
    rcases (together_iff contents).mp ⟨group, inGroups, inGroup, inGroup⟩ with ⟨t, member, here, -⟩ | ⟨-, t, member, own⟩
    · exact ⟨t, member, .inl here⟩
    · exact ⟨t, member, .inr own⟩
  · obtain ⟨g, inRet, inG, -⟩ := (chained a a).mpr (.single (grouped.together contents))
    exact ⟨g, inRet, inG⟩
  · induction chain with
    | single step =>
        rcases (together_iff contents).mp step with co | ⟨rfl, -⟩
        · exact .single co
        · exact .refl
    | tail _ step ih =>
        rcases (together_iff contents).mp step with co | ⟨rfl, -⟩
        · exact ih.tail co
        · exact ih
  · induction path with
    | refl => exact .single (grouped.together contents)
    | tail _ step ih => exact ih.tail ((together_iff contents).mpr (.inl step))

/-- In a wallet in which the inputs of a transaction whose first input is mine refer to transactions in `mapWallet`,
the call goes through exactly where they refer to outputs of these, and its result are the classes of addresses
that chains of transactions link. -/
theorem getAddressGroupings_components (keys : WalletKeys) (w : AccountWallet)
    (present : ∀ t ∈ w.txs, w.firstInputMine keys t.wtx.tx = true → ∀ txin ∈ t.wtx.tx.vin,
      (w.mapWallet.lookup txin.prevout.hash).isSome = true) :
    ((∃ groups, w.getAddressGroupings keys = .ok (groups, w)) ↔
      ∀ t ∈ w.txs, w.firstInputMine keys t.wtx.tx = true → ∀ txin ∈ t.wtx.tx.vin, ∀ prev,
        w.mapWallet.lookup txin.prevout.hash = some prev → txin.prevout.n.toNat < prev.wtx.tx.vout.length) ∧
    ∀ groups after, w.getAddressGroupings keys = .ok (groups, after) → after = w ∧ w.Partitions keys groups := by
  have ends : ∀ groups after, w.getAddressGroupings keys = .ok (groups, after) →
      w.InputsKnown keys ∧ after = w ∧ w.Partitions keys groups := by
    intro groups after ended
    have known : w.InputsKnown keys := by
      by_contra unknown
      obtain ⟨failure, failed⟩ := getAddressGroupings_unknown unknown
      rw [ended] at failed
      cases failed
    obtain ⟨groupings, ret, run, merged, contents⟩ := getAddressGroupings_known known
    obtain ⟨rfl, rfl⟩ := Prod.mk.inj (Except.ok.inj (ended.symm.trans run))
    exact ⟨known, rfl, partitions_of_merged merged contents⟩
  refine ⟨⟨?_, fun inside => ?_⟩, fun groups after ended => (ends groups after ended).2⟩
  · rintro ⟨groups, ended⟩ t member mine txin inVin prev found
    have output := (ends groups w ended).1 t member mine txin inVin
    rw [outputOf, found, Option.bind_some] at output
    obtain ⟨txout, there⟩ := Option.isSome_iff_exists.mp output
    exact (List.getElem?_eq_some_iff.mp there).1
  · have known : w.InputsKnown keys := by
      intro t member mine txin inVin
      obtain ⟨prev, found⟩ := Option.isSome_iff_exists.mp (present t member mine txin inVin)
      rw [outputOf, found, Option.bind_some, List.getElem?_eq_getElem (inside t member mine txin inVin prev found)]
      rfl
    obtain ⟨-, groups, ended, -⟩ := getAddressGroupings_known known
    exact ⟨groups, ended⟩

end AccountWallet

section Concrete

/-- Scripts of one byte pay to the key of that number; all keys but the last one are mine. -/
def groupingKeys : WalletKeys where
  isMine script := script.length = 1 && script ≠ [9]
  extractDestination
    | [byte] => some (.keyID (.ofNat 160 byte.toNat))
    | _ => none
  isMineDestination address := address ≠ .keyID 9
  nMinimumInputValue := 0

/-- A transaction with two own outputs, and one that spends `vin` and has change. -/
def groupingWallet (vin : List CTxIn) : AccountWallet where
  mapWallet := ((∅ : AList fun _ : UInt256 => AccountTx).insert 1
      ⟨.ofTx ⟨1, 0, [], [⟨5, [1]⟩, ⟨5, [2]⟩], 0⟩, [], []⟩).insert 2
      ⟨.ofTx ⟨1, 0, vin, [⟨6, [9]⟩, ⟨4, [3]⟩], 0⟩, [], []⟩
  mapAddressBook := ∅
  acentries := []

/-- Both own outputs are spent together. -/
def sharedWallet : AccountWallet := groupingWallet [⟨⟨1, 0⟩, [], 0⟩, ⟨⟨1, 1⟩, [], 0⟩]

/-- One own output is spent with a foreign one. -/
def jointWallet : AccountWallet := groupingWallet [⟨⟨1, 0⟩, [], 0⟩, ⟨⟨7, 0⟩, [], 0⟩]

theorem getAddressGroupings_components_shared :
    sharedWallet.getAddressGroupings groupingKeys = .ok ([[.keyID 1, .keyID 2, .keyID 3]], sharedWallet) ∧
      sharedWallet.Partitions groupingKeys [[.keyID 1, .keyID 2, .keyID 3]] := by
  have ended : sharedWallet.getAddressGroupings groupingKeys = .ok ([[.keyID 1, .keyID 2, .keyID 3]], sharedWallet) := rfl
  have result := AccountWallet.getAddressGroupings_components groupingKeys sharedWallet (by decide)
  exact ⟨ended, (result.2 _ _ ended).2⟩

/-- The joint spend makes the call reach outside of the outputs of a transaction that it has just made. -/
theorem getAddressGroupings_joint :
    ¬ ∀ (keys : WalletKeys) (w : AccountWallet), ∃ groups, w.getAddressGroupings keys = .ok (groups, w) := by
  intro total
  obtain ⟨groups, ended⟩ := total groupingKeys jointWallet
  have failed : (jointWallet.getAddressGroupings groupingKeys).isOk = false := rfl
  rw [ended] at failed
  cases failed

end Concrete

end InfiniteRicks
