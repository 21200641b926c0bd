import InfiniteRicks.Dependers
import InfiniteRicks.TemplateSpec

/-!
# Which pointers of a template dangle

The collection leaves the transactions in `vOrphan` and in the queue that it should. A pointer to a
`COrphan` that is gone stays in `mapDependers` exactly where a transaction waits for the pool before its
first missing input. Without one, no round of the selection loop meets such a pointer, and no
transaction with a missing input gets into the queue.
-/

namespace InfiniteRicks

/-- Neither the index nor the pool has what the input spends. -/
def isMissing (s : Node) (txin : CTxIn) : Bool :=
  !(readPrevTx s txin.prevout).isSome && !s.mempool.contains txin.prevout.hash

/-- Only the pool has it. -/
def isWaiting (s : Node) (txin : CTxIn) : Bool :=
  !(readPrevTx s txin.prevout).isSome && s.mempool.contains txin.prevout.hash

/-- No input is missing. -/
def Complete (s : Node) (vin : List CTxIn) : Prop := ∀ txin ∈ vin, isMissing s txin = false

/-- An input waits for the pool, nothing before it is missing, and something behind it is. -/
def Strands (s : Node) (vin : List CTxIn) : Prop :=
  ∃ before txin after, vin = before ++ txin :: after ∧ Complete s before ∧ isWaiting s txin = true ∧ ¬Complete s after

namespace PoolQueues

/-- Every `COrphan` that `mapDependers` refers to is in `vOrphan`. -/
def Live (q : PoolQueues) : Prop := ∀ hash, ∀ porphan ∈ q.mapDependers hash, porphan ∈ q.vOrphan.map Prod.fst

section Inputs

variable {s : Node} {txin : CTxIn} {rest : List CTxIn}

theorem complete_cons : Complete s (txin :: rest) ↔ isMissing s txin = false ∧ Complete s rest := List.forall_mem_cons

theorem not_strands_of_missing (missing : isMissing s txin = true) : ¬Strands s (txin :: rest) := by
  rintro ⟨before, waiting, after, shape, complete, waits, -⟩
  cases before with
  | nil =>
      cases shape
      simp_all [isMissing, isWaiting]
  | cons first before =>
      cases shape
      rw [(complete_cons.mp complete).1] at missing
      cases missing

theorem strands_cons_of_complete (found : isMissing s txin = false) (settled : isWaiting s txin = false) :
    Strands s (txin :: rest) ↔ Strands s rest := by
  constructor
  · rintro ⟨before, waiting, after, shape, complete, waits, missing⟩
    cases before with
    | nil =>
        cases shape
        rw [settled] at waits
        cases waits
    | cons first before =>
        cases shape
        exact ⟨before, waiting, after, rfl, (complete_cons.mp complete).2, waits, missing⟩
  · rintro ⟨before, waiting, after, rfl, complete, waits, missing⟩
    exact ⟨txin :: before, waiting, after, rfl, complete_cons.mpr ⟨found, complete⟩, waits, missing⟩

theorem strands_cons_of_waiting (waits : isWaiting s txin = true) : Strands s (txin :: rest) ↔ ¬Complete s rest := by
  constructor
  · rintro ⟨before, waiting, after, shape, -, -, missing⟩ complete
    cases before with
    | nil =>
        cases shape
        exact missing complete
    | cons first before =>
        cases shape
        exact missing fun later member => complete later (List.mem_append_right _ (List.mem_cons_of_mem _ member))
  · intro missing
    exact ⟨[], txin, rest, rfl, fun _ member => absurd member List.not_mem_nil, waits, missing⟩

end Inputs

section Collect

variable {fDebug : Bool} {s : Node} {tx : CTransaction} {q q' : PoolQueues} {porphan : Nat}

/-- What the loop over the inputs of a waiting transaction does to everything but its `COrphan`. -/
structure Extends (porphan : Nat) (q q' : PoolQueues) : Prop where
  vecPriority : q'.vecPriority = q.vecPriority
  nMade : q'.nMade = q.nMade
  kept : ∀ hash, ∀ other ∈ q.mapDependers hash, other ∈ q'.mapDependers hash
  added : ∀ hash, ∀ other ∈ q'.mapDependers hash, other ∈ q.mapDependers hash ∨ other = porphan

theorem Extends.refl (porphan : Nat) (q : PoolQueues) : Extends porphan q q :=
  ⟨rfl, rfl, fun _ _ member => member, fun _ _ member => Or.inl member⟩

theorem Extends.trans {middle : PoolQueues} (first : Extends porphan q middle) (second : Extends porphan middle q') :
    Extends porphan q q' where
  vecPriority := second.vecPriority.trans first.vecPriority
  nMade := second.nMade.trans first.nMade
  kept hash other member := second.kept hash other (first.kept hash other member)
  added hash other member := (second.added hash other member).elim (first.added hash other) Or.inr

theorem mem_dependOn {hash other : UInt256} {ref : Nat} :
    ref ∈ (q.dependOn porphan hash).mapDependers other ↔ ref ∈ q.mapDependers other ∨ other = hash ∧ ref = porphan := by
  unfold dependOn
  dsimp only
  by_cases same : other = hash
  · subst same
    rw [Function.update_self, List.mem_append, List.mem_singleton, and_iff_right rfl]
  · rw [Function.update_of_ne same]
    exact ⟨Or.inl, fun either => either.resolve_right fun both => same both.1⟩

theorem extends_dependOn (hash : UInt256) : Extends porphan q (q.dependOn porphan hash) where
  vecPriority := rfl
  nMade := rfl
  kept _ _ member := mem_dependOn.mpr (Or.inl member)
  added _ _ member := (mem_dependOn.mp member).imp_right And.right

/-- A write through a pointer changes its `COrphan` only. -/
theorem write_last {entries : List (Nat × COrphan)} {orphan : COrphan} (shape : q.vOrphan = entries ++ [(porphan,
    orphan)])
    (others : ∀ entry ∈ entries, entry.1 ≠ porphan) (change : List UInt256 → List UInt256) :
    (q.write porphan change).vOrphan = entries ++ [(porphan, ⟨orphan.ptx, change orphan.setDependsOn⟩)] := by
  have same : entries.map (fun entry =>
      if entry.1 = porphan then (entry.1, (⟨entry.2.ptx, change entry.2.setDependsOn⟩ : COrphan)) else entry) =
        entries := by
    conv_rhs => rw [← List.map_id entries]
    exact List.map_congr_left fun entry member => if_neg (others entry member)
  unfold write
  dsimp only
  rw [shape, List.map_append, same, List.map_singleton, if_pos rfl]

/-- The rest of the inputs of a transaction that waits: either nothing more is missing, and its `COrphan` stays the last
one, or something is, and it is gone. -/
theorem collectInputs_waiting {vin : List CTxIn} {entries : List (Nat × COrphan)} {orphan : COrphan}
    {fMissingInputs : Bool} {pointer : Option Nat}
    (collected : collectInputs fDebug s tx vin (some porphan) q = some (fMissingInputs, pointer, q'))
    (shape : q.vOrphan = entries ++ [(porphan, orphan)]) (others : ∀ entry ∈ entries, entry.1 ≠ porphan) :
    pointer = some porphan ∧ Extends porphan q q' ∧
      (fMissingInputs = true ∧ ¬Complete s vin ∧ q'.vOrphan = entries ∨
        fMissingInputs = false ∧ Complete s vin ∧
          ∃ setDependsOn, q'.vOrphan = entries ++ [(porphan, ⟨orphan.ptx, setDependsOn⟩)]) := by
  induction vin generalizing q orphan with
  | nil =>
      cases collected
      exact ⟨rfl, .refl _ _, Or.inr ⟨rfl, fun _ member => absurd member List.not_mem_nil, _, shape⟩⟩
  | cons txin rest ih =>
      rw [collectInputs] at collected
      split at collected
      · rename_i read
        have found : isMissing s txin = false := by rw [isMissing, read]; rfl
        rw [complete_cons, and_iff_right found]
        exact ih collected shape
      rename_i unread
      have read : (readPrevTx s txin.prevout).isSome = false := Bool.eq_false_iff.mpr unread
      split at collected
      · rename_i absent
        have missing : isMissing s txin = true := by rw [isMissing, read, absent]; rfl
        split at collected
        · cases collected
        · cases collected
          refine ⟨rfl, ⟨rfl, rfl, fun _ _ member => member, fun _ _ member => Or.inl member⟩, Or.inl ⟨rfl, ?_, ?_⟩⟩
          · rw [complete_cons, missing]
            exact fun both => Bool.noConfusion both.1
          · rw [Option.isSome_some, if_pos rfl, popOrphan, shape, List.dropLast_concat]
      · rename_i pooled
        have found : isMissing s txin = false := by
          rw [isMissing, read, Bool.eq_false_iff.mpr pooled]
          rfl
        obtain ⟨same, more, ended⟩ := ih collected (write_last shape others _)
        refine ⟨same, (extends_dependOn _).trans more, ?_⟩
        rw [complete_cons, and_iff_right found]
        exact ended

/-- Every `COrphan` and every pointer has its number from a `COrphan` that was made. -/
structure Numbered (q : PoolQueues) : Prop where
  orphans : ∀ entry ∈ q.vOrphan, entry.1 < q.nMade
  pointers : ∀ hash, ∀ other ∈ q.mapDependers hash, other < q.nMade

/-- The inputs of a transaction from the first one: none waits and nothing was made, or one did, with a new `COrphan`
that stays exactly where nothing is missing. -/
theorem collectInputs_start (numbered : q.Numbered) {vin : List CTxIn} {fMissingInputs : Bool} {pointer : Option Nat}
    (collected : collectInputs fDebug s tx vin none q = some (fMissingInputs, pointer, q')) :
    (fMissingInputs = true ↔ ¬Complete s vin) ∧
      (pointer = none ∧ q' = q ∧ ¬Strands s vin ∧ (Complete s vin → ∀ txin ∈ vin, isWaiting s txin = false) ∨
        pointer = some q.nMade ∧ Extends q.nMade { q with nMade := q.nMade + 1 } q' ∧
          (∃ hash, q.nMade ∈ q'.mapDependers hash) ∧ (∃ txin ∈ vin, isWaiting s txin = true) ∧
          (Strands s vin ∧ q'.vOrphan = q.vOrphan ∨
            Complete s vin ∧ ∃ setDependsOn, q'.vOrphan = q.vOrphan ++ [(q.nMade, ⟨tx, setDependsOn⟩)])) := by
  induction vin with
  | nil =>
      cases collected
      refine ⟨⟨fun truth => Bool.noConfusion truth, fun none => absurd
        (fun _ member => absurd member List.not_mem_nil) none⟩,
        Or.inl ⟨rfl, rfl, ?_, fun _ _ member => absurd member List.not_mem_nil⟩⟩
      rintro ⟨before, txin, after, shape, -⟩
      exact List.append_ne_nil_of_right_ne_nil _ (List.cons_ne_nil _ _) shape.symm
  | cons txin rest ih =>
      rw [collectInputs] at collected
      split at collected
      · rename_i read
        have found : isMissing s txin = false := by rw [isMissing, read]; rfl
        have settled : isWaiting s txin = false := by rw [isWaiting, read]; rfl
        rw [strands_cons_of_complete found settled, complete_cons, and_iff_right found, List.forall_mem_cons,
          and_iff_right settled]
        obtain ⟨missing, none | ⟨made, extends_, pointed, ⟨other, member, waits⟩, ended⟩⟩ := ih collected
        · exact ⟨missing, Or.inl none⟩
        · exact ⟨missing, Or.inr ⟨made, extends_, pointed, ⟨other, List.mem_cons_of_mem _ member, waits⟩, ended⟩⟩
      rename_i unread
      have read : (readPrevTx s txin.prevout).isSome = false := Bool.eq_false_iff.mpr unread
      split at collected
      · rename_i absent
        have missing : isMissing s txin = true := by rw [isMissing, read, absent]; rfl
        have incomplete : ¬Complete s (txin :: rest) := by
          rw [complete_cons, missing]
          exact fun both => Bool.noConfusion both.1
        split at collected
        · cases collected
        · cases collected
          exact ⟨iff_of_true rfl incomplete,
            Or.inl ⟨rfl, rfl, not_strands_of_missing missing, fun complete => absurd complete incomplete⟩⟩
      · rename_i pooled
        have present := Bool.eq_false_iff.mpr pooled
        have found : isMissing s txin = false := by rw [isMissing, read, present]; rfl
        have waits : isWaiting s txin = true := by
          rw [isWaiting, read]
          simpa using present
        have others : ∀ entry ∈ q.vOrphan, entry.1 ≠ q.nMade := fun entry member => (numbered.orphans entry member).ne
        obtain ⟨same, more, ended⟩ := collectInputs_waiting collected
          (write_last (q := q.pushOrphan tx) rfl others (List.insert txin.prevout.hash)) others
        have first : q.nMade ∈ ((q.pushOrphan tx).dependOn q.nMade txin.prevout.hash).mapDependers txin.prevout.hash :=
          mem_dependOn.mpr (Or.inr ⟨rfl, rfl⟩)
        have pushed : Extends q.nMade { q with nMade := q.nMade + 1 } (q.pushOrphan tx) :=
          ⟨rfl, rfl, fun _ _ member => member, fun _ _ member => Or.inl member⟩
        rw [strands_cons_of_waiting waits, complete_cons, and_iff_right found]
        refine ⟨?_, Or.inr ⟨same, pushed.trans ((extends_dependOn _).trans more), ⟨_, more.kept _ _ first⟩, ⟨txin,
          List.mem_cons_self, waits⟩, ?_⟩⟩
        · rcases ended with ⟨truth, missing, -⟩ | ⟨untrue, complete, -⟩
          · exact iff_of_true truth missing
          · exact iff_of_false (by rw [untrue]; exact Bool.false_ne_true) fun missing => missing complete
        · exact ended.imp And.right And.right

theorem not_strands_of_complete {vin : List CTxIn} (complete : Complete s vin) : ¬Strands s vin := by
  rintro ⟨before, txin, after, rfl, -, -, missing⟩
  exact missing fun later member => complete later (List.mem_append_right _ (List.mem_cons_of_mem _ member))

/-- A new `COrphan` that is gone leaves a pointer behind. -/
theorem not_live_of_gone (numbered : q.Numbered) (pointed : ∃ hash, q.nMade ∈ q'.mapDependers hash)
    (gone : q'.vOrphan = q.vOrphan) : ¬q'.Live := by
  intro live
  obtain ⟨hash, member⟩ := pointed
  have there := live hash _ member
  rw [gone] at there
  obtain ⟨entry, listed, number⟩ := List.mem_map.mp there
  exact (numbered.orphans entry listed).ne number

/-- One that stays keeps the others as they were. -/
theorem live_iff_of_kept (numbered : q.Numbered) (extends_ : Extends q.nMade { q with nMade := q.nMade + 1 } q')
    {orphan : COrphan} (kept : q'.vOrphan = q.vOrphan ++ [(q.nMade, orphan)]) : q'.Live ↔ q.Live := by
  have ids : q'.vOrphan.map Prod.fst = q.vOrphan.map Prod.fst ++ [q.nMade] := by rw [kept, List.map_append]; rfl
  unfold Live
  rw [ids]
  constructor
  · intro live hash porphan member
    have there := live hash porphan (extends_.kept hash porphan member)
    refine (List.mem_append.mp there).resolve_right fun new => ?_
    exact (numbered.pointers hash porphan member).ne (List.mem_singleton.mp new)
  · intro live hash porphan member
    rcases extends_.added hash porphan member with older | rfl
    · exact List.mem_append_left _ (live hash porphan older)
    · exact List.mem_append_right _ (List.mem_singleton_self _)

theorem Numbered.extends (numbered : q.Numbered) (extends_ : Extends q.nMade { q with nMade := q.nMade + 1 } q')
    (shape : ∀ entry ∈ q'.vOrphan, entry ∈ q.vOrphan ∨ entry.1 = q.nMade) : q'.Numbered := by
  have more : q'.nMade = q.nMade + 1 := extends_.nMade
  refine ⟨fun entry member => ?_, fun hash porphan member => ?_⟩
  · rcases shape entry member with older | new
    · have less := numbered.orphans entry older
      omega
    · omega
  · rcases extends_.added hash porphan member with older | new
    · have less := numbered.pointers hash porphan older
      omega
    · omega

/-- A transaction of the pool with what it waits for, as far as it may be in a block. -/
def candidateOf (s : Node) (nHeight : Int) (tx : CTransaction) : Option COrphan :=
  if considered s nHeight tx then (setDependsOn s tx.vin).map fun hashes => ⟨tx, hashes⟩ else none

theorem poolCandidates_eq (s : Node) (nHeight : Int) :
    poolCandidates s nHeight = (s.mempool.mapTx.entries.map Sigma.snd).filterMap (candidateOf s nHeight) := by
  unfold poolCandidates
  congr 1
  funext tx
  unfold candidateOf considered
  cases tx.isCoinBase || tx.isCoinStake || !isFinalTx s tx nHeight 0 <;> rfl

/-- What a transaction waits for is known where nothing is missing, and is nothing where no input waits. -/
theorem setDependsOn_cases (s : Node) (vin : List CTxIn) :
    setDependsOn s vin = none ∧ ¬Complete s vin ∨
      ∃ hashes, setDependsOn s vin = some hashes ∧ Complete s vin ∧
        (hashes.isEmpty = true ↔ ∀ txin ∈ vin, isWaiting s txin = false) := by
  induction vin with
  | nil => exact Or.inr ⟨[], rfl, fun _ member => absurd member List.not_mem_nil, by simp⟩
  | cons txin rest ih =>
      rw [setDependsOn, complete_cons, List.forall_mem_cons]
      cases read : (readPrevTx s txin.prevout).isSome with
      | true =>
          rw [if_pos rfl, show isMissing s txin = false by rw [isMissing, read]; rfl, and_iff_right rfl,
            show isWaiting s txin = false by rw [isWaiting, read]; rfl, and_iff_right rfl]
          exact ih
      | false =>
          rw [if_neg Bool.false_ne_true]
          cases pooled : s.mempool.contains txin.prevout.hash with
          | false =>
              refine Or.inl ⟨if_neg Bool.false_ne_true, ?_⟩
              rw [isMissing, read, pooled]
              exact fun both => Bool.noConfusion both.1
          | true =>
              have waits : isWaiting s txin = true := by rw [isWaiting, read, pooled]; rfl
              rw [if_pos rfl, show isMissing s txin = false by rw [isMissing, read, pooled]; rfl, and_iff_right rfl,
                waits]
              rcases ih with ⟨none, missing⟩ | ⟨hashes, known, complete, -⟩
              · exact Or.inl ⟨by rw [none]; rfl, missing⟩
              · refine Or.inr ⟨hashes.insert txin.prevout.hash, by rw [known]; rfl, complete, ?_⟩
                refine iff_of_false (fun none => ?_) fun both => Bool.noConfusion both.1
                exact List.ne_nil_of_mem (List.mem_insert_self (a := txin.prevout.hash) (l := hashes))
                  (List.isEmpty_iff.mp none)

/-- The containers after some transactions of the pool: the transactions that should be in `vOrphan` and in the
queue, and no pointer that dangles but for those that strand. -/
structure Collected (s : Node) (nHeight : Int) (done : List CTransaction) (q : PoolQueues) : Prop where
  numbered : q.Numbered
  live_iff : q.Live ↔ ∀ tx ∈ done, considered s nHeight tx = true → ¬Strands s tx.vin
  queue : q.vecPriority =
    ((done.filterMap (candidateOf s nHeight)).filter fun orphan => orphan.setDependsOn.isEmpty).map COrphan.ptx
  orphans : (q.vOrphan.map fun entry => entry.2.ptx) =
    ((done.filterMap (candidateOf s nHeight)).filter fun orphan => !orphan.setDependsOn.isEmpty).map COrphan.ptx

theorem Collected.collectTx {nHeight : Int} {done : List CTransaction} (collected : Collected s nHeight done q)
    (round : collectTx fDebug s nHeight q tx = some q') : Collected s nHeight (done ++ [tx]) q' := by
  obtain ⟨numbered, live, queue, orphans⟩ := collected
  have appended : ∀ entry, (done ++ [tx]).filterMap (candidateOf s nHeight) =
      done.filterMap (candidateOf s nHeight) ++ entry ↔ (candidateOf s nHeight tx).toList = entry := by
    intro entry
    rw [List.filterMap_append, List.append_cancel_left_eq]
    cases found : candidateOf s nHeight tx <;> simp [found]
  have liveWith : (∀ other ∈ done ++ [tx], considered s nHeight other = true → ¬Strands s other.vin) ↔
      (∀ other ∈ done, considered s nHeight other = true → ¬Strands s other.vin) ∧
        (considered s nHeight tx = true → ¬Strands s tx.vin) := by
    rw [List.forall_mem_append, List.forall_mem_singleton]
  unfold PoolQueues.collectTx at round
  split at round
  · rename_i skipped
    cases round
    have none : considered s nHeight tx = false := by simpa using skipped
    have same := (appended []).mpr (by rw [candidateOf, none]; rfl)
    rw [List.append_nil] at same
    refine ⟨numbered, ?_, by rw [same, queue], by rw [same, orphans]⟩
    rw [liveWith, none, live]
    exact (and_iff_left fun absurd => Bool.noConfusion absurd).symm
  rename_i looked
  have looks : considered s nHeight tx = true := by simpa using looked
  split at round
  · cases round
  rename_i fMissingInputs pointer after inputs
  obtain ⟨missing, ended⟩ := collectInputs_start numbered inputs
  rcases setDependsOn_cases s tx.vin with ⟨unknown, incomplete⟩ | ⟨hashes, known, complete, nothing⟩
  · -- An input is missing: no candidate, and the `COrphan` is gone if there was one.
    rw [if_pos (missing.mpr incomplete)] at round
    cases round
    have same := (appended []).mpr (by rw [candidateOf, if_pos looks, unknown]; rfl)
    rw [List.append_nil] at same
    rcases ended with ⟨-, rfl, clear, -⟩ | ⟨-, extends_, pointed, -, ⟨strands, gone⟩ | ⟨complete, -⟩⟩
    · refine ⟨numbered, ?_, by rw [same, queue], by rw [same, orphans]⟩
      rw [liveWith, live]
      exact (and_iff_left fun _ => clear).symm
    · refine ⟨numbered.extends extends_ fun entry member => Or.inl (gone ▸ member), ?_, ?_, by rw [gone, same, orphans]⟩
      · rw [liveWith]
        exact iff_of_false (not_live_of_gone numbered pointed gone) fun both => both.2 looks strands
      · rw [same, extends_.vecPriority, queue]
    · exact absurd complete incomplete
  · rw [if_neg fun truth => missing.mp truth complete] at round
    have candidate : candidateOf s nHeight tx = some ⟨tx, hashes⟩ := by rw [candidateOf, if_pos looks, known]; rfl
    have same := (appended [⟨tx, hashes⟩]).mpr (by rw [candidate]; rfl)
    rcases ended with ⟨rfl, rfl, clear, settled⟩ | ⟨rfl, extends_, -, ⟨txin, listed, waits⟩, ⟨strands, -⟩ | ⟨-, set,
      kept⟩⟩
    · -- Nothing waits: the transaction goes into the queue.
      rw [if_neg (by simp)] at round
      cases round
      have empty := nothing.mpr (settled complete)
      have queued : ([⟨tx, hashes⟩] : List COrphan).filter (fun orphan => orphan.setDependsOn.isEmpty) = [⟨tx,
        hashes⟩] := by
        simp [empty]
      have waiting : ([⟨tx, hashes⟩] : List COrphan).filter (fun orphan => !orphan.setDependsOn.isEmpty) = [] := by
        simp [empty]
      refine ⟨⟨numbered.orphans, numbered.pointers⟩, ?_, ?_, ?_⟩
      · rw [liveWith, ← live]
        exact (and_iff_left fun _ => clear).symm
      · rw [same, List.filter_append, List.map_append, ← queue, queued]
        rfl
      · rw [same, List.filter_append, List.map_append, ← orphans, waiting]
        exact (List.append_nil _).symm
    · exact absurd strands (not_strands_of_complete complete)
    · rw [if_pos Option.isSome_some] at round
      cases round
      have filled : hashes.isEmpty = false := by
        refine Bool.eq_false_iff.mpr fun none => ?_
        rw [nothing.mp none txin listed] at waits
        cases waits
      have queued : ([⟨tx, hashes⟩] : List COrphan).filter (fun orphan => orphan.setDependsOn.isEmpty) = [] := by
        simp [filled]
      have waiting : ([⟨tx, hashes⟩] : List COrphan).filter (fun orphan => !orphan.setDependsOn.isEmpty) =
          [⟨tx, hashes⟩] := by
        simp [filled]
      refine ⟨numbered.extends extends_ fun entry member => ?_, ?_, ?_, ?_⟩
      · rw [kept, List.mem_append, List.mem_singleton] at member
        exact member.imp_right fun new => congrArg Prod.fst new
      · rw [liveWith, live_iff_of_kept numbered extends_ kept, live]
        exact (and_iff_left fun _ => not_strands_of_complete complete).symm
      · rw [same, List.filter_append, List.map_append, ← queue, extends_.vecPriority, queued]
        exact (List.append_nil _).symm
      · rw [same, kept, List.filter_append, List.map_append, List.map_append, orphans, waiting]
        rfl

theorem collected_foldlM {nHeight : Int} (txs : List CTransaction) {done : List CTransaction}
    (collected : Collected s nHeight done q)
    (rounds : txs.foldlM (PoolQueues.collectTx fDebug s nHeight) q = some q') : Collected s nHeight
      (done ++ txs) q' := by
  induction txs generalizing q done with
  | nil =>
      cases rounds
      rwa [List.append_nil]
  | cons tx rest ih =>
      rw [List.foldlM_cons] at rounds
      obtain ⟨middle, round, more⟩ := Option.bind_eq_some_iff.mp rounds
      have all := ih (collected.collectTx round) more
      rwa [List.append_assoc, List.singleton_append] at all

/-- The collection of the whole pool. -/
theorem collected_collectPool {nHeight : Int} (collected : collectPool fDebug s nHeight = some q) :
    Collected s nHeight (s.mempool.mapTx.entries.map Sigma.snd) q := by
  have start : Collected s nHeight [] empty :=
    { numbered := ⟨fun _ member => absurd member List.not_mem_nil, fun _ _ member => absurd member List.not_mem_nil⟩
      live_iff := iff_of_true (fun _ _ member => absurd member List.not_mem_nil)
        fun _ member => absurd member List.not_mem_nil
      queue := rfl
      orphans := rfl }
  exact collected_foldlM _ start collected

/-- The queue and the waiting transactions are those of the template's first state. -/
theorem collectPool_startTemplate (options : MinerOptions) {nHeight : Int}
    (collected : collectPool fDebug s nHeight = some q) :
    q.vecPriority = (startTemplate options s nHeight).vecPriority ∧
      (q.vOrphan.map fun entry => entry.2.ptx) = (startTemplate options s nHeight).vOrphan.map COrphan.ptx := by
  obtain ⟨-, -, queue, orphans⟩ := collected_collectPool collected
  rw [← poolCandidates_eq] at queue orphans
  exact ⟨queue, orphans⟩

end Collect

section Select

variable {env : Env} {s : Node} {q q' : PoolQueues}

/-- What the selection loop relies on: no pointer dangles, and nothing that waits or is queued has a missing input. -/
structure Sound (s : Node) (q : PoolQueues) : Prop where
  live : q.Live
  orphans : ∀ entry ∈ q.vOrphan, Complete s entry.2.ptx.vin
  queue : ∀ tx ∈ q.vecPriority, Complete s tx.vin

theorem write_ids (q : PoolQueues) (porphan : Nat) (change : List UInt256 → List UInt256) :
    (q.write porphan change).vOrphan.map Prod.fst = q.vOrphan.map Prod.fst := by
  unfold PoolQueues.write
  rw [List.map_map]
  exact List.map_congr_left fun entry _ => by
    rw [Function.comp_apply]
    split <;> rfl

theorem Sound.write (sound : q.Sound s) (porphan : Nat) (change : List UInt256 → List UInt256) :
    (q.write porphan change).Sound s := by
  refine ⟨fun hash other member => ?_, fun entry member => ?_, sound.queue⟩
  · rw [write_ids]
    exact sound.live hash other member
  obtain ⟨older, listed, rfl⟩ := List.mem_map.mp member
  have complete := sound.orphans older listed
  split <;> exact complete

/-- A pointer that does not dangle is released, and what goes into the queue comes from `vOrphan`. -/
theorem Sound.releaseOne (sound : q.Sound s) {porphan : Nat} (there : porphan ∈ q.vOrphan.map Prod.fst)
    (hash : UInt256) :
    ∃ q', q.releaseOne hash porphan = some q' ∧ q'.Sound s ∧ q'.mapDependers = q.mapDependers ∧
      q'.vOrphan.map Prod.fst = q.vOrphan.map Prod.fst := by
  have found : (q.vOrphan.lookup porphan).isSome = true := by
    obtain ⟨entry, listed, rfl⟩ := List.mem_map.mp there
    exact List.lookup_isSome_iff.mpr ⟨entry, listed, beq_self_eq_true _⟩
  obtain ⟨orphan, read⟩ := Option.isSome_iff_exists.mp found
  have complete : Complete s orphan.ptx.vin := by
    obtain ⟨before, after, shape, -⟩ := List.lookup_eq_some_iff.mp read
    exact sound.orphans (porphan, orphan) (shape ▸ List.mem_append_right _ List.mem_cons_self)
  have written := sound.write porphan (·.erase hash)
  have ids := q.write_ids porphan (·.erase hash)
  rw [PoolQueues.releaseOne, read]
  dsimp only
  split
  · exact ⟨q, rfl, sound, rfl, rfl⟩
  split
  · refine ⟨_, rfl, ⟨written.live, written.orphans, ?_⟩, rfl, ids⟩
    exact List.forall_mem_append.mpr ⟨sound.queue, List.forall_mem_singleton.mpr complete⟩
  · exact ⟨_, rfl, written, rfl, ids⟩

/-- The pointers of a list are released one after the other. -/
theorem Sound.release_foldlM (hash : UInt256) (pointers : List Nat) (sound : q.Sound s)
    (there : ∀ porphan ∈ pointers, porphan ∈ q.vOrphan.map Prod.fst) :
    ∃ q', pointers.foldlM (PoolQueues.releaseOne hash) q = some q' ∧ q'.Sound s := by
  induction pointers generalizing q with
  | nil => exact ⟨q, rfl, sound⟩
  | cons porphan rest ih =>
      rw [List.forall_mem_cons] at there
      obtain ⟨middle, released, middleSound, -, ids⟩ := sound.releaseOne there.1 hash
      obtain ⟨last, more, lastSound⟩ := ih middleSound fun other member => ids ▸ there.2 other member
      exact ⟨last, by rw [List.foldlM_cons, released]; exact more, lastSound⟩

/-- What a transaction in the block releases, without a pointer that dangles. -/
theorem Sound.release (sound : q.Sound s) (hash : UInt256) : ∃ q', q.release hash = some q' ∧ q'.Sound s :=
  sound.release_foldlM hash _ (sound.live hash)

theorem Sound.eraseIdx (sound : q.Sound s) (i : Nat) :
    PoolQueues.Sound s { q with vecPriority := q.vecPriority.eraseIdx i } :=
  ⟨sound.live, sound.orphans, fun tx member => sound.queue tx (List.mem_of_mem_eraseIdx member)⟩

/-- No round of the selection loop breaks it. -/
theorem Sound.selects (sound : q.Sound s) (run : Selects env q q') : q'.Sound s := by
  induction run with
  | refl => exact sound
  | skip i _ ih => exact ih.eraseIdx i
  | add _ _ released ih =>
      obtain ⟨after, same, afterSound⟩ := (ih.eraseIdx _).release _
      rw [released] at same
      cases same
      exact afterSound

theorem complete_of_candidates {nHeight : Int} {txs : List CTransaction} {keep : COrphan → Bool} {tx : CTransaction}
    (member : tx ∈ ((txs.filterMap (candidateOf s nHeight)).filter keep).map COrphan.ptx) : Complete s tx.vin := by
  obtain ⟨orphan, kept, rfl⟩ := List.mem_map.mp member
  obtain ⟨other, -, candidate⟩ := List.mem_filterMap.mp (List.mem_filter.mp kept).1
  unfold candidateOf at candidate
  split at candidate
  · obtain ⟨hashes, known, rfl⟩ := Option.map_eq_some_iff.mp candidate
    rcases setDependsOn_cases s other.vin with ⟨unknown, -⟩ | ⟨_, -, complete, -⟩
    · rw [unknown] at known
      cases known
    · exact complete
  · cases candidate

/-- Where no pointer dangles when the selection loop starts, it may rely on its containers. -/
theorem Collected.sound {nHeight : Int} {done : List CTransaction} (collected : Collected s nHeight done q)
    (live : q.Live) : q.Sound s where
  live := live
  orphans entry member := by
    have listed : entry.2.ptx ∈ q.vOrphan.map fun entry => entry.2.ptx := List.mem_map_of_mem member
    exact complete_of_candidates (collected.orphans ▸ listed)
  queue tx member := complete_of_candidates (collected.queue ▸ member)

/-- When the selection loop starts and in all its rounds, every `COrphan` that `mapDependers` refers to is in `vOrphan`,
and nothing in the queue has a missing input, exactly where no transaction that the collection looks at waits for the
pool before its first missing input. -/
theorem template_pointers_live_iff (env : Env) (fDebug : Bool) (s : Node) (nHeight : Int) (q : PoolQueues)
    (collected : collectPool fDebug s nHeight = some q) :
    (∀ q', Selects env q q' → q'.Live ∧ ∀ tx ∈ q'.vecPriority, ∀ txin ∈ tx.vin, isMissing s txin = false) ↔
      ∀ tx ∈ s.mempool.mapTx.entries.map Sigma.snd, considered s nHeight tx = true → ¬Strands s tx.vin := by
  have state := collected_collectPool collected
  rw [← state.live_iff]
  constructor
  · exact fun safe => (safe q .refl).1
  · intro live q' run
    have sound := (state.sound live).selects run
    exact ⟨sound.live, sound.queue⟩

end Select

section Concrete

/-- A coin in the index, and a transaction of the pool that spends it. -/
def rootCoin : CTransaction := .labelledSpend 7 900 ⟨5, 0⟩ (2 * coin)
def poolParent : CTransaction := .labelledSpend 1 1000 ⟨7, 0⟩ coin

/-- A transaction that waits for it, and one whose second input is nowhere. -/
def poolChild : CTransaction := .labelledSpend 2 1000 ⟨1, 0⟩ coin
def halfOrphan : CTransaction :=
  { poolChild with vin := [⟨⟨1, 0⟩, [], 0xffffffff⟩, ⟨⟨99, 0⟩, [], 0xffffffff⟩] }

/-- A node that has the coin in its index, and some transactions in its pool. -/
def poolNode (txs : List CTransaction) : Node :=
  { Node.initial ⟨fun _ => some rootCoin, fun _ _ => none⟩ (fun _ => true) 2000 with
    txdb := ⟨fun key => if key = .tx 7 then some (.txIndex ⟨⟨1, 0, 0, by decide⟩, [.null]⟩) else none, none,
      fun _ => true, 0⟩
    mempool := txs.foldl (fun mempool tx => mempool.addUnchecked ((Env.labelled false).txHash tx) tx)
      (Node.initial ⟨fun _ => none, fun _ _ => none⟩ (fun _ => true) 2000).mempool }

/-- A child that waits is released with its parent. -/
theorem template_pointers_live_waiting :
    ∃ q, collectPool false (poolNode [poolParent, poolChild]) 1 = some q ∧
      (q.mapDependers 1, q.vecPriority) = ([0], [poolParent]) ∧
      ∀ q', Selects (Env.labelled false) q q' → q'.Live ∧ ∀ tx ∈ q'.vecPriority, ∀ txin ∈ tx.vin,
        isMissing (poolNode [poolParent, poolChild]) txin = false := by
  have shown : (collectPool false (poolNode [poolParent, poolChild]) 1).map (fun q => (q.mapDependers 1,
    q.vecPriority)) =
      some ([0], [poolParent]) := by decide +kernel
  obtain ⟨q, collected, content⟩ := Option.map_eq_some_iff.mp shown
  have complete : ((poolNode [poolParent, poolChild]).mempool.mapTx.entries.map Sigma.snd).all (fun tx =>
      tx.vin.all fun txin => !isMissing (poolNode [poolParent, poolChild]) txin) = true := by decide +kernel
  refine ⟨q, collected, content, (template_pointers_live_iff _ _ _ _ _ collected).mpr fun tx member _ => ?_⟩
  refine not_strands_of_complete fun txin listed => ?_
  have found := List.all_eq_true.mp (List.all_eq_true.mp complete tx member) txin listed
  rwa [Bool.not_eq_true'] at found

/-- The parent goes to the block and finds the pointer to a `COrphan` that is gone. -/
theorem half_orphan_dangles :
    ∃ q, collectPool false (poolNode [poolParent, halfOrphan]) 1 = some q ∧ ¬q.Live ∧ q.vecPriority = [poolParent] ∧
      q.release ((Env.labelled false).txHash poolParent) = none := by
  have shown : (collectPool false (poolNode [poolParent, halfOrphan]) 1).map (fun q =>
      (q.vOrphan.length, q.mapDependers 1, q.vecPriority, (q.release
        ((Env.labelled false).txHash poolParent)).isNone)) =
      some (0, [0], [poolParent], true) := by decide +kernel
  obtain ⟨q, collected, content⟩ := Option.map_eq_some_iff.mp shown
  simp only [Prod.mk.injEq, Option.isNone_iff_eq_none] at content
  obtain ⟨none, pointer, queue, stuck⟩ := content
  refine ⟨q, collected, fun live => ?_, queue, stuck⟩
  have there := live 1 0 (by rw [pointer]; exact List.mem_singleton_self 0)
  rw [List.length_eq_zero_iff.mp none] at there
  cases there

end Concrete

end PoolQueues

end InfiniteRicks
