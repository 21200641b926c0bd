import InfiniteRicks.TxDb

/-!
# The database handle on serialized records

`CTxDB`'s templates over byte strings, as LevelDB stores them: `Read` and `Exists`
scan the pending batch with `CBatchScanner` before they ask the store. `Contents`
says what the database means to its callers, a store and inside a transaction a
working copy of it; every run of the handle follows it. `Read` answers from it
always, and `Exists` unless the batch erases a key that the store still has.
-/

namespace InfiniteRicks

open Library

/-- The members of `CBatchScanner`, with the `deleted` and `foundValue` it points to. -/
structure CBatchScanner where
  needle : Bytes
  deleted : Bool
  foundValue : Bytes
  foundEntry : Bool

/-- `CBatchScanner::Put` and `CBatchScanner::Delete`. -/
def CBatchScanner.handle (scanner : CBatchScanner) : WriteBatch.Op Bytes Bytes → CBatchScanner
  | .put key value =>
      if key = scanner.needle then { scanner with foundEntry := true, deleted := false, foundValue := value }
      else scanner
  | .delete key =>
      if key = scanner.needle then { scanner with foundEntry := true, deleted := true } else scanner

/-- `CTxDB` on serialized keys and values. -/
structure RawTxDB where
  pdb : Bytes → Option Bytes
  activeBatch : Option (List (WriteBatch.Op Bytes Bytes))
  fReadOnly : Bool

namespace RawTxDB

/-- A handle as the constructor makes it. -/
def opened (pdb : Bytes → Option Bytes) (fReadOnly : Bool) : RawTxDB := ⟨pdb, none, fReadOnly⟩

/-- `CTxDB::ScanBatch`: `WriteBatch::Iterate` hands the operations over in their order. -/
def scanBatch (batch : List (WriteBatch.Op Bytes Bytes)) (key : Bytes) : CBatchScanner :=
  batch.foldl CBatchScanner.handle ⟨key, false, [], false⟩

/-- `CTxDB::Read`: `none` where it returns false. -/
def read {T : Type} (unserialize : Bytes → Option T) (txdb : RawTxDB) (key : Bytes) : Option T :=
  match txdb.activeBatch with
  | some batch =>
      let scanner := scanBatch batch key
      if scanner.deleted then none
      else if scanner.foundEntry then unserialize scanner.foundValue
      else (txdb.pdb key).bind unserialize
  | none => (txdb.pdb key).bind unserialize

/-- `CTxDB::Exists`. -/
def existsKey (txdb : RawTxDB) (key : Bytes) : Bool :=
  match txdb.activeBatch with
  | some batch =>
      let scanner := scanBatch batch key
      if scanner.foundEntry && !scanner.deleted then true else (txdb.pdb key).isSome
  | none => (txdb.pdb key).isSome

/-- The calls that change a handle or its store. A commit carries the status that
LevelDB answers with. -/
inductive Call where
  | write (key value : Bytes)
  | erase (key : Bytes)
  | txnBegin
  | txnCommit (ok : Bool)
  | txnAbort

/-- One call; `none` where an assertion of the source fails. -/
def step (txdb : RawTxDB) : Call → Option RawTxDB
  | .write key value =>
      if txdb.fReadOnly then none
      else
        match txdb.activeBatch with
        | some batch => some { txdb with activeBatch := some (batch ++ [.put key value]) }
        | none => some { txdb with pdb := Function.update txdb.pdb key (some value) }
  | .erase key =>
      if txdb.fReadOnly then none
      else
        match txdb.activeBatch with
        | some batch => some { txdb with activeBatch := some (batch ++ [.delete key]) }
        | none => some { txdb with pdb := Function.update txdb.pdb key none }
  | .txnBegin =>
      match txdb.activeBatch with
      | some _ => none
      | none => some { txdb with activeBatch := some [] }
  | .txnCommit ok =>
      match txdb.activeBatch with
      | none => none
      | some batch =>
          some { txdb with pdb := if ok then WriteBatch.replay txdb.pdb batch else txdb.pdb, activeBatch := none }
  | .txnAbort => some { txdb with activeBatch := none }

/-- A sequence of calls. -/
def run (txdb : RawTxDB) : List Call → Option RawTxDB
  | [] => some txdb
  | call :: calls => (txdb.step call).bind fun after => after.run calls

end RawTxDB

/-- What a database holds: the store and, inside a transaction, its working copy. -/
structure Contents where
  stored : Bytes → Option Bytes
  working : Option (Bytes → Option Bytes)

namespace Contents

/-- The record that a reader is to see. -/
def lookup (contents : Contents) (key : Bytes) : Option Bytes := contents.working.getD contents.stored key

/-- Change one record where changes go now. -/
def put (contents : Contents) (key : Bytes) (value : Option Bytes) : Contents :=
  match contents.working with
  | some working => { contents with working := some (Function.update working key value) }
  | none => { contents with stored := Function.update contents.stored key value }

/-- The meaning of a call. -/
def step (contents : Contents) : RawTxDB.Call → Contents
  | .write key value => contents.put key (some value)
  | .erase key => contents.put key none
  | .txnBegin => { contents with working := some contents.stored }
  | .txnCommit ok => ⟨if ok then contents.working.getD contents.stored else contents.stored, none⟩
  | .txnAbort => { contents with working := none }

end Contents

/-- What the scanner knows about its key: nothing, that it is erased, or its value. -/
def CBatchScanner.finding (scanner : CBatchScanner) : Option (Option Bytes) :=
  if scanner.foundEntry then some (if scanner.deleted then none else some scanner.foundValue) else none

/-- `deleted` is only set together with `foundEntry`. -/
def CBatchScanner.Sound (scanner : CBatchScanner) : Prop := scanner.deleted = true → scanner.foundEntry = true

theorem CBatchScanner.iterate (scanner : CBatchScanner) (sound : scanner.Sound)
    (batch : List (WriteBatch.Op Bytes Bytes)) :
    (batch.foldl handle scanner).finding = WriteBatch.scan scanner.needle batch scanner.finding ∧
      (batch.foldl handle scanner).Sound := by
  induction batch generalizing scanner with
  | nil => exact ⟨rfl, sound⟩
  | cons op rest ih =>
      rw [List.foldl_cons]
      cases op with
      | put key value =>
          by_cases same : key = scanner.needle
          · have next : (scanner.handle (.put key value)).Sound := by simp [Sound, handle, same]
            simpa [WriteBatch.scan, handle, finding, same] using ih _ next
          · simpa [WriteBatch.scan, handle, same] using ih _ sound
      | delete key =>
          by_cases same : key = scanner.needle
          · have next : (scanner.handle (.delete key)).Sound := by simp [Sound, handle, same]
            simpa [WriteBatch.scan, handle, finding, same] using ih _ next
          · simpa [WriteBatch.scan, handle, same] using ih _ sound

namespace RawTxDB

/-- The contents that a handle stands for. -/
def contents (txdb : RawTxDB) : Contents := ⟨txdb.pdb, txdb.activeBatch.map (WriteBatch.replay txdb.pdb)⟩

theorem scanBatch_finding (batch : List (WriteBatch.Op Bytes Bytes)) (key : Bytes) :
    (scanBatch batch key).finding = WriteBatch.scan key batch none :=
  (CBatchScanner.iterate ⟨key, false, [], false⟩ (by simp [CBatchScanner.Sound]) batch).1

theorem scanBatch_sound (batch : List (WriteBatch.Op Bytes Bytes)) (key : Bytes) : (scanBatch batch key).Sound :=
  (CBatchScanner.iterate ⟨key, false, [], false⟩ (by simp [CBatchScanner.Sound]) batch).2

/-- What a scan followed by the store finds is what the replayed store holds. -/
theorem lookup_scan {txdb : RawTxDB} {batch : List (WriteBatch.Op Bytes Bytes)}
    (active : txdb.activeBatch = some batch) (key : Bytes) :
    txdb.contents.lookup key = (scanBatch batch key).finding.getD (txdb.pdb key) := by
  rw [scanBatch_finding, WriteBatch.replay_apply, Contents.lookup, contents, active]
  rfl

theorem lookup_idle {txdb : RawTxDB} (idle : txdb.activeBatch = none) (key : Bytes) :
    txdb.contents.lookup key = txdb.pdb key := by
  rw [Contents.lookup, contents, idle]
  rfl

/-- `Read` answers from the contents. -/
theorem read_eq_lookup {T : Type} (unserialize : Bytes → Option T) (txdb : RawTxDB) (key : Bytes) :
    txdb.read unserialize key = (txdb.contents.lookup key).bind unserialize := by
  cases active : txdb.activeBatch with
  | none => simp only [read, active, lookup_idle active]
  | some batch =>
      have sound := scanBatch_sound batch key
      rw [lookup_scan active]
      simp only [read, active]
      cases deleted : (scanBatch batch key).deleted with
      | true => simp [CBatchScanner.finding, sound deleted, deleted]
      | false =>
          cases found : (scanBatch batch key).foundEntry with
          | true => simp [CBatchScanner.finding, found, deleted]
          | false => simp [CBatchScanner.finding, found]

/-- The pending batch ends, for this key, in an erase, and the store has the key. -/
def ErasedStored (txdb : RawTxDB) (key : Bytes) : Prop :=
  WriteBatch.ErasedLast key (txdb.activeBatch.getD []) ∧ (txdb.pdb key).isSome = true

/-- `Exists` answers from the contents unless a pending erase covers a stored record. -/
theorem existsKey_eq_lookup_iff (txdb : RawTxDB) (key : Bytes) :
    txdb.existsKey key = (txdb.contents.lookup key).isSome ↔ ¬ txdb.ErasedStored key := by
  cases active : txdb.activeBatch with
  | none =>
      have clear : ¬ txdb.ErasedStored key := by
        rintro ⟨⟨earlier, later, shape, -⟩, -⟩
        simp [active] at shape
      simp only [existsKey, active, lookup_idle active, clear, not_false_eq_true]
  | some batch =>
      have sound := scanBatch_sound batch key
      rw [ErasedStored, active, Option.getD_some, ← WriteBatch.scan_eq_erased_iff, ← scanBatch_finding,
        lookup_scan active]
      simp only [existsKey, active]
      cases deleted : (scanBatch batch key).deleted with
      | true => simp [CBatchScanner.finding, sound deleted, deleted]
      | false =>
          cases found : (scanBatch batch key).foundEntry with
          | true => simp [CBatchScanner.finding, found, deleted]
          | false => simp [CBatchScanner.finding, found]

/-- Each call has its meaning on the contents. -/
theorem step_contents {txdb after : RawTxDB} {call : Call} (stepped : txdb.step call = some after) :
    after.contents = txdb.contents.step call := by
  cases call with
  | write key value =>
      simp only [step] at stepped
      split at stepped
      · cases stepped
      split at stepped
      all_goals
        rename_i active
        cases stepped
        simp [contents, Contents.step, Contents.put, active]
  | erase key =>
      simp only [step] at stepped
      split at stepped
      · cases stepped
      split at stepped
      all_goals
        rename_i active
        cases stepped
        simp [contents, Contents.step, Contents.put, active]
  | txnBegin =>
      simp only [step] at stepped
      split at stepped
      · cases stepped
      cases stepped
      rfl
  | txnCommit ok =>
      simp only [step] at stepped
      split at stepped
      · cases stepped
      rename_i active
      cases stepped
      simp [contents, Contents.step, active]
  | txnAbort =>
      cases stepped
      rfl

/-- So does a sequence of calls. -/
theorem run_contents {txdb after : RawTxDB} {calls : List Call} (ran : txdb.run calls = some after) :
    after.contents = calls.foldl Contents.step txdb.contents := by
  induction calls generalizing txdb with
  | nil =>
      cases ran
      rfl
  | cons call calls ih =>
      obtain ⟨middle, stepped, rest⟩ := Option.bind_eq_some_iff.mp ran
      rw [List.foldl_cons, ← step_contents stepped]
      exact ih rest

/-- A change of one record. -/
def Call.Edits : Call → Prop
  | .write _ _ | .erase _ => True
  | _ => False

/-- Inside a transaction, changes of records only grow the batch. -/
theorem run_edits {txdb after : RawTxDB} {batch : List (WriteBatch.Op Bytes Bytes)} {calls : List Call}
    (active : txdb.activeBatch = some batch) (edits : ∀ call ∈ calls, call.Edits)
    (ran : txdb.run calls = some after) :
    ∃ more, after = { txdb with activeBatch := some more } := by
  induction calls generalizing txdb batch with
  | nil =>
      cases ran
      exact ⟨batch, by rw [← active]⟩
  | cons call calls ih =>
      obtain ⟨middle, stepped, rest⟩ := Option.bind_eq_some_iff.mp ran
      have grown : ∃ more, middle = { txdb with activeBatch := some more } := by
        have edit := edits call List.mem_cons_self
        cases call with
        | write key value =>
            simp only [step, active] at stepped
            split at stepped
            · cases stepped
            · exact ⟨_, (Option.some.inj stepped).symm⟩
        | erase key =>
            simp only [step, active] at stepped
            split at stepped
            · cases stepped
            · exact ⟨_, (Option.some.inj stepped).symm⟩
        | txnBegin => exact edit.elim
        | txnCommit ok => exact edit.elim
        | txnAbort => exact edit.elim
      obtain ⟨more, rfl⟩ := grown
      obtain ⟨final, rfl⟩ := ih rfl (fun call member => edits call (List.mem_cons_of_mem _ member)) rest
      exact ⟨final, rfl⟩

theorem run_append (txdb : RawTxDB) (first second : List Call) :
    txdb.run (first ++ second) = (txdb.run first).bind fun middle => middle.run second := by
  induction first generalizing txdb with
  | nil => rfl
  | cons call calls ih =>
      rw [List.cons_append, run, run, Option.bind_assoc]
      exact congrArg _ (funext fun middle => ih middle)

/-- An aborted transaction leaves the handle as it was when it began. -/
theorem run_aborted {txdb after : RawTxDB} {calls : List Call} (edits : ∀ call ∈ calls, call.Edits)
    (ran : txdb.run (.txnBegin :: (calls ++ [.txnAbort])) = some after) : after = txdb := by
  obtain ⟨begun, stepped, rest⟩ := Option.bind_eq_some_iff.mp ran
  rw [run_append] at rest
  obtain ⟨middle, edited, aborted⟩ := Option.bind_eq_some_iff.mp rest
  simp only [step] at stepped
  split at stepped
  · cases stepped
  rename_i idle
  obtain rfl := Option.some.inj stepped
  obtain ⟨more, rfl⟩ := run_edits rfl edits edited
  obtain rfl := Option.some.inj aborted
  rw [← idle]

/-- After every sequence of calls, `Read` and `Exists` both answer for a key as the contents do
exactly when no pending erase covers a stored record of that key. A transaction that is aborted
leaves every later answer as it was before. -/
theorem database_answers_iff {pdb : Bytes → Option Bytes} {fReadOnly : Bool} {calls : List Call}
    {txdb : RawTxDB} (ran : (opened pdb fReadOnly).run calls = some txdb) :
    (∀ key,
      ((∀ (T : Type) (unserialize : Bytes → Option T),
          txdb.read unserialize key =
            ((calls.foldl Contents.step ⟨pdb, none⟩).lookup key).bind unserialize) ∧
        txdb.existsKey key = ((calls.foldl Contents.step ⟨pdb, none⟩).lookup key).isSome) ↔
      ¬ txdb.ErasedStored key) ∧
    ∀ (edits : List Call) (after : RawTxDB), (∀ call ∈ edits, call.Edits) →
      txdb.run (.txnBegin :: (edits ++ [.txnAbort])) = some after → after = txdb := by
  have contents : txdb.contents = calls.foldl Contents.step ⟨pdb, none⟩ := run_contents ran
  rw [← contents]
  refine ⟨fun key => ?_, fun edits after onlyEdits aborted => run_aborted onlyEdits aborted⟩
  rw [← existsKey_eq_lookup_iff]
  constructor
  · rintro ⟨-, answered⟩
    exact answered
  · intro answered
    exact ⟨fun T unserialize => read_eq_lookup unserialize txdb key, answered⟩

section Concrete

/-- The key of a transaction record: the string `tx` and the hash. -/
def someTxKey : Bytes := 0x02 :: 0x74 :: 0x78 :: List.replicate 32 0

def someStore : Bytes → Option Bytes := fun key => if key = someTxKey then some [0x01] else none

/-- A record read in a transaction that writes it twice, after an aborted erase. -/
theorem database_answers_written :
    ∃ txdb, (opened someStore false).run
        [.txnBegin, .erase someTxKey, .txnAbort, .txnBegin, .write someTxKey [0x02], .write someTxKey [0x03]] =
          some txdb ∧
      txdb.read some someTxKey = some [0x03] ∧ txdb.existsKey someTxKey = true := by
  refine ⟨_, rfl, ?_⟩
  have answers := ((@database_answers_iff someStore false [.txnBegin, .erase someTxKey, .txnAbort, .txnBegin,
    .write someTxKey [0x02], .write someTxKey [0x03]] _ rfl).1 someTxKey).mpr ?_
  · rw [answers.1, answers.2]
    decide
  · rintro ⟨erased, -⟩
    have found := (WriteBatch.scan_eq_erased_iff _ _).mpr erased
    revert found
    decide

/-- A stored record that the open transaction has erased: it cannot be read, and it exists. -/
theorem erased_key_exists :
    ∃ txdb, (opened someStore false).run [.txnBegin, .erase someTxKey] = some txdb ∧
      ([.txnBegin, .erase someTxKey].foldl Contents.step ⟨someStore, none⟩).lookup someTxKey = none ∧
      txdb.read some someTxKey = none ∧ txdb.existsKey someTxKey = true :=
  ⟨_, rfl, by decide, by decide, by decide⟩

end Concrete

end RawTxDB

/-- A serialization of keys and records: distinct keys have distinct bytes, and a record is read
back from its own. -/
structure RecordCodec where
  key : DbKey → Bytes
  value : DbValue → Bytes
  unserialize : Bytes → Option DbValue
  key_injective : Function.Injective key
  unserialize_value : ∀ record, unserialize (value record) = some record

namespace RecordCodec

def op (codec : RecordCodec) : WriteBatch.Op DbKey DbValue → WriteBatch.Op Bytes Bytes
  | .put key value => .put (codec.key key) (codec.value value)
  | .delete key => .delete (codec.key key)

/-- The bytes hold the typed database. -/
structure Holds (codec : RecordCodec) (raw : RawTxDB) (txdb : CTxDB) : Prop where
  writable : raw.fReadOnly = false
  pdb : ∀ key, raw.pdb (codec.key key) = (txdb.pdb key).map codec.value
  activeBatch : raw.activeBatch = txdb.activeBatch.map (List.map codec.op)

variable {codec : RecordCodec} {raw : RawTxDB} {txdb : CTxDB}

/-- A changed record is changed on both levels. -/
theorem update_pdb {stored : Bytes → Option Bytes} {store : DbKey → Option DbValue}
    (same : ∀ key, stored (codec.key key) = (store key).map codec.value) (key : DbKey) (value : Option DbValue)
    (other : DbKey) :
    Function.update stored (codec.key key) (value.map codec.value) (codec.key other) =
      (Function.update store key value other).map codec.value := by
  by_cases here : other = key
  · subst here
    simp
  · rw [Function.update_of_ne (codec.key_injective.ne here), Function.update_of_ne here, same]

theorem replay_pdb {stored : Bytes → Option Bytes} {store : DbKey → Option DbValue}
    (same : ∀ key, stored (codec.key key) = (store key).map codec.value)
    (batch : List (WriteBatch.Op DbKey DbValue)) (key : DbKey) :
    WriteBatch.replay stored (batch.map codec.op) (codec.key key) =
      (WriteBatch.replay store batch key).map codec.value := by
  induction batch generalizing stored store with
  | nil => exact same key
  | cons op rest ih =>
      cases op with
      | put other value => exact ih (update_pdb same other (some value))
      | delete other => exact ih (update_pdb same other none)

theorem Holds.lookup (holds : codec.Holds raw txdb) (key : DbKey) :
    raw.contents.lookup (codec.key key) = (txdb.view key).map codec.value := by
  cases active : txdb.activeBatch with
  | none =>
      have idle : raw.activeBatch = none := by rw [holds.activeBatch, active, Option.map_none]
      rw [RawTxDB.lookup_idle idle, CTxDB.view_of_no_batch active, holds.pdb]
  | some batch =>
      rw [Contents.lookup, RawTxDB.contents, holds.activeBatch, CTxDB.view, active]
      exact replay_pdb holds.pdb batch key

/-- The typed `read` is `Read` on the bytes. -/
theorem Holds.read (holds : codec.Holds raw txdb) (key : DbKey) :
    raw.read codec.unserialize (codec.key key) = txdb.read key := by
  rw [RawTxDB.read_eq_lookup, holds.lookup, CTxDB.read_eq_view]
  cases txdb.view key with
  | none => rfl
  | some record => exact codec.unserialize_value record

theorem Holds.write (holds : codec.Holds raw txdb) (key : DbKey) (value : DbValue) :
    ∃ after, raw.step (.write (codec.key key) (codec.value value)) = some after ∧
      codec.Holds after (txdb.write key value) := by
  obtain ⟨stored, pending, fReadOnly⟩ := raw
  obtain ⟨rfl, pdb, rfl⟩ := holds
  cases active : txdb.activeBatch with
  | none =>
      refine ⟨_, rfl, rfl, ?_, ?_⟩
      · simpa only [CTxDB.write, active, Option.map_some] using update_pdb pdb key (some value)
      · simp [CTxDB.write, active]
  | some batch =>
      refine ⟨_, rfl, rfl, ?_, ?_⟩
      · simpa only [CTxDB.write, active] using pdb
      · simp [CTxDB.write, active, op]

theorem Holds.erase (holds : codec.Holds raw txdb) (key : DbKey) :
    ∃ after, raw.step (.erase (codec.key key)) = some after ∧ codec.Holds after (txdb.erase key) := by
  obtain ⟨stored, pending, fReadOnly⟩ := raw
  obtain ⟨rfl, pdb, rfl⟩ := holds
  cases active : txdb.activeBatch with
  | none =>
      refine ⟨_, rfl, rfl, ?_, ?_⟩
      · simpa only [CTxDB.erase, active, Option.map_none] using update_pdb pdb key none
      · simp [CTxDB.erase, active]
  | some batch =>
      refine ⟨_, rfl, rfl, ?_, ?_⟩
      · simpa only [CTxDB.erase, active] using pdb
      · simp [CTxDB.erase, active, op]

theorem Holds.txnBegin (holds : codec.Holds raw txdb) (idle : txdb.activeBatch = none) :
    ∃ after, raw.step .txnBegin = some after ∧ codec.Holds after txdb.txnBegin := by
  obtain ⟨stored, pending, fReadOnly⟩ := raw
  obtain ⟨rfl, pdb, rfl⟩ := holds
  rw [idle]
  exact ⟨_, rfl, rfl, pdb, rfl⟩

theorem Holds.txnCommit (holds : codec.Holds raw txdb) {batch : List (WriteBatch.Op DbKey DbValue)}
    (active : txdb.activeBatch = some batch) :
    ∃ after, raw.step (.txnCommit txdb.txnCommit.1) = some after ∧ codec.Holds after txdb.txnCommit.2 := by
  obtain ⟨stored, pending, fReadOnly⟩ := raw
  obtain ⟨rfl, pdb, rfl⟩ := holds
  rw [active]
  refine ⟨_, rfl, rfl, ?_, rfl⟩
  intro key
  simp only [CTxDB.txnCommit, active, Option.getD_some]
  split
  · exact replay_pdb pdb batch key
  · exact pdb key

theorem Holds.txnAbort (holds : codec.Holds raw txdb) :
    ∃ after, raw.step .txnAbort = some after ∧ codec.Holds after txdb.txnAbort :=
  ⟨_, rfl, holds.writable, holds.pdb, rfl⟩

end RecordCodec

end InfiniteRicks
