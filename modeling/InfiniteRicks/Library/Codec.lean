import Mathlib.Data.List.Basic

/-!
# Readers and writers of byte formats

A reader takes a value from the front of a source of bytes and fails otherwise. A
source may have room for only so many bytes more before its position is no longer
exact, so the laws are about values that fit. `Lawful` says that a reader and a writer
are of one format: what is written can be read back whatever follows it, and only
what the writer writes is accepted. The format of a record is put together from the
formats of its fields with `field` and `last`, that of a vector with `repeated`.
`Restores` is the half of the laws that is left for one value where more than what the
writer writes is accepted, and `PrefixCode` what is left where there is only a writer.
-/

namespace InfiniteRicks.Library.Codec

/-- What a reader sees of its source. -/
structure Source (σ : Type) where
  remaining : σ → List UInt8
  room : σ → Nat

/-- Take a value from a source. -/
abbrev Reader (σ α : Type) := StateT σ Option α

/-- The reader and the writer are of one format, whose values are the valid ones. -/
structure Lawful {σ α : Type} (source : Source σ) (valid : α → Prop) (write : α → List UInt8)
    (read : Reader σ α) : Prop where
  /-- A written value is read back, and what follows it is left. -/
  reads : ∀ {value s rest}, valid value → source.remaining s = write value ++ rest →
    (write value).length ≤ source.room s →
    ∃ after, read s = some (value, after) ∧ source.remaining after = rest ∧
      source.room s ≤ source.room after + (write value).length
  accepts : ∀ {value s after}, read s = some (value, after) → valid value
  /-- Whatever is read was written. -/
  canonical : ∀ {value s after}, read s = some (value, after) → (write value).length ≤ source.room s →
    source.remaining s = write value ++ source.remaining after ∧
      source.room s ≤ source.room after + (write value).length

variable {σ α β : Type} {source : Source σ} {valid : α → Prop} {write : α → List UInt8} {read : Reader σ α}
  {known : β → Prop}

/-- The same format described in other words. -/
theorem Lawful.congr {valid' : α → Prop} {write' : α → List UInt8} (lawful : Lawful source valid write read)
    (same : ∀ value, valid value ↔ valid' value) (written : ∀ value, valid value → write value = write' value) :
    Lawful source valid' write' read := by
  obtain rfl : valid = valid' := funext fun value => propext (same value)
  constructor
  · intro value s rest isValid
    rw [← written value isValid]
    exact lawful.reads isValid
  · exact lawful.accepts
  · intro value s after done
    rw [← written value (lawful.accepts done)]
    exact lawful.canonical done

/-- Nothing is left to read of a record that is known. -/
theorem Lawful.done (value : β) (same : ∀ record, known record ↔ record = value) :
    Lawful source known (fun _ => []) (pure value) := by
  constructor
  · intro record s rest isKnown shape _
    obtain rfl := (same record).mp isKnown
    exact ⟨s, rfl, shape, Nat.le_add_right _ _⟩
  · intro record s after done
    cases done
    exact (same value).mpr rfl
  · intro record s after done _
    cases done
    exact ⟨rfl, Nat.le_add_right _ _⟩

/-- A record begins with a field, and the rest is a format of the records with that field. -/
theorem Lawful.field (proj : β → α) {writeRest : β → List UInt8} {next : α → Reader σ β}
    (first : Lawful source valid write read) (fieldValid : ∀ record, known record → valid (proj record))
    (rest : ∀ value, valid value →
      Lawful source (fun record => known record ∧ proj record = value) writeRest (next value)) :
    Lawful source known (fun record => write (proj record) ++ writeRest record) (read >>= next) := by
  have split : ∀ {record s after}, (read >>= next) s = some (record, after) →
      ∃ middle, read s = some (proj record, middle) ∧ next (proj record) middle = some (record, after) ∧
        valid (proj record) ∧ known record := by
    intro record s after done
    obtain ⟨⟨value, middle⟩, head, tail⟩ := Option.bind_eq_some_iff.mp done
    have isValid := first.accepts head
    obtain ⟨isKnown, rfl⟩ := (rest value isValid).accepts tail
    exact ⟨middle, head, tail, isValid, isKnown⟩
  constructor
  · intro record s tail isKnown shape fits
    have isValid := fieldValid record isKnown
    rw [List.append_assoc] at shape
    rw [List.length_append] at fits
    obtain ⟨middle, head, left, room⟩ := first.reads isValid shape (by omega)
    obtain ⟨after, more, remaining, final⟩ := (rest _ isValid).reads ⟨isKnown, rfl⟩ left (by omega)
    refine ⟨after, Option.bind_eq_some_iff.mpr ⟨_, head, more⟩, remaining, ?_⟩
    rw [List.length_append]
    omega
  · intro record s after done
    obtain ⟨middle, -, -, -, isKnown⟩ := split done
    exact isKnown
  · intro record s after done fits
    obtain ⟨middle, head, tail, isValid, -⟩ := split done
    rw [List.length_append] at fits ⊢
    obtain ⟨shape, room⟩ := first.canonical head (by omega)
    obtain ⟨left, final⟩ := (rest _ isValid).canonical tail (by omega)
    exact ⟨by rw [shape, left, List.append_assoc], by omega⟩

/-- The last field of a record. -/
theorem Lawful.last (proj : β → α) {build : α → β} (first : Lawful source valid write read)
    (fieldValid : ∀ record, known record → valid (proj record))
    (same : ∀ value, valid value → ∀ record, known record ∧ proj record = value ↔ record = build value) :
    Lawful source known (fun record => write (proj record)) (read >>= fun value => pure (build value)) :=
  (first.field proj fieldValid fun value isValid => .done (build value) (same value isValid)).congr
    (fun _ => Iff.rfl) fun _ _ => List.append_nil _

/-- A value that a later check can refuse. -/
theorem Lawful.checked (lawful : Lawful source valid write read) (refused : α → Prop) [DecidablePred refused] :
    Lawful source (fun value => valid value ∧ ¬ refused value) write
      (read >>= fun value => if refused value then failure else pure value) := by
  have split : ∀ {value s after},
      (read >>= fun value => if refused value then failure else pure value) s = some (value, after) →
        read s = some (value, after) ∧ ¬ refused value := by
    intro value s after done
    obtain ⟨⟨found, middle⟩, head, tail⟩ := Option.bind_eq_some_iff.mp done
    by_cases bad : refused found
    · simp only [bad, if_true] at tail
      cases tail
    · simp only [bad, if_false] at tail
      cases tail
      exact ⟨head, bad⟩
  constructor
  · rintro value s rest ⟨isValid, fine⟩ shape fits
    obtain ⟨after, done, left⟩ := lawful.reads isValid shape fits
    refine ⟨after, Option.bind_eq_some_iff.mpr ⟨_, done, ?_⟩, left⟩
    simp only [fine, if_false]
    rfl
  · intro value s after done
    exact ⟨lawful.accepts (split done).1, (split done).2⟩
  · intro value s after done
    exact lawful.canonical (split done).1

/-- Read a number of values one after the other. -/
def repeated (read : Reader σ α) : Nat → Reader σ (List α)
  | 0 => pure []
  | count + 1 => do
      let value ← read
      let values ← repeated read count
      return value :: values

/-- What holds of every value that a reader returns holds of those that it returns one after the other. -/
theorem repeated_post {post : α → Prop} (each : ∀ {s value after}, read s = some (value, after) → post value)
    {count : Nat} {s after : σ} {values : List α} (done : repeated read count s = some (values, after)) :
    values.length = count ∧ ∀ value ∈ values, post value := by
  induction count generalizing s values with
  | zero =>
      cases done
      exact ⟨rfl, List.forall_mem_nil _⟩
  | succ count ih =>
      obtain ⟨⟨value, middle⟩, head, more⟩ := Option.bind_eq_some_iff.mp done
      obtain ⟨⟨rest, last⟩, tail, ended⟩ := Option.bind_eq_some_iff.mp more
      cases ended
      obtain ⟨length, others⟩ := ih tail
      exact ⟨congrArg Nat.succ length, List.forall_mem_cons.mpr ⟨each head, others⟩⟩

/-- A vector of known length. -/
theorem Lawful.repeated (lawful : Lawful source valid write read) (count : Nat) :
    Lawful source (fun values => (∀ value ∈ values, valid value) ∧ values.length = count)
      (fun values => values.flatMap write) (Codec.repeated read count) := by
  induction count with
  | zero =>
      constructor
      · rintro values s rest ⟨-, empty⟩ shape -
        obtain rfl := List.length_eq_zero_iff.mp empty
        exact ⟨s, rfl, shape, Nat.le_add_right _ _⟩
      · intro values s after read
        cases read
        exact ⟨by simp, rfl⟩
      · intro values s after read _
        cases read
        exact ⟨rfl, Nat.le_add_right _ _⟩
  | succ count ih =>
      have split : ∀ {values s after}, Codec.repeated read (count + 1) s = some (values, after) →
          ∃ value rest middle, values = value :: rest ∧ read s = some (value, middle) ∧
            Codec.repeated read count middle = some (rest, after) := by
        intro values s after done
        obtain ⟨⟨value, middle⟩, head, more⟩ := Option.bind_eq_some_iff.mp done
        obtain ⟨⟨rest, last⟩, tail, ended⟩ := Option.bind_eq_some_iff.mp more
        cases ended
        exact ⟨value, rest, middle, rfl, head, tail⟩
      constructor
      · rintro values s rest ⟨isValid, length⟩ shape fits
        obtain ⟨value, values, rfl⟩ := List.exists_cons_of_length_eq_add_one length
        rw [List.flatMap_cons, List.append_assoc] at shape
        rw [List.flatMap_cons, List.length_append] at fits ⊢
        obtain ⟨middle, head, left, room⟩ := lawful.reads (isValid value List.mem_cons_self) shape (by omega)
        obtain ⟨after, tail, remaining, final⟩ :=
          ih.reads ⟨fun other member => isValid other (List.mem_cons_of_mem _ member), by simpa using length⟩
            left (by omega)
        refine ⟨after, ?_, remaining, by omega⟩
        exact Option.bind_eq_some_iff.mpr ⟨_, head, Option.bind_eq_some_iff.mpr ⟨_, tail, rfl⟩⟩
      · intro values s after done
        obtain ⟨value, rest, middle, rfl, head, tail⟩ := split done
        obtain ⟨isValid, length⟩ := ih.accepts tail
        refine ⟨?_, by simp [length]⟩
        intro other member
        rcases List.mem_cons.mp member with rfl | later
        · exact lawful.accepts head
        · exact isValid other later
      · intro values s after done fits
        obtain ⟨value, rest, middle, rfl, head, tail⟩ := split done
        rw [List.flatMap_cons, List.length_append] at fits ⊢
        obtain ⟨shape, room⟩ := lawful.canonical head (by omega)
        obtain ⟨left, final⟩ := ih.canonical tail (by omega)
        exact ⟨by rw [shape, left, List.append_assoc], by omega⟩

/-- From a source that begins with the bytes the reader takes just them, and it returns the value. -/
def Restores (source : Source σ) (bytes : List UInt8) (read : Reader σ α) (value : α) : Prop :=
  ∀ ⦃s rest⦄, source.remaining s = bytes ++ rest → bytes.length ≤ source.room s →
    ∃ after, read s = some (value, after) ∧ source.remaining after = rest ∧
      source.room s ≤ source.room after + bytes.length

theorem Lawful.restores (lawful : Lawful source valid write read) {value : α} (isValid : valid value) :
    Restores source (write value) read value := fun _ _ shape fits => lawful.reads isValid shape fits

theorem Restores.pure (value : α) : Restores source [] (Pure.pure value) value :=
  fun s _ shape _ => ⟨s, rfl, shape, Nat.le_add_right _ _⟩

/-- A step that takes nothing from the source. -/
theorem Restores.lift {result : Option α} {value : α} (done : result = some value) :
    Restores source [] (StateT.lift result) value := by
  subst done
  exact Restores.pure value

/-- A record begins with what its first reader takes. -/
theorem Restores.bind {first more : List UInt8} {value : α} {record : β} {next : α → Reader σ β}
    (head : Restores source first read value) (tail : Restores source more (next value) record) :
    Restores source (first ++ more) (read >>= next) record := by
  intro s rest shape fits
  rw [List.append_assoc] at shape
  rw [List.length_append] at fits ⊢
  obtain ⟨middle, done, left, room⟩ := head shape (by omega)
  obtain ⟨after, again, remaining, final⟩ := tail left (by omega)
  exact ⟨after, Option.bind_eq_some_iff.mpr ⟨_, done, again⟩, remaining, by omega⟩

/-- The last reader of a record. -/
theorem Restores.map {bytes : List UInt8} {value : α} {build : α → β} (head : Restores source bytes read value) :
    Restores source bytes (read >>= fun value => Pure.pure (build value)) (build value) := by
  have whole : Restores source (bytes ++ []) (read >>= fun value => Pure.pure (build value)) (build value) :=
    head.bind (Restores.pure _)
  rwa [List.append_nil] at whole

/-- Values one after the other, each in the form in which it is read back. -/
theorem Restores.repeated {write : β → List UInt8} {image : β → α} {values : List β}
    (each : ∀ value ∈ values, Restores source (write value) read (image value)) :
    Restores source (values.flatMap write) (Codec.repeated read values.length) (values.map image) := by
  induction values with
  | nil => exact Restores.pure []
  | cons value rest ih =>
      obtain ⟨first, others⟩ := List.forall_mem_cons.mp each
      rw [List.flatMap_cons]
      exact first.bind (ih others).map

/-- Written values are not confused, whatever follows them. -/
def PrefixCode (valid : α → Prop) (write : α → List UInt8) : Prop :=
  ∀ ⦃left right rest rest'⦄, valid left → valid right → write left ++ rest = write right ++ rest' →
    left = right ∧ rest = rest'

/-- Values of one width are told apart by their bytes. -/
theorem PrefixCode.fixed (width : Nat) (length : ∀ value, (write value).length = width)
    (injective : ∀ left right, valid left → valid right → write left = write right → left = right) :
    PrefixCode valid write := by
  intro left right rest rest' leftValid rightValid same
  obtain ⟨written, left'⟩ := List.append_inj same (by rw [length, length])
  exact ⟨injective left right leftValid rightValid written, left'⟩

/-- A record begins with a field, and the records with that field are told apart by the rest. -/
theorem PrefixCode.field (proj : β → α) {writeRest : β → List UInt8} (first : PrefixCode valid write)
    (fieldValid : ∀ record, known record → valid (proj record))
    (rest : ∀ value, PrefixCode (fun record => known record ∧ proj record = value) writeRest) :
    PrefixCode known (fun record => write (proj record) ++ writeRest record) := by
  intro left right tail tail' leftKnown rightKnown same
  simp only [List.append_assoc] at same
  obtain ⟨head, more⟩ := first (fieldValid left leftKnown) (fieldValid right rightKnown) same
  exact rest (proj right) ⟨leftKnown, head⟩ ⟨rightKnown, rfl⟩ more

theorem PrefixCode.last (proj : β → α) (first : PrefixCode valid write)
    (fieldValid : ∀ record, known record → valid (proj record))
    (determined : ∀ left right, known left → known right → proj left = proj right → left = right) :
    PrefixCode known (fun record => write (proj record)) := by
  intro left right tail tail' leftKnown rightKnown same
  obtain ⟨head, more⟩ := first (fieldValid left leftKnown) (fieldValid right rightKnown) same
  exact ⟨determined left right leftKnown rightKnown head, more⟩

theorem PrefixCode.repeated (code : PrefixCode valid write) (count : Nat) :
    PrefixCode (fun values : List α => (∀ value ∈ values, valid value) ∧ values.length = count)
      (fun values => values.flatMap write) := by
  induction count with
  | zero =>
      rintro left right rest rest' ⟨-, leftEmpty⟩ ⟨-, rightEmpty⟩ same
      obtain rfl := List.length_eq_zero_iff.mp leftEmpty
      obtain rfl := List.length_eq_zero_iff.mp rightEmpty
      exact ⟨rfl, same⟩
  | succ count ih =>
      rintro left right rest rest' ⟨leftValid, leftLength⟩ ⟨rightValid, rightLength⟩ same
      obtain ⟨first, left, rfl⟩ := List.exists_cons_of_length_eq_add_one leftLength
      obtain ⟨second, right, rfl⟩ := List.exists_cons_of_length_eq_add_one rightLength
      simp only [List.flatMap_cons, List.append_assoc] at same
      obtain ⟨rfl, more⟩ := code (leftValid _ List.mem_cons_self) (rightValid _ List.mem_cons_self) same
      obtain ⟨rfl, last⟩ := ih ⟨fun value member => leftValid value (List.mem_cons_of_mem _ member),
        by simpa using leftLength⟩ ⟨fun value member => rightValid value (List.mem_cons_of_mem _ member),
        by simpa using rightLength⟩ more
      exact ⟨rfl, last⟩

end InfiniteRicks.Library.Codec
