import Formula.Proofs.Value.Events
import Formula.Value.Json

/-!
# Values written and read back

Each kind of value has a form of its own in data exchange text. A value is read back as the same value
of the same type, whatever library reads and writes the text, as long as that keeps its laws: an integer
is handed over with its sign and read with or without one, as an integer both times; a double has a
point or an exponent, so that it is not taken for an integer; and a byte array stands in a mapping.

A double comes back as itself if the library gives it back. The library in use does not always: its
reader of numbers may miss the nearest double when there are many digits.

## Main results

* `Value.ofJson_toJson`: a value that is written and read is the same value.
-/

namespace Formula

open Json

/-! ### Values as data -/

namespace Value

/-- An integer that shows no sign is read as itself. -/
theorem ofUnsigned_toUInt64 {i : Int64} (h : 0 ≤ i.toInt) : ofUnsigned i.toUInt64 = .integer i := by
  rw [ofUnsigned, Word.toNat_toUInt64 h, Word.ofInt?_toInt]

@[simp]
theorem ofEvents_unsigned (n : UInt64) (rest : List Event) :
    ofEvents (.unsigned n :: rest) = .ok (ofUnsigned n, rest) := rfl

@[simp]
theorem ofEvents_mapping (rest : List Event) :
    ofEvents (.mapping :: rest) =
      (readBytesMapping rest).map fun (bs, rest) => (.bytes bs, rest) := rfl

/-- The bytes of a sequence are read up to its end. -/
theorem readBytes_itemEvents (bs : Bytes) (rest : List Event) :
    readBytes (Datum.itemEvents (bs.map fun b => .unsigned b.toUInt64) ++ .close :: rest) =
      .ok (bs, rest) := by
  induction bs with
  | nil => rfl
  | cons b bs ih =>
    have hbyte : Event.byte (.unsigned b.toUInt64) = .ok b := by
      simp [Event.byte, b.toNat_lt]
    rw [List.map_cons, Datum.itemEvents, Datum.events, List.singleton_append, List.cons_append,
      readBytes, hbyte, ih]
    · rfl
    · exact fun h => by cases h

/-- What a value is handed over as is read as the same value, but for a double. -/
theorem ofEvents_datum (v : Value) : ofEvents v.datum.events = .ok (v, []) := by
  cases v with
  | boolean b => rfl
  | integer i =>
    rw [datum, Datum.events]
    split
    · rfl
    · next hpos =>
      rw [ofEvents_unsigned, ofUnsigned_toUInt64 (by simpa [Int64.lt_iff_toInt_lt] using hpos)]
  | numeric x => rfl
  | string s => rfl
  | bytes bs =>
    have hread := readBytes_itemEvents bs [.close]
    simp only [datum, Datum.events, Datum.entryEvents, List.append_nil, List.nil_append,
      List.cons_append, List.append_assoc, ofEvents_mapping, readBytesMapping, hread]
    rfl

theorem isExact_datum {v : Value} (h : ∀ x, v ≠ .numeric x) : v.datum.isExact = true := by
  cases v with
  | numeric x => exact absurd rfl (h x)
  | bytes bs =>
    have hitems : Datum.itemsExact (bs.map fun b => .unsigned b.toUInt64) = true := by
      induction bs with
      | nil => rfl
      | cons b bs ih => exact ih fun x => by simp
    simp [datum, Datum.isExact, Datum.entriesExact, hitems]
  | _ => rfl

theorem depth_datum (v : Value) : v.datum.depth ≤ 2 := by
  cases v with
  | bytes bs =>
    have hitems : Datum.itemsDepth (bs.map fun b => .unsigned b.toUInt64) = 0 := by
      induction bs with
      | nil => rfl
      | cons b bs ih => simp [Datum.itemsDepth, Datum.depth, ih]
    simp [datum, Datum.depth, Datum.entriesDepth, hitems]
  | _ => exact Nat.zero_le 2

/-- A value that is written and read is the same value, of the same type. A double must be written with
a point or an exponent, and given back by the library. -/
theorem ofJson_toJson {l : Library} (hl : l.Lawful) (v : Value)
    (hnumeric : ∀ x, v = .numeric x → l.Marks x ∧ l.GivesBack x) :
    l.ofJson (l.toJson v) = .ok v := by
  have hread : l.read (l.toJson v) = v.datum.events := by
    by_cases hdouble : ∃ x, v = .numeric x
    · obtain ⟨x, rfl⟩ := hdouble
      obtain ⟨hmarks, event, hevent, hx⟩ := hnumeric x rfl
      have hwhole := hl.isWhole_of_mark _ event hevent hmarks
      have hsame : event = .double x := by
        cases event with
        | double y => exact congrArg _ (Option.some.inj hx)
        | unsigned n => cases hwhole
        | signed i => cases hwhole
        | _ => cases hx
      rw [hsame] at hevent
      exact hevent
    · exact hl.read_write _ (isExact_datum fun x h => hdouble ⟨x, h⟩)
        ((depth_datum v).trans_lt (by decide))
  rw [Library.ofJson, hread, ofEvents_datum]

theorem ofJson_toJson_tenth :
    Library.standard.Lawful ∧
      (∀ x, Value.numeric 0.1 = .numeric x →
        Library.standard.Marks x ∧ Library.standard.GivesBack x) ∧
      ofJson (Value.numeric 0.1).toJson = .ok (.numeric 0.1) := by
  have hnumeric : ∀ x, Value.numeric 0.1 = .numeric x →
      Library.standard.Marks x ∧ Library.standard.GivesBack x := by
    rintro x ⟨⟩
    exact ⟨Library.marks_standard (by decide +kernel), .double 0.1, by decide +kernel, rfl⟩
  exact ⟨Library.lawful_standard, hnumeric, ofJson_toJson Library.lawful_standard _ hnumeric⟩

end Value

end Formula
