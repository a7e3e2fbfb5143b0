import Formula.Text.Basic

/-!
# Data and the library that puts them into text

Values are exchanged as JSON by a library, which knows data of a few kinds. It writes a datum as a text;
and it reads a text piece by piece, from its beginning on, and shows each piece to the one who asked for
it. The library is not part of the language: what is known of it is stated as laws.

## Main definitions

* `Json.Datum`: what can be written.
* `Json.Event`: a piece of a text that is read.
* `Json.Datum.events`: the pieces that a datum is read as.
* `Json.Library`, `Json.Library.Lawful`: a library and its laws.
* `Json.Library.Marks`, `Json.Library.GivesBack`: what a library may do with a double.
-/

namespace Formula.Json

/-- A datum that is handed over for writing. -/
inductive Datum where
  | boolean (b : Bool)
  | unsigned (n : UInt64)
  | signed (i : Int64)
  | double (x : Float)
  | string (s : String)
  | sequence (items : List Datum)
  | mapping (entries : List (String × Datum))

/-- What is shown of a text, in the order in which it is read. -/
inductive Event where
  | null
  | boolean (b : Bool)
  /-- A number that has no sign, point or exponent, and fits in 64 bits. -/
  | unsigned (n : UInt64)
  /-- A number below zero that has no point or exponent, and fits in 64 bits. -/
  | signed (i : Int64)
  /-- Any other number that is not too large for a double. -/
  | double (x : Float)
  | string (s : String)
  /-- The beginning of a sequence. -/
  | sequence
  /-- The beginning of a mapping. -/
  | mapping
  /-- The key of an entry of a mapping. -/
  | key (s : String)
  /-- The end of a sequence or a mapping. -/
  | close
  /-- The text is no JSON from here on, breaks off, or holds a number that is too large. -/
  | fault
  deriving DecidableEq

/-- Whether the event is an integer. -/
def Event.isWhole : Event → Bool
  | unsigned _ | signed _ => true
  | _ => false

/-- The event as a double; integers widen. -/
def Event.double? : Event → Option Float
  | unsigned n => some (Float.ofNat n.toNat)
  | signed i => some (Float.ofInt i.toInt)
  | double x => some x
  | _ => none

namespace Datum

mutual

/-- The events that a datum is read as. An integer shows no sign if it is not below zero, whatever it
was written from. -/
def events : Datum → List Event
  | boolean b => [.boolean b]
  | unsigned n => [.unsigned n]
  | signed i => if i < 0 then [.signed i] else [.unsigned i.toUInt64]
  | double x => [.double x]
  | string s => [.string s]
  | sequence items => .sequence :: itemEvents items ++ [.close]
  | mapping entries => .mapping :: entryEvents entries ++ [.close]

/-- The events of the items of a sequence. -/
def itemEvents : List Datum → List Event
  | [] => []
  | d :: items => d.events ++ itemEvents items

/-- The events of the entries of a mapping. -/
def entryEvents : List (String × Datum) → List Event
  | [] => []
  | (key, d) :: entries => .key key :: d.events ++ entryEvents entries

end

mutual

/-- Whether there is no double in a datum. -/
def isExact : Datum → Bool
  | double _ => false
  | sequence items => itemsExact items
  | mapping entries => entriesExact entries
  | _ => true

/-- Whether there is no double in the items of a sequence. -/
def itemsExact : List Datum → Bool
  | [] => true
  | d :: items => d.isExact && itemsExact items

/-- Whether there is no double in the entries of a mapping. -/
def entriesExact : List (String × Datum) → Bool
  | [] => true
  | (_, d) :: entries => d.isExact && entriesExact entries

end

mutual

/-- How deep sequences and mappings stand in one another. -/
def depth : Datum → Nat
  | sequence items => itemsDepth items + 1
  | mapping entries => entriesDepth entries + 1
  | _ => 0

/-- The depth of the items of a sequence. -/
def itemsDepth : List Datum → Nat
  | [] => 0
  | d :: items => max d.depth (itemsDepth items)

/-- The depth of the entries of a mapping. -/
def entriesDepth : List (String × Datum) → Nat
  | [] => 0
  | (_, d) :: entries => max d.depth (entriesDepth entries)

end

end Datum

/-- A library that writes data and reads texts. -/
structure Library where
  write : Datum → String
  read : String → List Event

namespace Library

/-- What is known of a library. -/
structure Lawful (l : Library) : Prop where
  /-- A datum without doubles is read as it was written, if it is not nested too deep. -/
  read_write : ∀ d : Datum, d.isExact = true → d.depth < 128 → l.read (l.write d) = d.events
  /-- A number with a point or an exponent is a double, even if it is whole. -/
  isWhole_of_mark : ∀ text event, l.read text = [event] →
    (∃ c ∈ text.toList, c = '.' ∨ c = 'e' ∨ c = 'E') → event.isWhole = false

/-- The double is written with a point or an exponent. -/
def Marks (l : Library) (x : Float) : Prop :=
  ∃ c ∈ (l.write (.double x)).toList, c = '.' ∨ c = 'e' ∨ c = 'E'

/-- The text of the double is one number, and stands for the same double. -/
def GivesBack (l : Library) (x : Float) : Prop :=
  ∃ event, l.read (l.write (.double x)) = [event] ∧ event.double? = some x

end Library

end Formula.Json
