import Formula.Json.Text
import Formula.Value.Basic
import Formula.Word

/-!
# Values in data exchange text

Truth values, numbers and strings are handed over as themselves, a byte array as a mapping with one
entry `bytes!`. When reading, a plain sequence also stands for a byte array. An integer is read as an
integer wherever it fits, and as a double otherwise.

## Main definitions

* `Value.datum`: what a value is handed over as.
* `Value.ofEvents`: the value that a text shows, or whether the text is no JSON or JSON of another
  shape, whichever shows first.
* `Json.Library.toJson`, `Json.Library.ofJson`: values in the text of a library.
-/

namespace Formula

namespace Json

/-- Why a text does not give a value. -/
inductive Fault where
  /-- The text breaks off or is no JSON. -/
  | malformed
  /-- The text is JSON of another shape. -/
  | shape
  deriving DecidableEq

/-- The key of the entry that holds a byte array. -/
def bytesKey : String := "bytes!"

/-- What is wrong with an event that does not fit. -/
def Event.misfit : Event → Fault
  | fault | key _ | close => .malformed
  | _ => .shape

/-- Reads a byte. -/
def Event.byte (event : Event) : Except Fault UInt8 :=
  match event with
  | unsigned n => if n.toNat < 256 then .ok n.toUInt8 else .error .shape
  | event => .error event.misfit

/-- Reads bytes up to the end of a sequence. -/
def readBytes : List Event → Except Fault (Bytes × List Event)
  | [] => .error .malformed
  | .close :: rest => .ok ([], rest)
  | event :: rest => do
    let b ← event.byte
    let (bs, rest) ← readBytes rest
    return (b :: bs, rest)

/-- Reads a mapping that holds a byte array. Its key is looked at when its bytes have been read. -/
def readBytesMapping : List Event → Except Fault (Bytes × List Event)
  | .close :: _ => .error .shape
  | .key key :: .sequence :: rest => do
    let (bs, rest) ← readBytes rest
    if key ≠ bytesKey then throw .shape
    match rest with
    | .close :: rest => return (bs, rest)
    | _ => throw .malformed
  | .key _ :: event :: _ => .error event.misfit
  | _ => .error .malformed

end Json

namespace Value

open Json

/-- What a value is handed over as. -/
def datum : Value → Datum
  | boolean b => .boolean b
  | integer i => .signed i
  | numeric x => .double x
  | string s => .string s
  | bytes bs => .mapping [(bytesKey, .sequence (bs.map fun b => .unsigned b.toUInt64))]

/-- The value of a number that shows no sign. -/
def ofUnsigned (n : UInt64) : Value :=
  match Word.ofInt? n.toNat with
  | some i => .integer i
  | none => .numeric (Float.ofNat n.toNat)

/-- Reads a value off the front of the events. -/
def ofEvents : List Event → Except Fault (Value × List Event)
  | [] => .error .malformed
  | event :: rest =>
    match event with
    | .boolean b => .ok (.boolean b, rest)
    | .unsigned n => .ok (.ofUnsigned n, rest)
    | .signed i => .ok (.integer i, rest)
    | .double x => .ok (.numeric x, rest)
    | .string s => .ok (.string s, rest)
    | .sequence => (readBytes rest).map fun (bs, rest) => (.bytes bs, rest)
    | .mapping => (readBytesMapping rest).map fun (bs, rest) => (.bytes bs, rest)
    | event => .error event.misfit

end Value

namespace Json.Library

/-- Writes a value. -/
def toJson (l : Library) (v : Value) : String :=
  l.write v.datum

/-- Reads a value from a text that holds nothing else. -/
def ofJson (l : Library) (text : String) : Except Fault Value :=
  match Value.ofEvents (l.read text) with
  | .ok (v, []) => .ok v
  | .ok (_, _) => .error .malformed
  | .error fault => .error fault

end Json.Library

namespace Value

/-- Writes a value with the library in use. -/
def toJson (v : Value) : String :=
  Json.Library.standard.toJson v

/-- Reads a value with the library in use. -/
def ofJson (text : String) : Except Json.Fault Value :=
  Json.Library.standard.ofJson text

end Value

end Formula
