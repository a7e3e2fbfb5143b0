import Formula.Decimal.Layout
import Formula.Json.Datum
import Formula.Json.Token
import Formula.Json.Write
import Formula.Value.Basic

/-!
# A library for data exchange text

The library in use. It writes data without any white space; a whole double keeps a fraction, so that it
comes back as a double. Reading follows the tokens of the text and stops at the first one that cannot
stand at its place.

## Main definitions

* `Json.Datum.write`: writes a datum.
* `Json.eventsOf`: the events of a text that is given by its tokens.
* `Json.Library.standard`: both.
-/

namespace Formula.Json

/-! ## Writing -/

namespace Datum

mutual

/-- Writes a datum. -/
def write : Datum → Text
  | boolean b => (if b then "true" else "false").toList
  | unsigned n => Nat.toDigits 10 n.toNat
  | signed i => Value.integerText i.toInt
  | double x => if x.isFinite then Decimal.write Decimal.exchange x else "null".toList
  | string s => writeString s
  | sequence items => '[' :: writeItems items ++ [']']
  | mapping entries => '\x7b' :: writeEntries entries ++ ['\x7d']

/-- Writes the items of a sequence, with commas between them. -/
def writeItems : List Datum → Text
  | [] => []
  | d :: items => d.write ++ writeMoreItems items

/-- Writes the items that follow an item. -/
def writeMoreItems : List Datum → Text
  | [] => []
  | d :: items => ',' :: d.write ++ writeMoreItems items

/-- Writes the entries of a mapping, with commas between them. -/
def writeEntries : List (String × Datum) → Text
  | [] => []
  | (key, d) :: entries => writeString key ++ ':' :: d.write ++ writeMoreEntries entries

/-- Writes the entries that follow an entry. -/
def writeMoreEntries : List (String × Datum) → Text
  | [] => []
  | (key, d) :: entries => ',' :: writeString key ++ ':' :: d.write ++ writeMoreEntries entries

end

end Datum

/-! ## Reading -/

/-- What a place in a text lies in. -/
inductive Frame where
  | sequence
  | mapping
  deriving DecidableEq

/-- What may come next in a text. -/
inductive Place where
  /-- A datum; if it would be the first of its sequence, also the end of that. -/
  | item (first : Bool)
  /-- A key; if it would be the first of its mapping, also the end of that. -/
  | key (first : Bool)
  /-- The colon behind a key. -/
  | colon
  /-- What follows a datum: the end of the text, or a comma or the end of what it lies in. -/
  | after
  deriving DecidableEq

/-- The event of a token that a datum starts with, and what the datum is if it goes on. -/
def Token.start? : Token → Option (Event × Option Frame)
  | null => some (.null, none)
  | boolean b => some (.boolean b, none)
  | number (.natural n) => some (.unsigned (UInt64.ofNat n), none)
  | number (.negative i) => some (.signed (Int64.ofInt i), none)
  | number (.double x) => some (.double x, none)
  | string (some s) => some (.string s, none)
  | leftBracket => some (.sequence, some .sequence)
  | leftBrace => some (.mapping, some .mapping)
  | _ => none

/-- Whether a token is the end of what the place lies in. -/
def Token.closes (token : Token) (place : Place) (frames : List Frame) : Bool :=
  match token, place, frames with
  | rightBracket, .item true, _ => true
  | rightBracket, .after, .sequence :: _ => true
  | rightBrace, .key true, _ => true
  | rightBrace, .after, .mapping :: _ => true
  | _, _, _ => false

/-- The first place of a datum that has been started. -/
def Frame.firstPlace : Frame → Place
  | sequence => .item true
  | mapping => .key true

/-- The events of a text, given by its tokens, from a place on. The frames are what the place lies in,
from the inside out. -/
def eventsFrom (place : Place) (frames : List Frame) : List Token → List Event
  | [] => if place = .after ∧ frames = [] then [] else [.fault]
  | token :: rest =>
    if token.closes place frames then .close :: eventsFrom .after frames.tail rest
    else
      match place, token, frames with
      | .item _, token, frames =>
        match token.start? with
        | none => [.fault]
        | some (event, none) => event :: eventsFrom .after frames rest
        | some (event, some frame) =>
          event :: eventsFrom frame.firstPlace (frame :: frames) rest
      | .key _, .string (some s), frames => .key s :: eventsFrom .colon frames rest
      | .colon, .colon, frames => eventsFrom (.item false) frames rest
      | .after, .comma, .sequence :: frames =>
        eventsFrom (.item false) (.sequence :: frames) rest
      | .after, .comma, .mapping :: frames =>
        eventsFrom (.key false) (.mapping :: frames) rest
      | _, _, _ => [.fault]

/-- The events of a text that holds one datum and nothing else. -/
def eventsOf (text : Text) : List Event :=
  eventsFrom (.item false) [] (tokens text)

/-- The library in use. -/
def Library.standard : Library where
  write d := String.ofList d.write
  read text := eventsOf text.toList

end Formula.Json
