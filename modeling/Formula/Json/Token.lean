import Formula.Text.Basic

/-!
# Tokens of data exchange text

The lexical level of JSON: brackets, literals, numbers and strings. Reading stops at the first
character that starts no token, which shows as a token of its own.

A number is read in one pass over its digits: the leading digits that fit in 64 bits are scaled
by a power of ten in double arithmetic, so a long number may miss the nearest double.

## Main definitions

* `Json.Number`, `Json.Token`: what can be read.
* `Json.tokens`: the tokens of a text.
-/

namespace Formula.Json

/-- A number, by what it fits into. -/
inductive Number where
  /-- A number without sign, below `2 ^ 64`. -/
  | natural (n : Nat)
  /-- An integer below zero, from `-2 ^ 63` on. -/
  | negative (i : Int)
  | double (x : Float)
  /-- A number beyond the doubles. -/
  | outOfRange
  deriving DecidableEq

/-- A token. -/
inductive Token where
  | leftBrace
  | rightBrace
  | leftBracket
  | rightBracket
  | colon
  | comma
  | null
  | boolean (b : Bool)
  | number (n : Number)
  /-- A string; nothing if it holds half of a surrogate pair. -/
  | string (s : Option String)
  /-- A place where no token starts. -/
  | bad
  deriving DecidableEq

/-! ## Numbers -/

/-- Reads digits into `n` while the number stays below `2 ^ 64`. Returns the number and how many
digits were taken and left. -/
def gather : Nat → Text → Nat × Nat × Nat
  | n, [] => (n, 0, 0)
  | n, c :: digits =>
    let next := n * 10 + (c.toNat - '0'.toNat)
    if next < UInt64.size then
      let (m, taken, left) := gather next digits
      (m, taken + 1, left)
    else (n, 0, digits.length + 1)

/-- The double `10 ^ k`. -/
def powerOfTen (k : Nat) : Float :=
  Float.ofScientific 1 false k

/-- Scales `n` by `10 ^ e` in double arithmetic, dividing twice for the smallest numbers. -/
def scale (negative : Bool) (n : Nat) (e : Int) : Number :=
  let x := Float.ofNat n
  let signed (y : Float) : Number := .double (if negative then -y else y)
  match e with
  | .ofNat k =>
    if k ≤ 308 then
      let y := x * powerOfTen k
      if y.isInf then .outOfRange else signed y
    else if n = 0 then signed 0 else .outOfRange
  | .negSucc k =>
    let k := k + 1
    if k ≤ 308 then signed (x / powerOfTen k)
    else if k ≤ 616 then signed (x / powerOfTen 308 / powerOfTen (k - 308))
    else signed 0

/-- A number without fraction and exponent. -/
def wholeNumber (negative : Bool) (digits : Text) : Number :=
  match gather 0 digits with
  | (n, _, 0) =>
    if !negative then .natural n
    else if 0 < n ∧ Int64.minValue.toInt ≤ -(n : Int) then .negative (-(n : Int))
    else .double (-(Float.ofNat n))
  | (n, _, left) => scale negative n left

/-- A number with a fraction, an exponent or both. -/
def realNumber (negative : Bool) (whole fraction : Text) (exponent : Int) : Number :=
  let (n, _, left) := gather 0 whole
  let (m, taken, _) := gather n fraction
  scale negative m (left - taken + exponent)

/-- Reads an exponent, if one starts here: its value and the rest. -/
def readExponent? : Text → Option (Option Int × Text)
  | [] => some (none, [])
  | c :: rest =>
    if c = 'e' ∨ c = 'E' then
      let (negative, rest) := match rest with
        | '-' :: tail => (true, tail)
        | '+' :: tail => (false, tail)
        | tail => (false, tail)
      let digits := rest.takeWhile Char.isDigit
      if digits = [] then none
      else
        let n : Nat := digits.foldl (fun n d => n * 10 + (d.toNat - '0'.toNat)) 0
        some (some (if negative then -(n : Int) else n), rest.dropWhile Char.isDigit)
    else some (none, c :: rest)

/-- Reads an unsigned number: its kind and the rest. -/
def readNumber? (negative : Bool) (text : Text) : Option (Number × Text) := do
  let whole := text.takeWhile Char.isDigit
  let rest := text.dropWhile Char.isDigit
  if whole = [] ∨ (whole.head? = some '0' ∧ 1 < whole.length) then none
  let (fraction, rest) ← match rest with
    | '.' :: tail =>
      let digits := tail.takeWhile Char.isDigit
      if digits = [] then none else some (some digits, tail.dropWhile Char.isDigit)
    | rest => some (none, rest)
  let (exponent, rest) ← readExponent? rest
  match fraction, exponent with
  | none, none => return (wholeNumber negative whole, rest)
  | fraction, exponent =>
    return (realNumber negative whole (fraction.getD []) (exponent.getD 0), rest)

/-! ## Strings -/

/-- The value of a hexadecimal digit. -/
def hexDigit? (c : Char) : Option Nat :=
  if c.isDigit then some (c.toNat - 48)
  else if 'a' ≤ c ∧ c ≤ 'f' then some (c.toNat - 87)
  else if 'A' ≤ c ∧ c ≤ 'F' then some (c.toNat - 55)
  else none

/-- The value of four hexadecimal digits. -/
def hexUnit? (a b c d : Char) : Option Nat := do
  return ((← hexDigit? a) * 16 + (← hexDigit? b)) * 256 + (← hexDigit? c) * 16 + (← hexDigit? d)

/-- The character a single-letter escape stands for. -/
def escaped? (c : Char) : Option Char :=
  match c with
  | '"' => some '"'
  | '\\' => some '\\'
  | '/' => some '/'
  | 'b' => some (Char.ofNat 8)
  | 'f' => some (Char.ofNat 12)
  | 'n' => some (Char.ofNat 10)
  | 'r' => some (Char.ofNat 13)
  | 't' => some (Char.ofNat 9)
  | _ => none

/-- Reads a string after its opening quote: its code points, halves of surrogate pairs apart, and
the rest. -/
def readUnits? : Text → Option (List Nat × Text)
  | [] => none
  | '"' :: rest => some ([], rest)
  | '\\' :: 'u' :: a :: b :: c :: d :: rest => do
    let unit ← hexUnit? a b c d
    let (units, rest) ← readUnits? rest
    return (unit :: units, rest)
  | '\\' :: e :: rest => do
    let c ← escaped? e
    let (units, rest) ← readUnits? rest
    return (c.toNat :: units, rest)
  | c :: rest =>
    if c = '\\' ∨ c.toNat < 0x20 then none
    else (readUnits? rest).map fun (units, rest) => (c.toNat :: units, rest)

/-- Joins surrogate pairs. Nothing if a half stands alone. -/
def joinUnits? : List Nat → Option Text
  | [] => some []
  | u :: units =>
    if 0xD800 ≤ u ∧ u < 0xDC00 then
      match units with
      | v :: units =>
        if 0xDC00 ≤ v ∧ v < 0xE000 then
          (joinUnits? units).map
            (Char.ofNat (0x10000 + (u - 0xD800) * 0x400 + (v - 0xDC00)) :: ·)
        else none
      | [] => none
    else if 0xDC00 ≤ u ∧ u < 0xE000 then none
    else (joinUnits? units).map (Char.ofNat u :: ·)

/-! ## Tokens -/

/-- Whether a character may stand between tokens. -/
def isSpace (c : Char) : Bool :=
  c == ' ' || c.toNat == 9 || c.toNat == 10 || c.toNat == 13

/-- Reads one token at a character that is no space. -/
def readToken? (text : Text) : Option (Token × Text) :=
  match text with
  | [] => none
  | c :: rest =>
    match c with
    | '\x7b' => some (.leftBrace, rest)
    | '\x7d' => some (.rightBrace, rest)
    | '[' => some (.leftBracket, rest)
    | ']' => some (.rightBracket, rest)
    | ':' => some (.colon, rest)
    | ',' => some (.comma, rest)
    | '"' => (readUnits? rest).map fun (units, rest) =>
      (.string ((joinUnits? units).map String.ofList), rest)
    | '-' => (readNumber? true rest).map fun (n, rest) => (.number n, rest)
    | _ =>
      if c.isDigit then (readNumber? false text).map fun (n, rest) => (.number n, rest)
      else
        let word (name : String) (token : Token) : Option (Token × Text) :=
          (Text.after? name.toList text).map fun rest => (token, rest)
        (word "null" .null).or <| (word "true" (.boolean true)).or (word "false" (.boolean false))

/-- The tokens of a text, up to the first place where none starts. -/
def tokens (text : Text) : List Token :=
  match text.dropWhile isSpace with
  | [] => []
  | c :: tail =>
    match readToken? (c :: tail) with
    | none => [.bad]
    | some (token, rest) =>
      if rest.length < text.length then token :: tokens rest else [.bad]
termination_by text.length

end Formula.Json
