import Formula.Word

/-!
# Byte arrays as numbers of fixed width

A byte array is stored least significant byte first. Logic and order extend the shorter operand
by zero bytes at its most significant end; shifts keep the width.

## Main definitions

* `Bytes.zipExtended`: two arrays byte by byte, the shorter one extended by zeros.
* `Bytes.order`: comparison as numbers.
* `Bytes.shiftLeft`, `Bytes.shiftRight`: shifts by a signed count of bits.
-/

namespace Formula

/-- Bytes, least significant first. -/
abbrev Bytes := List UInt8

namespace Bytes

/-- The byte at a place; beyond the array there are zeros. -/
def byteAt (bs : Bytes) (i : Nat) : UInt8 :=
  bs.getD i 0

/-- The places of bytes in either of two arrays, from the least significant one. -/
def places (as bs : Bytes) : List Nat :=
  List.range (max as.length bs.length)

/-- Combines two arrays byte by byte; the shorter one is extended by zeros. -/
def zipExtended (f : UInt8 → UInt8 → UInt8) (as bs : Bytes) : Bytes :=
  (places as bs).map fun i => f (as.byteAt i) (bs.byteAt i)

/-- Inverts every bit. -/
def invert (bs : Bytes) : Bytes :=
  bs.map (~~~ ·)

/-- Compares two arrays as numbers: the most significant difference decides. -/
def order (as bs : Bytes) : Ordering :=
  (((places as bs).reverse.map fun i => compare (as.byteAt i) (bs.byteAt i)).find? (· != .eq)).getD .eq

/-- Bit `i`, counted from the least significant one; beyond either end there are zeros. -/
def bit (bs : Bytes) (i : Int) : Bool :=
  match i with
  | .ofNat n => (bs.byteAt (n / 8)).toNat.testBit (n % 8)
  | .negSucc _ => false

/-- The byte whose bit `j` is `f j`. -/
def ofBits (f : Nat → Bool) : UInt8 :=
  (List.range 8).foldl (fun (byte : UInt8) j =>
    if f j then byte ||| UInt8.ofNat (1 <<< j) else byte) 0

/-- Moves every bit `count` places towards the most significant end, within the width. -/
def shift (bs : Bytes) (count : Int) : Bytes :=
  (List.range bs.length).map fun k => ofBits fun j => bit bs ((8 * k + j : Nat) - count)

/-- Shift towards the most significant bit; a negative count shifts the other way. -/
def shiftLeft (bs : Bytes) (count : Int64) : Bytes :=
  shift bs count.toInt

/-- Shift towards the least significant bit; a negative count shifts the other way. The most
negative count is taken for the largest one, which makes no difference to any width of 64 bits. -/
def shiftRight (bs : Bytes) (count : Int64) : Bytes :=
  shift bs (Word.negSaturating count).toInt

/-- Upper-case hexadecimal digits, most significant byte first. -/
def hex (bs : Bytes) : List Char :=
  bs.reverse.flatMap fun b => [digit (b.toNat / 16), digit (b.toNat % 16)]
where
  digit (n : Nat) : Char := if n < 10 then Char.ofNat (48 + n) else Char.ofNat (55 + n)

end Bytes

end Formula
