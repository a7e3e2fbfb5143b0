/-!
# Recent letters and numerals

The code points that edition 17 of the character standard added to the letters and numerals of
edition 16, as closed ranges in increasing order.
-/

namespace Formula.Text

/-- Closed ranges of the letters and letter numbers that edition 17 added. -/
def recentLetterRanges : List (Nat × Nat) := [
  (0x88F, 0x88F), (0xC5C, 0xC5C), (0xCDC, 0xCDC), (0xA7CE, 0xA7CF), (0xA7D2, 0xA7D2),
  (0xA7D4, 0xA7D4), (0xA7F1, 0xA7F1), (0x10940, 0x10959), (0x10EC5, 0x10EC7), (0x11DB0, 0x11DDB),
  (0x16EA0, 0x16EB8), (0x16EBB, 0x16ED3), (0x16FF2, 0x16FF6), (0x187F8, 0x187FF),
  (0x18D09, 0x18D1E), (0x18D80, 0x18DF2), (0x1E6C0, 0x1E6DE), (0x1E6E0, 0x1E6E2),
  (0x1E6E4, 0x1E6E5), (0x1E6E7, 0x1E6ED), (0x1E6F0, 0x1E6F4), (0x1E6FE, 0x1E6FF),
  (0x2B73A, 0x2B73F), (0x2CEA2, 0x2CEAD), (0x323B0, 0x33479)]

/-- Closed ranges of the decimal digits that edition 17 added. -/
def recentDigitRanges : List (Nat × Nat) := [
  (0x11DE0, 0x11DE9)]

end Formula.Text
