import Formula.Json.Text
import Formula.Proofs.Numbers.Arithmetic
import Formula.Proofs.Value.Tokens

/-!
# What the library in use reads of what it writes

A datum is read piece by piece as it was written, wherever it stands: the lemmas are about a datum at a
place in a longer text, by recursion over the datum. So the library keeps its laws. It writes each
finite double with a point or an exponent.

## Main results

* `Json.eventsFrom_write`: a datum in a text shows the events of the datum.
* `Json.Library.lawful_standard`: the library in use keeps the laws.
* `Json.Library.marks_standard`: it writes finite doubles with a point or an exponent.
-/

namespace Formula

namespace Binary64

/-- A finite double is a significand and a power of two. -/
theorem exists_parts_of_isFinite {x : Float} (hx : x.isFinite = true) :
    ∃ negative m q, parts x = .finite negative m q := by
  have hfield : (x.toBits.toNat >>> 52) % 2048 ≠ 2047 := by
    intro h
    have hones : @Float.Model.UnpackedFloat.unpackExponent Float.Model.Format.binary64
        x.toModel.toBits.toBitVec = -1#11 := by
      have h : (x.toModel.toBits.toNat >>> 52) % 2048 = 2047 := h
      exact BitVec.eq_of_toNat_eq (by simpa [Float.Model.UnpackedFloat.unpackExponent] using h)
    have hunpack : x.toModel.unpack.isFinite = true := hx
    unfold Float.Model.unpack Float.Model.UnpackedFloat.unpack at hunpack
    dsimp only at hunpack
    rw [if_pos hones] at hunpack
    split at hunpack <;> cases hunpack
  unfold parts fields
  simp only [if_neg hfield]
  split <;> exact ⟨_, _, _, rfl⟩

end Binary64

/-- An integer that is not below zero keeps its number without a sign. -/
theorem Word.toNat_toUInt64 {i : Int64} (h : 0 ≤ i.toInt) : (i.toUInt64.toNat : Int) = i.toInt := by
  have hlt : i.toBitVec.toNat < 2 ^ 64 := i.toBitVec.isLt
  rw [← Int64.toInt_toBitVec, BitVec.toInt_eq_toNat_cond] at h ⊢
  change (i.toBitVec.toNat : Int) = _
  split at h <;> omega

namespace Decimal

theorem exists_mark_writeDecimal (d : Decimal) : ∃ c ∈ writeDecimal exchange d, c = '.' ∨ c = 'e' := by
  rw [writeDecimal]
  split
  · refine ⟨'.', ?_, .inl rfl⟩
    rw [writePositional]
    split
    · simp [exchange]
    · split <;> simp
  · exact ⟨'e', by simp [writeScientific], .inr rfl⟩

/-- The text of a finite double has a point or an exponent. -/
theorem exists_point_or_exponent {x : Float} (hx : x.isFinite = true) :
    ∃ c ∈ write exchange x, c = '.' ∨ c = 'e' := by
  obtain ⟨negative, m, q, hparts⟩ := Binary64.exists_parts_of_isFinite hx
  obtain ⟨c, hc, hmark⟩ := exists_mark_writeDecimal (if m = 0 then ⟨0, 0⟩ else shortest exchange.tie m q)
  refine ⟨c, ?_, hmark⟩
  rw [write, hparts]
  cases negative
  · exact hc
  · exact List.mem_cons_of_mem _ hc

end Decimal

namespace Json

/-! ### From place to place -/

section

variable {token : Token} {event : Event} {frame : Frame} {place : Place} {frames : List Frame}
  {first : Bool} {ts : List Token}

theorem closes_of_start? (h : token.start?.isSome) : token.closes (.item first) frames = false := by
  cases token <;> first | rfl | cases h

/-- A token that is a datum of its own. -/
theorem eventsFrom_single (h : token.start? = some (event, none)) :
    eventsFrom (.item first) frames (token :: ts) = event :: eventsFrom .after frames ts := by
  rw [eventsFrom, closes_of_start? (by rw [h]; rfl), if_neg Bool.false_ne_true]
  simp only [h]

/-- A token that starts a sequence or a mapping. -/
theorem eventsFrom_open (h : token.start? = some (event, some frame)) :
    eventsFrom (.item first) frames (token :: ts) =
      event :: eventsFrom frame.firstPlace (frame :: frames) ts := by
  rw [eventsFrom, closes_of_start? (by rw [h]; rfl), if_neg Bool.false_ne_true]
  simp only [h]

/-- The end of a sequence or a mapping. -/
theorem eventsFrom_close (h : token.closes place frames = true) :
    eventsFrom place frames (token :: ts) = .close :: eventsFrom .after frames.tail ts := by
  conv_lhs => unfold eventsFrom
  exact if_pos h

theorem eventsFrom_item_comma :
    eventsFrom .after (.sequence :: frames) (.comma :: ts) =
      eventsFrom (.item false) (.sequence :: frames) ts := by
  rw [eventsFrom]
  rfl

theorem eventsFrom_entry_comma :
    eventsFrom .after (.mapping :: frames) (.comma :: ts) =
      eventsFrom (.key false) (.mapping :: frames) ts := by
  rw [eventsFrom]
  rfl

theorem eventsFrom_key (key : String) :
    eventsFrom (.key first) frames (.string (some key) :: .colon :: ts) =
      .key key :: eventsFrom (.item false) frames ts := by
  rw [eventsFrom, eventsFrom]
  rfl

end

/-! ### A datum in a text -/

open Datum

theorem atMark_writeMoreItems (items : List Datum) (rest : Text) :
    AtMark (writeMoreItems items ++ ']' :: rest) := by
  cases items with
  | nil => exact atMark_rightBracket rest
  | cons d items => exact atMark_comma _

theorem atMark_writeMoreEntries (entries : List (String × Datum)) (rest : Text) :
    AtMark (writeMoreEntries entries ++ '\x7d' :: rest) := by
  cases entries with
  | nil => exact atMark_rightBrace rest
  | cons entry entries => exact atMark_comma _

/-- An integer shows its sign if it is below zero. -/
theorem eventsFrom_integer (i : Int64) {rest : Text} (hrest : AtMark rest) (first : Bool)
    (frames : List Frame) :
    eventsFrom (.item first) frames (tokens (Value.integerText i.toInt ++ rest)) =
      (signed i).events ++ eventsFrom .after frames (tokens rest) := by
  have hlow := i.le_toInt
  have hhigh := i.toInt_lt
  have hneg : i < 0 ↔ i.toInt < 0 := Int64.lt_iff_toInt_lt
  have hsize : UInt64.size = 2 ^ 64 := rfl
  rw [Value.integerText, events]
  by_cases h : i.toInt < 0
  · have habs : -(i.toInt.natAbs : Int) = i.toInt := by omega
    have hstart : (Token.number (.negative i.toInt)).start? = some (.signed i, none) := by
      rw [Token.start?, Int64.ofInt_toInt]
    rw [if_pos h, if_pos (hneg.mpr h), List.cons_append,
      tokens_negative hrest (by omega) (by omega), habs, eventsFrom_single hstart]
    rfl
  · have hword : UInt64.ofNat i.toInt.natAbs = i.toUInt64 := by
      have hnat := Word.toNat_toUInt64 (Int.not_lt.mp h)
      have hsame : i.toInt.natAbs = i.toUInt64.toNat := by omega
      rw [hsame, UInt64.ofNat_toNat]
    rw [if_neg h, if_neg (mt hneg.mp h), tokens_toDigits hrest (by omega), eventsFrom_single rfl, hword]
    rfl

mutual

/-- A datum is read as it was written, whatever stands behind it. -/
theorem eventsFrom_write (d : Datum) (hd : d.isExact = true) {rest : Text} (hrest : AtMark rest)
    (first : Bool) (frames : List Frame) :
    eventsFrom (.item first) frames (tokens (d.write ++ rest)) =
      d.events ++ eventsFrom .after frames (tokens rest) := by
  match d with
  | .boolean b => rw [write, tokens_boolean, eventsFrom_single rfl]; rfl
  | .unsigned n =>
    have hn : n.toNat < UInt64.size := n.toNat_lt
    have hstart : (Token.number (.natural n.toNat)).start? = some (.unsigned n, none) := by
      simp [Token.start?]
    rw [write, tokens_toDigits hrest hn, eventsFrom_single hstart]
    rfl
  | .signed i => exact eventsFrom_integer i hrest first frames
  | .string s => rw [write, tokens_writeString, eventsFrom_single rfl]; rfl
  | .sequence items =>
    have hitems := eventsFrom_writeItems items hd rest frames
    simp only [write, List.cons_append, List.append_assoc, List.nil_append]
    rw [tokens_leftBracket, eventsFrom_open rfl]
    simpa [events, Frame.firstPlace] using hitems
  | .mapping entries =>
    have hentries := eventsFrom_writeEntries entries hd rest frames
    simp only [write, List.cons_append, List.append_assoc, List.nil_append]
    rw [tokens_leftBrace, eventsFrom_open rfl]
    simpa [events, Frame.firstPlace] using hentries

/-- The items of a sequence, up to its end. -/
theorem eventsFrom_writeItems (items : List Datum) (hitems : itemsExact items = true) (rest : Text)
    (frames : List Frame) :
    eventsFrom (.item true) (.sequence :: frames) (tokens (writeItems items ++ ']' :: rest)) =
      itemEvents items ++ .close :: eventsFrom .after frames (tokens rest) := by
  match items with
  | [] => rw [writeItems, List.nil_append, tokens_rightBracket, eventsFrom_close rfl]; rfl
  | d :: items =>
    obtain ⟨hd, hmore⟩ := Bool.and_eq_true_iff.mp hitems
    rw [writeItems, itemEvents, List.append_assoc,
      eventsFrom_write d hd (atMark_writeMoreItems items rest),
      eventsFrom_writeMoreItems items hmore, List.append_assoc]

/-- The items that follow an item. -/
theorem eventsFrom_writeMoreItems (items : List Datum) (hitems : itemsExact items = true)
    (rest : Text) (frames : List Frame) :
    eventsFrom .after (.sequence :: frames) (tokens (writeMoreItems items ++ ']' :: rest)) =
      itemEvents items ++ .close :: eventsFrom .after frames (tokens rest) := by
  match items with
  | [] => rw [writeMoreItems, List.nil_append, tokens_rightBracket, eventsFrom_close rfl]; rfl
  | d :: items =>
    obtain ⟨hd, hmore⟩ := Bool.and_eq_true_iff.mp hitems
    simp only [writeMoreItems, itemEvents, List.cons_append, List.append_assoc]
    rw [tokens_comma, eventsFrom_item_comma, eventsFrom_write d hd (atMark_writeMoreItems items rest),
      eventsFrom_writeMoreItems items hmore]

/-- The entries of a mapping, up to its end. -/
theorem eventsFrom_writeEntries (entries : List (String × Datum))
    (hentries : entriesExact entries = true) (rest : Text) (frames : List Frame) :
    eventsFrom (.key true) (.mapping :: frames) (tokens (writeEntries entries ++ '\x7d' :: rest)) =
      entryEvents entries ++ .close :: eventsFrom .after frames (tokens rest) := by
  match entries with
  | [] => rw [writeEntries, List.nil_append, tokens_rightBrace, eventsFrom_close rfl]; rfl
  | (key, d) :: entries =>
    obtain ⟨hd, hmore⟩ := Bool.and_eq_true_iff.mp hentries
    simp only [writeEntries, entryEvents, List.cons_append, List.append_assoc]
    rw [tokens_writeString, tokens_colon, eventsFrom_key,
      eventsFrom_write d hd (atMark_writeMoreEntries entries rest),
      eventsFrom_writeMoreEntries entries hmore]

/-- The entries that follow an entry. -/
theorem eventsFrom_writeMoreEntries (entries : List (String × Datum))
    (hentries : entriesExact entries = true) (rest : Text) (frames : List Frame) :
    eventsFrom .after (.mapping :: frames) (tokens (writeMoreEntries entries ++ '\x7d' :: rest)) =
      entryEvents entries ++ .close :: eventsFrom .after frames (tokens rest) := by
  match entries with
  | [] => rw [writeMoreEntries, List.nil_append, tokens_rightBrace, eventsFrom_close rfl]; rfl
  | (key, d) :: entries =>
    obtain ⟨hd, hmore⟩ := Bool.and_eq_true_iff.mp hentries
    simp only [writeMoreEntries, entryEvents, List.cons_append, List.append_assoc]
    rw [tokens_comma, eventsFrom_entry_comma, tokens_writeString, tokens_colon, eventsFrom_key,
      eventsFrom_write d hd (atMark_writeMoreEntries entries rest),
      eventsFrom_writeMoreEntries entries hmore]

end

/-! ### Numbers with a mark -/

/-- Nothing may follow a datum that lies in nothing. -/
theorem eventsFrom_after_eq_nil {ts : List Token} (h : eventsFrom .after [] ts = []) : ts = [] := by
  cases ts with
  | nil => rfl
  | cons token ts =>
    have hopen : token.closes .after [] = false := by cases token <;> rfl
    rw [eventsFrom, hopen, if_neg Bool.false_ne_true] at h
    · cases h
    all_goals simp

theorem exists_number_of_start? {token : Token} {event : Event} {frame : Option Frame}
    (h : token.start? = some (event, frame)) (hwhole : event.isWhole = true) :
    ∃ n : Number, token = .number n ∧ n.isWhole = true := by
  match token with
  | .number (.natural n) => exact ⟨_, rfl, rfl⟩
  | .number (.negative i) => exact ⟨_, rfl, rfl⟩
  | .number (.double x) => cases h; cases hwhole
  | .number .outOfRange | .string none | .rightBrace | .rightBracket | .colon | .comma | .bad => cases h
  | .string (some s) | .leftBrace | .leftBracket | .null | .boolean b => cases h; cases hwhole

/-- A text that shows an integer and nothing else has one token. -/
theorem tokens_of_eventsOf {text : Text} {event : Event} (h : eventsOf text = [event])
    (hwhole : event.isWhole = true) : ∃ n : Number, tokens text = [.number n] ∧ n.isWhole = true := by
  rw [eventsOf] at h
  cases hts : tokens text with
  | nil =>
    rw [hts, eventsFrom, if_neg (by simp)] at h
    cases h
    cases hwhole
  | cons token ts =>
    rw [hts] at h
    cases hstart : token.start? with
    | none =>
      have hopen : token.closes (.item false) [] = false := by cases token <;> rfl
      rw [eventsFrom, hopen, if_neg Bool.false_ne_true] at h
      simp only [hstart] at h
      cases h
      cases hwhole
    | some start =>
      obtain ⟨first, frame | frame⟩ := start
      · rw [eventsFrom_single hstart] at h
        obtain ⟨rfl, hrest⟩ := List.cons_eq_cons.mp h
        obtain ⟨n, rfl, hn⟩ := exists_number_of_start? hstart hwhole
        exact ⟨n, by rw [eventsFrom_after_eq_nil hrest], hn⟩
      · rw [eventsFrom_open hstart] at h
        obtain ⟨rfl, -⟩ := List.cons_eq_cons.mp h
        obtain ⟨n, rfl, hn⟩ := exists_number_of_start? hstart hwhole
        cases n <;> cases hstart

namespace Library

/-- The library in use keeps the laws. -/
theorem lawful_standard : standard.Lawful where
  read_write d hd _ := by
    have hread := eventsFrom_write d hd atMark_nil false []
    rw [List.append_nil, tokens_nil] at hread
    change eventsOf (String.ofList d.write).toList = _
    rw [String.toList_ofList, eventsOf, hread, eventsFrom, if_pos ⟨rfl, rfl⟩, List.append_nil]
  isWhole_of_mark text event hread hmark := by
    by_contra hne
    obtain ⟨n, htokens, hn⟩ := tokens_of_eventsOf hread (Bool.not_eq_false _ ▸ hne)
    obtain ⟨c, hc, hmark⟩ := hmark
    have hchar := isDigit_or_of_isWhole htokens hn c hc
    rcases hmark with rfl | rfl | rfl <;> exact absurd hchar (by decide)

/-- The library in use writes finite doubles with a point or an exponent. -/
theorem marks_standard {x : Float} (hx : x.isFinite = true) : standard.Marks x := by
  obtain ⟨c, hc, hmark⟩ := Decimal.exists_point_or_exponent hx
  have hwrite : (standard.write (.double x)).toList = Decimal.write Decimal.exchange x := by
    change (String.ofList (Datum.double x).write).toList = _
    rw [String.toList_ofList, Datum.write, if_pos hx]
  exact ⟨c, hwrite ▸ hc, hmark.imp_right .inl⟩

end Library

end Json

end Formula
