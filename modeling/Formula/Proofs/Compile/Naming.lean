import Mathlib.Algebra.BigOperators.Group.List.Basic
import Formula.Proofs.Text.Occurrences

/-!
# Generated names are fresh

A generated name is looked for among as many numbers as there can be taken names, and two more. Names
with different numbers differ, so one of them is free: it neither occurs in the source nor stands
in a table.

## Main results

* `Context.generatedName_eq`: a name is a fixed word with digits after it.
* `Context.generatedName_injective`: names with different numbers differ.
* `Context.freshName_free`: a generated name is free.
-/

namespace Formula.Context

/-- A generated name is a fixed word with digits after it. -/
theorem generatedName_eq (n : Nat) :
    ∃ digits : Text, (∀ c ∈ digits, c.isDigit = true) ∧
      generatedName n = "item".toList ++ digits := by
  refine ⟨_, fun c hc => ?_, rfl⟩
  rw [Text.padded, List.mem_append, List.mem_replicate] at hc
  rcases hc with ⟨-, rfl⟩ | hc
  · rfl
  · exact Nat.isDigit_of_mem_toDigits (by decide) (by decide) hc

/-- Names with different numbers differ. -/
theorem generatedName_injective : Function.Injective generatedName := by
  intro m n h
  have hvalue (n : Nat) : Nat.ofDigitChars 10 (Text.padded 4 n) 0 = n := by
    rw [Text.padded, Nat.ofDigitChars_append, Nat.ofDigitChars_replicate_zero, Nat.mul_zero,
      Nat.ofDigitChars_toDigits (by decide) (by decide)]
  rw [← hvalue m, ← hvalue n, List.append_cancel_left h]

/-- The search goes on to a higher number. -/
theorem lt_freshNumber (ctx : Context) (bound n : Nat) : n < ctx.freshNumber bound n := by
  induction bound generalizing n with
  | zero => exact Nat.lt_succ_self n
  | succ bound ih =>
    rw [freshNumber]
    split
    · exact Nat.lt_trans (Nat.lt_succ_self n) (ih (n + 1))
    · exact Nat.lt_succ_self n

/-- Whether a name occurs in the source or stands in a table. -/
def isTaken (ctx : Context) (name : Text) : Bool :=
  Text.contains name ctx.source || ctx.isKnown name

/-- If the search ends at a name that is taken, all names it came by are. -/
theorem isTaken_of_freshNumber {ctx : Context} {bound n : Nat}
    (h : ctx.isTaken (generatedName (ctx.freshNumber bound n)) = true) :
    ∀ k ≤ bound, ctx.isTaken (generatedName (n + 1 + k)) = true := by
  induction bound generalizing n with
  | zero =>
    intro k hk
    obtain rfl := Nat.le_zero.mp hk
    exact h
  | succ bound ih =>
    rw [freshNumber] at h
    split at h
    · next htaken =>
      intro k hk
      cases k with
      | zero => exact htaken
      | succ k =>
        have := ih h k (Nat.le_of_succ_le_succ hk)
        rwa [Nat.add_right_comm (n + 1)] at this
    · next hfree => exact absurd h hfree

/-- The parts of a text that are not empty, by their places and lengths. -/
def segments (text : Text) : List Text :=
  (List.range text.length).flatMap fun i =>
    (List.range text.length).map fun k => (text.drop i).take (k + 1)

theorem length_segments (text : Text) : (segments text).length = text.length * text.length := by
  simp [segments]

theorem mem_segments {name text : Text} (hname : name ≠ [])
    (h : Text.contains name text = true) : name ∈ segments text := by
  obtain ⟨before, rest, rfl⟩ := Text.contains_iff.mp h
  have hpos := List.length_pos_iff.mpr hname
  refine List.mem_flatMap.mpr ⟨before.length, ?_, List.mem_map.mpr ⟨name.length - 1, ?_, ?_⟩⟩
  · simp only [List.mem_range, List.length_append]
    omega
  · simp only [List.mem_range, List.length_append]
    omega
  · rw [List.append_assoc, List.drop_left, Nat.sub_add_cancel hpos, List.take_left]

/-- All names that are taken. -/
def takenNames (ctx : Context) : List Text :=
  segments ctx.source ++ ctx.constants.map Prod.fst ++ ctx.literals.map Prod.fst
    ++ ctx.symbols.map Prod.fst ++ ctx.params.map fun p => p.name.toList

theorem mem_map_fst_of_lookup {α : Type} {l : List (Text × α)} {key : Text}
    (h : (l.lookup key).isSome) : key ∈ l.map Prod.fst := by
  obtain ⟨a, ha⟩ := Option.isSome_iff_exists.mp h
  obtain ⟨before, rest, rfl, -⟩ := List.lookup_eq_some_iff.mp ha
  simp

theorem mem_of_isSome_constant? {ctx : Context} {key : Text} (h : (ctx.constant? key).isSome) :
    key ∈ ctx.constants.map Prod.fst ++ ctx.literals.map Prod.fst := by
  rw [constant?, Option.isSome_or, Bool.or_eq_true] at h
  rw [List.mem_append]
  exact h.imp mem_map_fst_of_lookup fun h => mem_map_fst_of_lookup (Option.isSome_of_isSome_bind h)

theorem mem_takenNames {ctx : Context} {name : Text} (hname : name ≠ [])
    (h : ctx.isTaken name = true) : name ∈ ctx.takenNames := by
  simp only [isTaken, isKnown, Bool.or_eq_true] at h
  simp only [takenNames, List.mem_append]
  rcases h with h | (h | h) | h
  · exact .inl (.inl (.inl (.inl (mem_segments hname h))))
  · exact (List.mem_append.mp (mem_of_isSome_constant? h)).elim
      (fun hmem => .inl (.inl (.inl (.inr hmem)))) fun hmem => .inl (.inl (.inr hmem))
  · exact .inl (.inr (mem_map_fst_of_lookup h))
  · refine .inr ?_
    rw [parameterIndex?, List.findIdx?_isSome, List.any_eq_true] at h
    obtain ⟨p, hp, heq⟩ := h
    exact List.mem_map.mpr ⟨p, hp, eq_of_beq heq⟩

/-- A generated name neither occurs in the source nor stands in a table. -/
theorem freshName_free (ctx : Context) : ctx.isTaken ctx.freshName.1 = false := by
  by_contra htaken
  have hall := isTaken_of_freshNumber (Bool.not_eq_false _ ▸ htaken)
  -- one name for each number that was tried: more than there are names taken
  let tried := (List.range (ctx.takenBound + 1)).map fun k => generatedName (ctx.counter + 1 + k)
  have hnodup : tried.Nodup :=
    List.Pairwise.map _ (fun a b hne h => hne (Nat.add_left_cancel (generatedName_injective h)))
      List.nodup_range
  have hsubset : tried ⊆ ctx.takenNames := by
    intro name hname
    obtain ⟨k, hk, rfl⟩ := List.mem_map.mp hname
    refine mem_takenNames (by simp [generatedName]) (hall k ?_)
    exact Nat.le_of_lt_succ (List.mem_range.mp hk)
  have hle := (List.subperm_of_subset hnodup hsubset).length_le
  simp only [tried, List.length_map, List.length_range, takenNames, List.length_append,
    length_segments, takenBound] at hle
  omega

end Formula.Context
