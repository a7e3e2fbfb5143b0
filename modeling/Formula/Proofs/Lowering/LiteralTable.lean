import Formula.Proofs.Lowering.Code
import Formula.Proofs.Value.Canonical

/-!
# The table of literals

A program under construction is asked for registers, literals, calls and instructions in any order,
and some of the requests fail. Whatever was asked for before and is asked for later, the finished
program holds at the place returned for a literal one that agrees with it. The table does not see
the sign of a zero: a zero shares the place of a zero of the other sign that came first. Every
other literal is held as it was given.

## Main definitions

* `Builder.Step`, `Builder.perform`, `Builder.after`: what a program under construction is asked
  for, and what becomes of it.

## Main results

* `Builder.literal_finish`: what the finished program holds for a literal, and loads.
* `Builder.literal_finish_unsigned`: the negative zero is lost after the positive one.
-/

namespace Formula

namespace Builder

/-! ### Steps -/

/-- What a program under construction is asked for. -/
inductive Step where
  | allocate
  | literal (v : Value)
  | call (call : Call)
  | emit (instruction : Instruction)

/-- The builder after a request with an answer; one that fails leaves it as it was. -/
def settle (b : Builder) : Except MachineFault (Nat × Builder) → Builder
  | .ok (_, b') => b'
  | .error _ => b

/-- The builder after a step. -/
def perform (b : Builder) : Step → Builder
  | .allocate => b.settle b.allocate
  | .literal v => b.settle (b.addLiteral v)
  | .call call => b.settle (b.addCall call)
  | .emit instruction => b.emit instruction

/-- The builder after steps. -/
def after (b : Builder) (steps : List Step) : Builder :=
  steps.foldl perform b

/-- What holds before a request and after every success of it holds after it. -/
theorem settle_induct {b : Builder} {answer : Except MachineFault (Nat × Builder)}
    {P : Builder → Prop} (hb : P b) (h : ∀ place b', answer = .ok (place, b') → P b') :
    P (b.settle answer) := by
  match answer with
  | .error _ => exact hb
  | .ok (place, b') => exact h place b' rfl

/-! ### What steps keep -/

/-- The literals are found where they stand, and each of them was asked for. -/
structure Holds (steps : List Step) (b : Builder) : Prop where
  sound : b.Sound
  requested : ∀ v ∈ b.literals, .literal v ∈ steps

theorem holds_empty : Holds [] {} :=
  ⟨sound_empty, by simp⟩

theorem Holds.of_literals_eq {steps : List Step} {b b' : Builder} (h : Holds steps b)
    (hliterals : b'.literals = b.literals) (hplaces : b'.places = b.places) : Holds steps b' where
  sound v place hplace := by
    rw [hliterals]
    exact h.sound v place (hplaces ▸ hplace)
  requested v hv := h.requested v (hliterals ▸ hv)

theorem Holds.mono {steps steps' : List Step} {b : Builder} (h : Holds steps b)
    (hsub : steps ⊆ steps') : Holds steps' b :=
  ⟨h.sound, fun v hv => hsub (h.requested v hv)⟩

/-- Adding a literal puts at most this literal into the table. -/
theorem Holds.addLiteral {steps : List Step} {b b' : Builder} {v : Value} {place : Nat}
    (h : Holds steps b) (hadd : b.addLiteral v = .ok (place, b')) :
    Holds (steps ++ [.literal v]) b' := by
  obtain ⟨hsound, -, -, -, -, hcases⟩ := addLiteral_eq_ok h.sound hadd
  refine ⟨hsound, fun w hw => ?_⟩
  rcases hcases with rfl | hpush
  · exact List.mem_append_left _ (h.requested w hw)
  · rw [hpush, Array.mem_push] at hw
    rcases hw with hw | rfl
    · exact List.mem_append_left _ (h.requested w hw)
    · exact List.mem_append_right _ (List.mem_singleton.mpr rfl)

theorem Holds.perform {steps : List Step} {b : Builder} (h : Holds steps b) (step : Step) :
    Holds (steps ++ [step]) (b.perform step) := by
  have hmono := h.mono (List.subset_append_left steps [step])
  cases step with
  | allocate =>
    refine settle_induct hmono fun place b' hb' => ?_
    obtain ⟨-, rfl⟩ := allocate_eq_ok hb'
    exact hmono.of_literals_eq rfl rfl
  | literal v => exact settle_induct hmono fun place b' hb' => h.addLiteral hb'
  | call call =>
    refine settle_induct hmono fun place b' hb' => ?_
    obtain ⟨-, rfl⟩ := addCall_eq_ok hb'
    exact hmono.of_literals_eq rfl rfl
  | emit instruction => exact hmono.of_literals_eq rfl rfl

/-- After any steps the literals are found where they stand, and each of them was asked for. -/
theorem Holds.after {steps : List Step} {b : Builder} (h : Holds steps b) (more : List Step) :
    Holds (steps ++ more) (b.after more) := by
  induction more generalizing steps b with
  | nil => simpa [Builder.after] using h
  | cons step more ih => simpa [Builder.after] using ih (h.perform step)

/-- A step leaves the literals of the table where they are. -/
theorem literals_perform {b : Builder} (hb : b.Sound) (step : Step) {place : Nat} {v : Value}
    (h : b.literals[place]? = some v) : (b.perform step).literals[place]? = some v := by
  cases step with
  | allocate => exact settle_induct h fun _ _ hb' => (emits_allocate hb').literals place v h
  | literal w =>
    exact settle_induct h fun _ _ hb' => (addLiteral_eq_ok hb hb').2.1.literals place v h
  | call call => exact settle_induct h fun _ _ hb' => (emits_addCall hb').literals place v h
  | emit instruction => exact h

/-- Steps leave the literals of the table where they are. -/
theorem literals_after {steps : List Step} {b : Builder} (hb : Holds steps b) (more : List Step)
    {place : Nat} {v : Value} (h : b.literals[place]? = some v) :
    (b.after more).literals[place]? = some v := by
  induction more generalizing steps b with
  | nil => exact h
  | cons step more ih => exact ih (hb.perform step) (literals_perform hb.sound step h)

/-! ### The finished program -/

/-- Whatever is asked for before and after, a finished program holds a literal at the place that
was returned for it, and loads it from there, unless the literal is a zero and a zero of the other
sign was asked for before. -/
theorem literal_finish {before after : List Step} {v : Value} {place : Nat} {b : Builder}
    (h : (({} : Builder).after before).addLiteral v = .ok (place, b)) (result : Nat)
    (tolerance : Option Tolerance.Kind) :
    let program := (b.after after).finish result tolerance
    ∃ w, program.literals[place]? = some w ∧
      (∀ registry draws args registers dest,
        program.effect registry draws args registers (.loadLiteral dest place) =
          .ok (.assign dest w)) ∧
      (w = v ∨ .literal w ∈ before ∧
        ((w = .numeric 0 ∧ v = .numeric (-0)) ∨ (w = .numeric (-0) ∧ v = .numeric 0))) := by
  intro program
  have hbefore : Holds before (({} : Builder).after before) := holds_empty.after before
  obtain ⟨hsound, hemits, hplace, -, -, hcases⟩ := addLiteral_eq_ok hbefore.sound h
  obtain ⟨w, hw, hcanonical⟩ := hsound _ _ hplace
  have hheld : program.literals[place]? = some w := literals_after (hbefore.addLiteral h) after hw
  refine ⟨w, hheld, fun registry draws args registers dest => ?_, ?_⟩
  · rw [Program.effect, hheld]
    rfl
  · rcases Value.eq_or_zeros_of_canonical hcanonical with rfl | hzeros
    · exact .inl rfl
    refine .inr ⟨?_, hzeros⟩
    rcases hcases with rfl | hpush
    · exact hbefore.requested w (Array.mem_of_getElem? hw)
    · have hmem := Array.mem_of_getElem? hw
      rw [hpush, Array.mem_push] at hmem
      refine hbefore.requested w (hmem.resolve_right ?_)
      rcases hzeros with ⟨rfl, rfl⟩ | ⟨rfl, rfl⟩ <;> decide

/-- A literal that agrees with none in the table goes to its end. -/
theorem addLiteral_of_new {b : Builder} {v : Value} (h : b.places[v.canonical]? = none)
    (hsize : b.literals.size ≤ maxIndex) :
    b.addLiteral v = .ok (b.literals.size,
      { b with
        literals := b.literals.push v
        places := b.places.insert v.canonical b.literals.size }) := by
  simp [addLiteral, literalPlace, h, index_eq_ok_iff.mpr ⟨hsize, rfl⟩, putLiteral, ok_bind, pure, Except.pure]

/-- A literal that agrees with one in the table takes its place. -/
theorem addLiteral_of_known {b : Builder} {v : Value} {place : Nat}
    (h : b.places[v.canonical]? = some place) (hplace : place < b.literals.size) :
    b.addLiteral v = .ok (place, b) := by
  simp [addLiteral, literalPlace, h, putLiteral, hplace, ok_bind, pure, Except.pure]

/-- The table after the first literal. -/
theorem places_first (v w : Value) :
    (({} : Builder).after [.literal v]).places[w]? = if v.canonical = w then some 0 else none := by
  have hnew : ({} : Builder).places[v.canonical]? = none := by simp
  simp [after, perform, addLiteral_of_new hnew (Nat.zero_le _), settle, Std.HashMap.getElem?_insert]

theorem literals_first (v : Value) : (({} : Builder).after [.literal v]).literals = #[v] := by
  have hnew : ({} : Builder).places[v.canonical]? = none := by simp
  simp [after, perform, addLiteral_of_new hnew (Nat.zero_le _), settle]

theorem literal_finish_fraction :
    ∃ b w, (({} : Builder).after [.literal (.integer 1)]).addLiteral (.numeric 0.5) = .ok (1, b) ∧
      ((b.after [.literal (.numeric 1.5)]).finish 0 none).literals[1]? = some w ∧
      (w = .numeric 0.5 ∨ .literal w ∈ [Step.literal (.integer 1)] ∧
        ((w = .numeric 0 ∧ Value.numeric 0.5 = .numeric (-0)) ∨
          (w = .numeric (-0) ∧ Value.numeric 0.5 = .numeric 0))) := by
  have hnew := places_first (.integer 1) (Value.numeric 0.5).canonical
  rw [if_neg (by decide)] at hnew
  have hadd := addLiteral_of_new hnew (by rw [literals_first]; decide)
  rw [literals_first] at hadd
  obtain ⟨w, hw, -, hsame⟩ := @literal_finish _ [.literal (.numeric 1.5)] _ _ _ hadd 0 none
  exact ⟨_, w, hadd, hw, hsame⟩

/-- The negative zero, asked for after the positive one, is loaded without its sign. -/
theorem literal_finish_unsigned :
    ∃ b, (({} : Builder).after [.literal (.numeric 0)]).addLiteral (.numeric (-0)) = .ok (0, b) ∧
      (b.finish 0 none).literals[0]? = some (.numeric 0) ∧
      Value.numeric 0 ≠ .numeric (-0) := by
  have hknown := places_first (.numeric 0) (Value.numeric (-0)).canonical
  rw [if_pos (by decide)] at hknown
  refine ⟨_, addLiteral_of_known hknown (by rw [literals_first]; decide), ?_, by decide⟩
  simp [finish, emit, literals_first]

end Builder

end Formula
