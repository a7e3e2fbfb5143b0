import Mathlib.Data.List.Chain
import Formula.Proofs.Compile.History
import Formula.Proofs.Source.Parameters

/-!
# Failed splits leave no trace

Building a tree narrows the types of the parameters, often half-way into an attempt that fails. Over
the whole history of a compilation, every moment follows from the one before in one of four ways:
parameters are narrowed, an attempt is entered, an attempt is left with what it has built, or an
attempt is undone, which restores the parameters that it was entered with. From one moment to a later
one the parameters are therefore narrowed, unless an attempt has been undone that was under way at
the first. No parameter is left without a type at any moment.

What is remembered of a text is the types that its parameters were left with. They lie in the types
that the text was built under, so recalling them is a case of narrowing.

## Main definitions

* `Moment.Follows`: how one moment follows from another.
* `BuildState.Sound`: every parameter has a type, and what is remembered narrows.
* `History.Lawful`: every moment is sound and follows from the one before.
* `HistoryM.Orderly`: building goes on with a lawful history, narrows the parameters, and ends in the
  attempt in which it began.

## Main results

* `TreeBuilder.orderly_recordedWithin`: building is orderly.
* `History.Lawful.narrows_or_undone`: what lies between two moments.
* `Compiler.splits_atomic`: the history of a compilation.
-/

namespace Formula

/-! ### Masks that are narrowed -/

/-- Every mask lies in the mask at the same place, and is not empty. -/
def Tightens (before after : List TypeMask) : Prop :=
  List.Forall₂ (fun b a => a.isEmpty = false ∧ ∀ t, a.supports t = true → b.supports t = true)
    before after

theorem maskAt_eq_getElem {params : List Parameter} {i : Nat} (h : i < params.length) :
    maskAt params i = params[i].supported := by
  simp [maskAt, h]

theorem Narrows.tightens {params params' : List Parameter} (h : Narrows params params')
    (htypes : TypesLeft params') :
    Tightens (params.map Parameter.supported) (params'.map Parameter.supported) := by
  have hlen := h.length_eq
  refine List.forall₂_iff_get.mpr ⟨by simp [hlen], fun i hi hi' => ?_⟩
  rw [List.length_map] at hi hi'
  simp only [List.get_eq_getElem, List.getElem_map]
  refine ⟨htypes _ (List.getElem_mem hi'), fun t ht => ?_⟩
  rw [← maskAt_eq_getElem hi]
  exact h.2 i t (by rwa [maskAt_eq_getElem hi'])

namespace BuildState

variable {s : BuildState} {after : List TypeMask} (h : Tightens s.masks after)
include h

theorem length_of_tightens : after.length = s.params.length :=
  (List.Forall₂.length_eq h).symm.trans (List.length_map ..)

theorem length_withMasks : (s.withMasks after).params.length = s.params.length := by
  simp [withMasks, length_of_tightens h]

/-- The masks that a parameter has before and after. -/
theorem mask_withMasks {i : Nat} (hi : i < s.params.length)
    (hi' : i < (s.withMasks after).params.length) :
    (s.withMasks after).params[i].supported.isEmpty = false ∧
      ∀ t, (s.withMasks after).params[i].supported.supports t = true →
        s.params[i].supported.supports t = true := by
  have hafter : i < after.length := by rwa [length_of_tightens h]
  have hpair := (List.forall₂_iff_get.mp h).2 i (by simpa [BuildState.masks] using hi) hafter
  simpa [BuildState.masks, withMasks] using hpair

/-- Types that lie in those of a state narrow its parameters. -/
theorem narrows_withMasks : Narrows s.params (s.withMasks after).params := by
  have hlen := length_withMasks h
  refine ⟨TreeBuilder.names_withMasks (length_of_tightens h), fun i t ht => ?_⟩
  by_cases hi : i < s.params.length
  · have hi' := hlen.symm ▸ hi
    rw [maskAt_eq_getElem hi'] at ht
    rw [maskAt_eq_getElem hi]
    exact (mask_withMasks h hi hi').2 t ht
  · rw [maskAt, List.getElem?_eq_none (by omega)] at ht
    cases t <;> cases ht

theorem typesLeft_withMasks : TypesLeft (s.withMasks after).params := by
  intro p hp
  obtain ⟨i, hi, rfl⟩ := List.mem_iff_getElem.mp hp
  exact (mask_withMasks h (length_withMasks h ▸ hi) hi).1

end BuildState

/-! ### Moments and how they follow each other -/

/-- Every parameter has a type, and what is remembered of a text lies in the types it was built
under. -/
structure BuildState.Sound (s : BuildState) : Prop where
  typesLeft : TypesLeft s.params
  built : ∀ (key : BuildKey) node masks, s.built[key]? = some (.ok (node, masks)) →
    Tightens key.masks masks

/-- The types that a text leaves the parameters with may be remembered. -/
theorem BuildState.Sound.remember {s s' : BuildState} (hs : s'.Sound) (text : Text)
    (hnarrows : Narrows s.params s'.params) (outcome : Except CompileFault Node) :
    Sound { s' with
      built := s'.built.insert ⟨text, s.masks⟩ (outcome.map fun node => (node, s'.masks)) } := by
  refine ⟨hs.typesLeft, fun key node masks hfound => ?_⟩
  simp only [Std.HashMap.getElem?_insert] at hfound
  split at hfound
  · next heq =>
    obtain rfl := eq_of_beq heq
    cases outcome with
    | error fault => simp [Except.map] at hfound
    | ok n =>
      simp only [Except.map, Option.some.injEq, Except.ok.injEq, Prod.mk.injEq] at hfound
      obtain ⟨rfl, rfl⟩ := hfound
      exact hnarrows.tightens hs.typesLeft
  · exact hs.built key node masks hfound

/-- How a moment follows from the one before. -/
inductive Moment.Follows (m n : Moment) : Prop
  | narrow (hparams : Narrows m.state.params n.state.params) (htrials : n.trials = m.trials)
      (hundone : n.undone = none)
  | enter (number : Nat) (hparams : n.state.params = m.state.params)
      (htrials : n.trials = ⟨number, m.state.params⟩ :: m.trials) (hundone : n.undone = none)
  | leave (trial : Trial) (hparams : n.state.params = m.state.params)
      (htrials : m.trials = trial :: n.trials) (hundone : n.undone = none)
  | undo (trial : Trial) (hparams : n.state.params = trial.saved)
      (htrials : m.trials = trial :: n.trials) (hundone : n.undone = some trial)

/-- Every moment is sound, and follows from the one before. -/
structure History.Lawful (h : History) : Prop where
  chain : h.moments.IsChain Moment.Follows
  sound : ∀ m ∈ h.moments, m.state.Sound

namespace History.Lawful

variable {h : History} (hl : h.Lawful)
include hl

theorem sound_latest : h.latest.state.Sound :=
  hl.sound _ (by simp [moments])

/-- A history goes on. -/
theorem next {m : Moment} (hfollows : h.latest.Follows m) (hsound : m.state.Sound) :
    Lawful { latest := m, past := h.latest :: h.past } := by
  have hmoments : History.moments { latest := m, past := h.latest :: h.past } = h.moments ++ [m] :=
    List.reverse_cons
  constructor
  · rw [hmoments, List.isChain_append]
    refine ⟨hl.chain, List.isChain_singleton m, fun a ha b hb => ?_⟩
    obtain rfl : h.latest = a := by simpa [moments] using ha
    obtain rfl : m = b := by simpa using hb
    exact hfollows
  · rw [hmoments]
    intro n hn
    rcases List.mem_append.mp hn with hn | hn
    · exact hl.sound n hn
    · rwa [List.mem_singleton.mp hn]

end History.Lawful

/-- A sound moment is the start of a lawful history. -/
theorem History.lawful_singleton {m : Moment} (h : m.state.Sound) : Lawful { latest := m } := by
  constructor
  · exact List.isChain_singleton m
  · intro n hn
    rwa [List.mem_singleton.mp hn]

/-! ### Orderly building -/

namespace HistoryM

/-- Building goes on with a lawful history and narrows the parameters. Unless the compilation is given
up, the same attempts are under way afterwards. -/
def Orderly {α : Type} (r : HistoryM α) : Prop :=
  ∀ h : History, h.Lawful → (r.run h).2.Lawful ∧
    Narrows h.latest.state.params (r.run h).2.latest.state.params ∧
    ((r.run h).1 ≠ .error .tooComplex → (r.run h).2.latest.trials = h.latest.trials)

variable {α β : Type}

theorem orderly_pure (a : α) : Orderly (pure a) :=
  fun _ hl => ⟨hl, .refl _, fun _ => rfl⟩

theorem orderly_throw (fault : CompileFault) : Orderly (throw fault : HistoryM α) :=
  fun _ hl => ⟨hl, .refl _, fun _ => rfl⟩

theorem orderly_bind {r : HistoryM α} {f : α → HistoryM β} (hr : Orderly r)
    (hf : ∀ a, Orderly (f a)) : Orderly (r >>= f) := by
  intro h hl
  obtain ⟨hlawful, hnarrows, htrials⟩ := hr h hl
  rw [run_bind]
  cases hrun : r.run h with
  | mk outcome h' =>
  rw [hrun] at hlawful hnarrows htrials
  cases outcome with
  | error fault => exact ⟨hlawful, hnarrows, fun hfault => htrials fun heq => hfault (by
      rw [Except.error.inj heq])⟩
  | ok a =>
    obtain ⟨hlawful', hnarrows', htrials'⟩ := hf a h' hlawful
    exact ⟨hlawful', hnarrows.trans hnarrows', fun hfault =>
      (htrials' hfault).trans (htrials (by simp))⟩

theorem orderly_state {f : BuildState → HistoryM β} (hf : ∀ s, Orderly (f s)) :
    Orderly (state >>= f) :=
  fun h hl => hf h.latest.state h hl

/-- A single step that narrows the parameters and keeps the state sound. -/
theorem orderly_step {m : BuildM α} (hm : ∀ s : BuildState, s.Sound →
    (m.run s).2.Sound ∧ Narrows s.params (m.run s).2.params) : Orderly (step m) := by
  intro h hl
  obtain ⟨hsound, hnarrows⟩ := hm _ hl.sound_latest
  exact ⟨hl.next (.narrow hnarrows rfl rfl) hsound, hnarrows, fun _ => rfl⟩

theorem orderly_mapM {γ : Type} {f : γ → HistoryM α} {l : List γ} (h : ∀ c ∈ l, Orderly (f c)) :
    Orderly (l.mapM f) := by
  induction l with
  | nil => exact orderly_pure []
  | cons c l ih =>
    simp only [List.mapM_cons]
    refine orderly_bind (h c (List.mem_cons_self ..)) fun a => ?_
    exact orderly_bind (ih fun d hd => h d (List.mem_cons_of_mem _ hd)) fun results => orderly_pure _

end HistoryM

namespace TreeBuilder

open HistoryM

variable {t : TreeBuilder}

theorem orderly_spendSplit : Orderly (step spendSplit) := by
  refine orderly_step fun s hs => ?_
  have hrun : spendSplit.run s =
      (if maxSplits < s.splits + 1 then .error .tooComplex else .ok (), spent s) := by
    rw [spendSplit, BuildM.run_bind, BuildM.run_modify]
    dsimp only
    rw [BuildM.run_bind, BuildM.run_get]
    dsimp only
    split <;> rfl
  rw [hrun]
  exact ⟨⟨hs.typesLeft, hs.built⟩, .refl _⟩

theorem orderly_assemble (head : Head) (operands : List Node) :
    Orderly (step (assemble head operands)) := by
  refine orderly_step fun s hs => ?_
  have hsteps := Node.narrowSteps_assemble head operands s.params
  have hrun : ((assemble head operands).run s).2 =
      { s with params := (Node.assemble head operands s.params).2 } := by
    rw [assemble, BuildM.run_bind, BuildM.run_get]
    dsimp only
    rcases Node.assemble head operands s.params with ⟨fault | node, params⟩ <;> rfl
  rw [hrun]
  exact ⟨⟨hsteps.typesLeft hs.typesLeft, hs.built⟩, hsteps.narrows⟩

/-- A failed attempt is undone to the parameters that it was entered with. -/
theorem orderly_attempt (text : Text) {way : HistoryM Node} (hway : Orderly way) :
    Orderly (t.recordedAttempt text way) := by
  refine orderly_bind orderly_spendSplit fun _ h hl => ?_
  let trial : Trial := { number := h.past.length, saved := h.latest.state.params }
  let entered : History :=
    { latest := { h.latest with trials := trial :: h.latest.trials, undone := none }
      past := h.latest :: h.past }
  have henter : enter.run h = (.ok trial, entered) := rfl
  have hentered : entered.Lawful := hl.next (.enter h.past.length rfl rfl rfl) hl.sound_latest
  obtain ⟨hlawful, hnarrows, htrials⟩ := hway entered hentered
  have hobserve : (observe way).run entered = (.ok (way.run entered).1, (way.run entered).2) := rfl
  rw [run_bind, henter]
  dsimp only
  rw [run_bind, hobserve]
  generalize way.run entered = built at hlawful hnarrows htrials ⊢
  obtain ⟨outcome, h'⟩ := built
  -- The innermost attempt is the one that was entered, unless the compilation is given up.
  cases outcome with
  | ok node =>
    have htop : h'.latest.trials = trial :: h.latest.trials := htrials (by simp)
    have htail : h'.latest.trials.tail = h.latest.trials := by rw [htop, List.tail_cons]
    exact ⟨hlawful.next (.leave trial rfl (htop.trans (congrArg (trial :: ·) htail.symm)) rfl)
      hlawful.sound_latest, hnarrows, fun _ => htail⟩
  | error fault =>
    by_cases hfault : fault = .tooComplex
    · subst hfault
      exact ⟨hlawful, hnarrows, fun h => absurd rfl h⟩
    · have htop : h'.latest.trials = trial :: h.latest.trials :=
        htrials fun heq => hfault (Except.error.inj heq)
      have htail : h'.latest.trials.tail = h.latest.trials := by rw [htop, List.tail_cons]
      have hundo : h'.latest.Follows
          { state := { h'.latest.state with params := trial.saved }
            trials := h'.latest.trials.tail
            undone := some trial } :=
        .undo trial rfl (htop.trans (congrArg (trial :: ·) htail.symm)) rfl
      have hsound : BuildState.Sound { h'.latest.state with params := trial.saved } :=
        ⟨hl.sound_latest.typesLeft, hlawful.sound_latest.built⟩
      cases fault <;>
        first
          | exact absurd rfl hfault
          | exact ⟨hlawful.next hundo hsound, .refl _, fun _ => htail⟩

theorem orderly_first (text : Text) {ways : List (HistoryM Node)}
    (h : ∀ way ∈ ways, Orderly way) : Orderly (t.recordedFirst text ways) := by
  induction ways with
  | nil => exact orderly_pure none
  | cons way ways ih =>
    refine orderly_bind (orderly_attempt text (h way (List.mem_cons_self ..))) fun found => ?_
    cases found with
    | some node => exact orderly_pure _
    | none => exact ih fun w hw => h w (List.mem_cons_of_mem _ hw)

section Parts

variable {build : Text → HistoryM Node} (h : ∀ text, Orderly (build text))
include h

theorem orderly_binaryWays (text : Text) : ∀ way ∈ t.recordedBinaryWays build text, Orderly way := by
  intro way hway
  obtain ⟨s, -, rfl⟩ := List.mem_map.mp hway
  exact orderly_bind (h _) fun _ => orderly_bind (h _) fun _ => orderly_assemble _ _

theorem orderly_unaryWays (text : Text) : ∀ way ∈ t.recordedUnaryWays build text, Orderly way := by
  intro way hway
  obtain ⟨p, -, rfl⟩ := List.mem_map.mp hway
  exact orderly_bind (h _) fun _ => orderly_assemble _ _

theorem orderly_call (text : Text) : Orderly (t.recordedCall build text) := by
  rw [recordedCall]
  split
  · exact orderly_throw _
  · dsimp only
    split
    · exact orderly_throw _
    · exact orderly_bind (orderly_mapM fun arg _ => h arg) fun operands =>
        orderly_bind (orderly_assemble _ _) fun node => orderly_pure _

theorem orderly_composite (text : Text) : Orderly (t.recordedComposite build text) := by
  rw [recordedComposite]
  split
  · exact orderly_call h text
  · refine orderly_bind (orderly_first text (orderly_binaryWays h text)) fun found => ?_
    cases found with
    | some node => exact orderly_pure node
    | none =>
      refine orderly_bind (orderly_first text (orderly_unaryWays h text)) fun found => ?_
      cases found with
      | some node => exact orderly_pure node
      | none => exact orderly_throw _

end Parts

/-- What is recalled lies in the types of the parameters, since these are the ones that the text was
built under. -/
theorem orderly_remember (text : Text) {build : HistoryM Node} (hbuild : Orderly build) :
    Orderly (recordedRemember text build) := by
  intro h hl
  have hstate : state.run h = (.ok h.latest.state, h) := rfl
  rw [recordedRemember, run_bind, hstate]
  dsimp only
  cases hentry : h.latest.state.built[({ text, masks := h.latest.state.masks } : BuildKey)]? with
  | some entry =>
    cases entry with
    | error fault => exact ⟨hl, .refl _, fun _ => rfl⟩
    | ok built =>
      have htightens := hl.sound_latest.built _ _ _ hentry
      have hnarrows := BuildState.narrows_withMasks htightens
      exact ⟨hl.next (.narrow hnarrows rfl rfl)
        ⟨BuildState.typesLeft_withMasks htightens, hl.sound_latest.built⟩, hnarrows, fun _ => rfl⟩
  | none =>
    obtain ⟨hlawful, hnarrows, htrials⟩ := hbuild h hl
    have hobserve : (observe build).run h = (.ok (build.run h).1, (build.run h).2) := rfl
    dsimp only
    rw [run_bind, hobserve]
    generalize build.run h = result at hlawful hnarrows htrials ⊢
    obtain ⟨outcome, h'⟩ := result
    have hsound := hlawful.sound_latest.remember text hnarrows outcome
    cases outcome with
    | ok node =>
      exact ⟨hlawful.next (.narrow (.refl _) rfl rfl) hsound, hnarrows, fun _ => htrials (by simp)⟩
    | error fault =>
      exact ⟨hlawful.next (.narrow (.refl _) rfl rfl) hsound, hnarrows, htrials⟩

/-- Building is orderly. -/
theorem orderly_recordedWithin (depth : Nat) (key : Text) :
    Orderly (t.recordedWithin depth key) := by
  induction depth generalizing key with
  | zero => exact orderly_throw _
  | succ depth ih =>
    rw [recordedWithin, recordedStep]
    split
    · exact orderly_pure _
    · refine orderly_state fun s => ?_
      split
      · exact orderly_pure _
      · split
        · split
          · exact orderly_throw _
          · split
            · exact orderly_call ih _
            · exact ih _
        · exact orderly_remember key (orderly_composite ih key)

end TreeBuilder

/-! ### What lies between two moments -/

/-- From one moment to a later one, the attempts that were under way at the first have at most been
left, and the parameters have been narrowed, also those that later attempts were entered with. -/
structure Moment.Within (a m : Moment) : Prop where
  narrows : Narrows a.state.params m.state.params
  trials : ∃ later kept, m.trials = later ++ kept ∧ (∀ trial ∈ kept, trial ∈ a.trials) ∧
    ∀ trial ∈ later, Narrows a.state.params trial.saved

/-- An attempt of those given has been undone. -/
def Moment.Undoes (m : Moment) (trials : List Trial) : Prop :=
  ∃ trial ∈ trials, m.undone = some trial ∧ m.state.params = trial.saved

namespace Moment

variable {a m n : Moment}

theorem within_self (a : Moment) : a.Within a :=
  ⟨.refl _, [], a.trials, rfl, fun _ h => h, by simp⟩

/-- A moment that follows is as far, or an attempt that was under way at the first is undone. -/
theorem Within.follows (hwithin : a.Within m) (h : m.Follows n) : a.Within n ∨ n.Undoes a.trials := by
  obtain ⟨hnarrows, later, kept, htrials, hkept, hlater⟩ := hwithin
  cases h with
  | narrow hparams hsame _ =>
    exact .inl ⟨hnarrows.trans hparams, later, kept, hsame.trans htrials, hkept, hlater⟩
  | enter number hparams hsame _ =>
    refine .inl ⟨hparams ▸ hnarrows, ⟨number, m.state.params⟩ :: later, kept, ?_, hkept, ?_⟩
    · rw [hsame, htrials, List.cons_append]
    · exact List.forall_mem_cons.mpr ⟨hnarrows, hlater⟩
  | leave trial hparams hsame _ =>
    rw [hsame] at htrials
    left
    cases later with
    | nil =>
      refine ⟨hparams ▸ hnarrows, [], n.trials, rfl, fun t ht => hkept t ?_, by simp⟩
      rw [List.nil_append] at htrials
      exact htrials ▸ List.mem_cons_of_mem _ ht
    | cons first later =>
      obtain ⟨-, htail⟩ := List.cons.inj htrials
      exact ⟨hparams ▸ hnarrows, later, kept, htail, hkept, fun t ht =>
        hlater t (List.mem_cons_of_mem _ ht)⟩
  | undo trial hparams hsame hundone =>
    rw [hsame] at htrials
    cases later with
    | nil =>
      rw [List.nil_append] at htrials
      exact .inr ⟨trial, hkept trial (htrials ▸ List.mem_cons_self ..), hundone, hparams⟩
    | cons first later =>
      obtain ⟨rfl, htail⟩ := List.cons.inj htrials
      exact .inl ⟨hparams ▸ hlater trial (List.mem_cons_self ..), later, kept, htail, hkept,
        fun t ht => hlater t (List.mem_cons_of_mem _ ht)⟩

/-- All moments of a chain are as far, or an attempt that was under way at the first is undone. -/
theorem Within.chain {l : List Moment} (hwithin : a.Within m) (h : (m :: l).IsChain Follows) :
    (∀ n ∈ l, a.Within n) ∨ ∃ n ∈ l, n.Undoes a.trials := by
  induction l generalizing m with
  | nil => exact .inl (by simp)
  | cons n l ih =>
    obtain ⟨hfollows, hchain⟩ := List.isChain_cons_cons.mp h
    rcases hwithin.follows hfollows with hnext | hundoes
    · rcases ih hnext hchain with hall | ⟨k, hk, hundoes⟩
      · exact .inl (List.forall_mem_cons.mpr ⟨hnext, hall⟩)
      · exact .inr ⟨k, List.mem_cons_of_mem _ hk, hundoes⟩
    · exact .inr ⟨n, List.mem_cons_self .., hundoes⟩

end Moment

/-- From one moment to a later one the parameters are narrowed, unless an attempt that was under way at
the first has been undone. -/
theorem History.Lawful.narrows_or_undone {h : History} (hl : h.Lawful) {before between after : List Moment}
    {a b : Moment} (hmoments : h.moments = before ++ a :: (between ++ b :: after)) :
    Narrows a.state.params b.state.params ∨ ∃ m ∈ between ++ [b], m.Undoes a.trials := by
  have hchain := hl.chain
  have hsplit : before ++ a :: (between ++ b :: after) =
      before ++ ((a :: (between ++ [b])) ++ after) := by simp
  rw [hmoments, hsplit] at hchain
  have hinner := (hchain.right_of_append).left_of_append
  rcases (Moment.within_self a).chain hinner with hall | hundone
  · exact .inl (hall b (by simp)).narrows
  · exact .inr hundone

/-! ### The history of a compilation -/

namespace TreeBuilder

variable {t : TreeBuilder}

/-- Where no way of building a text succeeds, the parameters are as they were. -/
theorem params_of_firstSuccess_none (text : Text) {ways : List (BuildM Node)} {s s' : BuildState}
    (h : (t.firstSuccess text ways).run s = (.ok none, s')) : s'.params = s.params := by
  induction ways generalizing s with
  | nil =>
    obtain rfl := (Prod.mk.inj h).2
    rfl
  | cons way ways ih =>
    rw [firstSuccess, BuildM.run_bind] at h
    cases hattempt : (t.attempt text way).run s with
    | mk outcome s₁ =>
    rw [hattempt] at h
    cases outcome with
    | error fault => cases (Prod.mk.inj h).1
    | ok found =>
      cases found with
      | some node => cases (Prod.mk.inj h).1
      | none =>
        have hundone : s₁.params = s.params := by
          rw [run_attempt] at hattempt
          split at hattempt
          · cases (Prod.mk.inj hattempt).1
          · split at hattempt
            · cases (Prod.mk.inj hattempt).1
            · cases (Prod.mk.inj hattempt).1
            · rw [← (Prod.mk.inj hattempt).2]
        exact (ih h).trans hundone

/-- A text is built from a sound state to parameters that are narrower and have types left. -/
theorem narrows_of_buildWithin {s s' : BuildState} (hs : s.Sound) {depth : Nat} {text : Text}
    {outcome : Except CompileFault Node} (h : (t.buildWithin depth text).run s = (outcome, s')) :
    Narrows s.params s'.params ∧ TypesLeft s'.params := by
  have herases := erases_recordedWithin (t := t) depth text { latest := { state := s } }
  obtain ⟨hlawful, hnarrows, -⟩ := orderly_recordedWithin (t := t) depth text
    { latest := { state := s } } (History.lawful_singleton hs)
  rw [h] at herases
  obtain ⟨-, rfl⟩ := Prod.mk.inj herases
  exact ⟨hnarrows, hlawful.sound_latest.typesLeft⟩

end TreeBuilder

namespace Compiler

/-- The parameters of a source start with all types. -/
theorem Resolves.typesLeft {c : Compiler} {source : Text} {ctx : Context}
    (h : c.Resolves source ctx) : TypesLeft ctx.params := by
  obtain ⟨-, -, -, -, sorted, -, -, -, rfl⟩ := exists_stages h
  intro p hp
  rw [(Context.mem_orderedParameters.mp hp).1]
  rfl

/-- The history of a compilation, from the tables of a source to its tree. No parameter is ever without
a type, also not half-way through an assembly. From every moment, splits that all fail leave the
parameters as they were, and a text that is built leaves the same parameters with narrower types. From
one moment to a later one the parameters are narrowed, unless an attempt that was under way at the first
has been undone. -/
theorem splits_atomic (c : Compiler) {source : Text} {ctx : Context} (hctx : c.Resolves source ctx) :
    let t := TreeBuilder.ofDefinition c.definition c.tokens c.registry ctx
    let built := (t.recordedBuild Context.mainName).run (.start ctx.params)
    (t.build Context.mainName).run { params := ctx.params } = (built.1, built.2.latest.state) ∧
    (∀ m ∈ built.2.moments,
      (∀ params, NarrowSteps m.state.params params → TypesLeft params) ∧
      (∀ depth text s, (t.firstSuccess text (t.binaryWays (t.buildWithin depth) text)).run m.state =
        (.ok none, s) → s.params = m.state.params) ∧
      (∀ depth text s, (t.firstSuccess text (t.unaryWays (t.buildWithin depth) text)).run m.state =
        (.ok none, s) → s.params = m.state.params) ∧
      ∀ depth text node s, (t.buildWithin depth text).run m.state = (.ok node, s) →
        Narrows m.state.params s.params ∧ TypesLeft s.params) ∧
    ∀ before a between b after, built.2.moments = before ++ a :: (between ++ b :: after) →
      Narrows a.state.params b.state.params ∨ ∃ m ∈ between ++ [b], m.Undoes a.trials := by
  intro t built
  have hstart : (History.start ctx.params).Lawful :=
    History.lawful_singleton ⟨hctx.typesLeft, fun key node masks hfound => by simp at hfound⟩
  obtain ⟨hlawful, -, -⟩ :=
    TreeBuilder.orderly_recordedWithin (t := t) t.depthBound Context.mainName _ hstart
  refine ⟨TreeBuilder.erases_recordedWithin _ _ (.start ctx.params), fun m hm => ?_,
    fun before a between b after hmoments => hlawful.narrows_or_undone hmoments⟩
  have hsound := hlawful.sound m hm
  exact ⟨fun params hsteps => hsteps.typesLeft hsound.typesLeft,
    fun _ text _ => TreeBuilder.params_of_firstSuccess_none text,
    fun _ text _ => TreeBuilder.params_of_firstSuccess_none text,
    fun _ _ _ _ => TreeBuilder.narrows_of_buildWithin hsound⟩

/-- The history of the text `x="y"`. -/
theorem splits_atomic_comparison :
    (common .mathematical).Resolves "x=\"y\"".toList comparisonTables ∧
      let t := TreeBuilder.ofDefinition (common .mathematical).definition
        (common .mathematical).tokens (common .mathematical).registry comparisonTables
      let built := (t.recordedBuild Context.mainName).run (.start comparisonTables.params)
      (t.build Context.mainName).run { params := comparisonTables.params } =
        (built.1, built.2.latest.state) ∧
      ∀ m ∈ built.2.moments, TypesLeft m.state.params := by
  obtain ⟨hbuild, hmoments, -⟩ := splits_atomic _ resolves_comparison
  exact ⟨resolves_comparison, hbuild, fun m hm => (hmoments m hm).1 _ .refl⟩

end Compiler

end Formula
