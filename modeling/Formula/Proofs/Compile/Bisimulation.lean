import Formula.Proofs.Compile.Answers
import Formula.Proofs.Typing.Labels

/-!
# Texts that are taken apart alike

Two compilations of different texts have different names in their tables, and one may name a part that
the other leaves as it is. Where their texts are taken apart alike, up to such names, they have the same
answers. A relation between the texts of two builders is a bisimulation if related texts are the same
operand, or heads applied to related parts in the same ways, once the names that stand for other texts
have been followed. On the first side that is one name at a time. On the second it is any finite number,
so that a name on the first side need not have a counterpart.

## Main definitions

* `TreeBuilder.StandsFor`: the texts that a name stands for.
* `TreeBuilder.Bisimulation`: a relation between texts that are taken apart alike.

## Main results

* `TreeBuilder.Bisimulation.exists_answer`: related texts have the same answers, up to labels.
* `TreeBuilder.Bisimulation.build`: builders that do not give up agree on related texts.
-/

namespace Formula

open Text

namespace TreeBuilder

/-- A text stands for another one, after any number of names. -/
inductive StandsFor (t : TreeBuilder) : Text → Text → Prop
  | refl (key : Text) : StandsFor t key key
  | step {key text last : Text} (hkey : t.analyze key = .other text) (h : StandsFor t text last) :
      StandsFor t key last

theorem StandsFor.answer_eq {t : TreeBuilder} {key last : Text} (h : t.StandsFor key last)
    (params : List Parameter) : t.answer key params = t.answer last params := by
  induction h with
  | refl => rfl
  | step hkey _ ih =>
    rw [t.answer_eq, ← ih, answerStep, hkey]

theorem StandsFor.trans {t : TreeBuilder} {a b c : Text} (h : t.StandsFor a b) (h' : t.StandsFor b c) :
    t.StandsFor a c := by
  induction h with
  | refl => exact h'
  | step hkey _ ih => exact .step hkey (ih h')

/-- How related texts are taken apart: the same operands, or the same heads with related parts. -/
inductive Analysis.Related (r : Text → Text → Prop) : Analysis → Analysis → Prop
  | operand {node node' : Node} (h : node.unlabeled = node'.unlabeled) :
      Related r (.operand node) (.operand node')
  | applied {text text' : Text} {ways ways' : List (Head × List Text)}
      (h : List.Forall₂ (fun w w' => w.1 = w'.1 ∧ List.Forall₂ r w.2 w'.2) ways ways') :
      Related r (.applied text ways) (.applied text' ways')

/-- A relation between texts that are taken apart alike. -/
structure Bisimulation (t t' : TreeBuilder) (r : Text → Text → Prop) : Prop where
  registry : t.registry = t'.registry
  step : ∀ {key key' : Text}, r key key' → ∃ last, t'.StandsFor key' last ∧
    ((∃ text, t.analyze key = .other text ∧ r text last) ∨
      (t.analyze key).Related r (t'.analyze last))

/-- Answers that differ in labels only. -/
def Answer.Like {α : Type} (r : α → α → Prop) (a a' : Answer α) : Prop :=
  Option.Rel (fun p p' => r p.1 p'.1 ∧ unnamed p.2 = unnamed p'.2) a a'

/-- Trees that differ in labels only. -/
def SameTree (n n' : Node) : Prop :=
  n.unlabeled = n'.unlabeled

theorem like_assembled (head : Head) {nodes nodes' : List Node} {params params' : List Parameter}
    (hnodes : nodes.map Node.unlabeled = nodes'.map Node.unlabeled)
    (hparams : unnamed params = unnamed params') :
    Answer.Like SameTree (assembled head nodes params) (assembled head nodes' params') := by
  have h := Node.assemble_unlabeled head nodes params
  have h' := Node.assemble_unlabeled head nodes' params'
  rw [hnodes, hparams] at h
  have heq := h.symm.trans h'
  simp only [assembled]
  generalize Node.assemble head nodes params = x, Node.assemble head nodes' params' = x' at heq
  obtain ⟨fault | node, q⟩ := x <;> obtain ⟨fault' | node', q'⟩ := x'
  · exact .none
  · cases (Prod.mk.inj heq).1
  · cases (Prod.mk.inj heq).1
  · exact .some ⟨Except.ok.inj (Prod.mk.inj heq).1, (Prod.mk.inj heq).2⟩

section Answers

variable {t t' : TreeBuilder} {r : Text → Text → Prop}
  {answer : Text → List Parameter → Option (Answer Node)}
  (h : ∀ key params found, answer key params = some found → ∀ key' params', r key key' →
    unnamed params = unnamed params' →
      ∃ found', t'.answer key' params' = some found' ∧ Answer.Like SameTree found found')
include h

theorem exists_answerParts {parts parts' : List Text} (hparts : List.Forall₂ r parts parts')
    {params params' : List Parameter} (hparams : unnamed params = unnamed params')
    {found : Answer (List Node)} (hfound : answerParts answer parts params = some found) :
    ∃ found', answerParts t'.answer parts' params' = some found' ∧
      Answer.Like (fun ns ns' => ns.map Node.unlabeled = ns'.map Node.unlabeled) found found' := by
  induction hparts generalizing params params' found with
  | nil =>
    obtain rfl := Option.some.inj hfound
    exact ⟨_, rfl, .some ⟨rfl, hparams⟩⟩
  | @cons part part' parts parts' hpart _ ih =>
    rw [answerParts] at hfound
    obtain ⟨result, hresult, hfound⟩ := Option.bind_eq_some_iff.mp hfound
    obtain ⟨result', hresult', hlike⟩ := h _ _ _ hresult _ _ hpart hparams
    rw [answerParts, hresult']
    cases hlike with
    | none =>
      obtain rfl := Option.some.inj hfound
      exact ⟨none, rfl, .none⟩
    | @some p p' hp =>
      obtain ⟨rest, hrest, hfound⟩ := Option.bind_eq_some_iff.mp hfound
      obtain ⟨rest', hrest', hlike⟩ := ih hp.2 hrest
      obtain rfl := Option.some.inj hfound
      refine ⟨rest'.map fun q => (p'.1 :: q.1, q.2), ?_, ?_⟩
      · change Option.bind (answerParts t'.answer parts' p'.2) _ = _
        rw [hrest']
        rfl
      · cases hlike with
        | none => exact .none
        | some hq =>
          exact .some ⟨congrArg₂ List.cons hp.1 hq.1, hq.2⟩

theorem exists_answerWay (hregistry : t.registry = t'.registry) (text text' : Text)
    {way way' : Head × List Text} (hhead : way.1 = way'.1) (hparts : List.Forall₂ r way.2 way'.2)
    {params params' : List Parameter} (hparams : unnamed params = unnamed params')
    {found : Answer Node} (hfound : t.answerWay answer text way params = some found) :
    ∃ found', t'.answerWay t'.answer text' way' params' = some found' ∧
      Answer.Like SameTree found found' := by
  rw [answerWay] at hfound
  obtain ⟨nodes, hnodes, hfound⟩ := Option.bind_eq_some_iff.mp hfound
  obtain ⟨nodes', hnodes', hlike⟩ := exists_answerParts h hparts hparams hnodes
  obtain rfl := Option.some.inj hfound
  rw [answerWay, hnodes']
  refine ⟨_, rfl, ?_⟩
  cases hlike with
  | none => exact .none
  | @some p p' hp =>
    have hassembled := like_assembled way.1 hp.1 hp.2
    rw [hhead] at hassembled
    dsimp only [Option.bind_some]
    rw [hhead]
    generalize assembled way'.1 p.1 p.2 = x, assembled way'.1 p'.1 p'.2 = x' at hassembled
    cases hassembled with
    | none => exact .none
    | @some q q' hq =>
      refine .some ⟨?_, hq.2⟩
      change (q.1.fold t.registry _).unlabeled = (q'.1.fold t'.registry _).unlabeled
      rw [Node.unlabeled_fold, Node.unlabeled_fold, hregistry,
        show q.1.unlabeled = q'.1.unlabeled from hq.1]

theorem exists_findSomeM? (hregistry : t.registry = t'.registry) (text text' : Text)
    {ways ways' : List (Head × List Text)}
    (hways : List.Forall₂ (fun w w' => w.1 = w'.1 ∧ List.Forall₂ r w.2 w'.2) ways ways')
    {params params' : List Parameter} (hparams : unnamed params = unnamed params')
    {found : Answer Node}
    (hfound : (ways.findSomeM? fun way => t.answerWay answer text way params) = some found) :
    ∃ found', (ways'.findSomeM? fun way => t'.answerWay t'.answer text' way params') = some found' ∧
      Answer.Like SameTree found found' := by
  induction hways with
  | nil =>
    obtain rfl := Option.some.inj hfound
    exact ⟨none, rfl, .none⟩
  | @cons way way' ways ways' hway _ ih =>
    rw [List.findSomeM?_cons] at hfound
    obtain ⟨result, hresult, hfound⟩ := Option.bind_eq_some_iff.mp hfound
    obtain ⟨result', hresult', hlike⟩ :=
      exists_answerWay h hregistry text text' hway.1 hway.2 hparams hresult
    rw [List.findSomeM?_cons, hresult']
    cases hlike with
    | none => exact ih hfound
    | some hp =>
      obtain rfl := Option.some.inj hfound
      exact ⟨_, rfl, .some hp⟩

end Answers

namespace Bisimulation

variable {t t' : TreeBuilder} {r : Text → Text → Prop} (h : Bisimulation t t' r)
include h

/-- Related texts have the same answers, up to labels. -/
theorem exists_answer {key key' : Text} (hkey : r key key') {params params' : List Parameter}
    (hparams : unnamed params = unnamed params') {found : Answer Node}
    (hfound : t.answer key params = some found) :
    ∃ found', t'.answer key' params' = some found' ∧ Answer.Like SameTree found found' := by
  refine t.answer_induct (motive := fun key params found => ∀ key' params', r key key' →
    unnamed params = unnamed params' → ∃ found', t'.answer key' params' = some found' ∧
      Answer.Like SameTree found found') ?_ hfound key' params' hkey hparams
  intro answer ih key params found hfound key' params' hkey hparams
  obtain ⟨last, hstands, hstep⟩ := h.step hkey
  rw [hstands.answer_eq]
  rw [answerStep] at hfound
  rcases hstep with ⟨text, htext, hrelated⟩ | hrelated
  · rw [htext] at hfound
    exact ih _ _ _ hfound _ _ hrelated hparams
  · rw [answer_eq, answerStep]
    generalize t.analyze key = analysis, t'.analyze last = analysis' at hfound hrelated
    cases hrelated with
    | operand hnode =>
      obtain rfl := Option.some.inj hfound
      exact ⟨_, rfl, .some ⟨hnode, hparams⟩⟩
    | applied hways => exact exists_findSomeM? ih h.registry _ _ hways hparams hfound

/-- Builders that do not give up agree on related texts: where one builds a tree, so does the other,
and the trees and the types of the parameters are the same. -/
theorem build {key key' : Text} (hkey : r key key')
    (hparams : unnamed t.context.params = unnamed t'.context.params) {node : Node} {s : BuildState}
    (hbuild : (t.build key).run { params := t.context.params } = (.ok node, s))
    (hcomplex : ((t'.build key').run { params := t'.context.params }).1 ≠ .error .tooComplex) :
    ∃ node' s', (t'.build key').run { params := t'.context.params } = (.ok node', s') ∧
      node.unlabeled = node'.unlabeled ∧ unnamed s.params = unnamed s'.params := by
  have hanswer := t.answer_of_build key (by rw [hbuild]; simp)
  rw [hbuild] at hanswer
  obtain ⟨found, hfound, hlike⟩ := h.exists_answer hkey hparams hanswer
  rw [t'.answer_of_build key' hcomplex] at hfound
  obtain rfl := Option.some.inj hfound
  rcases hrun : (t'.build key').run { params := t'.context.params } with ⟨fault | node', s'⟩
  · rw [hrun] at hlike
    cases hlike
  · rw [hrun] at hlike
    cases hlike with
    | some hp => exact ⟨node', s', rfl, hp.1, hp.2⟩

end Bisimulation

end TreeBuilder

end Formula
