import Mathlib.Data.List.Perm.Subperm
import Mathlib.Logic.Relation
import Formula.Proofs.Compile.Answers

/-!
# How deep building goes

Building goes from a text to shorter ones, and from the name of a symbol to its text. So it comes to
an end unless a text leads back to itself, and the nesting is at most the number of symbols times the
length of their texts. That is the bound of the builder: it has no part in what is built unless a text
leads back to itself. Where building would go on from one text to the next without end, there is no
answer, and the builder gives the text up as too complex.

## Main definitions

* `TreeBuilder.parts`, `TreeBuilder.Leads`: the texts that a text is built from.
* `TreeBuilder.EndsWithin`: a bound on the nesting below a text.
* `TreeBuilder.IsAcyclicFrom`: no text that a given one leads to leads back to itself.
* `TreeBuilder.Forces`: the text that is the first to be built for another one.

## Main results

* `TreeBuilder.isAcyclicFrom_iff`: the nesting has an end just if no text leads back to itself.
* `TreeBuilder.buildWithin_eq_build`, `TreeBuilder.IsAcyclicFrom.isSome_answer`: then the bound has no
  part, and there is an answer.
* `TreeBuilder.answer_eq_none_of_forces`, `TreeBuilder.build_of_forces`: where texts lead on without
  end there is no answer, and the builder gives up.
-/

namespace Formula

open Text

namespace TreeBuilder

variable {t : TreeBuilder}

/-! ### The parts of a text -/

/-- The texts that are built for a name or a text. -/
def parts (t : TreeBuilder) (key : Text) : List Text :=
  match t.context.constant? key with
  | some _ => []
  | none =>
    match t.context.symbol? key with
    | some s =>
      if s.text = key then []
      else if s.isCall then (t.callWays s.text).flatMap Prod.snd
      else [s.text]
    | none =>
      (if (t.splitCall? key).isSome then t.callWays key else t.splitWays key).flatMap Prod.snd

/-- A text leads to those that are built for it. -/
def Leads (t : TreeBuilder) (key part : Text) : Prop :=
  part ∈ t.parts key

theorem mapM_congr {build build' : Text → BuildM Node} {texts : List Text}
    (h : ∀ text ∈ texts, build text = build' text) : texts.mapM build = texts.mapM build' := by
  induction texts with
  | nil => rfl
  | cons text texts ih =>
    rw [List.forall_mem_cons] at h
    rw [List.mapM_cons, List.mapM_cons, h.1, ih h.2]

section Steps

variable {build build' : Text → BuildM Node} {text key : Text}

theorem buildCall_congr
    (h : ∀ part ∈ (t.callWays text).flatMap Prod.snd, build part = build' part) :
    t.buildCall build text = t.buildCall build' text := by
  rw [buildCall, buildCall]
  rw [callWays] at h
  cases hsplit : t.splitCall? text with
  | none => rfl
  | some call =>
    rw [hsplit] at h
    dsimp only at h ⊢
    rw [callArguments] at h
    cases hlookup : Function.lookup? (String.ofList call.1)
        (if call.2 = [] then [] else splitAll t.tokens.separator call.2).length with
    | none => rfl
    | some f =>
      rw [hlookup] at h
      rw [mapM_congr fun arg harg => h arg (by simpa using harg)]

theorem buildComposite_congr (h : ∀ part ∈ (if (t.splitCall? text).isSome then t.callWays text
      else t.splitWays text).flatMap Prod.snd, build part = build' part) :
    t.buildComposite build text = t.buildComposite build' text := by
  rw [buildComposite, buildComposite]
  by_cases hcall : (t.splitCall? text).isSome = true
  · rw [if_pos hcall] at h
    rw [if_pos hcall, if_pos hcall, buildCall_congr h]
  · rw [if_neg hcall, splitWays, List.flatMap_append, List.forall_mem_append] at h
    have hbinary : t.binaryWays build text = t.binaryWays build' text := by
      refine List.map_congr_left fun split hsplit => ?_
      have hparts : ∀ part ∈ [text.take split.place, text.drop (split.place + split.width)],
          build part = build' part := fun part hpart =>
        h.1 part (List.mem_flatMap.mpr ⟨_, List.mem_map_of_mem hsplit, hpart⟩)
      rw [hparts _ (List.mem_cons_self ..),
        hparts _ (List.mem_cons_of_mem _ (List.mem_singleton_self _))]
    have hunary : t.unaryWays build text = t.unaryWays build' text := by
      rw [unaryWays_eq_map, unaryWays_eq_map]
      refine List.map_congr_left fun p hp => ?_
      rw [h.2 p.2 (List.mem_flatMap.mpr ⟨_, List.mem_map_of_mem hp, List.mem_singleton_self _⟩)]
    rw [if_neg hcall, if_neg hcall, hbinary, hunary]

/-- A step asks for the parts of its text only. -/
theorem buildStep_congr (h : ∀ part ∈ t.parts key, build part = build' part) :
    t.buildStep build key = t.buildStep build' key := by
  rw [buildStep, buildStep]
  rw [parts] at h
  cases hconstant : t.context.constant? key with
  | some c => rfl
  | none =>
    rw [hconstant] at h
    dsimp only at h ⊢
    refine bind_congr fun s => ?_
    cases Context.parameterIndex? s.params key with
    | some id => rfl
    | none =>
      cases hsymbol : t.context.symbol? key with
      | none =>
        rw [hsymbol] at h
        exact congrArg (remember key) (buildComposite_congr h)
      | some symbol =>
        rw [hsymbol] at h
        dsimp only at h ⊢
        split
        · rfl
        · next hself =>
          rw [if_neg hself] at h
          split
          · next hcall =>
            rw [if_pos hcall] at h
            exact buildCall_congr h
          · next hcall =>
            rw [if_neg hcall] at h
            exact h _ (List.mem_singleton_self _)

end Steps

/-! ### A bound on the nesting -/

/-- Below a text the nesting ends within a number of steps. -/
def EndsWithin (t : TreeBuilder) : Nat → Text → Prop
  | 0, _ => False
  | n + 1, key => ∀ part ∈ t.parts key, t.EndsWithin n part

/-- A bound that the nesting does not reach has no part in what is built. -/
theorem buildWithin_of_endsWithin {n depth : Nat} {key : Text} (h : t.EndsWithin n key)
    (hle : n ≤ depth) : t.buildWithin depth key = t.buildWithin n key := by
  induction n generalizing depth key with
  | zero => exact h.elim
  | succ n ih =>
    obtain ⟨d, rfl⟩ := Nat.exists_eq_add_of_le' hle
    rw [← Nat.add_assoc, buildWithin, buildWithin]
    exact buildStep_congr fun part hpart => ih (h part hpart) (by omega)

/-! ### The nesting where no text leads back to itself -/

theorem length_le_of_mem_splitFrom {token text part : Text} {skip : Nat}
    (h : part ∈ splitFrom token skip text) : part.length ≤ text.length := by
  fun_induction splitFrom token skip text generalizing part with
  | case1 =>
    obtain rfl := List.mem_singleton.mp h
    exact Nat.le_refl _
  | case2 skip c text ih => exact (ih h).trans (Nat.le_succ _)
  | case3 c text hstarts ih =>
    rcases List.mem_cons.mp h with rfl | h
    · exact Nat.zero_le _
    · exact (ih h).trans (Nat.le_succ _)
  | case4 c text hstarts ih =>
    obtain ⟨first, others, hparts⟩ := List.exists_cons_of_ne_nil (splitFrom_ne_nil token 0 text)
    rw [hparts, List.modifyHead_cons] at h
    rw [hparts] at ih
    rcases List.mem_cons.mp h with rfl | h
    · exact Nat.succ_le_succ (ih (List.mem_cons_self ..))
    · exact (ih (List.mem_cons_of_mem _ h)).trans (Nat.le_succ _)

/-- What stands between the parentheses of a call is shorter than the call. -/
theorem length_of_splitCall? {text name inner : Text} (h : t.splitCall? text = some (name, inner)) :
    inner.length < text.length := by
  unfold splitCall? at h
  split at h
  · cases h
  next c rest =>
  split at h
  · obtain ⟨short, hshort, h⟩ := List.exists_of_findSome?_eq_some h
    dsimp only at h
    split at h
    · cases h
    next after hafter =>
    obtain ⟨inner', hbefore, heq⟩ := Option.map_eq_some_iff.mp h
    obtain ⟨-, rfl⟩ := Prod.mk.inj heq
    obtain ⟨reversed, hreversed, rfl⟩ := Option.map_eq_some_iff.mp hbefore
    have hlong := congrArg List.length (after?_eq_some_iff.mp hafter)
    have hend := congrArg List.length (after?_eq_some_iff.mp hreversed)
    rw [List.length_drop, List.length_append] at hlong
    rw [List.length_append, List.length_reverse] at hend
    rw [List.mem_range] at hshort
    rw [List.length_reverse]
    have := List.length_pos_of_ne_nil (List.cons_ne_nil c rest)
    omega
  · cases h

theorem length_lt_of_mem_callWays {text part : Text}
    (h : part ∈ (t.callWays text).flatMap Prod.snd) : part.length < text.length := by
  rw [callWays] at h
  split at h
  · cases h
  next name inner hsplit =>
  split at h
  · cases h
  have hmem : part ∈ t.callArguments inner := by simpa using h
  rw [callArguments] at hmem
  split at hmem
  · cases hmem
  · exact (length_le_of_mem_splitFrom hmem).trans_lt (length_of_splitCall? hsplit)

/-- A text is split into parts of it, and only an operator without a token leaves all of it. -/
theorem length_of_mem_splitWays {text part : Text}
    (h : part ∈ (t.splitWays text).flatMap Prod.snd) : part.length < text.length ∨ part = text := by
  rw [splitWays, List.flatMap_append, List.mem_append] at h
  rcases h with h | h
  · obtain ⟨way, hway, hpart⟩ := List.mem_flatMap.mp h
    obtain ⟨split, hsplit, rfl⟩ := List.mem_map.mp hway
    simp only [candidates, List.mem_mergeSort, List.mem_filter, Bool.and_eq_true,
      decide_eq_true_eq] at hsplit
    obtain ⟨-, hleft, hright⟩ := hsplit
    simp only [List.mem_cons, List.not_mem_nil, or_false] at hpart
    rcases hpart with rfl | rfl
    · rw [List.length_take]
      omega
    · rw [List.length_drop]
      omega
  · obtain ⟨way, hway, hpart⟩ := List.mem_flatMap.mp h
    obtain ⟨p, hp, rfl⟩ := List.mem_map.mp hway
    obtain rfl := List.mem_singleton.mp hpart
    obtain ⟨⟨op, token⟩, -, hafter⟩ := List.mem_filterMap.mp hp
    dsimp only at hafter
    split at hafter
    · cases hafter
    · cases hafter
    next rest _ hrest =>
    obtain rfl := Option.some.inj hafter
    obtain rfl := after?_eq_some_iff.mp hrest
    cases token with
    | nil => exact .inr rfl
    | cons c token =>
      rw [List.cons_append, List.length_cons, List.length_append]
      exact .inl (Nat.lt_succ_of_le (Nat.le_add_left ..))

theorem le_foldl_length (symbols : List (Text × Symbol)) (n : Nat) :
    n ≤ symbols.foldl (fun n (_, s) => max n s.text.length) n := by
  induction symbols generalizing n with
  | nil => exact Nat.le_refl n
  | cons entry symbols ih => exact (Nat.le_max_left ..).trans (ih _)

theorem length_le_longest {key : Text} {s : Symbol} (h : t.context.symbol? key = some s) :
    s.text.length ≤ t.longest := by
  obtain ⟨before, rest, heq⟩ := List.append_of_mem (Context.mem_symbols_of_symbol? h)
  rw [longest, heq, List.foldl_append, List.foldl_cons]
  exact (Nat.le_max_right ..).trans (le_foldl_length ..)

/-- No text that a given one leads to leads back to itself. -/
def IsAcyclicFrom (t : TreeBuilder) (key : Text) : Prop :=
  ∀ text, Relation.ReflTransGen t.Leads key text → ¬Relation.TransGen t.Leads text text

/-- The symbols on the way to a text differ, so there are at most as many as there are symbols; between
two of them the texts become shorter. -/
theorem IsAcyclicFrom.endsWithin {key : Text} (h : t.IsAcyclicFrom key) {path : List Text}
    (hnodup : path.Nodup) (hpath : ∀ name ∈ path,
      (t.context.symbol? name).isSome ∧ Relation.TransGen t.Leads name key)
    {n : Nat} (hn : (t.context.symbols.length - path.length) * (t.longest + 2) + key.length < n) :
    t.EndsWithin n key := by
  induction n generalizing key path with
  | zero => cases hn
  | succ n ih =>
    intro part hpart
    have hleads : t.Leads key part := hpart
    have hpath' : ∀ name ∈ path,
        (t.context.symbol? name).isSome ∧ Relation.TransGen t.Leads name part := fun name hname =>
      ⟨(hpath name hname).1, (hpath name hname).2.tail hleads⟩
    have hacyclic : t.IsAcyclicFrom part := fun text htext => h text (htext.head hleads)
    rw [parts] at hpart
    cases hconstant : t.context.constant? key with
    | some c =>
      rw [hconstant] at hpart
      cases hpart
    | none =>
    rw [hconstant] at hpart
    dsimp only at hpart
    cases hsymbol : t.context.symbol? key with
    | none =>
      rw [hsymbol] at hpart
      have hshort : part.length < key.length := by
        dsimp only at hpart
        split at hpart
        · exact length_lt_of_mem_callWays hpart
        · exact (length_of_mem_splitWays hpart).resolve_right fun heq =>
            h key .refl (.single (heq ▸ hleads))
      exact ih hacyclic hnodup hpath' (by omega)
    | some s =>
      rw [hsymbol] at hpart
      have hsome : (t.context.symbol? key).isSome := by rw [hsymbol, Option.isSome_some]
      have hnew : (key :: path).Nodup :=
        List.nodup_cons.mpr ⟨fun hmem => h key .refl (hpath key hmem).2, hnodup⟩
      have hcount : path.length + 1 ≤ t.context.symbols.length := by
        have hsubset : key :: path ⊆ t.context.symbols.map Prod.fst := List.cons_subset.mpr
          ⟨Context.isSome_symbol?_iff.mp hsome,
            fun name hname => Context.isSome_symbol?_iff.mp (hpath name hname).1⟩
        simpa using (List.subperm_of_subset hnew hsubset).length_le
      have hlong := length_le_longest hsymbol
      have hshort : part.length ≤ s.text.length := by
        dsimp only at hpart
        split at hpart
        · cases hpart
        · split at hpart
          · exact (length_lt_of_mem_callWays hpart).le
          · obtain rfl := List.mem_singleton.mp hpart
            exact Nat.le_refl _
      refine ih hacyclic hnew (List.forall_mem_cons.mpr ⟨⟨hsome, .single hleads⟩, hpath'⟩) ?_
      obtain ⟨k, hk⟩ := Nat.exists_eq_add_of_le hcount
      rw [hk, List.length_cons, Nat.add_sub_cancel_left]
      rw [hk, Nat.add_right_comm, Nat.add_assoc, Nat.add_sub_cancel_left, Nat.add_mul] at hn
      omega

/-- The nesting below a text that another one leads to ends earlier. -/
theorem EndsWithin.of_leads {n : Nat} {text part : Text} (h : t.EndsWithin n text)
    (hleads : Relation.TransGen t.Leads text part) : ∃ m < n, t.EndsWithin m part := by
  induction hleads with
  | single hpart =>
    cases n with
    | zero => exact h.elim
    | succ n => exact ⟨n, Nat.lt_succ_self n, h _ hpart⟩
  | tail _ hpart ih =>
    obtain ⟨m, hm, hends⟩ := ih
    cases m with
    | zero => exact hends.elim
    | succ m => exact ⟨m, Nat.lt_of_succ_lt hm, hends _ hpart⟩

theorem EndsWithin.not_leads {n : Nat} {text : Text} (h : t.EndsWithin n text) :
    ¬Relation.TransGen t.Leads text text := by
  induction n using Nat.strongRecOn with
  | _ n ih =>
    intro hleads
    obtain ⟨m, hm, hends⟩ := h.of_leads hleads
    exact ih m hm hends hleads

/-- The nesting below a text has an end just if no text on the way leads back to itself. -/
theorem isAcyclicFrom_iff {key : Text} : t.IsAcyclicFrom key ↔ ∃ n, t.EndsWithin n key := by
  constructor
  · exact fun h => ⟨_, h.endsWithin List.nodup_nil (List.forall_mem_nil _) (Nat.lt_succ_self _)⟩
  · rintro ⟨n, hn⟩ text htext
    rcases Relation.reflTransGen_iff_eq_or_transGen.mp htext with rfl | hleads
    · exact hn.not_leads
    · obtain ⟨m, -, hm⟩ := hn.of_leads hleads
      exact hm.not_leads

/-- The text `-x` leads to `x`, which leads no further. -/
example : (common .mathematical negationTables).IsAcyclicFrom Context.mainName := by
  have hx : (common .mathematical negationTables).parts "x".toList = [] := by
    have hcandidates : (common .mathematical negationTables).candidates "x".toList = [] :=
      (candidates_of_inner (by decide)).trans List.mergeSort_nil
    change (splitWays _ _).flatMap Prod.snd = _
    rw [splitWays, hcandidates]
    rfl
  have htext : (common .mathematical negationTables).parts "-x".toList = ["x".toList] := by
    have hcandidates : (common .mathematical negationTables).candidates "-x".toList = [] :=
      (candidates_of_inner (by decide)).trans List.mergeSort_nil
    change (splitWays _ _).flatMap Prod.snd = _
    rw [splitWays, hcandidates]
    rfl
  refine isAcyclicFrom_iff.mpr ⟨3, List.forall_mem_singleton.mpr ?_⟩
  rw [EndsWithin, htext, List.forall_mem_singleton, EndsWithin, hx]
  exact List.forall_mem_nil _

section Acyclic

variable {key : Text} (h : t.IsAcyclicFrom key) (hkey : key.length ≤ t.longest)
include h hkey

theorem IsAcyclicFrom.endsWithin_depthBound : t.EndsWithin t.depthBound key := by
  refine h.endsWithin List.nodup_nil (List.forall_mem_nil _) ?_
  rw [depthBound, Nat.succ_mul, List.length_nil, Nat.sub_zero]
  omega

/-- Unless a text leads back to itself, a larger bound changes nothing. -/
theorem buildWithin_eq_build {depth : Nat} (hle : t.depthBound ≤ depth) :
    t.buildWithin depth key = t.build key :=
  buildWithin_of_endsWithin (h.endsWithin_depthBound hkey) hle

end Acyclic

/-! ### Answers where there is an end -/

section Answers

variable {answer : Text → List Parameter → Option (Answer Node)}

theorem isSome_answerParts {texts : List Text}
    (h : ∀ text ∈ texts, ∀ params, (answer text params).isSome) (params : List Parameter) :
    (answerParts answer texts params).isSome := by
  induction texts generalizing params with
  | nil => rfl
  | cons text texts ih =>
    rw [List.forall_mem_cons] at h
    obtain ⟨found, hfound⟩ := Option.isSome_iff_exists.mp (h.1 params)
    rw [answerParts, hfound]
    cases found with
    | none => rfl
    | some found =>
      obtain ⟨more, hmore⟩ := Option.isSome_iff_exists.mp (ih h.2 found.2)
      simp [hmore]

theorem isSome_answerWays {text : Text} {ways : List (Head × List Text)} {params : List Parameter}
    (h : ∀ part ∈ ways.flatMap Prod.snd, ∀ params, (answer part params).isSome) :
    (ways.findSomeM? fun way => t.answerWay answer text way params).isSome := by
  induction ways with
  | nil => rfl
  | cons way ways ih =>
    rw [List.flatMap_cons, List.forall_mem_append] at h
    obtain ⟨found, hfound⟩ := Option.isSome_iff_exists.mp (isSome_answerParts h.1 params)
    rw [List.findSomeM?_cons, answerWay, hfound]
    dsimp only [Option.bind_eq_bind, Option.bind_some, Option.pure_def]
    split
    · rfl
    · exact ih h.2

theorem isSome_answerStep {key : Text}
    (h : ∀ part ∈ t.parts key, ∀ params, (answer part params).isSome) (params : List Parameter) :
    (t.answerStep answer key params).isSome := by
  rw [parts] at h
  rw [answerStep, analyze]
  cases hconstant : t.context.constant? key with
  | some c => rfl
  | none =>
  rw [hconstant] at h
  cases Context.parameterIndex? t.context.params key with
  | some id => rfl
  | none =>
  cases hsymbol : t.context.symbol? key with
  | none =>
    rw [hsymbol] at h
    exact isSome_answerWays h
  | some s =>
    rw [hsymbol] at h
    dsimp only at h ⊢
    by_cases hself : s.text = key
    · rw [if_pos hself]
      rfl
    rw [if_neg hself] at h ⊢
    by_cases hcall : s.isCall = true
    · rw [if_pos hcall] at h ⊢
      exact isSome_answerWays h
    · rw [if_neg hcall] at h ⊢
      exact h _ (List.mem_singleton_self _) params

end Answers

theorem EndsWithin.isSome_answer {n : Nat} {key : Text} (h : t.EndsWithin n key)
    (params : List Parameter) : (t.answer key params).isSome := by
  induction n generalizing key params with
  | zero => exact h.elim
  | succ n ih =>
    rw [answer_eq]
    exact isSome_answerStep (fun part hpart params => ih (h part hpart) params) params

/-- Unless a text leads back to itself, every text has an answer. -/
theorem IsAcyclicFrom.isSome_answer {key : Text} (h : t.IsAcyclicFrom key) (params : List Parameter) :
    (t.answer key params).isSome := by
  obtain ⟨n, hn⟩ := isAcyclicFrom_iff.mp h
  exact hn.isSome_answer params

/-! ### Leading on without end -/

/-- The text that is built first for another one. -/
def Forces (t : TreeBuilder) (key part : Text) : Prop :=
  match t.analyze key with
  | .operand _ => False
  | .other text => text = part
  | .applied _ ways => ∃ way ∈ ways.head?, way.2.head? = some part

/-- The answer of a text comes after the one of the text that is built first for it. -/
theorem exists_of_answerStep {answer : Text → List Parameter → Option (Answer Node)}
    {key part : Text} {params : List Parameter} {r : Answer Node} (h : t.Forces key part)
    (hr : t.answerStep answer key params = some r) : ∃ r, answer part params = some r := by
  rw [Forces] at h
  rw [answerStep] at hr
  split at hr
  · next hanalyze => simp only [hanalyze] at h
  · next text hanalyze =>
    simp only [hanalyze] at h
    exact ⟨r, h ▸ hr⟩
  · next text ways hanalyze =>
    simp only [hanalyze] at h
    obtain ⟨way, hway, hpart⟩ := h
    obtain ⟨others, rfl⟩ := List.head?_eq_some_iff.mp hway
    obtain ⟨parts, hparts⟩ := List.head?_eq_some_iff.mp hpart
    rw [List.findSomeM?_cons, answerWay, hparts, answerParts] at hr
    cases hfound : answer part params with
    | some r => exact ⟨r, rfl⟩
    | none =>
      rw [hfound] at hr
      cases hr

/-- A text that leads on without end has no answer. -/
theorem answer_eq_none_of_forces {f : Nat → Text} (h : ∀ n, t.Forces (f n) (f (n + 1)))
    (params : List Parameter) : t.answer (f 0) params = none := by
  refine Option.eq_none_iff_forall_not_mem.mpr fun r hr => ?_
  have hends := t.answer_induct
    (motive := fun key _ _ => ∀ f : Nat → Text, f 0 = key → ¬∀ n, t.Forces (f n) (f (n + 1)))
    (fun answer ih key params r hr f hf hforces => ?_) hr
  · exact hends f rfl h
  · subst hf
    obtain ⟨r', hr'⟩ := exists_of_answerStep (hforces 0) hr
    exact ih _ params r' hr' (fun n => f (n + 1)) rfl fun n => hforces (n + 1)

/-- A text that leads on without end is given up. -/
theorem build_of_forces {f : Nat → Text} (h : ∀ n, t.Forces (f n) (f (n + 1))) :
    ((t.build (f 0)).run { params := t.context.params }).1 = .error .tooComplex := by
  by_contra hbuilt
  have hanswer := t.answer_of_build (f 0) hbuilt
  rw [answer_eq_none_of_forces h] at hanswer
  cases hanswer

end TreeBuilder

end Formula
