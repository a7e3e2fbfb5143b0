import Mathlib.Data.List.Induction
import Formula.Node.Typing

/-!
# Looking up cost tables

What a cost table holds after offers have been made to it. A table built from overloads holds, for
every type, the *first cheapest* offer: every earlier overload that offers the type costs more, and
no later one costs less. This is stated by a cut of the list of overloads, so that it survives
dropping overloads that offer nothing.

## Main definitions

* `Signature.offer?`: what an overload asks for a type, given the tables of its operands.
* `FirstCheapest`: an overload wins among the overloads of a list.

## Main results

* `CostTable.get?_offerConversions`, `CostTable.isSome_get?_leaf`: look-ups.
* `Typing.get?_costsFor_eq_some_iff`, `Typing.get?_costsFor_eq_none_iff`: the table of a list of
  overloads.
* `CostTable.preferred?_eq_of_cost_eq`: the preferred type depends on the costs alone.
* `CostTable.preferred?_eq_some_iff`: it is the cheapest type, and of equals the one declared first.
-/

namespace Formula

/-! ### Masks -/

namespace TypeMask

theorem supports_of {t u : ValueType} (ht : t ≠ .unknown) : (of t).supports u = decide (u = t) := by
  cases t <;> cases u <;> first | rfl | exact absurd rfl ht

@[simp]
theorem supports_all (t : ValueType) : all.supports t = decide (t ≠ .unknown) := by
  cases t <;> rfl

@[simp]
theorem supports_empty (t : ValueType) : empty.supports t = false := by
  cases t <;> rfl

theorem ext_supports {a b : TypeMask} (h : ∀ t, a.supports t = b.supports t) : a = b := by
  obtain ⟨o, i, n, s, y⟩ := a
  obtain ⟨o', i', n', s', y'⟩ := b
  have ho := h .boolean
  have hi := h .integer
  have hn := h .numeric
  have hs := h .string
  have hy := h .bytes
  simp only [supports] at ho hi hn hs hy
  rw [ho, hi, hn, hs, hy]

theorem ne_unknown_of_supports {mask : TypeMask} {t : ValueType} (h : mask.supports t = true) :
    t ≠ .unknown := by
  rintro rfl
  simp [supports] at h

theorem isEmpty_eq_false_iff {mask : TypeMask} :
    mask.isEmpty = false ↔ ∃ t, mask.supports t = true := by
  constructor
  · intro h
    by_contra hno
    have hnone : ∀ t, mask.supports t = false := fun t => by
      simpa using fun ht => hno ⟨t, ht⟩
    obtain ⟨b, i, n, s, y⟩ := mask
    have := hnone .boolean
    have := hnone .integer
    have := hnone .numeric
    have := hnone .string
    have := hnone .bytes
    simp_all [isEmpty, empty, supports]
  · rintro ⟨t, ht⟩
    simp only [isEmpty, beq_eq_false_iff_ne, ne_eq]
    rintro rfl
    simp at ht

theorem supports_of_single? {mask : TypeMask} {t : ValueType} (h : mask.single? = some t)
    (u : ValueType) : mask.supports u = decide (u = t) := by
  have htypes : mask.types = [t] := by
    rw [single?] at h
    split at h
    · next heq => rw [heq, Option.some.inj h]
    · exact absurd h (by simp)
  rw [Bool.eq_iff_iff, ← mem_types_iff, htypes, List.mem_singleton, decide_eq_true_iff]

theorem ne_unknown_of_single? {mask : TypeMask} {t : ValueType} (h : mask.single? = some t) :
    t ≠ .unknown := by
  have hself : mask.supports t = true := by simp [supports_of_single? h]
  exact ne_unknown_of_supports hself

theorem eq_of_single? {mask : TypeMask} {t : ValueType} (h : mask.single? = some t) :
    mask = of t :=
  ext_supports fun u => by rw [supports_of_single? h, supports_of (ne_unknown_of_single? h)]

theorem supports_foldl_union {l : List ValueType} (hl : .unknown ∉ l) (mask : TypeMask)
    (t : ValueType) :
    (l.foldl (fun mask t => mask.union (of t)) mask).supports t =
      (mask.supports t || decide (t ∈ l)) := by
  induction l generalizing mask with
  | nil => simp
  | cons u l ih =>
    have hu : u ≠ .unknown := fun h => hl (h ▸ List.mem_cons_self ..)
    rw [List.foldl_cons, ih fun h => hl (List.mem_cons_of_mem _ h)]
    simp [supports_of hu, Bool.or_assoc]

theorem supports_ofList {l : List ValueType} (hl : .unknown ∉ l) (t : ValueType) :
    (ofList l).supports t = decide (t ∈ l) := by
  rw [ofList, supports_foldl_union hl]
  simp

theorem unknown_notMem_filter_concrete (p : ValueType → Bool) :
    .unknown ∉ ValueType.concrete.filter p := by
  intro h
  exact ValueType.mem_concrete_iff.mp (List.mem_filter.mp h).1 rfl

end TypeMask

/-- Only concrete types take part in conversions. -/
theorem ne_unknown_of_conversionCost? {s t : ValueType} (h : (conversionCost? s t).isSome) :
    s ≠ .unknown ∧ t ≠ .unknown := by
  cases s <;> cases t <;> simp_all [conversionCost?]

theorem conversionCost?_self {t : ValueType} (ht : t ≠ .unknown) : conversionCost? t t = some 0 := by
  cases t <;> first | rfl | exact absurd rfl ht

namespace TypeMask

/-- A type is among the sources of a mask when it converts to some type of it. -/
theorem supports_sources_iff {mask : TypeMask} {s : ValueType} :
    mask.sources.supports s = true ↔
      ∃ t, mask.supports t = true ∧ (conversionCost? s t).isSome := by
  rw [sources, supports_ofList (unknown_notMem_filter_concrete _), decide_eq_true_iff,
    List.mem_filter, List.any_eq_true, ValueType.mem_concrete_iff]
  constructor
  · rintro ⟨-, t, ht, hc⟩
    exact ⟨t, mem_types_iff.mp ht, hc⟩
  · rintro ⟨t, ht, hc⟩
    exact ⟨(ne_unknown_of_conversionCost? hc).1, t, mem_types_iff.mpr ht, hc⟩

end TypeMask

/-! ### Offers -/

namespace CostTable

@[ext]
theorem ext_get? {a b : CostTable} (h : ∀ t, a.get? t = b.get? t) : a = b := by
  obtain ⟨u, o, i, n, s, y⟩ := a
  have hu := h .unknown
  have ho := h .boolean
  have hi := h .integer
  have hn := h .numeric
  have hs := h .string
  have hy := h .bytes
  simp only [get?] at hu ho hi hn hs hy
  simp [hu, ho, hi, hn, hs, hy]

@[simp]
theorem get?_empty (t : ValueType) : empty.get? t = none := by
  cases t <;> rfl

theorem isEmpty_iff {table : CostTable} : table.isEmpty = true ↔ ∀ t, table.get? t = none := by
  rw [isEmpty, beq_iff_eq]
  constructor
  · rintro rfl t
    simp
  · intro h
    ext t : 1
    simp [h]

/-- The better of what is there and an offer. -/
def better (best : Option Cost) (offer : Cost) : Option Cost :=
  match best with
  | some existing => if existing.cost ≤ offer.cost then some existing else some offer
  | none => some offer

theorem get?_offer (table : CostTable) (t u : ValueType) (cost : Cost) :
    (table.offer t cost).get? u = if u = t then better (table.get? t) cost else table.get? u := by
  cases h : table.get? t with
  | none => simp [offer, better, h]
  | some existing =>
    simp only [offer, better, h]
    split <;> by_cases hu : u = t <;> simp [hu, h]

theorem get?_offerConversions (table : CostTable) (base choice : Nat) (internal t : ValueType) :
    (table.offerConversions base internal choice).get? t =
      match conversionCost? internal t with
      | some conversion => better (table.get? t) ⟨base + conversion, internal, choice⟩
      | none => table.get? t := by
  cases internal <;> cases t <;>
    simp [offerConversions, ValueType.concrete, conversionCost?, get?_offer]

@[simp]
theorem isSome_better (best : Option Cost) (offer : Cost) : (better best offer).isSome := by
  cases best with
  | none => rfl
  | some existing =>
    simp only [better]
    split <;> rfl

theorem isSome_get?_offerConversions (table : CostTable) (base choice : Nat)
    (internal t : ValueType) :
    ((table.offerConversions base internal choice).get? t).isSome =
      ((table.get? t).isSome || (conversionCost? internal t).isSome) := by
  rw [get?_offerConversions]
  cases conversionCost? internal t <;> simp

theorem isSome_get?_leaf (own : TypeMask) (t : ValueType) :
    ((leaf own).get? t).isSome = own.types.any fun s => (conversionCost? s t).isSome := by
  have fold (l : List ValueType) (table : CostTable) :
      ((l.foldl (fun table s => table.offerConversions 0 s 0) table).get? t).isSome =
        ((table.get? t).isSome || l.any fun s => (conversionCost? s t).isSome) := by
    induction l generalizing table with
    | nil => simp
    | cons s l ih =>
      rw [List.foldl_cons, ih, isSome_get?_offerConversions, List.any_cons, Bool.or_assoc]
  simp [leaf, fold]

/-- The table of a single type holds the type itself and what it converts to. -/
theorem leaf_of {t : ValueType} (ht : t ≠ .unknown) :
    leaf (TypeMask.of t) = empty.offerConversions 0 t 0 := by
  cases t <;> first | rfl | exact absurd rfl ht

theorem supports_supported (table : CostTable) {t : ValueType} :
    table.supported.supports t = true ↔ t ≠ .unknown ∧ (table.get? t).isSome := by
  rw [supported, TypeMask.supports_ofList (TypeMask.unknown_notMem_filter_concrete _),
    decide_eq_true_iff, List.mem_filter, ValueType.mem_concrete_iff]

end CostTable

/-! ### The preferred type -/

/-- The place of a type in the order of preference. -/
def ValueType.rank (t : ValueType) : Nat :=
  concrete.idxOf t

namespace CostTable

/-- One comparison in the search for the cheapest type. -/
private def prefer (table : CostTable) (best : Option (Nat × ValueType)) (t : ValueType) :
    Option (Nat × ValueType) :=
  match table.get? t, best with
  | none, best => best
  | some c, none => some (c.cost, t)
  | some c, some (cost, u) => if c.cost < cost then some (c.cost, t) else some (cost, u)

private theorem preferred?_eq (table : CostTable) :
    table.preferred? = (ValueType.concrete.foldl (prefer table) none).map Prod.snd := rfl

private theorem prefer_congr {a b : CostTable}
    (h : ∀ t, (a.get? t).map Cost.cost = (b.get? t).map Cost.cost) : prefer a = prefer b := by
  funext best t
  have ht := h t
  simp only [prefer]
  cases ha : a.get? t with
  | none =>
    rw [ha, Option.map_none, eq_comm, Option.map_eq_none_iff] at ht
    rw [ht]
  | some c =>
    rw [ha, Option.map_some, eq_comm, Option.map_eq_some_iff] at ht
    obtain ⟨c', hb, hc⟩ := ht
    cases best <;> simp [hb, hc]

theorem preferred?_eq_of_cost_eq {a b : CostTable}
    (h : ∀ t, (a.get? t).map Cost.cost = (b.get? t).map Cost.cost) :
    a.preferred? = b.preferred? := by
  rw [preferred?_eq, preferred?_eq, prefer_congr h]

private theorem foldl_prefer_isSome (table : CostTable) (l : List ValueType)
    (best : Option (Nat × ValueType)) :
    (l.foldl (prefer table) best).isSome =
      (best.isSome || l.any fun t => (table.get? t).isSome) := by
  induction l generalizing best with
  | nil => simp
  | cons t l ih =>
    rw [List.foldl_cons, ih, List.any_cons, ← Bool.or_assoc]
    congr 1
    cases ht : table.get? t with
    | none => simp [prefer, ht]
    | some c =>
      cases best with
      | none => simp [prefer, ht]
      | some p =>
        simp only [prefer, ht]
        split <;> rfl

private theorem foldl_prefer_mem (table : CostTable) (l : List ValueType)
    {best : Option (Nat × ValueType)} (hbest : ∀ p, best = some p → (table.get? p.2).isSome)
    {p : Nat × ValueType} (h : l.foldl (prefer table) best = some p) :
    (table.get? p.2).isSome := by
  induction l generalizing best with
  | nil => exact hbest p h
  | cons t l ih =>
    refine ih (fun q hq => ?_) h
    cases ht : table.get? t with
    | none => exact hbest q (by simpa only [prefer, ht] using hq)
    | some c =>
      cases best with
      | none =>
        simp only [prefer, ht] at hq
        obtain rfl := Option.some.inj hq
        simp [ht]
      | some r =>
        simp only [prefer, ht] at hq
        split at hq
        · obtain rfl := Option.some.inj hq
          simp [ht]
        · exact hbest q hq

theorem isSome_get?_of_preferred? {table : CostTable} {t : ValueType}
    (h : table.preferred? = some t) : (table.get? t).isSome := by
  obtain ⟨p, hp, rfl⟩ := Option.map_eq_some_iff.mp ((preferred?_eq table) ▸ h)
  exact foldl_prefer_mem table _ (by simp) hp

theorem preferred?_isSome_iff {table : CostTable} :
    table.preferred?.isSome ↔ ∃ t, t ≠ .unknown ∧ (table.get? t).isSome := by
  rw [preferred?_eq, Option.isSome_map, foldl_prefer_isSome]
  simp [ValueType.mem_concrete_iff]

/-- The type has an offer, and every other type that has one costs more, or costs as much and is
declared later. -/
def Prefers (table : CostTable) (t : ValueType) : Prop :=
  ∃ c, table.get? t = some c ∧ ∀ u d, u ≠ .unknown → table.get? u = some d →
    c.cost < d.cost ∨ c.cost = d.cost ∧ t.rank ≤ u.rank

theorem Prefers.unique {table : CostTable} {t u : ValueType} (ht : t ≠ .unknown)
    (hu : u ≠ .unknown) (hpt : table.Prefers t) (hpu : table.Prefers u) : t = u := by
  obtain ⟨c, hc, hct⟩ := hpt
  obtain ⟨d, hd, hdu⟩ := hpu
  have htu := hct u d hu hd
  have hut := hdu t c ht hc
  have hrank : t.rank = u.rank := by omega
  cases t <;> cases u <;> first | rfl | exact absurd hrank (by decide)

private theorem prefers_of_foldl_prefer {table : CostTable} {l : List ValueType}
    (hl : l.Pairwise fun t u => t.rank < u.rank) {p : Nat × ValueType}
    (h : l.foldl (prefer table) none = some p) :
    p.2 ∈ l ∧ (table.get? p.2).map Cost.cost = some p.1 ∧
      ∀ u ∈ l, ∀ d, table.get? u = some d → p.1 < d.cost ∨ p.1 = d.cost ∧ p.2.rank ≤ u.rank := by
  induction l using List.reverseRecOn generalizing p with
  | nil => simp at h
  | append_singleton l t ih =>
    rw [List.pairwise_append] at hl
    obtain ⟨hsorted, -, hlast⟩ := hl
    rw [List.foldl_append, List.foldl_cons, List.foldl_nil] at h
    have hno := foldl_prefer_isSome table l none
    cases hl : l.foldl (prefer table) none with
    | none =>
      have hnone : ∀ u ∈ l, table.get? u = none := by simpa [hl] using hno
      cases ht : table.get? t with
      | none => simp [hl, prefer, ht] at h
      | some c =>
        simp only [hl, prefer, ht, Option.some.injEq] at h
        subst h
        refine ⟨by simp, by simp [ht], fun u hu d hd => ?_⟩
        rcases List.mem_append.mp hu with hu | hu
        · simp [hnone u hu] at hd
        · rw [List.mem_singleton.mp hu, ht, Option.some.injEq] at hd
          rw [List.mem_singleton.mp hu, hd]
          exact .inr ⟨rfl, Nat.le_refl _⟩
    | some q =>
      obtain ⟨hmem, hq, hbest⟩ := ih hsorted hl
      have hrank : q.2.rank < t.rank := hlast q.2 hmem t (by simp)
      cases ht : table.get? t with
      | none =>
        simp only [hl, prefer, ht, Option.some.injEq] at h
        subst h
        refine ⟨by simp [hmem], hq, fun u hu d hd => ?_⟩
        rcases List.mem_append.mp hu with hu | hu
        · exact hbest u hu d hd
        · simp [List.mem_singleton.mp hu, ht] at hd
      | some c =>
        simp only [hl, prefer, ht] at h
        split at h <;> obtain rfl := Option.some.inj h
        · refine ⟨by simp, by simp [ht], fun u hu d hd => ?_⟩
          rcases List.mem_append.mp hu with hu | hu
          · have := hbest u hu d hd
            omega
          · simp_all
        · refine ⟨by simp [hmem], hq, fun u hu d hd => ?_⟩
          rcases List.mem_append.mp hu with hu | hu
          · exact hbest u hu d hd
          · rw [List.mem_singleton.mp hu, ht, Option.some.injEq] at hd
            rw [List.mem_singleton.mp hu, ← hd]
            dsimp only
            omega

/-- The preferred type is the cheapest one, and of equals the one declared first. -/
theorem preferred?_eq_some_iff {table : CostTable} {t : ValueType} :
    table.preferred? = some t ↔ t ≠ .unknown ∧ table.Prefers t := by
  have sound {u : ValueType} (h : table.preferred? = some u) : u ≠ .unknown ∧ table.Prefers u := by
    obtain ⟨p, hp, rfl⟩ := Option.map_eq_some_iff.mp ((preferred?_eq table) ▸ h)
    obtain ⟨hmem, hcost, hbest⟩ := prefers_of_foldl_prefer (by decide) hp
    obtain ⟨c, hc, hcp⟩ := Option.map_eq_some_iff.mp hcost
    refine ⟨ValueType.mem_concrete_iff.mp hmem, c, hc, fun u d hu hd => ?_⟩
    rw [hcp]
    exact hbest u (ValueType.mem_concrete_iff.mpr hu) d hd
  refine ⟨sound, fun ⟨ht, hp⟩ => ?_⟩
  obtain ⟨c, hc, -⟩ := id hp
  have hsome : table.preferred?.isSome := preferred?_isSome_iff.mpr ⟨t, ht, by rw [hc]; rfl⟩
  obtain ⟨u, hu⟩ := Option.isSome_iff_exists.mp hsome
  rw [hu, (sound hu).2.unique (sound hu).1 ht hp]

end CostTable

/-! ### The first cheapest overload -/

namespace Signature

/-- What an overload asks for the type `t`: the costs of its operands and of the conversion of its
result. -/
def offer? (s : Signature) (operands : List CostTable) (t : ValueType) : Option Nat :=
  (s.operandCost? operands).bind fun total => (conversionCost? s.result t).map (total + ·)

theorem offer?_eq_some_iff {s : Signature} {operands : List CostTable} {t : ValueType} {c : Nat} :
    s.offer? operands t = some c ↔ ∃ total conversion, s.operandCost? operands = some total ∧
      conversionCost? s.result t = some conversion ∧ total + conversion = c := by
  simp only [offer?, Option.bind_eq_some_iff, Option.map_eq_some_iff]
  constructor
  · rintro ⟨total, ht, conversion, hc, rfl⟩
    exact ⟨total, conversion, ht, hc, rfl⟩
  · rintro ⟨total, conversion, ht, hc, rfl⟩
    exact ⟨total, ht, conversion, hc, rfl⟩

end Signature

/-- Among overloads with prices, `s` at the place `place` is the first cheapest, at the price
`cost`. -/
def FirstCheapest (price : Signature → Option Nat) (signatures : List Signature) (s : Signature)
    (place cost : Nat) : Prop :=
  ∃ before after, signatures = before ++ s :: after ∧ place = before.length ∧
    price s = some cost ∧ (∀ s' ∈ before, ∀ c, price s' = some c → cost < c) ∧
    ∀ s' ∈ after, ∀ c, price s' = some c → cost ≤ c

namespace FirstCheapest

variable {price : Signature → Option Nat} {signatures : List Signature} {s s' : Signature}
  {place place' cost cost' : Nat}

theorem getElem? (h : FirstCheapest price signatures s place cost) :
    signatures[place]? = some s := by
  obtain ⟨before, after, rfl, rfl, -⟩ := h
  simp

theorem mem (h : FirstCheapest price signatures s place cost) : s ∈ signatures :=
  List.mem_of_getElem? h.getElem?

theorem price_eq (h : FirstCheapest price signatures s place cost) : price s = some cost := by
  obtain ⟨-, -, -, -, hs, -⟩ := h
  exact hs

theorem le (h : FirstCheapest price signatures s place cost) (hs' : s' ∈ signatures)
    (hc : price s' = some cost') : cost ≤ cost' := by
  obtain ⟨before, after, rfl, rfl, hs, hbefore, hafter⟩ := h
  rcases List.mem_append.mp hs' with hmem | hmem
  · exact Nat.le_of_lt (hbefore s' hmem cost' hc)
  · rcases List.mem_cons.mp hmem with rfl | hmem
    · exact Nat.le_of_eq (Option.some.inj (hs.symm.trans hc))
    · exact hafter s' hmem cost' hc

/-- The first cheapest overload stays so when overloads without a price are dropped. -/
theorem filter {keep : Signature → Bool} (h : FirstCheapest price signatures s place cost)
    (hkeep : ∀ s' ∈ signatures, (price s').isSome → keep s' = true) :
    ∃ place', FirstCheapest price (signatures.filter keep) s place' cost := by
  obtain ⟨before, after, rfl, rfl, hs, hbefore, hafter⟩ := h
  have hks : keep s = true := hkeep s (by simp) (by simp [hs])
  refine ⟨(before.filter keep).length, before.filter keep, after.filter keep, ?_, rfl, hs, ?_, ?_⟩
  · simp [hks]
  · exact fun s' hs' => hbefore s' (List.mem_filter.mp hs').1
  · exact fun s' hs' => hafter s' (List.mem_filter.mp hs').1

theorem congr {price' : Signature → Option Nat}
    (h : FirstCheapest price signatures s place cost)
    (hprice : ∀ s' ∈ signatures, price s' = price' s') :
    FirstCheapest price' signatures s place cost := by
  obtain ⟨before, after, rfl, rfl, hs, hbefore, hafter⟩ := h
  refine ⟨before, after, rfl, rfl, by rw [← hprice s (by simp), hs], ?_, ?_⟩
  · intro s' hs' c hc
    exact hbefore s' hs' c (by rwa [hprice s' (by simp [hs'])])
  · intro s' hs' c hc
    exact hafter s' hs' c (by rwa [hprice s' (by simp [hs'])])

/-- There is only one first cheapest overload, at one place. -/
theorem unique (h : FirstCheapest price signatures s place cost)
    (h' : FirstCheapest price signatures s' place' cost') :
    s = s' ∧ place = place' ∧ cost = cost' := by
  have hcost : cost = cost' := Nat.le_antisymm (h.le h'.mem h'.price_eq) (h'.le h.mem h.price_eq)
  subst hcost
  obtain ⟨before, after, rfl, rfl, hs, hbefore, hafter⟩ := h
  obtain ⟨before', after', heq, rfl, hs', hbefore', hafter'⟩ := h'
  rcases List.append_eq_append_iff.mp heq with ⟨middle, rfl, hm⟩ | ⟨middle, rfl, hm⟩
  · cases middle with
    | nil =>
      simp only [List.nil_append, List.cons.injEq] at hm
      simp [hm.1]
    | cons u middle =>
      simp only [List.cons_append, List.cons.injEq] at hm
      have hlt := hbefore' s (by simp [hm.1]) cost hs
      omega
  · cases middle with
    | nil =>
      simp only [List.nil_append, List.cons.injEq] at hm
      simp [hm.1]
    | cons u middle =>
      simp only [List.cons_append, List.cons.injEq] at hm
      have hlt := hbefore s' (by simp [hm.1]) cost hs'
      omega

theorem append_singleton (h : FirstCheapest price signatures s place cost)
    (hs' : ∀ c, price s' = some c → cost ≤ c) :
    FirstCheapest price (signatures ++ [s']) s place cost := by
  obtain ⟨before, after, rfl, rfl, hs, hbefore, hafter⟩ := h
  refine ⟨before, after ++ [s'], by simp, rfl, hs, hbefore, ?_⟩
  intro u hu c hc
  rcases List.mem_append.mp hu with hu | hu
  · exact hafter u hu c hc
  · rw [List.mem_singleton] at hu
    exact hs' c (hu ▸ hc)

theorem singleton_last (hs : price s = some cost)
    (h : ∀ s' ∈ signatures, ∀ c, price s' = some c → cost < c) :
    FirstCheapest price (signatures ++ [s]) s signatures.length cost :=
  ⟨signatures, [], rfl, rfl, hs, h, by simp⟩

end FirstCheapest

namespace Typing

variable {signatures : List Signature} {operands : List CostTable} {t : ValueType}

private theorem get?_costsFor_append_singleton (signatures : List Signature) (s : Signature)
    (operands : List CostTable) (t : ValueType) :
    (costsFor (signatures ++ [s]) operands).get? t =
      match s.offer? operands t with
      | some c =>
        CostTable.better ((costsFor signatures operands).get? t) ⟨c, s.result, signatures.length⟩
      | none => (costsFor signatures operands).get? t := by
  simp only [costsFor, List.zipIdx_append, List.foldl_append, List.zipIdx_singleton,
    List.foldl_cons, List.foldl_nil, Signature.offer?, Nat.zero_add]
  cases s.operandCost? operands with
  | none => rfl
  | some total =>
    simp only [Option.bind_some, CostTable.get?_offerConversions]
    cases conversionCost? s.result t <;> rfl

theorem get?_costsFor_eq_none_iff :
    (costsFor signatures operands).get? t = none ↔
      ∀ s ∈ signatures, s.offer? operands t = none := by
  induction signatures using List.reverseRecOn with
  | nil => simp [costsFor]
  | append_singleton l s ih =>
    rw [get?_costsFor_append_singleton]
    cases hs : s.offer? operands t with
    | none => simp only [ih, List.mem_append, List.mem_singleton, or_imp, forall_and, forall_eq, hs,
        and_true]
    | some c =>
      constructor
      · intro h
        have := CostTable.isSome_better ((costsFor l operands).get? t) ⟨c, s.result, l.length⟩
        simp [h] at this
      · intro h
        have := h s (by simp)
        simp [hs] at this

private theorem firstCheapest_of_get?_costsFor {e : Cost}
    (h : (costsFor signatures operands).get? t = some e) :
    ∃ s, FirstCheapest (fun s => s.offer? operands t) signatures s e.choice e.cost ∧
      e.internal = s.result := by
  induction signatures using List.reverseRecOn generalizing e with
  | nil => simp [costsFor] at h
  | append_singleton l s ih =>
    rw [get?_costsFor_append_singleton] at h
    cases hs : s.offer? operands t with
    | none =>
      rw [hs] at h
      obtain ⟨w, hw, hi⟩ := ih h
      exact ⟨w, hw.append_singleton (by simp [hs]), hi⟩
    | some c =>
      rw [hs] at h
      cases hl : (costsFor l operands).get? t with
      | none =>
        simp only [hl, CostTable.better, Option.some.injEq] at h
        subst h
        have hnone := get?_costsFor_eq_none_iff.mp hl
        refine ⟨s, .singleton_last hs ?_, rfl⟩
        intro s' hs' c' hc'
        simp [hnone s' hs'] at hc'
      | some best =>
        obtain ⟨w, hw, hi⟩ := ih hl
        simp only [hl, CostTable.better] at h
        split at h
        · next hle =>
          obtain rfl := Option.some.inj h
          refine ⟨w, hw.append_singleton ?_, hi⟩
          intro c' hc'
          rw [hs] at hc'
          obtain rfl := Option.some.inj hc'
          exact hle
        · next hlt =>
          obtain rfl := Option.some.inj h
          refine ⟨s, .singleton_last hs ?_, rfl⟩
          intro s' hs' c' hc'
          exact Nat.lt_of_lt_of_le (Nat.lt_of_not_le hlt) (hw.le hs' hc')

/-- The table of a list of overloads holds the first cheapest offer for every type. -/
theorem get?_costsFor_eq_some_iff {e : Cost} :
    (costsFor signatures operands).get? t = some e ↔
      ∃ s, FirstCheapest (fun s => s.offer? operands t) signatures s e.choice e.cost ∧
        e.internal = s.result := by
  refine ⟨firstCheapest_of_get?_costsFor, ?_⟩
  rintro ⟨s, hs, hi⟩
  cases h : (costsFor signatures operands).get? t with
  | none =>
    have hnone := get?_costsFor_eq_none_iff.mp h s hs.mem
    exact absurd (hnone.symm.trans hs.price_eq) (by simp)
  | some e' =>
    obtain ⟨s', hs', hi'⟩ := firstCheapest_of_get?_costsFor h
    obtain ⟨rfl, hplace, hcost⟩ := hs.unique hs'
    obtain ⟨cost, internal, choice⟩ := e
    obtain ⟨cost', internal', choice'⟩ := e'
    simp_all

theorem isSome_get?_costsFor_iff :
    ((costsFor signatures operands).get? t).isSome ↔
      ∃ s ∈ signatures, (s.offer? operands t).isSome := by
  rw [← not_iff_not, Bool.not_eq_true, Option.isSome_eq_false_iff, Option.isNone_iff_eq_none,
    get?_costsFor_eq_none_iff]
  simp

end Typing

end Formula
