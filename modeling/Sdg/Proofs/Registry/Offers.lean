import Mathlib.Data.List.Induction
import Sdg.Build.Formals
import Sdg.Proofs.Registry.Pieces

/-!
# Sets of parameters from offers

A set of parameters is filled by offering pairs for slots, one after another. The own and the global
slot of a value are two, but a value is a parameter once: whichever slot of it is offered a pair
first takes that pair, and no later offer for the value changes anything. A second variadic pair is
never offered, and would be a fault.

Main results:

* `Parameters.Filled.offer` — what one offer does to a set that was filled by others;
* `Parameters.first_offer_wins` — what a set is like after any list of offers;
* `Work.addFormal_offers`, `Work.addFormalGlobal_offers`, `Work.setVariadic_offers` — formal
  parameters are added by offers.
-/

namespace Sdg

/-- The value that a slot is for. -/
def Slot.value? : Slot → Option ValueId
  | .own v | .global v => some v
  | .variadic => none

theorem Slot.value?_eq_some_iff {s : Slot} {v : ValueId} :
    s.value? = some v ↔ s = .own v ∨ s = .global v := by
  cases s <;> simp [Slot.value?]

/-- A pair that is to be entered in a slot. -/
@[ext] structure Offer where
  slot : Slot
  pair : ParameterPair

namespace Offer

/-- The entry that the offer asks for among the own parameters. -/
def own? : Offer → Option (ValueId × ParameterPair)
  | ⟨.own v, q⟩ => some (v, q)
  | _ => none

/-- The entry that the offer asks for among the globals. -/
def global? : Offer → Option (ValueId × ParameterPair)
  | ⟨.global v, q⟩ => some (v, q)
  | _ => none

def variadic? : Offer → Option ParameterPair
  | ⟨.variadic, q⟩ => some q
  | _ => none

/-- The first offer for a value. -/
def first? (cs : List Offer) (v : ValueId) : Option Offer :=
  cs.find? fun c => c.slot.value? = some v

theorem first?_concat (cs : List Offer) (c : Offer) (v : ValueId) :
    first? (cs ++ [c]) v = (first? cs v).or (if c.slot.value? = some v then some c else none) := by
  unfold first?
  rw [List.find?_append]
  by_cases h : c.slot.value? = some v <;> simp [h]

theorem first?_eq_none_iff {cs : List Offer} {v : ValueId} :
    first? cs v = none ↔ ∀ c ∈ cs, c.slot.value? ≠ some v := by
  simp [first?]

theorem value?_of_first? {cs : List Offer} {v : ValueId} {c : Offer} (h : first? cs v = some c) :
    c.slot.value? = some v :=
  of_decide_eq_true (List.find?_some (p := fun c : Offer => decide (c.slot.value? = some v)) h)

end Offer

namespace Parameters

variable {p p' : Parameters} {cs taken : List Offer} {c : Offer} {s : Slot} {q : ParameterPair}
  {v : ValueId}

/-- Offers a pair for a slot; answers whether it was taken. There is no answer to a second variadic
pair. -/
def offer (p : Parameters) (c : Offer) : Option (Bool × Parameters) :=
  match c.slot with
  | .own v => some (!p.contains v, p.addOwn v c.pair)
  | .global v => some (!p.contains v, p.addGlobal v c.pair)
  | .variadic => (p.setVariadic? c.pair).map fun p' => (true, p')

/-- Makes offers one after another; answers which of them were taken. -/
def offers (p : Parameters) : List Offer → Option (List Offer × Parameters)
  | [] => some ([], p)
  | c :: cs => do
    let (isTaken, p) ← p.offer c
    let (taken, p) ← p.offers cs
    return (if isTaken then c :: taken else taken, p)

theorem offers_concat (h : p.offers cs = some (taken, p')) (c : Offer) :
    p.offers (cs ++ [c]) =
      (p'.offer c).map fun a => (if a.1 then taken ++ [c] else taken, a.2) := by
  induction cs generalizing p taken with
  | nil =>
    cases h
    cases hc : p'.offer c with
    | none => simp [offers, hc]
    | some a => cases ha : a.1 <;> simp [offers, hc, ha]
  | cons d cs ih =>
    simp only [offers, Option.bind_eq_bind, Option.bind_eq_some_iff, Option.pure_def,
      Option.some.injEq, Prod.mk.injEq] at h
    obtain ⟨⟨b, p₁⟩, hd, ⟨taken', p₂⟩, hcs, htaken, rfl⟩ := h
    have hrest := ih hcs
    rw [List.cons_append, offers, hd]
    simp only [Option.bind_eq_bind, Option.bind_some, hrest]
    subst htaken
    cases hc : p₂.offer c with
    | none => rfl
    | some a => cases b <;> cases ha : a.1 <;> simp [ha]

/-! ## One offer -/

theorem offer_of_value (hs : c.slot.value? = some v) :
    p.offer c = some (!p.contains v, p.put c.slot c.pair) := by
  obtain ⟨s, q⟩ := c
  cases s with
  | own w | global w =>
    cases hs
    rfl
  | variadic => cases hs

/-- A variadic pair is taken if there is none yet. -/
theorem offer_variadic (hs : c.slot = .variadic) (hp : p.Vacant .variadic) :
    p.offer c = some (true, p.put c.slot c.pair) := by
  have hset : p.setVariadic? c.pair = some (p.put .variadic c.pair) :=
    setVariadic?_eq_some_iff.2 ⟨hp, rfl⟩
  rw [offer, hs]
  exact congrArg (Option.map _) hset

/-- An offer for a value that is a parameter changes nothing. -/
theorem put_of_contains (hs : s.value? = some v) (hv : p.contains v = true) : p.put s q = p := by
  cases s with
  | own w | global w =>
    cases hs
    exact if_pos hv
  | variadic => cases hs

/-- A pair that is taken comes after all others of its kind. -/
theorem entries_put (h : p.Vacant c.slot) :
    (p.put c.slot c.pair).own.entries = p.own.entries ++ [c].filterMap Offer.own? ∧
      (p.put c.slot c.pair).globals.entries =
        p.globals.entries ++ [c].filterMap Offer.global? ∧
      (p.put c.slot c.pair).variadic?.toList =
        p.variadic?.toList ++ [c].filterMap Offer.variadic? := by
  obtain ⟨s, q⟩ := c
  cases s with
  | own v =>
    have hv : p.contains v = false := h
    have hnew := OrderedMap.get?_eq_none_iff.1 (contains_eq_false_iff.1 hv).1
    rw [put, addOwn, if_neg (by simp [hv])]
    refine ⟨?_, by simp [Offer.global?], by simp [Offer.variadic?]⟩
    exact congrArg OrderedMap.entries (dif_neg hnew)
  | global v =>
    have hv : p.contains v = false := h
    have hnew := OrderedMap.get?_eq_none_iff.1 (contains_eq_false_iff.1 hv).2
    rw [put, addGlobal, if_neg (by simp [hv])]
    refine ⟨by simp [Offer.own?], ?_, by simp [Offer.variadic?]⟩
    exact congrArg OrderedMap.entries (dif_neg hnew)
  | variadic =>
    have hv : p.variadic? = none := h
    simp [put, hv, Offer.own?, Offer.global?, Offer.variadic?]

/-! ## Lists of offers -/

/-- Whether a set is what is left of a list of offers, of which some were taken. -/
structure Filled (p : Parameters) (cs taken : List Offer) : Prop where
  /-- What is in a slot of a value is the first offer for the value. -/
  first : ∀ s v, s.value? = some v → ∀ q, p.at? s = some q ↔ Offer.first? cs v = some ⟨s, q⟩
  own : p.own.entries = taken.filterMap Offer.own?
  globals : p.globals.entries = taken.filterMap Offer.global?
  variadic : p.variadic?.toList = taken.filterMap Offer.variadic?
  vacant : p.variadic? = none ↔ ∀ c ∈ cs, c.slot ≠ .variadic

theorem Filled.empty : Parameters.empty.Filled [] [] where
  first s v _ q := by simp [Offer.first?]
  own := rfl
  globals := rfl
  variadic := rfl
  vacant := by simp [Parameters.empty]

theorem Filled.contains_iff (h : p.Filled cs taken) :
    p.contains v = true ↔ ∃ c ∈ cs, c.slot.value? = some v := by
  have hfirst : (∃ c ∈ cs, c.slot.value? = some v) ↔ ∃ c, Offer.first? cs v = some c := by
    rw [← Option.ne_none_iff_exists', Ne, Offer.first?_eq_none_iff]
    simp
  rw [contains_eq_true_iff_at?, hfirst]
  constructor
  · rintro ⟨q, hq | hq⟩
    · exact ⟨_, (h.first _ v rfl q).1 hq⟩
    · exact ⟨_, (h.first _ v rfl q).1 hq⟩
  · rintro ⟨⟨s, q⟩, hc⟩
    have hs : s.value? = some v := Offer.value?_of_first? hc
    have hq := (h.first s v hs q).2 hc
    cases s with
    | own w =>
      cases hs
      exact ⟨q, .inl hq⟩
    | global w =>
      cases hs
      exact ⟨q, .inr hq⟩
    | variadic => cases hs

theorem Filled.contains_eq_false_iff (h : p.Filled cs taken) :
    p.contains v = false ↔ Offer.first? cs v = none := by
  rw [← Bool.not_eq_true, h.contains_iff, Offer.first?_eq_none_iff]
  simp

/-- An offer for a value that is a parameter leaves everything as it is. -/
theorem Filled.refuse (h : p.Filled cs taken) (hs : c.slot.value? = some v)
    (hv : p.contains v = true) : p.Filled (cs ++ [c]) taken where
  first s w hw q := by
    rw [h.first s w hw q, Offer.first?_concat]
    by_cases hvw : v = w
    · -- an earlier offer for the value comes first
      subst hvw
      obtain ⟨d, hd⟩ := Option.ne_none_iff_exists'.1 fun hnone =>
        absurd hv (by rw [h.contains_eq_false_iff.2 hnone]; simp)
      simp [hd]
    · simp [hs, hvw]
  own := h.own
  globals := h.globals
  variadic := h.variadic
  vacant := by
    have hc : c.slot ≠ .variadic := by
      intro he
      rw [he] at hs
      cases hs
    simp [h.vacant, or_imp, forall_and, hc]

/-- An offer for a vacant slot is taken. -/
theorem Filled.take (h : p.Filled cs taken) (hc : p.Vacant c.slot)
    (hfirst : ∀ v, c.slot.value? = some v → Offer.first? cs v = none) :
    (p.put c.slot c.pair).Filled (cs ++ [c]) (taken ++ [c]) := by
  obtain ⟨hown, hglobals, hvariadic⟩ := entries_put hc
  constructor
  case first =>
    intro s v hs q
    rw [at?_put hc, Offer.first?_concat]
    by_cases hv : c.slot.value? = some v
    · rw [hfirst v hv, if_pos hv, Option.none_or]
      split
      · rename_i hsc
        subst hsc
        simp [Offer.ext_iff]
      · rename_i hsc
        -- the other slot of the value is empty
        have hnone : ¬ p.at? s = some q := by
          rw [h.first s v hs q, hfirst v hv]
          simp
        simp [hnone, Offer.ext_iff, Ne.symm hsc]
    · have hsc : s ≠ c.slot := fun he => hv (he ▸ hs)
      rw [if_neg hsc, if_neg hv, Option.or_none]
      exact h.first s v hs q
  case own => rw [hown, h.own, List.filterMap_append]
  case globals => rw [hglobals, h.globals, List.filterMap_append]
  case variadic => rw [hvariadic, h.variadic, List.filterMap_append]
  case vacant =>
    have hput := at?_put (t := .variadic) (q := c.pair) hc
    simp only [List.forall_mem_append, List.forall_mem_singleton]
    change (p.put c.slot c.pair).variadic? = _ at hput
    rw [hput]
    by_cases hs : c.slot = .variadic
    · simp [hs]
    · rw [if_neg (Ne.symm hs), and_iff_left hs]
      exact h.vacant

/-- **One offer.** An offer for a value is taken exactly if it is the first one for that value, and
changes nothing if it is not. A variadic pair is taken if there is none yet. -/
theorem Filled.offer (h : p.Filled cs taken)
    (hc : c.slot = .variadic → ∀ d ∈ cs, d.slot ≠ .variadic) :
    ∃ b p', p.offer c = some (b, p') ∧
      p'.Filled (cs ++ [c]) (if b then taken ++ [c] else taken) ∧
      (b = true ↔ ∀ v, c.slot.value? = some v → Offer.first? cs v = none) ∧
      (b = false → p' = p) := by
  cases hs : c.slot.value? with
  | none =>
    -- the variadic slot is the only one that is for no value
    have hslot : c.slot = .variadic := by
      cases hslot : c.slot with
      | variadic => rfl
      | own v | global v =>
        rw [hslot] at hs
        cases hs
    have hvacant : p.Vacant .variadic := h.vacant.2 (hc hslot)
    refine ⟨true, p.put c.slot c.pair, offer_variadic hslot hvacant, h.take ?_ ?_, ?_, nofun⟩
    · rw [hslot]
      exact hvacant
    · simp [hs]
    · simp
  | some v =>
    refine ⟨!p.contains v, p.put c.slot c.pair, offer_of_value hs, ?_, ?_, ?_⟩
    · cases hv : p.contains v with
      | true =>
        rw [put_of_contains hs hv]
        exact h.refuse hs hv
      | false =>
        refine h.take ((vacant_iff (Slot.value?_eq_some_iff.1 hs)).2 hv) fun w hw => ?_
        rw [hs] at hw
        cases hw
        exact h.contains_eq_false_iff.1 hv
    · simp [h.contains_eq_false_iff]
    · intro hv
      exact put_of_contains hs (by simpa using hv)

/-- A list of offers with at most one variadic pair is answered, and its answers fill the set. -/
theorem exists_offers (h : cs.countP (·.slot = .variadic) ≤ 1) :
    ∃ taken p, empty.offers cs = some (taken, p) ∧ p.Filled cs taken := by
  -- offers are made in order, so the last one meets what all others filled
  induction cs using List.reverseRecOn with
  | nil => exact ⟨[], empty, rfl, .empty⟩
  | append_singleton cs c ih =>
    rw [List.countP_append] at h
    obtain ⟨taken, p, hp, hfilled⟩ := ih (by omega)
    have hc : c.slot = .variadic → ∀ d ∈ cs, d.slot ≠ .variadic := by
      intro hs
      rw [List.countP_singleton, if_pos (decide_eq_true hs)] at h
      have hzero : cs.countP (·.slot = .variadic) = 0 := by omega
      simpa using hzero
    obtain ⟨b, p', hb, hfilled', _⟩ := hfilled.offer hc
    exact ⟨_, p', by rw [offers_concat hp, hb]; rfl, hfilled'⟩

/-- Every offer is of one of three kinds. -/
theorem length_kinds (cs : List Offer) :
    (cs.filterMap Offer.own?).length + (cs.filterMap Offer.global?).length +
      (cs.filterMap Offer.variadic?).length = cs.length := by
  induction cs with
  | nil => rfl
  | cons c cs ih =>
    obtain ⟨s, q⟩ := c
    cases s <;>
      simp only [List.filterMap_cons, Offer.own?, Offer.global?, Offer.variadic?,
        List.length_cons] <;> omega

theorem Filled.size_eq (h : p.Filled cs taken) : p.size = taken.length := by
  rw [size, OrderedMap.size, OrderedMap.size, h.own, h.globals, h.variadic, length_kinds]

/-- The nodes of a set are those of the pairs that it took, kind by kind. -/
theorem Filled.nodes_eq (h : p.Filled cs taken) :
    p.nodes = ((taken.filterMap Offer.own?).map Prod.snd ++
      (taken.filterMap Offer.global?).map Prod.snd ++
      taken.filterMap Offer.variadic?).flatMap fun q => [q.input, q.output] := by
  rw [nodes, pairs, OrderedMap.values, OrderedMap.values, h.own, h.globals, h.variadic]

theorem length_nodes (p : Parameters) : p.nodes.length = 2 * p.size := by
  have hpairs : p.pairs.length = p.size := by
    simp [pairs, size, Nat.add_assoc]
  rw [nodes, List.length_flatMap, ← hpairs]
  simp [List.map_const', Nat.mul_comm]

/-- A value has the pair of the first offer for it. -/
theorem Filled.find?_eq (h : p.Filled cs taken) (v : ValueId) :
    p.find? v = (Offer.first? cs v).map Offer.pair := by
  have hown := h.first (.own v) v rfl
  have hglobal := h.first (.global v) v rfl
  ext q
  rw [Parameters.find?_eq, Option.or_eq_some_iff, Option.map_eq_some_iff]
  constructor
  · rintro (hq | ⟨_, hq⟩)
    · exact ⟨_, (hown q).1 hq, rfl⟩
    · exact ⟨_, (hglobal q).1 hq, rfl⟩
  · rintro ⟨⟨s, q⟩, hc, rfl⟩
    have hs : s.value? = some v := Offer.value?_of_first? hc
    cases s with
    | own w =>
      cases hs
      exact .inl ((hown q).2 hc)
    | global w =>
      cases hs
      refine .inr ⟨Option.eq_none_iff_forall_ne_some.2 fun q' hq' => ?_, (hglobal q).2 hc⟩
      have hc' := (hown q').1 hq'
      rw [hc] at hc'
      cases hc'
    | variadic => cases hs

/-- No value is both an own and a global parameter. -/
theorem Filled.disjoint (h : p.Filled cs taken) (hv : v ∈ p.own.keys) : v ∉ p.globals.keys := by
  intro hg
  obtain ⟨q, hq⟩ := OrderedMap.mem_keys.1 hv
  obtain ⟨q', hq'⟩ := OrderedMap.mem_keys.1 hg
  have hc := (h.first (.own v) v rfl q).1 hq
  have hc' := (h.first (.global v) v rfl q').1 hq'
  rw [hc] at hc'
  cases hc'

/-- **The first offer wins.** After any list of offers, of which at most one is of a variadic pair,
no value is both an own and a global parameter. A value has the pair of the first offer for it, is
a global if that was one for its global slot, and is a parameter if there was one. One more offer
for a value is taken if there was none for it, and leaves the whole set as it is otherwise. The
nodes are two for each pair that was taken, those of own parameters first, then those of globals,
each in the order of the offers, and the variadic ones last. -/
theorem first_offer_wins (h : cs.countP (·.slot = .variadic) ≤ 1) :
    ∃ taken p, empty.offers cs = some (taken, p) ∧
      (∀ v ∈ p.own.keys, v ∉ p.globals.keys) ∧
      (∀ v, p.find? v = (Offer.first? cs v).map Offer.pair ∧
        (∀ q, p.findGlobal? v = some q ↔ Offer.first? cs v = some ⟨.global v, q⟩) ∧
        (p.contains v = true ↔ ∃ c ∈ cs, c.slot.value? = some v)) ∧
      (∀ c v, c.slot.value? = some v → ∃ b p', p.offer c = some (b, p') ∧
        (b = true ↔ ∀ d ∈ cs, d.slot.value? ≠ some v) ∧ (b = false → p' = p)) ∧
      p.nodes = ((taken.filterMap Offer.own?).map Prod.snd ++
        (taken.filterMap Offer.global?).map Prod.snd ++
        taken.filterMap Offer.variadic?).flatMap (fun q => [q.input, q.output]) ∧
      p.size = taken.length ∧ p.nodes.length = 2 * p.size := by
  obtain ⟨taken, p, hp, hfilled⟩ := exists_offers h
  refine ⟨taken, p, hp, fun v hv => hfilled.disjoint hv,
    fun v => ⟨hfilled.find?_eq v, hfilled.first (.global v) v rfl, hfilled.contains_iff⟩,
    fun c v hv => ?_, hfilled.nodes_eq, hfilled.size_eq, length_nodes p⟩
  have hc : c.slot = .variadic → ∀ d ∈ cs, d.slot ≠ .variadic := by
    intro hs
    rw [hs] at hv
    cases hv
  obtain ⟨b, p', hb, _, htaken, hsame⟩ := hfilled.offer hc
  refine ⟨b, p', hb, ?_, hsame⟩
  rw [htaken, hv, ← Offer.first?_eq_none_iff]
  simp

/-- Pairs for two values and a variadic one: the second value is offered as a global before it is
offered as an own parameter, and the first one twice. -/
def mixedOffers : List Offer :=
  [⟨.own ⟨1⟩, ⟨⟨0⟩, ⟨1⟩⟩⟩, ⟨.global ⟨2⟩, ⟨⟨2⟩, ⟨3⟩⟩⟩, ⟨.variadic, ⟨⟨4⟩, ⟨5⟩⟩⟩,
    ⟨.own ⟨2⟩, ⟨⟨6⟩, ⟨7⟩⟩⟩, ⟨.own ⟨1⟩, ⟨⟨8⟩, ⟨9⟩⟩⟩]

/-- Three of the five pairs are taken. -/
theorem first_offer_wins_mixed : ∃ taken p, empty.offers mixedOffers = some (taken, p) ∧
    p.findGlobal? ⟨2⟩ = some ⟨⟨2⟩, ⟨3⟩⟩ ∧ p.contains ⟨3⟩ = false ∧
    p.nodes = [⟨0⟩, ⟨1⟩, ⟨2⟩, ⟨3⟩, ⟨4⟩, ⟨5⟩] := by
  have hone : mixedOffers.countP (·.slot = .variadic) ≤ 1 := by decide
  obtain ⟨taken, p, hp, _, hfind, _, hnodes, _⟩ := first_offer_wins hone
  have htaken : (empty.offers mixedOffers).map Prod.fst = some (mixedOffers.take 3) := rfl
  rw [hp] at htaken
  cases htaken
  refine ⟨_, p, hp, (hfind ⟨2⟩).2.1 _ |>.2 rfl, ?_, hnodes⟩
  rw [← Bool.not_eq_true, (hfind ⟨3⟩).2.2]
  simp [mixedOffers, Slot.value?]

end Parameters

/-! ## Formal parameters -/

namespace Work

open Registry

variable {r : Registry} {g : GraphId} {v : ValueId}

/-- Whether the formals of a graph are what one offer for a slot makes of those of before, and
whether the offer was taken. -/
def OffersFormal (r : Registry) (g : GraphId) (s : Slot) (isTaken : Bool) (r' : Registry) : Prop :=
  ∃ y y' q, r.graph? g = some y ∧ r'.graph? g = some y' ∧
    y.formals.offer ⟨s, q⟩ = some (isTaken, y'.formals)

theorem addSlot_offers {s : Slot} (hs : s.value? = some v) :
    wp Fault.Genuine (addSlot g s v) (OffersFormal r g s) r := by
  have hslot := Slot.value?_eq_some_iff.1 hs
  refine wp_addSlot hslot (fun y hy hv => ?_) fun y en x hy hvacant _ _ => ?_
  · refine ⟨y, y, r.nextPair, hy, hy, ?_⟩
    rw [Parameters.offer_of_value hs, hv, Parameters.put_of_contains hs hv]
    rfl
  · refine ⟨y, { y with formals := y.formals.put s r.nextPair }, r.nextPair, hy, by simp [hy], ?_⟩
    rw [Parameters.offer_of_value hs, (Parameters.vacant_iff hslot).1 hvacant]
    rfl

/-- A declared or heap parameter is added by an offer. -/
theorem addFormal_offers : wp Fault.Genuine (addFormal g v) (OffersFormal r g (.own v)) r :=
  addSlot_offers (s := .own v) rfl

/-- A global parameter is added by an offer. -/
theorem addFormalGlobal_offers :
    wp Fault.Genuine (addFormalGlobal g v) (OffersFormal r g (.global v)) r :=
  addSlot_offers (s := .global v) rfl

/-- The pair for variadic arguments is added by an offer. -/
theorem setVariadic_offers {q : ParameterPair} :
    wp Fault.Genuine (setVariadic g q) (fun _ => OffersFormal r g .variadic true) r := by
  refine wp_last (wp_setVariadic fun y hy hvacant => wp_pure ?_)
  refine ⟨y, { y with formals := y.formals.put .variadic q }, q, hy, by simp [hy], ?_⟩
  exact Parameters.offer_variadic rfl hvacant

end Work

end Sdg
