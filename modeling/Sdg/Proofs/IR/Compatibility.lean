import Mathlib.Data.List.Forall2
import Sdg.Build.Setup
import Sdg.Proofs.Closed

/-!
# Types that can be read as one another

One type can be read as another if they are equal, or if both are vectors of one width. So this is
an equivalence, although the test asks of both types that a register can hold them and compares
widths that not every type has. Whether a call may run a function is asked in terms of it alone:
functions whose types can be read as one another fit the same calls, and arguments that can be read
as one another fit the same functions.

Main results:

* `Ty.isConvertible_iff` — which types can be read as one another;
* `Ty.word?_eq_iff` — words of 64 bits tell the widths apart that they hold;
* `Module.callFits_up_to_types` — whether a call fits depends on types up to this equivalence.
-/

namespace Sdg

namespace Ty

variable {a b c : Ty} {n : Nat}

/-! ## Widths -/

/-- Whether a type is a scalar of the given width, or a vector that is as wide altogether. -/
inductive Width : Ty → Nat → Prop where
  | int (bits : UInt32) : Width (.int bits) bits.toNat
  | float (bits : UInt32) : Width (.float bits) bits.toNat
  | vec {element : Ty} {n : Nat} (length : UInt32) (h : Width element n) :
      Width (.vec element length) (n * length.toNat)

theorem bits?_eq_some_iff : a.bits? = some n ↔ a.Width n := by
  constructor
  · intro h
    induction a generalizing n with
    | int bits =>
      cases h
      exact .int bits
    | float bits =>
      cases h
      exact .float bits
    | vec element length ih =>
      obtain ⟨k, hk, rfl⟩ := Option.map_eq_some_iff.1 h
      exact .vec length (ih hk)
    | _ => cases h
  · intro h
    induction h with
    | int bits | float bits => rfl
    | vec length _ ih => rw [bits?, ih, Option.map_some]

/-- Whether a type is a vector of the given width. -/
def IsVectorOf (a : Ty) (n : Nat) : Prop := (∃ element length, a = vec element length) ∧ a.Width n

/-- Which types can be read as one another. -/
theorem isConvertible_iff :
    a.isConvertible b = true ↔ a = b ∨ ∃ n, a.IsVectorOf n ∧ b.IsVectorOf n := by
  have hvec : ∀ element length element' length',
      ((vec element length).bits?.isSome ∧
        (vec element length).bits? = (vec element' length').bits?) ↔
      ∃ n, (vec element length).IsVectorOf n ∧ (vec element' length').IsVectorOf n := by
    intro element length element' length'
    simp only [IsVectorOf, ← bits?_eq_some_iff, Option.isSome_iff_exists]
    constructor
    · rintro ⟨⟨n, hn⟩, he⟩
      exact ⟨n, ⟨⟨_, _, rfl⟩, hn⟩, ⟨_, _, rfl⟩, he ▸ hn⟩
    · rintro ⟨n, ⟨_, hn⟩, _, hn'⟩
      exact ⟨⟨n, hn⟩, hn.trans hn'.symm⟩
  -- the further cases of the test add nothing: pointers into one space are equal
  unfold isConvertible
  split
  · simp [isFirstClass, hvec]
  · simp +contextual [isFirstClass, IsVectorOf]
  · rename_i hno _
    have hnone : ¬ ∃ n, a.IsVectorOf n ∧ b.IsVectorOf n := by
      rintro ⟨n, ⟨⟨_, _, ha⟩, _⟩, ⟨_, _, hb⟩, _⟩
      exact hno _ _ _ _ ha hb
    simp [hnone]

theorem Width.unique (h : a.Width n) {k : Nat} (hk : a.Width k) : n = k :=
  Option.some_inj.1 ((bits?_eq_some_iff.2 h).symm.trans (bits?_eq_some_iff.2 hk))

/-- Being readable as one another is an equivalence of types. -/
theorem isConvertible_equivalence : Equivalence fun a b : Ty => a.isConvertible b = true := by
  simp only [isConvertible_iff]
  refine ⟨fun a => .inl rfl, ?symm, ?trans⟩
  case symm =>
    rintro a b (rfl | ⟨n, ha, hb⟩)
    · exact .inl rfl
    · exact .inr ⟨n, hb, ha⟩
  case trans =>
    rintro a b c (rfl | ⟨n, ha, hb⟩) hbc
    · exact hbc
    · rcases hbc with rfl | ⟨k, hb', hc⟩
      · exact .inr ⟨n, ha, hb⟩
      · -- the type in the middle has one width
        have hk : n = k := hb.2.unique hb'.2
        exact .inr ⟨n, ha, hk ▸ hc⟩

/-- Types that can be read as one another can be read as the same types. -/
theorem isConvertible_congr {a a' b b' : Ty} (ha : a.isConvertible a' = true)
    (hb : b.isConvertible b' = true) : a.isConvertible b = a'.isConvertible b' := by
  have he := isConvertible_equivalence
  rw [Bool.eq_iff_iff]
  constructor
  · intro h
    exact he.trans (he.trans (he.symm ha) h) hb
  · intro h
    exact he.trans (he.trans ha h) (he.symm hb)

/-! ## Widths in words -/

/-- The width as words of 64 bits compute it: a product that is too large loses its high bits. -/
def word? : Ty → Option UInt64
  | int bits => some bits.toUInt64
  | float bits => some bits.toUInt64
  | vec element length => element.word?.map (· * length.toUInt64)
  | _ => none

/-- Whether words of 64 bits hold the width of the type, if it has one. -/
def Fits (a : Ty) : Prop := ∀ n, a.Width n → n < UInt64.size

theorem fits_of_bits? {n : Nat} (h : a.bits? = some n) (hn : n < UInt64.size) : a.Fits := by
  intro k hk
  rwa [← (bits?_eq_some_iff.1 h).unique hk]

/-- The computation in words is that of the width, modulo what a word holds. -/
theorem word?_eq (a : Ty) : a.word? = a.bits?.map UInt64.ofNat := by
  induction a with
  | int bits | float bits => simp [word?, bits?]
  | vec element length ih => simp [word?, bits?, ih, Function.comp_def]
  | _ => rfl

/-- Words of 64 bits tell the widths apart that they hold. -/
theorem word?_eq_iff (ha : a.Fits) (hb : b.Fits) : a.word? = b.word? ↔ a.bits? = b.bits? := by
  have hsmall : ∀ {a : Ty}, a.Fits → a.word?.map UInt64.toNat = a.bits? := by
    intro a ha
    rw [word?_eq, Option.map_map]
    cases hn : a.bits? with
    | none => rfl
    | some n => exact congrArg some (UInt64.toNat_ofNat_of_lt' (ha n (bits?_eq_some_iff.1 hn)))
  constructor
  · intro h
    rw [← hsmall ha, ← hsmall hb, h]
  · intro h
    rw [word?_eq, word?_eq, h]

end Ty

/-! ## Calls -/

namespace Module

variable {m : Module} {f g : Function} {call v w : ValueId}
  {args args' formals formals' : List ValueId}

/-- Whether two values are one and the same, or of types that can be read as one another. -/
def Interchangeable (m : Module) (v w : ValueId) : Prop :=
  v = w ∨ ∃ x y, m.value v = .ok x ∧ m.value w = .ok y ∧ x.ty.isConvertible y.ty = true

/-- What makes no difference between such types makes none between such values. -/
theorem Interchangeable.bind_eq {β : Type} (h : m.Interchangeable v w)
    (work : Ty → Except Missing β)
    (hwork : ∀ a b, a.isConvertible b = true → work a = work b) :
    (m.value v >>= fun x => work x.ty) = m.value w >>= fun x => work x.ty := by
  rcases h with rfl | ⟨x, y, hx, hy, hxy⟩
  · rfl
  · rw [hx, hy]
    exact hwork _ _ hxy

theorem argumentsFit_congr (hf : List.Forall₂ m.Interchangeable formals formals')
    (ha : List.Forall₂ m.Interchangeable args args') :
    m.argumentsFit formals args = m.argumentsFit formals' args' := by
  have hrefl := Ty.isConvertible_equivalence.refl
  induction hf generalizing args args' with
  | nil => rfl
  | @cons p p' ps ps' hp _ ih =>
    cases ha with
    | nil => rfl
    | @cons a a' as as' ha has =>
      -- first the argument is exchanged, then the parameter it is compared with
      have hargument := ha.bind_eq (fun s => m.value p >>= fun y =>
        if s.isConvertible y.ty then m.argumentsFit ps as else .ok false) fun s t hst => by
          simp only [Ty.isConvertible_congr hst (hrefl _)]
      have hformal : ∀ s : Ty, (m.value p >>= fun y =>
          if s.isConvertible y.ty then m.argumentsFit ps as else .ok false) =
            m.value p' >>= fun y =>
              if s.isConvertible y.ty then m.argumentsFit ps as else .ok false := fun s =>
        hp.bind_eq (fun t => if s.isConvertible t then m.argumentsFit ps as else .ok false)
          fun t u htu => by simp only [Ty.isConvertible_congr (hrefl s) htu]
      calc m.argumentsFit (p :: ps) (a :: as)
          = m.value a' >>= fun x => m.value p >>= fun y =>
              if x.ty.isConvertible y.ty then m.argumentsFit ps as else .ok false := hargument
        _ = m.value a' >>= fun x => m.value p' >>= fun y =>
              if x.ty.isConvertible y.ty then m.argumentsFit ps as else .ok false := by
            simp only [hformal]
        _ = m.argumentsFit (p' :: ps') (a' :: as') := by
            rw [ih has]
            rfl

/-- A call fits what it fits up to types that can be read as one another. -/
theorem callFits_congr (hf : List.Forall₂ m.Interchangeable f.params g.params)
    (hreturns : f.returns.isConvertible g.returns = true)
    (ha : List.Forall₂ m.Interchangeable args args') :
    m.callFits f call args = m.callFits g call args' := by
  have hrefl := Ty.isConvertible_equivalence.refl
  unfold callFits
  simp only [hf.length_eq, ha.length_eq, argumentsFit_congr hf ha,
    Ty.isConvertible_congr hreturns (hrefl _)]

theorem forall₂_refl (m : Module) (vs : List ValueId) : List.Forall₂ m.Interchangeable vs vs :=
  List.forall₂_same.2 fun _ _ => .inl rfl

/-- One argument in place of an interchangeable one. -/
theorem forall₂_set {i : Nat} (hi : args[i]? = some v) (h : m.Interchangeable v w) :
    List.Forall₂ m.Interchangeable args (args.set i w) := by
  induction args generalizing i with
  | nil => cases hi
  | cons a as ih =>
    cases i with
    | zero =>
      cases hi
      exact .cons h (forall₂_refl m as)
    | succ i => exact .cons (.inl rfl) (ih hi)

/-- **Calls and types.** Two types can be read as one another exactly if they are equal or vectors
of one width, which words of 64 bits tell as well if they hold the widths. This is an equivalence.
Functions with as many parameters, whose types pairwise can be read as one another and whose results
can, fit the same calls with the same arguments; and an argument makes no difference to one whose
type can be read as its own. -/
theorem callFits_up_to_types :
    (∀ a b : Ty, a.isConvertible b = true ↔ a = b ∨ ∃ n, a.IsVectorOf n ∧ b.IsVectorOf n) ∧
    (∀ a b : Ty, a.Fits → b.Fits → (a.word? = b.word? ↔ a.bits? = b.bits?)) ∧
    (Equivalence fun a b : Ty => a.isConvertible b = true) ∧
    (∀ (m : Module) (f g : Function) (call : ValueId) (args : List ValueId),
      List.Forall₂ m.Interchangeable f.params g.params →
        f.returns.isConvertible g.returns = true →
          m.callFits f call args = m.callFits g call args) ∧
    ∀ (m : Module) (f : Function) (call : ValueId) (args : List ValueId) (i : Nat) (v w : ValueId),
      args[i]? = some v → m.Interchangeable v w →
        m.callFits f call (args.set i w) = m.callFits f call args := by
  have he := Ty.isConvertible_equivalence
  refine ⟨fun a b => Ty.isConvertible_iff, fun a b ha hb => Ty.word?_eq_iff ha hb, he,
    fun m f g call args hparams hreturns => ?_, fun m f call args i v w hi h => ?_⟩
  · exact callFits_congr hparams hreturns (forall₂_refl m args)
  · exact (callFits_congr (forall₂_refl m f.params) (he.refl _) (forall₂_set hi h)).symm

/-- A function of a vector of four lanes of 32 bits. -/
def fourLanes : Function := ⟨"four", ⟨0⟩, [⟨1⟩], false, .void, []⟩

/-- A function of a vector of two lanes of 64 bits. -/
def twoLanes : Function := ⟨"two", ⟨2⟩, [⟨3⟩], false, .void, []⟩

/-- Both functions, a constant `%4` of eight lanes of 16 bits, a constant `%5` that is as wide but
no vector, and one `%6` without a value. -/
def lanes : Module :=
  ⟨"lanes", #[fourLanes, twoLanes], #[], #[⟨.function ⟨0⟩, .ptr 0, some "four"⟩,
    ⟨.argument ⟨0⟩ 0, .vec (.int 32) 4, none⟩, ⟨.function ⟨1⟩, .ptr 0, some "two"⟩,
    ⟨.argument ⟨1⟩ 0, .vec (.int 64) 2, none⟩, ⟨.constant, .vec (.float 16) 8, none⟩,
    ⟨.constant, .int 128, none⟩, ⟨.constant, .void, none⟩], []⟩

/-- Four lanes are as wide as two, in words as well. A call with eight lanes fits both functions,
and so it does with the two lanes of a parameter; with a number of that width it does not. -/
theorem callFits_up_to_types_lanes :
    (Ty.vec (.int 32) 4).word? = (Ty.vec (.int 64) 2).word? ∧
    lanes.callFits fourLanes ⟨6⟩ [⟨4⟩] = .ok true ∧
    lanes.callFits fourLanes ⟨6⟩ [⟨4⟩] = lanes.callFits twoLanes ⟨6⟩ [⟨4⟩] ∧
    lanes.callFits fourLanes ⟨6⟩ [⟨3⟩] = lanes.callFits fourLanes ⟨6⟩ [⟨4⟩] ∧
    lanes.callFits fourLanes ⟨6⟩ [⟨5⟩] = .ok false := by
  obtain ⟨_, hwords, _, hfunctions, harguments⟩ := callFits_up_to_types
  have hfour : (Ty.vec (.int 32) 4).Fits := Ty.fits_of_bits? rfl (by decide : 128 < UInt64.size)
  have htwo : (Ty.vec (.int 64) 2).Fits := Ty.fits_of_bits? rfl (by decide : 128 < UInt64.size)
  have hparams : List.Forall₂ lanes.Interchangeable fourLanes.params twoLanes.params :=
    .cons (.inr ⟨_, _, rfl, rfl, by decide⟩) .nil
  have hargument : lanes.Interchangeable ⟨4⟩ ⟨3⟩ := .inr ⟨_, _, rfl, rfl, by decide⟩
  exact ⟨(hwords _ _ hfour htwo).2 rfl, rfl,
    hfunctions lanes fourLanes twoLanes ⟨6⟩ [⟨4⟩] hparams (by decide),
    harguments lanes fourLanes ⟨6⟩ [⟨4⟩] 0 ⟨4⟩ ⟨3⟩ rfl hargument, rfl⟩

end Module

end Sdg
