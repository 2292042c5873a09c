import Sdg.Proofs.Registry.Live
import Sdg.Proofs.Safety.Sane

/-!
# Blame

The rules for work whose faults are all to be blamed on the setup. Where a piece of work may fail
they ask what a sane setup has for it. `Work.Safe` is about work of which nothing else is said;
what is known of it otherwise, should it come to its end, is added by `Safe.and`.
-/

namespace Sdg

namespace Work

open Registry

variable {α β : Type} {e : Setup} {Q : β → Registry → Prop} {r : Registry} {g : GraphId}
  {y : Graph}

/-- The work comes to its end on this registry, or the setup is to blame. -/
def Safe (e : Setup) (w : Work α) (r : Registry) : Prop := wp e.Blames w (fun _ _ => True) r

/-- What is known of safe work, should it come to its end. -/
theorem Safe.and {w : Work α} {P : α → Registry → Prop} (hs : Safe e w r)
    (h : wp Fault.Genuine w P r) : wp e.Blames w P r :=
  wp_mono (wp_and h hs) fun _ _ => And.left

theorem wp_throw_sane {f : Fault} (hf : f.Genuine) (h : e.Sane → False) :
    wp e.Blames (throw f : Work β) Q r := wp_throw ⟨hf, h⟩

/-- No question of a sane setup goes without an answer. -/
theorem blames_of_answered {x : Except Missing α} (hs : e.Sane → ∃ a, x = .ok a) (err : Missing)
    (herr : x = .error err) : e.Blames (.missing err) := by
  refine ⟨nofun, fun hsane => ?_⟩
  obtain ⟨a, ha⟩ := hs hsane
  rw [ha] at herr
  cases herr

theorem wp_ask_sane {x : Except Missing α} {k : α → Work β} (hs : e.Sane → ∃ a, x = .ok a)
    (h : ∀ a, x = .ok a → wp e.Blames (k a) Q r) : wp e.Blames (ask x >>= k) Q r :=
  wp_ask h (blames_of_answered hs)

/-- Two questions, of which the second is about the answer to the first. -/
theorem wp_ask_both_sane {γ : Type} {x : Except Missing α} {z : α → Except Missing γ}
    {k : α → γ → Work β} (hs : e.Sane → ∃ a c, x = .ok a ∧ z a = .ok c)
    (h : ∀ a c, x = .ok a → z a = .ok c → wp e.Blames (k a c) Q r) :
    wp e.Blames (ask x >>= fun a => ask (z a) >>= k a) Q r := by
  refine wp_ask_sane (fun hsane => ?_) fun a ha => wp_ask_sane (fun hsane => ?_) fun c => h a c ha
  · obtain ⟨a, _, ha, _⟩ := hs hsane
    exact ⟨a, ha⟩
  · obtain ⟨a', c, ha', hc⟩ := hs hsane
    rw [ha] at ha'
    cases ha'
    exact ⟨c, hc⟩

theorem wp_require_sane {x : Option α} {fault : Fault} {k : α → Work β} (hf : fault.Genuine)
    (hs : e.Sane → ∃ a, x = some a) (h : ∀ a, x = some a → wp e.Blames (k a) Q r) :
    wp e.Blames (require fault x >>= k) Q r := by
  refine wp_require h fun hn => ⟨hf, fun hsane => ?_⟩
  obtain ⟨a, ha⟩ := hs hsane
  rw [ha] at hn
  cases hn

/-- A unit that a sane setup has is no fault. -/
theorem blames_missingUnit {k : BlockKey} (hs : e.Sane → ∃ u, y.unit? k = some u)
    (hn : y.unit? k = none) : e.Blames (.missingUnit k) := by
  refine ⟨nofun, fun hsane => ?_⟩
  obtain ⟨u, hu⟩ := hs hsane
  rw [hn] at hu
  cases hu

/-- Nor is a key that a sane setup has not used. -/
theorem blames_duplicate {key : NodeKey} (hs : e.Sane → y.index.get? key = none)
    (hn : y.index.get? key ≠ none) : e.Blames (.duplicate key g) :=
  ⟨nofun, fun hsane => hn (hs hsane)⟩

end Work

end Sdg
