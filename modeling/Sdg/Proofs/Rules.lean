import Sdg.Build.Work
import Sdg.Proofs.Collection

/-!
# Rules for work

`Work.wp bad w Q r` says of a piece of work `w`, started on the registry `r`, that it ends with an
answer and a registry as `Q` demands, or in a fault that `bad` admits. With no fault admitted this
is total correctness. There is one rule for each way in which work is put together and one for each
piece that everything else is made of; nothing after this module opens the monad.

The rules for pieces have the rest of the work in them, so that a proof reads in the order of the
work.
-/

namespace Sdg

/-- A fault that says something about the module or the request, and not that a recursion was cut
off. -/
abbrev Fault.Genuine (e : Fault) : Prop := e ≠ .exhausted

namespace Work

variable {α β σ : Type} {bad : Fault → Prop} {Q : β → Registry → Prop} {r : Registry}

/-- Whatever was reported before, `w` takes the registry `r` to an answer and a registry in `Q`, or
ends in a fault in `bad`. -/
def wp (bad : Fault → Prop) (w : Work α) (Q : α → Registry → Prop) (r : Registry) : Prop :=
  ∀ es, match w.run.run ⟨r, es⟩ with
    | (.ok a, s) => Q a s.registry
    | (.error e, _) => bad e

/-! ## Composition -/

theorem wp_mono {w : Work α} {P Q : α → Registry → Prop} (h : wp bad w P r)
    (hPQ : ∀ a s, P a s → Q a s) : wp bad w Q r := by
  intro es
  have hw := h es
  revert hw
  rcases w.run.run ⟨r, es⟩ with ⟨e | a, s⟩
  · exact id
  · exact hPQ a s.registry

/-- Work that ends in no fault but those of `bad'` ends in none but those of `bad`. -/
theorem wp_fault {bad' : Fault → Prop} {w : Work β} (h : wp bad' w Q r)
    (hbad : ∀ e, bad' e → bad e) : wp bad w Q r := by
  intro es
  have hw := h es
  revert hw
  rcases w.run.run ⟨r, es⟩ with ⟨e | a, s⟩
  · exact hbad e
  · exact id

/-- Two things that are known of a piece of work, together. It ends in no fault but those of
`bad'`. -/
theorem wp_and {bad' : Fault → Prop} {w : Work β} {P : β → Registry → Prop} (h : wp bad w P r)
    (h' : wp bad' w Q r) : wp bad' w (fun a s => P a s ∧ Q a s) r := by
  intro es
  have hw := h es
  have hw' := h' es
  revert hw hw'
  rcases w.run.run ⟨r, es⟩ with ⟨e | a, s⟩
  · exact fun _ hbad => hbad
  · exact And.intro

theorem wp_pure {a : β} (h : Q a r) : wp bad (pure a) Q r := fun _ => h

theorem wp_throw {e : Fault} (h : bad e) : wp bad (throw e : Work β) Q r := fun _ => h

/-- Work in sequence: `P` is what the first piece leaves to the rest. -/
theorem wp_bind {w : Work α} {k : α → Work β} {P : α → Registry → Prop} (hw : wp bad w P r)
    (hk : ∀ a s, P a s → wp bad (k a) Q s) : wp bad (w >>= k) Q r := by
  intro es
  have hw' := hw es
  rw [ExceptT.run_bind, StateT.run_bind]
  revert hw'
  rcases w.run.run ⟨r, es⟩ with ⟨e | a, s⟩
  · exact id
  · intro hP
    exact hk a s.registry hP s.events

/-- After a fault nothing is done. -/
theorem wp_throw_bind {e : Fault} {k : α → Work β} (h : bad e) : wp bad (throw e >>= k) Q r :=
  wp_bind (P := fun _ _ => False) (wp_throw h) fun _ _ hf => hf.elim

/-- The last piece of work may be taken to have something after it. -/
theorem wp_last {w : Work β} (h : wp bad (w >>= pure) Q r) : wp bad w Q r := by
  rwa [bind_pure] at h

/-- The rest `k` of the work after a choice, where it was written into both ways. -/
theorem wp_ite {c : Prop} [Decidable c] {w w' : Work α} {k : α → Work β}
    (h : wp bad ((if c then w else w') >>= k) Q r) :
    wp bad (if c then w >>= k else w' >>= k) Q r := by
  split at h <;> rename_i hc
  · rwa [if_pos hc]
  · rwa [if_neg hc]

/-- The rest `k` of the work after something that is done on a condition. -/
theorem wp_when {c : Prop} [Decidable c] {w : Work Unit} {k : Unit → Work β}
    (h : wp bad ((if c then w else pure ()) >>= k) Q r) :
    wp bad (if c then w >>= k else k ()) Q r := by
  split at h <;> rename_i hc
  · rwa [if_pos hc]
  · rw [pure_bind] at h
    rwa [if_neg hc]

/-- A loop over a list: `I` relates what was passed, the state of the loop and the registry. -/
theorem wp_forIn {l : List α} {b : σ} {body : α → σ → Work (ForInStep σ)}
    (I : List α → σ → Registry → Prop) (h0 : I [] b r)
    (hstep : ∀ done x rest b s, l = done ++ x :: rest → I done b s →
      wp bad (body x b) (fun c s' => ∃ b', c = .yield b' ∧ I (done ++ [x]) b' s') s) :
    wp bad (forIn l b body) (I l) r := by
  suffices h : ∀ rest done b s, l = done ++ rest → I done b s →
      wp bad (forIn rest b body) (I l) s from h l [] b r rfl h0
  intro rest
  induction rest with
  | nil =>
    intro done b s hl hI
    rw [List.append_nil] at hl
    subst hl
    rw [List.forIn_nil]
    exact wp_pure hI
  | cons x rest ih =>
    intro done b s hl hI
    rw [List.forIn_cons]
    refine wp_bind (hstep done x rest b s hl hI) ?_
    intro c s' hpost
    -- the body never ends the loop, so the rest is worked through
    obtain ⟨b', rfl, hI'⟩ := hpost
    exact ih (done ++ [x]) b' s' (by simpa using hl) hI'

/-- What a loop comes to is in its list. -/
theorem mem_of_split {l done rest : List α} {x : α} (h : l = done ++ x :: rest) : x ∈ l := by
  rw [h]
  simp

/-- What a loop over distinct elements comes to was not passed before. -/
theorem not_mem_of_split {l done rest : List α} {x : α} (hl : l.Nodup)
    (h : l = done ++ x :: rest) : x ∉ done := by
  intro hx
  rw [h, List.nodup_append] at hl
  exact hl.2.2 x hx x List.mem_cons_self rfl

/-- Work that only looks at the registry, done for each element of a list: what comes out are the
elements that `R` relates to those of the list. -/
theorem wp_mapM_rel {l : List α} {f : α → Work β} {R : α → β → Prop}
    (hf : ∀ x ∈ l, wp bad (f x) (fun y s => s = r ∧ R x y) r) :
    wp bad (l.mapM f)
      (fun ys s => s = r ∧ (∀ y ∈ ys, ∃ x ∈ l, R x y) ∧ ∀ x ∈ l, ∃ y ∈ ys, R x y) r := by
  induction l with
  | nil =>
    rw [List.mapM_nil]
    exact wp_pure ⟨rfl, nofun, nofun⟩
  | cons x l ih =>
    rw [List.mapM_cons]
    refine wp_bind (hf x List.mem_cons_self) ?_
    intro y s hpost
    obtain ⟨rfl, hy⟩ := hpost
    refine wp_bind (ih fun z hz => hf z (List.mem_cons_of_mem _ hz)) ?_
    intro ys s hpost
    obtain ⟨rfl, hys, hl⟩ := hpost
    refine wp_pure ⟨rfl, List.forall_mem_cons.2 ⟨⟨x, List.mem_cons_self, hy⟩, fun y' hy' => ?_⟩,
      List.forall_mem_cons.2 ⟨⟨y, List.mem_cons_self, hy⟩, fun z hz => ?_⟩⟩
    · obtain ⟨z, hz, hR⟩ := hys y' hy'
      exact ⟨z, List.mem_cons_of_mem _ hz, hR⟩
    · obtain ⟨y', hy', hR⟩ := hl z hz
      exact ⟨y', List.mem_cons_of_mem _ hy', hR⟩

/-- So `P` holds of all that comes out if it holds of what each element leads to. -/
theorem wp_mapM {l : List α} {f : α → Work β} {P : β → Prop}
    (hf : ∀ x ∈ l, wp bad (f x) (fun y s => s = r ∧ P y) r) :
    wp bad (l.mapM f) (fun ys s => s = r ∧ ∀ y ∈ ys, P y) r := by
  refine wp_mono (wp_mapM_rel (R := fun _ y => P y) hf) ?_
  intro ys s hpost
  obtain ⟨rfl, hys, _⟩ := hpost
  refine ⟨rfl, fun y hy => ?_⟩
  obtain ⟨_, _, hP⟩ := hys y hy
  exact hP

/-- A test `p` that only looks at the registry and decides `D` picks out what `D` holds of. That it
came to an end tells `K` of every element. -/
theorem wp_filterM {l : List α} {p : α → Work Bool} {D K : α → Prop}
    (hp : ∀ x ∈ l, wp bad (p x) (fun b s => s = r ∧ K x ∧ (b = true ↔ D x)) r) :
    wp bad (l.filterM p) (fun l' s => s = r ∧ (∀ x ∈ l, K x) ∧ ∀ x, x ∈ l' ↔ x ∈ l ∧ D x) r := by
  -- the elements that were picked out so far are kept in reverse order
  have hloop : ∀ (l acc : List α),
      (∀ x ∈ l, wp bad (p x) (fun b s => s = r ∧ K x ∧ (b = true ↔ D x)) r) →
      wp bad (List.filterAuxM p l acc)
        (fun l' s => s = r ∧ (∀ x ∈ l, K x) ∧ ∀ x, x ∈ l' ↔ x ∈ acc ∨ x ∈ l ∧ D x) r := by
    intro l
    induction l with
    | nil => exact fun acc _ => wp_pure ⟨rfl, nofun, fun x => by simp⟩
    | cons a l ih =>
      intro acc hp
      refine wp_bind (hp a List.mem_cons_self) ?_
      intro b s hpost
      obtain ⟨rfl, hK, hb⟩ := hpost
      refine wp_mono (ih (cond b (a :: acc) acc) fun x hx => hp x (List.mem_cons_of_mem _ hx)) ?_
      intro l' s hpost
      obtain ⟨rfl, hKl, hl⟩ := hpost
      refine ⟨rfl, List.forall_mem_cons.2 ⟨hK, hKl⟩, fun x => ?_⟩
      rw [hl x]
      cases b with
      | false =>
        have hD : ¬ D a := fun h => nomatch hb.2 h
        simp only [cond_false, List.mem_cons]
        grind
      | true =>
        have hD : D a := hb.1 rfl
        simp only [cond_true, List.mem_cons]
        grind
  unfold List.filterM
  refine wp_bind (hloop l [] hp) ?_
  intro l' s hpost
  obtain ⟨rfl, hK, hl⟩ := hpost
  refine wp_pure ⟨rfl, hK, fun x => ?_⟩
  rw [List.mem_reverse, hl x]
  simp

/-! ## Pieces -/

theorem wp_report {e : Event} {k : Unit → Work β} (h : wp bad (k ()) Q r) :
    wp bad (report e >>= k) Q r := fun es => h (e :: es)

theorem wp_registry {k : Registry → Work β} (h : wp bad (k r) Q r) : wp bad (registry >>= k) Q r :=
  fun es => h es

theorem wp_modifyRegistry {f : Registry → Registry} {k : Unit → Work β}
    (h : wp bad (k ()) Q (f r)) : wp bad (modifyRegistry f >>= k) Q r := fun es => h es

theorem wp_ask {x : Except Missing α} {k : α → Work β} (h : ∀ a, x = .ok a → wp bad (k a) Q r)
    (hbad : ∀ e, x = .error e → bad (.missing e)) : wp bad (ask x >>= k) Q r := by
  cases x with
  | ok a => exact fun es => h a rfl es
  | error e => exact fun _ => hbad e rfl

theorem wp_require {x : Option α} {fault : Fault} {k : α → Work β}
    (h : ∀ a, x = some a → wp bad (k a) Q r) (hbad : x = none → bad fault) :
    wp bad (require fault x >>= k) Q r := by
  cases x with
  | some a => exact fun es => h a rfl es
  | none => exact fun _ => hbad rfl

theorem wp_node {n : NodeId} {k : Node → Work β} (h : ∀ x, r.node? n = some x → wp bad (k x) Q r)
    (hbad : r.node? n = none → bad (.nodeGone n)) : wp bad (node n >>= k) Q r := by
  unfold node
  rw [bind_assoc]
  exact wp_registry (wp_require h hbad)

theorem wp_graph {g : GraphId} {k : Graph → Work β}
    (h : ∀ y, r.graph? g = some y → wp bad (k y) Q r)
    (hbad : r.graph? g = none → bad (.graphGone g)) : wp bad (graph g >>= k) Q r := by
  unfold graph
  rw [bind_assoc]
  exact wp_registry (wp_require h hbad)

/-! ## New nodes -/

/-- A live node is read. -/
theorem run_node {n : NodeId} {x : Node} {s : Workspace} (h : s.registry.node? n = some x)
    (k : Node → Work β) : (node n >>= k).run.run s = (k x).run.run s := by
  unfold node
  rw [bind_assoc]
  show (require (.nodeGone n) (s.registry.node? n) >>= k).run.run s = _
  rw [h]
  rfl

/-- A new node belongs to no graph yet. So it can be given to one, and it may as well be made as one
of that graph. -/
theorem ownedNode_eq (g : GraphId) (key : NodeKey) (block? : Option BlockKey) :
    ownedNode g key block? = newNode (.fresh key (some g) block?) := by
  refine ExceptT.ext (StateT.ext fun s => ?_)
  let n : NodeId := ⟨s.registry.nodes.next⟩
  let made (x : Node) : Workspace :=
    ⟨{ s.registry with nodes := s.registry.nodes.push x }, s.events⟩
  have hlive : ∀ x : Node, (made x).registry.node? n = some x := by
    intro x
    simp [made, n, Registry.node?, Arena.get?_push]
  have hput : ∀ (x y : Node) (k : Unit → Work NodeId),
      (putNode n y >>= k).run.run (made x) = (k ()).run.run (made y) := by
    intro x y k
    show (k ()).run.run ⟨{ (made x).registry with nodes := _ }, _⟩ = _
    simp only [made, n, Arena.set_push_next]
  calc (ownedNode g key block?).run.run s
      = (assign g n >>= fun _ => updateNode n (fun x => { x with block? := block? }) >>= fun _ =>
          pure n).run.run (made (.fresh key none none)) := rfl
    _ = (updateNode n (fun x => { x with block? := block? }) >>= fun _ =>
          pure n).run.run (made (.fresh key (some g) none)) := by
        unfold assign
        rw [bind_assoc, run_node (hlive _)]
        exact hput _ _ _
    _ = (pure n : Work NodeId).run.run (made (.fresh key (some g) block?)) := by
        unfold updateNode
        rw [bind_assoc, run_node (hlive _)]
        exact hput _ _ _

-- From here on there are the rules alone.
attribute [irreducible] wp

end Work

end Sdg
