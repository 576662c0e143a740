import Mathlib.Logic.Relation

/-! Finite runs of a step relation and the two rules used for them: an
invariant that every step keeps, and a simulation by a second system. -/
namespace Transition

variable {State Abstract : Type*}

/-- Some finite run of `step` from an initial state ends in this state. -/
def Reachable (init : State → Prop) (step : State → State → Prop) (s : State) : Prop :=
  ∃ start, init start ∧ Relation.ReflTransGen step start s

variable {init : State → Prop} {step : State → State → Prop} {s t : State}

theorem Reachable.of_init (h : init s) : Reachable init step s :=
  ⟨s, h, Relation.ReflTransGen.refl⟩

theorem Reachable.next (h : Reachable init step s) (hStep : step s t) :
    Reachable init step t := by
  obtain ⟨start, hStart, run⟩ := h
  exact ⟨start, hStart, run.tail hStep⟩

/-- Induction on the length of the run. -/
theorem Reachable.invariant {P : State → Prop} (h : Reachable init step s)
    (hInit : ∀ s, init s → P s) (hStep : ∀ s t, P s → step s t → P t) : P s := by
  obtain ⟨start, hStart, run⟩ := h
  induction run with
  | refl => exact hInit _ hStart
  | tail _ last ih => exact hStep _ _ ih last

/-- A run with fewer initial states and fewer steps is a run of the larger system. -/
theorem Reachable.mono {init' : State → Prop} {step' : State → State → Prop}
    (h : Reachable init step s) (hInit : ∀ s, init s → init' s)
    (hStep : ∀ s t, step s t → step' s t) : Reachable init' step' s :=
  h.invariant (fun s hs => Reachable.of_init (hInit s hs))
    (fun s t hs hst => hs.next (hStep s t hst))

/-- Forward simulation: related initial states and matching steps give every
concrete run an abstract one that ends in a related state. -/
theorem Reachable.simulate {initA : Abstract → Prop} {stepA : Abstract → Abstract → Prop}
    {R : State → Abstract → Prop} (h : Reachable init step s)
    (hInit : ∀ s, init s → ∃ a, initA a ∧ R s a)
    (hStep : ∀ s t a, R s a → step s t → ∃ b, Relation.ReflTransGen stepA a b ∧ R t b) :
    ∃ a, Reachable initA stepA a ∧ R s a := by
  refine h.invariant (P := fun s => ∃ a, Reachable initA stepA a ∧ R s a) ?_ ?_
  · intro s hs
    obtain ⟨a, ha, hRel⟩ := hInit s hs
    exact ⟨a, Reachable.of_init ha, hRel⟩
  · intro s t hs hst
    obtain ⟨a, ⟨start, hStart, run⟩, hRel⟩ := hs
    obtain ⟨b, hab, hRel'⟩ := hStep s t a hRel hst
    exact ⟨b, ⟨start, hStart, run.trans hab⟩, hRel'⟩

/-- Where a step has only one result, every state on the way comes before the last one. -/
theorem run_to_end (hUnique : Relator.RightUnique step) (hEnd : ∀ u, ¬ step t u)
    (h : Relation.ReflTransGen step s t) {u : State} (hRun : Relation.ReflTransGen step s u) :
    Relation.ReflTransGen step u t := by
  rcases Relation.ReflTransGen.total_of_right_unique hUnique hRun h with hBefore | hBehind
  · exact hBefore
  · rcases Relation.ReflTransGen.cases_head hBehind with rfl | ⟨v, hFirst, -⟩
    · exact Relation.ReflTransGen.refl
    · exact absurd hFirst (hEnd v)

/-- A run that performs actions in their order. -/
theorem Reachable.perform {Action : Type*} {act : State → Action → Option State}
    (hStep : ∀ s a t, act s a = some t → step s t) {actions : List Action}
    (h : Reachable init step s) (hRun : actions.foldlM act s = some t) : Reachable init step t := by
  induction actions generalizing s with
  | nil => exact Option.some.inj hRun ▸ h
  | cons a actions ih =>
      obtain ⟨u, hFirst, hRest⟩ := Option.bind_eq_some_iff.mp (List.foldlM_cons.symm.trans hRun)
      exact ih (h.next (hStep s a u hFirst)) hRest

/-- Along a run of single actions a property holds everywhere if and only if each action is one that
keeps it. -/
theorem foldl_forall_iff {Action : Type*} {act : State → Action → State} {P : State → Prop}
    {Q : State → Action → Prop} (hStep : ∀ s a, P s → (P (act s a) ↔ Q s a)) (hs : P s)
    (actions : List Action) :
    (∀ n, P ((actions.take n).foldl act s)) ↔
      ∀ n a, actions[n]? = some a → Q ((actions.take n).foldl act s) a := by
  induction actions generalizing s with
  | nil => simp [hs]
  | cons a actions ih =>
      constructor
      · intro h
        have hNext : P (act s a) := h 1
        intro n b hb
        cases n with
        | zero => exact Option.some.inj hb ▸ (hStep s a hs).mp hNext
        | succ n => exact (ih hNext).mp (fun n => h (n + 1)) n b hb
      · intro h n
        have hNext : P (act s a) := (hStep s a hs).mpr (h 0 a rfl)
        cases n with
        | zero => exact hs
        | succ n => exact (ih hNext).mpr (fun n => h (n + 1)) n

end Transition
