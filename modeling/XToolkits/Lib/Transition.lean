import Mathlib.Data.List.Induction
import Mathlib.Order.Basic
import Mathlib.Tactic.Common

set_option autoImplicit false

/-! # Runs of a transition function

A system of atomic steps is a function `step : σ → α → Option (σ × List ε)`: from a state and an
action it gives the next state and the events the step makes visible, or `none` when the action is
not enabled there. A run is a list of actions, so an arbitrary interleaving of several parties is
an arbitrary list. `run` executes one and collects the events; `run_induction` is the invariant
rule, over the events so far and the state reached. `EachStep` says something of every step of a
run: of its action and the state it is taken in. -/

namespace XToolkits

variable {σ α ε : Type}

/-- Execute the actions one after the other; the events are collected in order. -/
def run (step : σ → α → Option (σ × List ε)) : σ → List α → Option (σ × List ε)
  | s, [] => some (s, [])
  | s, a :: as =>
      match step s a with
      | none => none
      | some (s', es) =>
          match run step s' as with
          | none => none
          | some (s'', es') => some (s'', es ++ es')

variable {step : σ → α → Option (σ × List ε)}

@[simp] theorem run_nil (s : σ) : run step s [] = some (s, []) := rfl

/-- The first action of a run and the rest of it. -/
theorem run_cons_eq_some {s s'' : σ} {a : α} {as : List α} {es : List ε} :
    run step s (a :: as) = some (s'', es) ↔
      ∃ s' es₁ es₂, step s a = some (s', es₁) ∧ run step s' as = some (s'', es₂) ∧
        es = es₁ ++ es₂ := by
  constructor
  · intro h
    simp only [run] at h
    split at h
    · cases h
    · next s' es₁ hstep =>
        split at h
        · cases h
        · next t es₂ hrun =>
            simp only [Option.some.injEq, Prod.mk.injEq] at h
            obtain ⟨rfl, rfl⟩ := h
            exact ⟨s', es₁, es₂, hstep, hrun, rfl⟩
  · rintro ⟨s', es₁, es₂, hstep, hrun, rfl⟩
    simp [run, hstep, hrun]

theorem run_singleton {s s' : σ} {a : α} {es : List ε} (h : step s a = some (s', es)) :
    run step s [a] = some (s', es) :=
  run_cons_eq_some.2 ⟨s', es, [], h, rfl, (List.append_nil es).symm⟩

/-- A run of a concatenation is a run of its first part followed by a run of its second. -/
theorem run_append_eq_some {s s'' : σ} {as bs : List α} {es : List ε} :
    run step s (as ++ bs) = some (s'', es) ↔
      ∃ s' es₁ es₂, run step s as = some (s', es₁) ∧ run step s' bs = some (s'', es₂) ∧
        es = es₁ ++ es₂ := by
  induction as generalizing s es with
  | nil => simp
  | cons a as ih =>
      simp only [List.cons_append, run_cons_eq_some, ih]
      constructor
      · rintro ⟨s₁, e₁, e₂, hstep, ⟨s₂, e₃, e₄, hrun, hrest, rfl⟩, rfl⟩
        exact ⟨s₂, e₁ ++ e₃, e₄, ⟨s₁, e₁, e₃, hstep, hrun, rfl⟩, hrest, by simp⟩
      · rintro ⟨s₂, _, e₄, ⟨s₁, e₁, e₃, hstep, hrun, rfl⟩, hrest, rfl⟩
        exact ⟨s₁, e₁, e₃ ++ e₄, hstep, ⟨s₂, e₃, e₄, hrun, hrest, rfl⟩, by simp⟩

/-- The last action of a run and what came before it. -/
theorem run_concat_eq_some {s s'' : σ} {a : α} {as : List α} {es : List ε} :
    run step s (as ++ [a]) = some (s'', es) ↔
      ∃ s' es₁ es₂, run step s as = some (s', es₁) ∧ step s' a = some (s'', es₂) ∧
        es = es₁ ++ es₂ := by
  rw [run_append_eq_some]
  constructor
  · rintro ⟨s', es₁, es₂, hrun, hlast, rfl⟩
    obtain ⟨t, e, e', hstep, hnil, rfl⟩ := run_cons_eq_some.1 hlast
    simp only [run_nil, Option.some.injEq, Prod.mk.injEq] at hnil
    obtain ⟨rfl, rfl⟩ := hnil
    exact ⟨s', es₁, e, hrun, hstep, by simp⟩
  · rintro ⟨s', es₁, es₂, hrun, hstep, rfl⟩
    exact ⟨s', es₁, es₂, hrun, run_cons_eq_some.2 ⟨s'', es₂, [], hstep, rfl, by simp⟩, rfl⟩

/-- **The invariant rule.** What holds at the start and is kept by every step with an action in
    `P`, of the events so far and the state reached, holds at the end of every run of such
    actions. -/
theorem run_induction {s₀ : σ} (P : α → Prop) (Inv : List ε → σ → Prop) (init : Inv [] s₀)
    (keep : ∀ tr s a s' es, P a → Inv tr s → step s a = some (s', es) → Inv (tr ++ es) s')
    {as : List α} {s : σ} {tr : List ε} (hP : ∀ a ∈ as, P a)
    (h : run step s₀ as = some (s, tr)) : Inv tr s := by
  induction as using List.reverseRecOn generalizing s tr with
  | nil =>
      simp only [run_nil, Option.some.injEq, Prod.mk.injEq] at h
      obtain ⟨rfl, rfl⟩ := h
      exact init
  | append_singleton as a ih =>
      obtain ⟨s', es₁, es₂, hrun, hstep, rfl⟩ := run_concat_eq_some.1 h
      have hpre : Inv es₁ s' := ih (fun b hb => hP b (List.mem_append_left _ hb)) hrun
      exact keep _ _ _ _ _ (hP a (by simp)) hpre hstep

/-- **Simulation.** When every step is a run of another system, with the same events, between what
    `abs` makes of the states, then so is every run. A step may be a stutter: the run of no
    action. -/
theorem run_simulates {τ β : Type} {step' : τ → β → Option (τ × List ε)} {abs : σ → τ}
    {acts : α → List β}
    (sim : ∀ s a s' es, step s a = some (s', es) → run step' (abs s) (acts a) = some (abs s', es))
    {as : List α} {s s' : σ} {tr : List ε} (h : run step s as = some (s', tr)) :
    run step' (abs s) (as.flatMap acts) = some (abs s', tr) := by
  induction as generalizing s tr with
  | nil =>
      simp only [run_nil, Option.some.injEq, Prod.mk.injEq] at h
      obtain ⟨rfl, rfl⟩ := h
      rfl
  | cons a as ih =>
      obtain ⟨t, es₁, es₂, hstep, hrun, rfl⟩ := run_cons_eq_some.1 h
      rw [List.flatMap_cons]
      exact run_append_eq_some.2 ⟨abs t, es₁, es₂, sim s a t es₁ hstep, ih hrun, rfl⟩

/-- Every action of the run is taken in a state in which `Q` holds of it. -/
def EachStep (step : σ → α → Option (σ × List ε)) (Q : σ → α → Prop) (s₀ : σ) (as : List α) :
    Prop :=
  ∀ pre a post s tr, as = pre ++ a :: post → run step s₀ pre = some (s, tr) → Q s a

theorem EachStep.nil (Q : σ → α → Prop) (s₀ : σ) : EachStep step Q s₀ [] := by
  intro pre a post s tr h
  simp at h

theorem EachStep.imp {Q R : σ → α → Prop} {s₀ : σ} {as : List α} (h : EachStep step Q s₀ as)
    (himp : ∀ s a, Q s a → R s a) : EachStep step R s₀ as :=
  fun pre a post s tr hsplit hrun => himp s a (h pre a post s tr hsplit hrun)

/-- Conditions that agree in the states of the run. -/
theorem eachStep_congr {P Q : σ → α → Prop} {s₀ : σ} {as : List α}
    (h : ∀ pre a post s tr, as = pre ++ a :: post → run step s₀ pre = some (s, tr) →
      (P s a ↔ Q s a)) : EachStep step P s₀ as ↔ EachStep step Q s₀ as := by
  constructor
  · exact fun hP pre a post s tr hsplit hrun =>
      (h pre a post s tr hsplit hrun).1 (hP pre a post s tr hsplit hrun)
  · exact fun hQ pre a post s tr hsplit hrun =>
      (h pre a post s tr hsplit hrun).2 (hQ pre a post s tr hsplit hrun)

/-- The steps of a run are the first one and those of the rest. -/
theorem eachStep_cons {Q : σ → α → Prop} {s : σ} {a : α} {as : List α} :
    EachStep step Q s (a :: as) ↔
      Q s a ∧ ∀ s' es, step s a = some (s', es) → EachStep step Q s' as := by
  constructor
  · intro h
    refine ⟨h [] a as s [] rfl rfl, fun s' es hstep pre b post t tr hsplit hrun => ?_⟩
    exact h (a :: pre) b post t (es ++ tr) (by rw [hsplit]; rfl)
      (run_cons_eq_some.2 ⟨s', es, tr, hstep, hrun, rfl⟩)
  · rintro ⟨ha, hrest⟩ pre b post t tr hsplit hrun
    cases pre with
    | nil =>
        obtain ⟨rfl, -⟩ := List.cons_eq_cons.1 hsplit
        cases hrun
        exact ha
    | cons c pre =>
        obtain ⟨rfl, hrest'⟩ := List.cons_eq_cons.1 hsplit
        obtain ⟨s', es₁, es₂, hstep, hrun, -⟩ := run_cons_eq_some.1 hrun
        exact hrest s' es₁ hstep pre b post t es₂ hrest' hrun

/-- After a step that is known. -/
theorem eachStep_cons_of_step {Q : σ → α → Prop} {s s' : σ} {a : α} {as : List α} {es : List ε}
    (hstep : step s a = some (s', es)) :
    EachStep step Q s (a :: as) ↔ Q s a ∧ EachStep step Q s' as := by
  rw [eachStep_cons, hstep]
  simp

/-- **Exact conditions for a step.** When the steps with `Q` keep an invariant under which `P` and `Q`
    agree, the runs with `P` in every step are those with `Q` in every step. -/
theorem eachStep_iff_of_inv {P Q : σ → α → Prop} (Inv : σ → Prop) {s₀ : σ} (init : Inv s₀)
    (keep : ∀ s a s' es, Inv s → Q s a → step s a = some (s', es) → Inv s')
    (agree : ∀ s a, Inv s → (P s a ↔ Q s a)) {as : List α} :
    EachStep step P s₀ as ↔ EachStep step Q s₀ as := by
  induction as generalizing s₀ with
  | nil => exact iff_of_true (EachStep.nil P s₀) (EachStep.nil Q s₀)
  | cons a as ih =>
      rw [eachStep_cons, eachStep_cons, agree s₀ a init]
      refine and_congr_right fun ha => forall_congr' fun s' => forall_congr' fun es => ?_
      exact imp_congr_right fun hstep => ih (keep s₀ a s' es init ha hstep)

/-- The steps of a given run can be gone through. -/
instance EachStep.decidable {Q : σ → α → Prop} [∀ s a, Decidable (Q s a)] :
    ∀ (s : σ) (as : List α), Decidable (EachStep step Q s as)
  | s, [] => isTrue (EachStep.nil Q s)
  | s, a :: as =>
      match hstep : step s a with
      | none => decidable_of_iff (Q s a) <| by
          rw [eachStep_cons, hstep]
          simp
      | some (s', es) =>
          have : Decidable (EachStep step Q s' as) := EachStep.decidable s' as
          decidable_of_iff (Q s a ∧ EachStep step Q s' as) (eachStep_cons_of_step hstep).symm

/-- The steps of a run are those of its first part and the last one. -/
theorem eachStep_concat {Q : σ → α → Prop} {s₀ s : σ} {as : List α} {a : α} {tr : List ε}
    (hrun : run step s₀ as = some (s, tr)) :
    EachStep step Q s₀ (as ++ [a]) ↔ EachStep step Q s₀ as ∧ Q s a := by
  constructor
  · intro h
    exact ⟨fun pre a' post s' tr' hsplit => h pre a' (post ++ [a]) s' tr' (by simp [hsplit]),
      h as a [] s tr rfl hrun⟩
  · rintro ⟨hpre, hlast⟩ pre a' post s' tr' hsplit hrun'
    rcases List.eq_nil_or_concat post with rfl | ⟨post', a'', rfl⟩
    · obtain ⟨rfl, ha⟩ := List.append_inj' hsplit rfl
      rw [hrun, Option.some.injEq, Prod.mk.injEq] at hrun'
      exact hrun'.1 ▸ List.singleton_inj.1 ha ▸ hlast
    · rw [List.concat_eq_append, ← List.cons_append, ← List.append_assoc] at hsplit
      obtain ⟨hsplit, -⟩ := List.append_inj' hsplit rfl
      exact hpre pre a' post' s' tr' hsplit hrun'

/-- **The invariant rule for steps that meet a condition.** What every step with `Q` keeps holds at
    the end of every run of such steps. -/
theorem run_invariant {Q : σ → α → Prop} (Inv : σ → Prop) {s₀ s : σ} {as : List α} {tr : List ε}
    (init : Inv s₀) (keep : ∀ s a s' es, Inv s → Q s a → step s a = some (s', es) → Inv s')
    (h : EachStep step Q s₀ as) (hrun : run step s₀ as = some (s, tr)) : Inv s := by
  induction as generalizing s₀ tr with
  | nil =>
      cases hrun
      exact init
  | cons a as ih =>
      obtain ⟨t, es, es', hstep, hrest, -⟩ := run_cons_eq_some.1 hrun
      obtain ⟨ha, hall⟩ := (eachStep_cons_of_step hstep).1 h
      exact ih (keep s₀ a t es init ha hstep) hall hrest

/-- Every state that a part of the run leads to has the property `P`. -/
def EachState (step : σ → α → Option (σ × List ε)) (P : σ → Prop) (s₀ : σ) (as : List α) : Prop :=
  ∀ pre post s tr, as = pre ++ post → run step s₀ pre = some (s, tr) → P s

theorem eachState_nil {P : σ → Prop} {s : σ} : EachState step P s [] ↔ P s := by
  constructor
  · intro h
    exact h [] [] s [] rfl rfl
  · intro h pre post t tr hsplit hrun
    obtain ⟨rfl, -⟩ := List.append_eq_nil_iff.1 hsplit.symm
    cases hrun
    exact h

/-- The states of a run are the first one and those after the first step. -/
theorem eachState_cons {P : σ → Prop} {s : σ} {a : α} {as : List α} :
    EachState step P s (a :: as) ↔
      P s ∧ ∀ s' es, step s a = some (s', es) → EachState step P s' as := by
  constructor
  · intro h
    refine ⟨h [] (a :: as) s [] rfl rfl, fun s' es hstep pre post t tr hsplit hrun => ?_⟩
    exact h (a :: pre) post t (es ++ tr) (by rw [hsplit]; rfl)
      (run_cons_eq_some.2 ⟨s', es, tr, hstep, hrun, rfl⟩)
  · rintro ⟨hs, hrest⟩ pre post t tr hsplit hrun
    cases pre with
    | nil =>
        cases hrun
        exact hs
    | cons c pre =>
        obtain ⟨rfl, hrest'⟩ := List.cons_eq_cons.1 hsplit
        obtain ⟨s', es₁, es₂, hstep, hrun, -⟩ := run_cons_eq_some.1 hrun
        exact hrest s' es₁ hstep pre post t es₂ hrest' hrun

/-- After a step that is known. -/
theorem eachState_cons_of_step {P : σ → Prop} {s s' : σ} {a : α} {as : List α} {es : List ε}
    (hstep : step s a = some (s', es)) :
    EachState step P s (a :: as) ↔ P s ∧ EachState step P s' as := by
  rw [eachState_cons, hstep]
  simp

/-- Every event of the trace has the property `R` with the events before it. -/
def EachEvent (R : List ε → ε → Prop) (tr : List ε) : Prop :=
  ∀ pre e post, tr = pre ++ e :: post → R pre e

theorem EachEvent.nil (R : List ε → ε → Prop) : EachEvent R [] := by
  intro pre e post h
  simp at h

/-- A trace has a property exactly when its first part has it and its last event does. -/
theorem eachEvent_concat {R : List ε → ε → Prop} {tr : List ε} {e : ε} :
    EachEvent R (tr ++ [e]) ↔ EachEvent R tr ∧ R tr e := by
  constructor
  · intro h
    exact ⟨fun pre e' post hsplit => h pre e' (post ++ [e]) (by simp [hsplit]), h tr e [] rfl⟩
  · rintro ⟨hpre, hlast⟩ pre e' post hsplit
    rcases List.eq_nil_or_concat post with rfl | ⟨post', e'', rfl⟩
    · obtain ⟨rfl, he⟩ := List.append_inj' hsplit rfl
      exact List.singleton_inj.1 he ▸ hlast
    · rw [List.concat_eq_append, ← List.cons_append, ← List.append_assoc] at hsplit
      obtain ⟨hsplit, -⟩ := List.append_inj' hsplit rfl
      exact hpre pre e' post' hsplit

/-- What every step with `Q` keeps holds in every state of a run of such steps. -/
theorem EachStep.eachState {Q : σ → α → Prop} (Inv : σ → Prop) {s₀ : σ} (init : Inv s₀)
    (keep : ∀ s a s' es, Inv s → Q s a → step s a = some (s', es) → Inv s') {as : List α}
    (h : EachStep step Q s₀ as) : EachState step Inv s₀ as := by
  rintro pre post s tr rfl hrun
  refine run_invariant Inv init keep (fun pre' a post' s' tr' hsplit => ?_) hrun
  exact h pre' a (post' ++ post) s' tr' (by simp [hsplit])

/-- The states of a run are those of its first part and the last one. -/
theorem eachState_concat {P : σ → Prop} {s₀ s s' : σ} {as : List α} {a : α} {tr es : List ε}
    (hrun : run step s₀ as = some (s, tr)) (hstep : step s a = some (s', es)) :
    EachState step P s₀ (as ++ [a]) ↔ EachState step P s₀ as ∧ P s' := by
  have hlast : run step s₀ (as ++ [a]) = some (s', tr ++ es) :=
    run_concat_eq_some.2 ⟨s, tr, es, hrun, hstep, rfl⟩
  constructor
  · intro h
    exact ⟨fun pre post t tr' hsplit => h pre (post ++ [a]) t tr' (by simp [hsplit]),
      h (as ++ [a]) [] s' _ (List.append_nil _).symm hlast⟩
  · rintro ⟨hpre, hs'⟩ pre post t tr' hsplit hrun'
    rcases List.eq_nil_or_concat post with rfl | ⟨post', a', rfl⟩
    · rw [List.append_nil] at hsplit
      rw [← hsplit, hlast, Option.some.injEq, Prod.mk.injEq] at hrun'
      exact hrun'.1 ▸ hs'
    · rw [List.concat_eq_append, ← List.append_assoc] at hsplit
      obtain ⟨hsplit, -⟩ := List.append_inj' hsplit rfl
      exact hpre pre post' t tr' hsplit hrun'

/-- A trace with a property has it up to any of its events. -/
theorem EachEvent.of_append {R : List ε → ε → Prop} {tr es : List ε} (h : EachEvent R (tr ++ es)) :
    EachEvent R tr := fun pre e post hsplit => h pre e (post ++ es) (by simp [hsplit])

/-- **Exact conditions.** Steps with `Q` keep an invariant under which every state has the property
    `P` and every event so far the property `R`, and a step without `Q` leads out of one of the two.
    So the runs in which all states and events are right are those whose steps all meet `Q`. -/
theorem eachState_eachEvent_iff {Q : σ → α → Prop} {P : σ → Prop} {R : List ε → ε → Prop}
    (Inv : List ε → σ → Prop) {s₀ : σ} (init : Inv [] s₀)
    (sound : ∀ tr s, Inv tr s → P s ∧ EachEvent R tr)
    (keep : ∀ tr s a s' es, Inv tr s → Q s a → step s a = some (s', es) → Inv (tr ++ es) s')
    (leave : ∀ tr s a s' es, Inv tr s → ¬ Q s a → step s a = some (s', es) → P s' →
      ¬ EachEvent R (tr ++ es))
    {as : List α} {s : σ} {tr : List ε} (hrun : run step s₀ as = some (s, tr)) :
    EachState step P s₀ as ∧ EachEvent R tr ↔ EachStep step Q s₀ as := by
  have hinv : ∀ {as s tr}, run step s₀ as = some (s, tr) → EachStep step Q s₀ as → Inv tr s := by
    intro as
    induction as using List.reverseRecOn with
    | nil =>
        intro s tr hrun _
        cases hrun
        exact init
    | append_singleton as a ih =>
        intro s tr hrun h
        obtain ⟨t, tr', es, hpre, hstep, rfl⟩ := run_concat_eq_some.1 hrun
        obtain ⟨hall, ha⟩ := (eachStep_concat hpre).1 h
        exact keep _ _ _ _ _ (ih hpre hall) ha hstep
  induction as using List.reverseRecOn generalizing s tr with
  | nil =>
      cases hrun
      exact iff_of_true ⟨eachState_nil.2 (sound _ _ init).1, EachEvent.nil R⟩ (EachStep.nil Q s₀)
  | append_singleton as a ih =>
      obtain ⟨t, tr', es, hpre, hstep, rfl⟩ := run_concat_eq_some.1 hrun
      have hiff := ih hpre
      rw [eachState_concat hpre hstep, eachStep_concat hpre]
      constructor
      · rintro ⟨⟨hstates, hs⟩, hevents⟩
        have hall := hiff.1 ⟨hstates, hevents.of_append⟩
        refine ⟨hall, by_contra fun hnot => ?_⟩
        exact leave _ _ _ _ _ (hinv hpre hall) hnot hstep hs hevents
      · rintro ⟨hall, ha⟩
        have hnext := sound _ _ (keep _ _ _ _ _ (hinv hpre hall) ha hstep)
        exact ⟨⟨(hiff.2 hall).1, hnext.1⟩, hnext.2⟩

/-- **Refinement.** When every action that `Q` allows can be taken and keeps the relation with what
    the actions make of the abstract state, a run of such actions goes to its end, and its last
    state is related with what they make of it. The steps are at most `n`. -/
theorem run_refines {τ : Type} {Q : σ → α → Prop} {R : σ → τ → Prop} {f : τ → α → τ} {s₀ : σ}
    {t : τ} {n : Nat} (init : R s₀ t)
    (keep : ∀ (pre : List α) s a, pre.length < n → R s (pre.foldl f t) → Q s a →
      ∃ s' es, step s a = some (s', es) ∧ R s' (f (pre.foldl f t) a))
    {as : List α} (hn : as.length ≤ n) (h : EachStep step Q s₀ as) :
    ∃ s tr, run step s₀ as = some (s, tr) ∧ R s (as.foldl f t) := by
  induction as using List.reverseRecOn with
  | nil => exact ⟨s₀, [], rfl, init⟩
  | append_singleton as a ih =>
      rw [List.length_append, List.length_singleton] at hn
      obtain ⟨s, tr, hrun, hR⟩ := ih (Nat.le_of_succ_le hn) fun pre a' post s tr hsplit =>
        h pre a' (post ++ [a]) s tr (by simp [hsplit])
      obtain ⟨s', es, hstep, hR'⟩ := keep as s a hn hR (h as a [] s tr rfl hrun)
      refine ⟨s', tr ++ es, run_concat_eq_some.2 ⟨s, tr, es, hrun, hstep, rfl⟩, ?_⟩
      rwa [List.foldl_append, List.foldl_cons, List.foldl_nil]

/-- **Progress and preservation.** When every action that `Q` allows can be taken and keeps the
    invariant, a run of such actions goes to its end. -/
theorem run_of_eachStep {Q : σ → α → Prop} {Inv : σ → Prop} {s₀ : σ} (init : Inv s₀)
    (keep : ∀ s a, Inv s → Q s a → ∃ s' es, step s a = some (s', es) ∧ Inv s') {as : List α}
    (h : EachStep step Q s₀ as) : ∃ s tr, run step s₀ as = some (s, tr) ∧ Inv s :=
  run_refines (τ := Unit) (R := fun s _ => Inv s) (f := fun _ _ => ()) (t := ()) init
    (fun _ s a _ hInv ha => keep s a hInv ha) (Nat.le_refl as.length) h

/-- When every action can be taken, so can every run. -/
theorem run_of_enabled (enabled : ∀ s a, ∃ s' es, step s a = some (s', es)) (s₀ : σ) (as : List α) :
    ∃ s tr, run step s₀ as = some (s, tr) := by
  induction as generalizing s₀ with
  | nil => exact ⟨s₀, [], rfl⟩
  | cons a as ih =>
      obtain ⟨s', es, hstep⟩ := enabled s₀ a
      obtain ⟨s, tr, hrun⟩ := ih s'
      exact ⟨s, es ++ tr, run_cons_eq_some.2 ⟨s', es, tr, hstep, hrun, rfl⟩⟩

end XToolkits
