import Mathlib.Logic.Relation

/-! Runs of a system whose actions are partial functions on its states, and what every
run must come to. -/
namespace Transition

variable {σ α : Type}

/-- One action that `ok` permits. -/
def Moves (step : σ → α → Option σ) (ok : σ → α → Prop) (s t : σ) : Prop :=
  ∃ a, ok s a ∧ step s a = some t

/-- Any number of permitted actions. -/
abbrev Run (step : σ → α → Option σ) (ok : σ → α → Prop) : σ → σ → Prop :=
  Relation.ReflTransGen (Moves step ok)

section
variable {step : σ → α → Option σ} {ok ok' : σ → α → Prop} {s t : σ}

/-- What permitted actions preserve holds along a run. -/
theorem Run.invariant {I : σ → Prop} (h : Run step ok s t) (hs : I s)
    (hstep : ∀ ⦃s a t⦄, I s → ok s a → step s a = some t → I t) : I t := by
  induction h with
  | refl => exact hs
  | tail _ hm ih =>
    obtain ⟨a,ha,hat⟩ := hm
    exact hstep ih ha hat

theorem Run.mono (h : Run step ok s t) (hok : ∀ s a, ok s a → ok' s a) : Run step ok' s t :=
  Relation.ReflTransGen.mono (fun _ _ ⟨a,ha,hat⟩ => ⟨a,hok _ a ha,hat⟩) s t h

/-- Executes a list of actions as long as they are permitted. -/
def exec (step : σ → α → Option σ) (ok : σ → α → Prop) [∀ s a, Decidable (ok s a)] :
    List α → σ → Option σ
  | [],s => some s
  | a::as,s => if ok s a then (step s a).bind (exec step ok as) else none

theorem Run.of_exec [∀ s a, Decidable (ok s a)] {as : List α}
    (h : exec step ok as s = some t) : Run step ok s t := by
  induction as generalizing s with
  | nil =>
    cases h
    exact .refl
  | cons a as ih =>
    simp only [exec,Option.ite_none_right_eq_some,Option.bind_eq_some_iff] at h
    obtain ⟨ha,u,hu,h⟩ := h
    exact .head ⟨a,ha,hu⟩ (ih h)

/-- A run to a state with `p`, found by executing it. -/
theorem Run.exists_of_exec [∀ s a, Decidable (ok s a)] {as : List α} {p : σ → Bool}
    (h : (exec step ok as s).any p = true) : ∃ t, Run step ok s t ∧ p t = true := by
  obtain ⟨t,ht,hp⟩ := (Option.any_eq_true ..).mp h
  exact ⟨t,.of_exec ht,hp⟩

end

/-- Every execution from a state comes to a state with `P` and does not stop before. -/
inductive Inevitably (move : σ → σ → Prop) (P : σ → Prop) : σ → Prop
  | now {s : σ} : P s → Inevitably move P s
  | later {s : σ} : (∃ t, move s t) → (∀ t, move s t → Inevitably move P t) → Inevitably move P s

namespace Inevitably
variable {move : σ → σ → Prop} {P Q : σ → Prop} {s : σ}

theorem trans (h : Inevitably move P s) (hPQ : ∀ t, P t → Inevitably move Q t) :
    Inevitably move Q s := by
  induction h with
  | now hs => exact hPQ _ hs
  | later hex _ ih => exact .later hex ih

/-- Moves that lead to `P` or stay in `A`, with a rank that falls there. -/
theorem of_rank {ι : Type} {lt : ι → ι → Prop} (wf : WellFounded lt) (rank : σ → ι)
    {A : σ → Prop} (hstep : ∀ s t, A s → move s t → P t ∨ A t ∧ lt (rank t) (rank s))
    (hlive : ∀ s, A s → ∃ t, move s t) (hs : A s) : Inevitably move P s := by
  induction hr : rank s using wf.induction generalizing s with
  | _ r ih =>
    refine .later (hlive s hs) fun t ht => ?_
    rcases hstep s t hs ht with hP | ⟨hA,hlt⟩
    · exact .now hP
    · exact ih _ (hr ▸ hlt) hA rfl

theorem mono (h : Inevitably move P s) (hPQ : ∀ t, P t → Q t) : Inevitably move Q s :=
  h.trans fun t ht => .now (hPQ t ht)

/-- What is inevitable stays so as long as it has not come. -/
theorem along {t : σ} (h : Inevitably move P s)
    (hrun : Relation.ReflTransGen (fun a b => ¬P a ∧ move a b) s t) : Inevitably move P t := by
  induction hrun with
  | refl => exact h
  | tail _ hm ih =>
    cases ih with
    | now hP => exact absurd hP hm.1
    | later _ hall => exact hall _ hm.2

/-- States that moves do not leave and that do not have `P`. -/
theorem not_of_closed {C : σ → Prop} (hC : ∀ s, C s → ¬P s)
    (hclosed : ∀ s t, C s → move s t → C t) (hs : C s) : ¬Inevitably move P s := by
  intro h
  induction h with
  | now hP => exact hC _ hs hP
  | later hex _ ih =>
    obtain ⟨t,ht⟩ := hex
    exact ih t ht (hclosed _ t hs ht)

end Inevitably

end Transition
