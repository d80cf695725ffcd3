import Mathlib.Logic.Basic

/-! Programs that return a value or an error: what a returned value says about the parts of the
program. -/
namespace Fallible

variable {ε α β σ : Type}

variable {x : Except ε α} {a : α} {f : σ → α → Except ε σ} {s t : σ}

theorem bind_eq_ok {f : α → Except ε β} {b : β} :
    x >>= f = .ok b ↔ ∃ a, x = .ok a ∧ f a = .ok b := by
  cases x with
  | error e => exact ⟨fun h => (nomatch h),fun ⟨_,h,_⟩ => (nomatch h)⟩
  | ok a =>
    refine ⟨fun h => ⟨a,rfl,h⟩,?_⟩
    rintro ⟨b,hb,h⟩
    cases hb
    exact h

theorem bind_eq_error {f : α → Except ε β} {e : ε} :
    x >>= f = .error e ↔ x = .error e ∨ ∃ a, x = .ok a ∧ f a = .error e := by
  cases x with
  | error e' =>
    refine ⟨fun h => .inl (congrArg _ (Except.error.inj h)),fun h => ?_⟩
    rcases h with h | ⟨a,h,-⟩
    · exact congrArg _ (Except.error.inj h)
    · cases h
  | ok a =>
    refine ⟨fun h => .inr ⟨a,rfl,h⟩,fun h => ?_⟩
    rcases h with h | ⟨b,hb,h⟩
    · cases h
    · cases hb
      exact h

theorem map_eq_ok {f : α → β} {b : β} : x.map f = .ok b ↔ ∃ a, x = .ok a ∧ f a = b := by
  cases x with
  | error e => exact ⟨fun h => (nomatch h),fun ⟨_,h,_⟩ => (nomatch h)⟩
  | ok a => exact ⟨fun h => ⟨a,rfl,Except.ok.inj h⟩,fun ⟨_,ha,h⟩ => congrArg _ (Except.ok.inj ha ▸ h)⟩

theorem pure_eq_ok {b : α} : (pure a : Except ε α) = .ok b ↔ a = b :=
  ⟨fun h => Except.ok.inj h,fun h => congrArg Except.ok h⟩

theorem ite_error_eq_ok {p : Prop} [Decidable p] {e : ε} :
    (if p then .error e else x) = .ok a ↔ ¬p ∧ x = .ok a := by
  by_cases hp : p <;> simp [hp]

theorem ite_ok_error {p : Prop} [Decidable p] {e : ε} {b : α} :
    (if p then .ok a else .error e : Except ε α) = .ok b ↔ p ∧ a = b := by
  by_cases hp : p <;> simp [hp]

theorem mapError_eq_ok {δ : Type} {f : ε → δ} : x.mapError f = .ok a ↔ x = .ok a := by
  cases x with
  | error e => exact ⟨nofun,nofun⟩
  | ok b => exact ⟨fun h => congrArg _ (Except.ok.inj h),fun h => congrArg _ (Except.ok.inj h)⟩

/-- A loop whose invariant speaks about the elements that are still to come. -/
theorem foldlM_rest {I : List α → σ → Prop} {l : List α} (h : l.foldlM f s = .ok t) (hs : I l s)
    (hstep : ∀ a l s t, I (a :: l) s → f s a = .ok t → I l t) : I [] t := by
  induction l generalizing s with
  | nil =>
    cases h
    exact hs
  | cons a l ih =>
    rw [List.foldlM_cons,bind_eq_ok] at h
    obtain ⟨u,hu,h⟩ := h
    exact ih h (hstep a l s u hs hu)

/-- What each pass of a loop keeps, the loop keeps. -/
theorem foldlM_invariant {I : σ → Prop} {l : List α} (h : l.foldlM f s = .ok t) (hs : I s)
    (hstep : ∀ a s t, I s → f s a = .ok t → I t) : I t :=
  foldlM_rest (I := fun _ => I) h hs fun a _ => hstep a

/-- The passes of a loop in front of an element, its own, and those behind it. -/
theorem foldlM_append_cons {before after : List α} (h : (before ++ a :: after).foldlM f s = .ok t) :
    ∃ u v,
      before.foldlM f s = .ok u ∧ f u a = .ok v ∧ after.foldlM f v = .ok t := by
  rw [List.foldlM_append,bind_eq_ok] at h
  obtain ⟨u,hu,h⟩ := h
  rw [List.foldlM_cons,bind_eq_ok] at h
  obtain ⟨v,hv,h⟩ := h
  exact ⟨u,v,hu,hv,h⟩

end Fallible
