import Mathlib.Data.List.Basic
import MotionEntropy.Checked

namespace MotionEntropy

variable {α β σ : Type}

@[simp]
theorem ok_bind (a : α) (f : α → Except Fault β) : (Except.ok a >>= f) = f a := rfl

@[simp]
theorem error_bind (e : Fault) (f : α → Except Fault β) :
    ((Except.error e : Except Fault α) >>= f) = .error e := rfl

@[simp]
theorem pure_eq_ok (a : α) : (pure a : Except Fault α) = .ok a := rfl

theorem bind_eq_ok {x : Except Fault α} {f : α → Except Fault β} {b : β} :
    (x >>= f) = .ok b ↔ ∃ a, x = .ok a ∧ f a = .ok b := by
  cases x with
  | error e => simp
  | ok a => simp

theorem exists_ok_of_isOk {x : Except Fault α} (h : x.isOk = true) : ∃ a, x = .ok a := by
  cases x with
  | error e => cases h
  | ok a => exact ⟨a, rfl⟩

theorem require_of {r : Requirement} {p : Prop} [Decidable p] (h : p) : require r p = .ok () :=
  if_pos h

theorem require_of_not {r : Requirement} {p : Prop} [Decidable p] (h : ¬p) :
    require r p = .error (.broken r) := if_neg h

theorem require_eq_ok {r : Requirement} {p : Prop} [Decidable p] {u : Unit} :
    require r p = .ok u ↔ p := by
  by_cases h : p
  · exact iff_of_true (require_of h) h
  · rw [require_of_not h]
    exact iff_of_false nofun h

theorem entry_of_lt {n i : ℕ} {xs : Vector α n} (h : i < n) : Checked.entry xs i = .ok xs[i] :=
  dif_pos h

theorem foldlM_invariant {f : σ → α → Except Fault σ} {I : σ → Prop}
    (step : ∀ s a t, I s → f s a = .ok t → I t) {l : List α} {s t : σ} (hs : I s)
    (h : l.foldlM f s = .ok t) : I t := by
  induction l generalizing s with
  | nil =>
    cases h
    exact hs
  | cons a l ih =>
    rw [List.foldlM_cons] at h
    obtain ⟨m, hm, hl⟩ := bind_eq_ok.mp h
    exact ih (step s a m hs hm) hl

theorem mapM_eq_ok_map {f : α → Except Fault β} {g : α → β} {l : List α}
    (h : ∀ a ∈ l, f a = .ok (g a)) : l.mapM f = .ok (l.map g) := by
  induction l with
  | nil => rfl
  | cons a l ih =>
    rw [List.mapM_cons, h a (.head _), ih fun b hb => h b (.tail _ hb)]
    rfl

theorem exists_error_of_collect {n : ℕ} {f : Fin n → Except Fault α} {e : Fault}
    (h : Checked.collect f = .error e) : ∃ i, f i = .error e := by
  induction n with
  | zero => cases h
  | succ n ih =>
    rw [Checked.collect] at h
    cases hfront : Checked.collect fun i : Fin n => f i.castSucc with
    | error e' =>
      rw [hfront] at h
      cases h
      obtain ⟨i, hi⟩ := ih hfront
      exact ⟨i.castSucc, hi⟩
    | ok front =>
      rw [hfront, ok_bind] at h
      cases hlast : f (Fin.last n) with
      | error e' =>
        rw [hlast] at h
        cases h
        exact ⟨_, hlast⟩
      | ok last =>
        rw [hlast] at h
        cases h

end MotionEntropy
