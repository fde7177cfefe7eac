import MotionEntropy.Fault

namespace MotionEntropy.Checked

def word32 (op : Operation) (v : Nat) : Except Fault Nat :=
  if v < 4294967296 then .ok v else .error (.overflow op)

def word64 (op : Operation) (v : Nat) : Except Fault Nat :=
  if v < 18446744073709551616 then .ok v else .error (.overflow op)

def sub (a b : Nat) : Except Fault Nat :=
  if b ≤ a then .ok (a - b) else .error (.overflow .subtract)

def int16 (op : Operation) (v : Int) : Except Fault Int16 :=
  if -32768 ≤ v ∧ v ≤ 32767 then .ok (Int16.ofInt v) else .error (.overflow op)

def int64 (op : Operation) (v : Int) : Except Fault Int :=
  if -9223372036854775808 ≤ v ∧ v ≤ 9223372036854775807 then .ok v else .error (.overflow op)

variable {α : Type} {n : Nat}

def entry (xs : Vector α n) (i : Nat) : Except Fault α :=
  if h : i < n then .ok xs[i] else .error (.index n i)

def item (xs : List α) (i : Nat) : Except Fault α :=
  if h : i < xs.length then .ok xs[i] else .error (.index xs.length i)

def collect : {n : Nat} → (Fin n → Except Fault α) → Except Fault (Vector α n)
  | 0, _ => .ok #v[]
  | _ + 1, f => do
    let front ← collect fun i => f i.castSucc
    let last ← f (Fin.last _)
    return front.push last

theorem collect_eq_ok {f : Fin n → Except Fault α} {xs : Vector α n} :
    collect f = .ok xs ↔ ∀ i : Fin n, f i = .ok xs[i] := by
  induction n with
  | zero =>
    constructor
    · intro _ i
      exact i.elim0
    · intro _
      have : xs = #v[] := by ext i hi; omega
      rw [this]; rfl
  | succ n ih =>
    simp only [collect]
    constructor
    · intro h
      cases hf : collect (fun i : Fin n => f i.castSucc) with
      | error e => rw [hf] at h; cases h
      | ok front =>
        cases hl : f (Fin.last n) with
        | error e => rw [hf, hl] at h; cases h
        | ok last =>
          rw [hf, hl] at h
          cases h
          intro i
          refine Fin.lastCases ?_ (fun j => ?_) i
          · simpa [Vector.getElem_push_last] using hl
          · simpa [Vector.getElem_push_lt j.isLt] using (ih.mp hf) j
    · intro h
      have hf : collect (fun i : Fin n => f i.castSucc) = .ok xs.pop := by
        refine ih.mpr fun i => ?_
        simpa using h i.castSucc
      have hl : f (Fin.last n) = .ok xs.back := by
        simpa [Vector.back_eq_getElem] using h (Fin.last n)
      rw [hf, hl]
      exact congrArg Except.ok (Vector.push_pop_back xs)

end MotionEntropy.Checked
