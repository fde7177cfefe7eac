import MotionEntropy.Cdf
import MotionEntropy.Proofs.CostBounds

namespace MotionEntropy.Cdf

open Logarithm (maxCost)

variable {n : ℕ}

def Falling (c : Cdf n) : Prop := ∀ i j : Fin n, i ≤ j → j + 1 < n → c.slots.get j ≤ c.slots.get i

structure Ordered (c : Cdf n) : Prop where
  falling : c.Falling
  within : ∀ i : Fin n, i + 1 < n → c.slots.get i ≤ 32768

structure Valid (c : Cdf n) : Prop extends c.Ordered where
  count_le : c.count ≤ 63

structure Sound (c : Cdf n) : Prop where
  falling : c.Falling
  inside : ∀ i : Fin n, i + 1 < n → 1 ≤ c.slots.get i ∧ c.slots.get i ≤ 32767
  count_le : c.count ≤ 32

instance (c : Cdf n) : Decidable c.Falling := inferInstanceAs (Decidable (∀ _ _, _))

instance (c : Cdf n) : Decidable c.Sound :=
  decidable_of_iff (c.Falling ∧ (∀ i : Fin n, i + 1 < n → 1 ≤ c.slots.get i ∧ c.slots.get i ≤ 32767) ∧
    c.count ≤ 32) ⟨fun ⟨h, h', h''⟩ => ⟨h, h', h''⟩, fun ⟨h, h', h''⟩ => ⟨h, h', h''⟩⟩

variable {c : Cdf n} {s : ℕ}

theorem Sound.valid (h : c.Sound) : c.Valid where
  falling := h.falling
  within i hi := (h.inside i hi).2.trans (by norm_num)
  count_le := h.count_le.trans (by norm_num)

/-- The probability, out of 32768, of all symbols from `s` on. -/
def tail (c : Cdf n) (s : ℕ) : ℕ :=
  if s = 0 then 32768 else if h : s < n then c.slots[s - 1] else 0

def share (c : Cdf n) (s : ℕ) : ℕ := c.tail s - c.tail (s + 1)

theorem tail_zero (c : Cdf n) : c.tail 0 = 32768 := rfl

theorem tail_of_lt (h0 : s ≠ 0) (h : s < n) : c.tail s = c.slots[s - 1] := by
  rw [tail, if_neg h0, dif_pos h]

theorem tail_of_ge (h0 : s ≠ 0) (h : n ≤ s) : c.tail s = 0 := by
  rw [tail, if_neg h0, dif_neg (by omega)]

theorem Ordered.tail_le (h : c.Ordered) (s : ℕ) : c.tail s ≤ 32768 := by
  by_cases h0 : s = 0
  · rw [h0, tail_zero]
  · by_cases hs : s < n
    · rw [tail_of_lt h0 hs]
      exact h.within ⟨s - 1, by omega⟩ (show s - 1 + 1 < n by omega)
    · rw [tail_of_ge h0 (by omega)]
      omega

theorem Ordered.tail_succ_le (h : c.Ordered) (s : ℕ) : c.tail (s + 1) ≤ c.tail s := by
  by_cases h0 : s = 0
  · rw [h0, tail_zero]
    exact h.tail_le 1
  · by_cases hs : s + 1 < n
    · rw [tail_of_lt h0 (by omega), tail_of_lt (by omega) hs]
      exact h.falling ⟨s - 1, by omega⟩ ⟨s, by omega⟩ (Nat.sub_le s 1) hs
    · rw [tail_of_ge (by omega) (by omega)]
      exact Nat.zero_le _

theorem probability_eq (hs : s < n) :
    c.probability s = Checked.sub (c.tail s) (c.tail (s + 1)) := by
  have above (f : ℕ → Except Fault ℕ) : (if s = 0 then pure 32768 >>= f
      else Checked.entry c.slots (s - 1) >>= f) = f (c.tail s) := by
    by_cases h0 : s = 0
    · rw [if_pos h0, h0, tail_zero, pure_eq_ok, ok_bind]
    · rw [if_neg h0, tail_of_lt h0 hs, entry_of_lt (by omega), ok_bind]
  have below (f : ℕ → Except Fault ℕ) : (if s + 1 < n then Checked.entry c.slots s >>= f
      else pure 0 >>= f) = f (c.tail (s + 1)) := by
    by_cases h1 : s + 1 < n
    · rw [if_pos h1, tail_of_lt (by omega) h1, entry_of_lt hs, ok_bind]
      rfl
    · rw [if_neg h1, tail_of_ge (by omega) (by omega), pure_eq_ok, ok_bind]
  exact (above _).trans (below _)

theorem Ordered.probability_eq (h : c.Ordered) (hs : s < n) : c.probability s = .ok (c.share s) :=
  (Cdf.probability_eq hs).trans (if_pos (h.tail_succ_le s))

def price (c : Cdf n) (s : ℕ) : ℕ := (c.symbolCost s).toOption.getD 0

theorem price_of_eq_ok {k : ℕ} (h : c.symbolCost s = .ok k) : c.price s = k := by
  rw [price, h]; rfl

theorem Ordered.symbolCost_eq_cost (h : c.Ordered) (hs : s < n) :
    c.symbolCost s = Logarithm.cost (c.share s) costShift := by
  rw [symbolCost, require_of hs, ok_bind, h.probability_eq hs, ok_bind]

theorem Ordered.symbolCost_eq (h : c.Ordered) (hs : s < n) : c.symbolCost s = .ok (c.price s) := by
  obtain ⟨k, -, hk⟩ := Logarithm.cost_le (c.share s)
  rw [← h.symbolCost_eq_cost hs] at hk
  rw [price_of_eq_ok hk, hk]

theorem Valid.symbolCost_eq (h : c.Valid) (hs : s < n) : c.symbolCost s = .ok (c.price s) :=
  h.toOrdered.symbolCost_eq hs

theorem price_le (c : Cdf n) (s : ℕ) : c.price s ≤ maxCost := by
  cases hc : c.symbolCost s with
  | error e => rw [price, hc]; exact Nat.zero_le _
  | ok k =>
    rw [price_of_eq_ok hc]
    obtain ⟨-, -, hp⟩ := bind_eq_ok.mp hc
    obtain ⟨p, -, hk⟩ := bind_eq_ok.mp hp
    obtain ⟨k', hle, hk'⟩ := Logarithm.cost_le p
    rw [costShift, hk'] at hk
    cases hk
    exact hle

def prices (c : Cdf n) : Prices n := Vector.ofFn fun s => c.price s

theorem Ordered.costs_eq (h : c.Ordered) : c.costs = .ok c.prices := by
  rw [costs, Checked.collect_eq_ok]
  intro s
  rw [h.symbolCost_eq s.isLt, prices]
  simp

theorem Valid.costs_eq (h : c.Valid) : c.costs = .ok c.prices := h.toOrdered.costs_eq

theorem Valid.adapt_eq (h : c.Valid) (s : ℕ) : c.adapt s = .ok (c.moved s) :=
  if_pos ⟨Nat.lt_succ_of_le h.count_le, fun i hi => h.within i hi.2⟩

theorem count_eq (c : Cdf n) (h : 0 < n) : c.count = c.slots[n - 1] := by
  rw [count, Vector.back?_eq_getElem?, Vector.getElem?_eq_getElem (by omega)]
  rfl

theorem count_eq_get (c : Cdf n) {i : Fin n} (h : i + 1 = n) : c.count = c.slots.get i := by
  obtain ⟨i, hi⟩ := i
  obtain rfl : i = n - 1 := by simp only at h; omega
  rw [count_eq c (by omega)]
  rfl

theorem eq_of_slots {c' : Cdf n} (h : ∀ i : Fin n, c.slots.get i = c'.slots.get i) : c = c' := by
  obtain ⟨slots⟩ := c
  obtain ⟨slots'⟩ := c'
  congr 1
  ext i hi
  exact h ⟨i, hi⟩

theorem count_of_empty (c : Cdf 0) : c.count = 0 := by
  rw [count, Vector.back?_eq_getElem?, Vector.getElem?_eq_none (by omega)]
  rfl

theorem rate_pos (c : Cdf n) : 3 ≤ c.rate := by
  rw [rate]; omega

theorem moved_slot (c : Cdf n) (s : ℕ) (i : Fin n) (h : i + 1 < n) : (c.moved s).slots.get i =
    if s ≤ i then c.slots.get i - c.slots.get i / 2 ^ c.rate
    else c.slots.get i + (32768 - c.slots.get i) / 2 ^ c.rate := by
  show (c.moved s).slots[i] = _
  simp only [moved, Fin.getElem_fin, Vector.getElem_mapIdx, Nat.shiftRight_eq_div_pow]
  rw [if_neg (by omega)]
  rfl

theorem moved_count (c : Cdf n) (s : ℕ) (h : 0 < n) :
    (c.moved s).count = c.count + (1 - c.count / 32) := by
  rw [count_eq _ h, count_eq _ h]
  simp only [moved, Vector.getElem_mapIdx]
  rw [if_pos (by omega)]

theorem count_le_of_moved {b : ℕ} (hb : 32 ≤ b) (h : c.count ≤ b) (s : ℕ) :
    (c.moved s).count ≤ b := by
  by_cases hn : n = 0
  · subst hn
    rw [count_of_empty]
    exact Nat.zero_le b
  · rw [moved_count c s (by omega)]
    omega

theorem add_div_le (a d : ℕ) {q : ℕ} (hq : 0 < q) : (a + d) / q ≤ a / q + d := by
  rw [← Nat.add_mul_div_right a d hq]
  exact Nat.div_le_div_right (Nat.add_le_add_left (Nat.le_mul_of_pos_right d hq) a)

theorem lowered_mono {a b q : ℕ} (hq : 0 < q) (h : a ≤ b) : a - a / q ≤ b - b / q := by
  have hd := add_div_le a (b - a) hq
  rw [Nat.add_sub_cancel' h] at hd
  omega

theorem raised_mono {a b q : ℕ} (hq : 0 < q) (h : a ≤ b) (hb : b ≤ 32768) :
    a + (32768 - a) / q ≤ b + (32768 - b) / q := by
  have hd := add_div_le (32768 - b) (b - a) hq
  rw [show 32768 - b + (b - a) = 32768 - a by omega] at hd
  omega

theorem Falling.moved (h : c.Falling) (hw : ∀ i : Fin n, i + 1 < n → c.slots.get i ≤ 32768) (s : ℕ) :
    (c.moved s).Falling := by
  intro i j hij hj
  have hq : 0 < 2 ^ c.rate := by positivity
  have hij' : (i : ℕ) ≤ j := hij
  have hle := h i j hij hj
  rw [moved_slot c s i (by omega), moved_slot c s j hj]
  by_cases hi : s ≤ i
  · rw [if_pos hi, if_pos (by omega)]
    exact lowered_mono hq hle
  · rw [if_neg hi]
    -- Where `s` lies between the two, the one is lowered and the other raised.
    split
    · exact (Nat.sub_le _ _).trans (hle.trans (Nat.le_add_right _ _))
    · exact raised_mono hq hle (hw i (by omega))

theorem Valid.moved (h : c.Valid) (s : ℕ) : (c.moved s).Valid where
  falling := h.falling.moved h.within s
  within i hi := by
    have hle := h.within i hi
    have hdiv := Nat.div_le_self (32768 - c.slots.get i) (2 ^ c.rate)
    rw [moved_slot c s i hi]
    split
    · exact (Nat.sub_le _ _).trans hle
    · omega
  count_le := count_le_of_moved (by norm_num) h.count_le s

theorem Valid.foldlM_adapt (h : c.Valid) (values : List ℕ) :
    values.foldlM adapt c = .ok (values.foldl Cdf.moved c) := by
  induction values generalizing c with
  | nil => rfl
  | cons v values ih =>
    rw [List.foldlM_cons, h.adapt_eq v, ok_bind, List.foldl_cons]
    exact ih (h.moved v)

theorem div_le_half {v r : ℕ} (hr : 1 ≤ r) : v / 2 ^ r ≤ v / 2 :=
  Nat.div_le_div_left (Nat.pow_le_pow_right (n := 2) (by norm_num) hr) (by norm_num)

theorem Sound.moved (h : c.Sound) (s : ℕ) : (c.moved s).Sound where
  falling := h.falling.moved h.valid.within s
  inside i hi := by
    obtain ⟨hl, hu⟩ := h.inside i hi
    have hr : 1 ≤ c.rate := le_trans (by norm_num) c.rate_pos
    have hlow : c.slots.get i / 2 ^ c.rate ≤ c.slots.get i / 2 := div_le_half hr
    have hhigh : (32768 - c.slots.get i) / 2 ^ c.rate ≤ (32768 - c.slots.get i) / 2 := div_le_half hr
    rw [moved_slot c s i hi]
    generalize c.slots.get i / 2 ^ c.rate = low at *
    generalize (32768 - c.slots.get i) / 2 ^ c.rate = high at *
    split <;> omega
  count_le := count_le_of_moved (by norm_num) h.count_le s

theorem resetCount_slot (c : Cdf n) (i : Fin n) (h : i + 1 < n) :
    c.resetCount.slots.get i = c.slots.get i := by
  show c.resetCount.slots[i] = _
  simp only [resetCount, Fin.getElem_fin, Vector.getElem_mapIdx]
  rw [if_neg (by omega)]
  rfl

theorem resetCount_count (c : Cdf n) : c.resetCount.count = 0 := by
  by_cases hn : n = 0
  · subst hn
    exact count_of_empty _
  · rw [count_eq _ (by omega)]
    simp only [resetCount, Vector.getElem_mapIdx]
    rw [if_pos (by omega)]

theorem Sound.resetCount (h : c.Sound) : c.resetCount.Sound where
  falling i j hij hj := by
    have hij' : (i : ℕ) ≤ j := hij
    rw [resetCount_slot c i (by omega), resetCount_slot c j hj]
    exact h.falling i j hij hj
  inside i hi := by
    rw [resetCount_slot c i hi]
    exact h.inside i hi
  count_le := by
    rw [resetCount_count]
    exact Nat.zero_le 32

end MotionEntropy.Cdf
