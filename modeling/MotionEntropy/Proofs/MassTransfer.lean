import Mathlib.Algebra.BigOperators.Group.List.Basic
import MotionEntropy.Proofs.CdfValidity

namespace MotionEntropy.Cdf

variable {n s v : ℕ} {c c' : Cdf n}

theorem tail_moved (hv : v < n) (s : ℕ) : (c.moved v).tail s =
    if s ≤ v then c.tail s + (32768 - c.tail s) / 2 ^ c.rate
    else c.tail s - c.tail s / 2 ^ c.rate := by
  by_cases h0 : s = 0
  · rw [h0, tail_zero, tail_zero, if_pos v.zero_le, Nat.sub_self, Nat.zero_div]
  · by_cases hs : s < n
    · have hslot := moved_slot c v ⟨s - 1, by omega⟩ (show s - 1 + 1 < n by omega)
      rw [tail_of_lt h0 hs, tail_of_lt h0 hs]
      refine hslot.trans ?_
      by_cases hsv : s ≤ v
      · rw [if_neg (show ¬v ≤ s - 1 by omega), if_pos hsv]
        rfl
      · rw [if_pos (show v ≤ s - 1 by omega), if_neg hsv]
        rfl
    · rw [tail_of_ge h0 (by omega), tail_of_ge h0 (by omega), if_neg (by omega), Nat.zero_div]

theorem Ordered.share_moved (h : c.Ordered) (hv : v < n) : (c.moved v).share v =
    c.share v + ((32768 - c.tail v) / 2 ^ c.rate + c.tail (v + 1) / 2 ^ c.rate) := by
  have hle := h.tail_succ_le v
  have hdiv := Nat.div_le_self (c.tail (v + 1)) (2 ^ c.rate)
  rw [share, tail_moved hv, tail_moved hv, if_pos le_rfl, if_neg (by omega), share]
  generalize c.tail (v + 1) / 2 ^ c.rate = low at *
  generalize (32768 - c.tail v) / 2 ^ c.rate = high
  omega

theorem Ordered.share_moved_le (h : c.Ordered) (hv : v < n) (hs : s ≠ v) :
    (c.moved v).share s ≤ c.share s := by
  have hle := h.tail_succ_le s
  have hscale := h.tail_le s
  rw [share, tail_moved hv, tail_moved hv, share]
  obtain hlt | hgt := hs.lt_or_gt
  · have hdiv : (32768 - c.tail s) / 2 ^ c.rate ≤ (32768 - c.tail (s + 1)) / 2 ^ c.rate :=
      Nat.div_le_div_right (by omega)
    rw [if_pos hlt.le, if_pos (Nat.succ_le_of_lt hlt)]
    generalize (32768 - c.tail s) / 2 ^ c.rate = high at *
    generalize (32768 - c.tail (s + 1)) / 2 ^ c.rate = high' at *
    omega
  · have hdiv : c.tail (s + 1) / 2 ^ c.rate ≤ c.tail s / 2 ^ c.rate := Nat.div_le_div_right hle
    have hself := Nat.div_le_self (c.tail s) (2 ^ c.rate)
    rw [if_neg (by omega), if_neg (by omega)]
    generalize c.tail s / 2 ^ c.rate = low at *
    generalize c.tail (s + 1) / 2 ^ c.rate = low' at *
    omega

theorem Ordered.sum_share (h : c.Ordered) (k : ℕ) :
    ((List.range k).map c.share).sum = 32768 - c.tail k := by
  induction k with
  | zero => simp [tail_zero]
  | succ k ih =>
    have hle := h.tail_succ_le k
    have hscale := h.tail_le k
    rw [List.range_succ, List.map_append, List.sum_append, ih, List.map_singleton,
      List.sum_singleton, share]
    omega

theorem Ordered.probabilities_eq (h : c.Ordered) (hn : 0 < n) :
    ∃ ps, (List.range n).mapM c.probability = .ok ps ∧ ps.sum = 32768 := by
  refine ⟨_, mapM_eq_ok_map fun s hs => h.probability_eq (List.mem_range.mp hs), ?_⟩
  rw [h.sum_share, tail_of_ge hn.ne' le_rfl]

theorem Ordered.price_le_of_share (h : c.Ordered) (h' : c'.Ordered) (hs : s < n)
    (hle : c.share s ≤ c'.share s) : c'.price s ≤ c.price s := by
  obtain ⟨k, k', hk, hk', hprice, -⟩ :=
    Logarithm.cost_antitone (show costShift ≤ 28 by norm_num) hle
  rw [← h.symbolCost_eq_cost hs, h.symbolCost_eq hs] at hk
  rw [← h'.symbolCost_eq_cost hs, h'.symbolCost_eq hs] at hk'
  cases hk
  cases hk'
  exact hprice

theorem gain_eq (hv : v < n) :
    (32768 - c.tail v) / 2 ^ c.rate + c.tail (v + 1) / 2 ^ c.rate =
      (if v = 0 then 0 else (32768 - c.slots.get ⟨v - 1, Nat.sub_lt_of_lt hv⟩) >>> c.rate) +
        if v = n - 1 then 0 else c.slots.get ⟨v, hv⟩ >>> c.rate := by
  congr 1
  · by_cases h0 : v = 0
    · rw [if_pos h0, h0, tail_zero, Nat.sub_self, Nat.zero_div]
    · rw [if_neg h0, tail_of_lt h0 hv, Nat.shiftRight_eq_div_pow]
      rfl
  · by_cases hlast : v = n - 1
    · rw [if_pos hlast, tail_of_ge (by omega) (by omega), Nat.zero_div]
    · rw [if_neg hlast, tail_of_lt (by omega) (by omega), Nat.shiftRight_eq_div_pow]
      rfl

/-- Coding a symbol moves probability to it from the others, and only its price may fall. -/
theorem adapt_transfers_mass (hc : c.Valid) (hv : v < n) :
    c.rate = 3 + min (n / 2) 2 + c.count >>> 4 ∧
    ∃ c', c.adapt v = .ok c' ∧ c'.Valid ∧
      c'.count = (if c.count < 32 then c.count + 1 else c.count) ∧
      (∃ ps, (List.range n).mapM c'.probability = .ok ps ∧ ps.sum = 32768) ∧
      ∀ s < n, ∃ before after price price', c.probability s = .ok before ∧
        c'.probability s = .ok after ∧ c.symbolCost s = .ok price ∧ c'.symbolCost s = .ok price' ∧
        (s = v → price' ≤ price ∧ after = before +
          ((if v = 0 then 0 else (32768 - c.slots.get ⟨v - 1, Nat.sub_lt_of_lt hv⟩) >>> c.rate) +
            if v = n - 1 then 0 else c.slots.get ⟨v, hv⟩ >>> c.rate)) ∧
        (s ≠ v → after ≤ before ∧ price ≤ price') := by
  have ho := hc.toOrdered
  have ho' := (hc.moved v).toOrdered
  have hgain := ho.share_moved hv
  constructor
  · rw [rate, Nat.shiftRight_eq_div_pow]
  · refine ⟨c.moved v, hc.adapt_eq v, hc.moved v, ?_, ho'.probabilities_eq (by omega), ?_⟩
    · rw [moved_count c v (by omega)]
      have hle := hc.count_le
      split <;> omega
    · intro s hs
      refine ⟨_, _, _, _, ho.probability_eq hs, ho'.probability_eq hs, ho.symbolCost_eq hs,
        ho'.symbolCost_eq hs, ?_, ?_⟩
      · rintro rfl
        constructor
        · apply ho.price_le_of_share ho' hs
          rw [hgain]
          exact Nat.le_add_right _ _
        · rw [hgain, gain_eq hv]
      · intro hne
        have hle := ho.share_moved_le hv hne
        exact ⟨hle, ho'.price_le_of_share ho hs hle⟩

theorem adapt_transfers_mass_joints :
    ∃ c', (ofList [28672, 21504, 13440, 0]).adapt 1 = .ok c' ∧
      (ofList [28672, 21504, 13440, 0]).probability 1 = .ok 7168 ∧
      c'.probability 1 = .ok (7168 + (128 + 672)) := by
  have hvalid : (ofList [28672, 21504, 13440, 0]).Valid :=
    ⟨⟨by decide, by decide⟩, by decide⟩
  obtain ⟨-, c', hadapt, -, -, -, hshares⟩ := adapt_transfers_mass hvalid (show 1 < 4 by norm_num)
  obtain ⟨before, after, _, _, hbefore, hafter, -, -, hcoded, -⟩ := hshares 1 (by norm_num)
  have hknown : (ofList [28672, 21504, 13440, 0]).probability 1 = .ok 7168 := rfl
  rw [hknown] at hbefore
  cases hbefore
  refine ⟨c', hadapt, hknown, ?_⟩
  obtain ⟨-, hrise⟩ := hcoded rfl
  rw [hafter, hrise]
  rfl

end MotionEntropy.Cdf
