import Mathlib.Algebra.Order.BigOperators.Group.Finset
import MotionEntropy.Proofs.MassTransfer

namespace MotionEntropy.Cdf

variable {n v k : ℕ} {c : Cdf n} {i : Fin n}

def repeated (c : Cdf n) (v k : ℕ) : Cdf n := (List.replicate k v).foldl moved c

/-- How far a slot could move at most while `v` is coded. -/
def slack (c : Cdf n) (v : ℕ) (i : Fin n) : ℕ :=
  if i + 1 = n then 32 - c.slots.get i
  else if v ≤ i then c.slots.get i
  else 32768 - c.slots.get i

def totalSlack (c : Cdf n) (v : ℕ) : ℕ := ∑ i, c.slack v i

/-- Whether every entry is as near its end of the scale as the slowest rate lets it come. -/
def Settled (c : Cdf n) (v : ℕ) : Prop :=
  c.count = 32 ∧ ∀ i : Fin n, i + 1 < n →
    if v ≤ i then c.slots.get i < 2 ^ (5 + min (n / 2) 2)
    else 32768 - 2 ^ (5 + min (n / 2) 2) < c.slots.get i

theorem sound_of_ends (hn : 2 ≤ n) (hfalling : c.Falling) (hfirst : c.slots[0] ≤ 32767)
    (hlast : 1 ≤ c.slots[n - 2]) (hcount : c.count ≤ 32) : c.Sound where
  falling := hfalling
  inside i hi := by
    have hlow : c.slots.get ⟨n - 2, by omega⟩ ≤ c.slots.get i :=
      hfalling i ⟨n - 2, by omega⟩ (Fin.mk_le_mk.mpr (by omega)) (by simp only; omega)
    have hhigh : c.slots.get i ≤ c.slots.get ⟨0, by omega⟩ :=
      hfalling ⟨0, by omega⟩ i (Nat.zero_le _) hi
    exact ⟨hlast.trans hlow, hhigh.trans hfirst⟩
  count_le := hcount

theorem repeated_succ : c.repeated v (k + 1) = (c.repeated v k).moved v := by
  rw [repeated, List.replicate_succ', List.foldl_append]
  rfl

theorem repeated_moved : (c.moved v).repeated v k = c.repeated v (k + 1) := rfl

theorem Sound.repeated (h : c.Sound) (v k : ℕ) : (c.repeated v k).Sound := by
  induction k with
  | zero => exact h
  | succ k ih =>
    rw [repeated_succ]
    exact ih.moved v

theorem slack_moved_le (v : ℕ) (i : Fin n) : (c.moved v).slack v i ≤ c.slack v i := by
  rw [slack, slack]
  by_cases hi : i + 1 = n
  · have hmoved := moved_count c v i.pos
    rw [count_eq_get _ hi, count_eq_get _ hi] at hmoved
    rw [if_pos hi, if_pos hi, hmoved]
    omega
  · rw [if_neg hi, if_neg hi, moved_slot c v i (by omega)]
    split
    · exact Nat.sub_le _ _
    · exact Nat.sub_le_sub_left (Nat.le_add_right _ _) _

theorem Sound.slot_moved (h : c.Sound) (he : (c.moved v).slack v i = c.slack v i) :
    (c.moved v).slots.get i = c.slots.get i := by
  rw [slack, slack] at he
  by_cases hi : i + 1 = n
  · have hmoved := moved_count c v i.pos
    have hcount := h.count_le
    rw [count_eq_get _ hi, count_eq_get _ hi] at hmoved
    rw [count_eq_get _ hi] at hcount
    rw [if_pos hi, if_pos hi] at he
    omega
  · have hslot := moved_slot c v i (by omega)
    have hle := (h.inside i (by omega)).2
    have hle' := ((h.moved v).inside i (by omega)).2
    rw [if_neg hi, if_neg hi] at he
    split at he <;> omega

theorem Sound.totalSlack_moved_lt (h : c.Sound) (hne : c.moved v ≠ c) :
    (c.moved v).totalSlack v < c.totalSlack v := by
  apply Finset.sum_lt_sum
  · intro i _
    exact slack_moved_le v i
  · by_contra hall
    push Not at hall
    apply hne
    apply eq_of_slots
    intro i
    exact h.slot_moved (le_antisymm (slack_moved_le v i) (hall i (Finset.mem_univ i)))

theorem Sound.totalSlack_le (h : c.Sound) (v : ℕ) : c.totalSlack v ≤ 32767 * n := by
  have hslack : ∀ i ∈ (Finset.univ : Finset (Fin n)), c.slack v i ≤ 32767 := by
    intro i _
    rw [slack]
    split_ifs with hi
    · omega
    · exact (h.inside i (by omega)).2
    · have hlow := (h.inside i (by omega)).1
      omega
  have hsum := Finset.sum_le_card_nsmul _ _ _ hslack
  rwa [Finset.card_univ, Fintype.card_fin, smul_eq_mul, mul_comm] at hsum

theorem Sound.exists_repeated_fixed (h : c.Sound) (v : ℕ) :
    ∃ k ≤ c.totalSlack v, (c.repeated v k).moved v = c.repeated v k := by
  -- While the table is not fixed its slack falls, and what is left bounds the further steps.
  induction hslack : c.totalSlack v using Nat.strong_induction_on generalizing c with
  | _ m ih =>
    by_cases hfixed : c.moved v = c
    · exact ⟨0, Nat.zero_le _, hfixed⟩
    · have hlt := h.totalSlack_moved_lt hfixed
      obtain ⟨k, hk, hk'⟩ := ih _ (hslack ▸ hlt) (h.moved v) rfl
      rw [repeated_moved] at hk'
      exact ⟨k + 1, by omega, hk'⟩

theorem lowered_eq_iff {a q : ℕ} (hq : 0 < q) : a - a / q = a ↔ a < q := by
  have hle := Nat.div_le_self a q
  rw [← Nat.div_eq_zero_iff_lt hq]
  omega

theorem raised_eq_iff {a q : ℕ} (hq : 0 < q) (ha : 1 ≤ a ∧ a ≤ 32768) :
    a + (32768 - a) / q = a ↔ 32768 - q < a := by
  have hlt : 32768 - a < q ↔ 32768 - q < a := by omega
  rw [← hlt, ← Nat.div_eq_zero_iff_lt hq]
  omega

theorem Sound.slot_moved_eq_iff (h : c.Sound) (hi : i + 1 < n) :
    (c.moved v).slots.get i = c.slots.get i ↔
      if v ≤ i then c.slots.get i < 2 ^ c.rate else 32768 - 2 ^ c.rate < c.slots.get i := by
  have hq : 0 < 2 ^ c.rate := by positivity
  obtain ⟨hlow, hhigh⟩ := h.inside i hi
  rw [moved_slot c v i hi]
  split
  · exact lowered_eq_iff hq
  · exact raised_eq_iff hq ⟨hlow, hhigh.trans (by norm_num)⟩

theorem rate_of_full (h : c.count = 32) : c.rate = 5 + min (n / 2) 2 := by
  rw [rate, h]
  omega

theorem Sound.moved_eq_iff (h : c.Sound) (hn : 0 < n) : c.moved v = c ↔ c.Settled v := by
  have hcount := moved_count c v hn
  constructor
  · intro hfixed
    rw [hfixed] at hcount
    have hfull : c.count = 32 := by
      have hle := h.count_le
      omega
    refine ⟨hfull, ?_⟩
    intro i hi
    rw [← rate_of_full hfull]
    apply (h.slot_moved_eq_iff hi).mp
    rw [hfixed]
  · rintro ⟨hfull, hslots⟩
    apply eq_of_slots
    intro i
    by_cases hi : i + 1 = n
    · rw [← count_eq_get _ hi, ← count_eq_get _ hi, hcount, hfull]
    · apply (h.slot_moved_eq_iff (by omega)).mpr
      rw [rate_of_full hfull]
      exact hslots i (by omega)

theorem Sound.share_le (h : c.Sound) (hn : 2 ≤ n) (hv : v < n) : c.share v ≤ 32767 := by
  by_cases h0 : v = 0
  · have hnext : 1 ≤ c.tail 1 := by
      rw [tail_of_lt one_ne_zero (by omega)]
      exact (h.inside ⟨0, by omega⟩ (show 0 + 1 < n by omega)).1
    rw [h0, share, tail_zero]
    exact Nat.sub_le_sub_left hnext 32768
  · have htail : c.tail v ≤ 32767 := by
      rw [tail_of_lt h0 hv]
      exact (h.inside ⟨v - 1, by omega⟩ (show v - 1 + 1 < n by omega)).2
    exact (Nat.sub_le _ _).trans htail

theorem Sound.share_repeated_le (h : c.Sound) (hv : v < n) (k : ℕ) :
    (c.repeated v k).share v ≤ (c.repeated v (k + 1)).share v := by
  rw [repeated_succ, (h.repeated v k).valid.toOrdered.share_moved hv]
  exact Nat.le_add_right _ _

theorem Settled.le_share (h : c.Settled v) (hv : v < n) :
    32768 - 2 * (2 ^ (5 + min (n / 2) 2) - 1) ≤ c.share v := by
  have hpow : 1 ≤ 2 ^ (5 + min (n / 2) 2) := Nat.one_le_two_pow
  have habove : 32768 - 2 ^ (5 + min (n / 2) 2) < c.tail v := by
    by_cases h0 : v = 0
    · rw [h0, tail_zero]
      omega
    · have hslot := h.2 ⟨v - 1, by omega⟩ (show v - 1 + 1 < n by omega)
      rw [if_neg (show ¬v ≤ v - 1 by omega)] at hslot
      rw [tail_of_lt h0 hv]
      exact hslot
  have hbelow : c.tail (v + 1) < 2 ^ (5 + min (n / 2) 2) := by
    by_cases hlast : v + 1 < n
    · have hslot := h.2 ⟨v, hv⟩ hlast
      rw [if_pos le_rfl] at hslot
      rw [tail_of_lt (by omega) hlast]
      exact hslot
    · rw [tail_of_ge (by omega) (by omega)]
      omega
  rw [share]
  omega

/-- Coding one symbol over and over, its probability never falls, and settles short of certainty. -/
theorem adapting_saturates (hn : 2 ≤ n) (hfalling : c.Falling) (hfirst : c.slots[0] ≤ 32767)
    (hlast : 1 ≤ c.slots[n - 2]) (hcount : c.count ≤ 32) (hv : v < n) :
    ∃ (table : ℕ → Cdf n) (probability : ℕ → ℕ),
      (∀ k, (List.replicate k v).foldlM adapt c = .ok (table k) ∧
        (table k).probability v = .ok (probability k) ∧
        probability k ≤ probability (k + 1) ∧ probability k ≤ 32767) ∧
      (∃ k ≤ 32767 * n, (table k).adapt v = .ok (table k)) ∧
      ∀ k, (table k).adapt v = .ok (table k) →
        (table k).count = 32 ∧
        (∀ i : Fin n, i + 1 < n →
          if v ≤ i then (table k).slots.get i < 2 ^ (5 + min (n / 2) 2)
          else 32768 - 2 ^ (5 + min (n / 2) 2) < (table k).slots.get i) ∧
        32768 - 2 * (2 ^ (5 + min (n / 2) 2) - 1) ≤ probability k := by
  have hc := sound_of_ends hn hfalling hfirst hlast hcount
  have hsound (k : ℕ) : (c.repeated v k).Sound := hc.repeated v k
  refine ⟨c.repeated v, fun k => (c.repeated v k).share v, ?_, ?_, ?_⟩
  · intro k
    exact ⟨hc.valid.foldlM_adapt _, (hsound k).valid.toOrdered.probability_eq hv,
      hc.share_repeated_le hv k, (hsound k).share_le hn hv⟩
  · obtain ⟨k, hk, hfixed⟩ := hc.exists_repeated_fixed v
    refine ⟨k, hk.trans (hc.totalSlack_le v), ?_⟩
    rw [(hsound k).valid.adapt_eq v, hfixed]
  · intro k hfixed
    rw [(hsound k).valid.adapt_eq v] at hfixed
    have hsettled := ((hsound k).moved_eq_iff (by omega)).mp (Except.ok.inj hfixed)
    exact ⟨hsettled.1, hsettled.2, hsettled.le_share hv⟩

theorem adapting_saturates_joints : ∃ k ≤ 32767 * 4, ∃ (c : Cdf 4) (p : ℕ),
    (List.replicate k 1).foldlM adapt (ofList [28672, 21504, 13440, 0]) = .ok c ∧
      c.adapt 1 = .ok c ∧ c.count = 32 ∧ c.probability 1 = .ok p ∧ 32514 ≤ p ∧ p ≤ 32767 := by
  obtain ⟨table, probability, hrun, ⟨k, hk, hfixed⟩, hsettled⟩ :=
    adapting_saturates (c := ofList [28672, 21504, 13440, 0]) (v := 1) (by decide) (by decide)
      (by decide) (by decide) (by decide) (by decide)
  obtain ⟨htable, hprobability, -, hle⟩ := hrun k
  obtain ⟨hcount, -, hlow⟩ := hsettled k hfixed
  exact ⟨k, hk, table k, probability k, htable, hfixed, hcount, hprobability, hlow, hle⟩

end MotionEntropy.Cdf
