import Mathlib.Data.List.GetD
import MotionEntropy.Proofs.MassTransfer
import MotionEntropy.Proofs.ModelPreservation

namespace MotionEntropy.Cdf

variable {n s size : ℕ} {c c' : Cdf n} {prices : Prices n} {freqs : List ℕ}
  {d : Cdf (freqs.length + 1)}

def SameEntries (c c' : Cdf n) : Prop := ∀ i : Fin n, i + 1 < n → c'.slots.get i = c.slots.get i

def ofFrequencyList (freqs : List ℕ) : Cdf (freqs.length + 1) :=
  ofFrequencies ⟨freqs.toArray, freqs.size_toArray⟩

/-- How often, out of 32768, a symbol before `s` occurs: never one before the first, and always one
before the end. -/
def frequencyBelow (freqs : List ℕ) (s : ℕ) : ℕ := (0 :: freqs).getD s 32768

theorem tail_succ (i : Fin n) (hi : i + 1 < n) : c.tail (i + 1) = c.slots.get i :=
  tail_of_lt (Nat.succ_ne_zero i) hi

theorem ordered_iff_antitone : c.Ordered ↔ Antitone c.tail := by
  constructor
  · intro h
    exact antitone_nat_of_succ_le h.tail_succ_le
  · intro h
    constructor
    · intro i j hij hj
      have hij' : (i : ℕ) ≤ j := hij
      rw [← tail_succ i (by omega), ← tail_succ j hj]
      exact h (Nat.succ_le_succ hij')
    · intro i hi
      rw [← tail_succ i hi]
      exact h (Nat.zero_le _)

theorem symbolCost_eq_ite (hs : s < n) : c.symbolCost s =
    if c.tail (s + 1) ≤ c.tail s then .ok (c.price s) else .error (.overflow .subtract) := by
  have hcost : c.symbolCost s =
      Checked.sub (c.tail s) (c.tail (s + 1)) >>= fun p => Logarithm.cost p costShift := by
    rw [symbolCost, require_of hs, ok_bind, probability_eq hs]
  rw [Checked.sub] at hcost
  split_ifs at hcost ⊢ with hle
  · obtain ⟨k, -, hk⟩ := Logarithm.cost_le (c.share s)
    have hk' : c.symbolCost s = .ok k := hcost.trans hk
    rw [price_of_eq_ok hk', hk']
  · exact hcost

theorem ordered_of_costs (h : c.costs = .ok prices) : c.Ordered := by
  rw [ordered_iff_antitone]
  apply antitone_nat_of_succ_le
  intro s
  by_cases hs : s < n
  · have hcost := Checked.collect_eq_ok.mp h ⟨s, hs⟩
    by_contra hrise
    rw [symbolCost_eq_ite hs, if_neg hrise] at hcost
    cases hcost
  · rw [tail_of_ge (by omega) (by omega)]
    exact Nat.zero_le _

theorem costs_of_not_ordered (h : ¬c.Ordered) : c.costs = .error (.overflow .subtract) := by
  cases hcosts : c.costs with
  | ok prices => exact absurd (ordered_of_costs hcosts) h
  | error e =>
    obtain ⟨s, hs⟩ := exists_error_of_collect hcosts
    rw [symbolCost_eq_ite s.isLt] at hs
    split at hs <;> cases hs
    rfl

theorem SameEntries.tail_eq (h : c.SameEntries c') : c'.tail = c.tail := by
  funext s
  by_cases h0 : s = 0
  · rw [h0, tail_zero, tail_zero]
  · by_cases hs : s < n
    · rw [tail_of_lt h0 hs, tail_of_lt h0 hs]
      exact h ⟨s - 1, by omega⟩ (show s - 1 + 1 < n by omega)
    · rw [tail_of_ge h0 (by omega), tail_of_ge h0 (by omega)]

theorem SameEntries.symbolCost_eq (h : c.SameEntries c') (s : ℕ) :
    c'.symbolCost s = c.symbolCost s := by
  by_cases hs : s < n
  · rw [symbolCost, symbolCost, probability_eq hs, probability_eq hs, h.tail_eq]
  · rw [symbolCost, symbolCost, require_of_not hs, error_bind, error_bind]

theorem SameEntries.costs_eq (h : c.SameEntries c') : c'.costs = c.costs :=
  congrArg Checked.collect (funext fun s => h.symbolCost_eq s)

theorem build_eq_ok : build freqs size = .ok d ↔
    (size = freqs.length + 1 ∧ ∀ f ∈ freqs, f ≤ 32768) ∧ ofFrequencyList freqs = d := by
  simp only [build, bind_eq_ok, require_eq_ok, pure_eq_ok, Except.ok.injEq, exists_and_left,
    exists_const, and_assoc, ofFrequencyList]

theorem frequencyBelow_le (hf : ∀ f ∈ freqs, f ≤ 32768) (s : ℕ) :
    frequencyBelow freqs s ≤ 32768 := by
  rw [frequencyBelow]
  by_cases hs : s < (0 :: freqs).length
  · rw [List.getD_eq_getElem _ _ hs]
    obtain h0 | hmem := List.mem_cons.mp (List.getElem_mem hs)
    · rw [h0]
      exact Nat.zero_le _
    · exact hf _ hmem
  · rw [List.getD_eq_default _ _ (by omega)]

theorem slot_ofFrequencyList {i : ℕ} (hi : i < freqs.length) :
    (ofFrequencyList freqs).slots.get ⟨i, by omega⟩ = 32768 - freqs[i] :=
  ofFrequencies_slot _ hi

theorem tail_ofFrequencyList (freqs : List ℕ) (s : ℕ) :
    (ofFrequencyList freqs).tail s = 32768 - frequencyBelow freqs s := by
  cases s with
  | zero => rfl
  | succ s =>
    rw [frequencyBelow, List.getD_cons_succ]
    by_cases hs : s < freqs.length
    · rw [tail_succ ⟨s, by omega⟩ (Nat.succ_lt_succ hs), slot_ofFrequencyList hs,
        List.getD_eq_getElem _ _ hs]
    · rw [tail_of_ge (by omega) (by omega), List.getD_eq_default _ _ (by omega)]

theorem ordered_ofFrequencyList (hf : ∀ f ∈ freqs, f ≤ 32768) :
    (ofFrequencyList freqs).Ordered ↔ freqs.Pairwise (· ≤ ·) := by
  rw [List.pairwise_iff_getElem]
  constructor
  · intro h i j hi hj hij
    have hle := h.falling ⟨i, by omega⟩ ⟨j, by omega⟩ hij.le (Nat.succ_lt_succ hj)
    have hscale := hf freqs[i] (List.getElem_mem hi)
    rw [slot_ofFrequencyList hi, slot_ofFrequencyList hj] at hle
    omega
  · intro h
    constructor
    · intro i j hij hj
      have hij' : (i : ℕ) ≤ j := hij
      rw [slot_ofFrequencyList (show (i : ℕ) < freqs.length by omega),
        slot_ofFrequencyList (show (j : ℕ) < freqs.length by omega)]
      obtain heq | hlt := hij'.eq_or_lt
      · simp only [heq, le_refl]
      · exact Nat.sub_le_sub_left (h i j _ _ hlt) 32768
    · intro i hi
      rw [slot_ofFrequencyList (show (i : ℕ) < freqs.length by omega)]
      exact Nat.sub_le _ _

theorem Ordered.probability_ofFrequencyList (hf : ∀ f ∈ freqs, f ≤ 32768)
    (h : (ofFrequencyList freqs).Ordered) (hs : s ≤ freqs.length) :
    frequencyBelow freqs s ≤ frequencyBelow freqs (s + 1) ∧
      (ofFrequencyList freqs).probability s =
        .ok (frequencyBelow freqs (s + 1) - frequencyBelow freqs s) := by
  have hle := h.tail_succ_le s
  have hscale := frequencyBelow_le hf s
  have hscale' := frequencyBelow_le hf (s + 1)
  rw [h.probability_eq (Nat.lt_succ_of_le hs), share]
  rw [tail_ofFrequencyList, tail_ofFrequencyList] at *
  constructor
  · omega
  · congr 1
    omega

theorem costs_eq_ok_iff : (∃ prices, c.costs = .ok prices) ↔ c.Ordered := by
  constructor
  · rintro ⟨prices, h⟩
    exact ordered_of_costs h
  · intro h
    exact ⟨c.prices, h.costs_eq⟩

/-- A table can be priced just where it is ordered, and one built from cumulative frequencies just
where these do not fall. -/
theorem costs_succeed_iff_ordered (hn : 0 < n) (c : Cdf n) (freqs : List ℕ) (size : ℕ) :
    ((∃ prices, c.costs = .ok prices) ↔ c.Ordered) ∧
    (¬c.Ordered → c.costs = .error (.overflow .subtract)) ∧
    (c.Ordered → ∃ ps, (List.range n).mapM c.probability = .ok ps ∧ ps.sum = 32768) ∧
    (∀ c' : Cdf n, c.SameEntries c' → c'.costs = c.costs) ∧
    ((∃ d, build freqs size = .ok d) ↔ size = freqs.length + 1 ∧ ∀ f ∈ freqs, f ≤ 32768) ∧
    ∀ d, build freqs size = .ok d →
      ((∃ prices, d.costs = .ok prices) ↔ freqs.Pairwise (· ≤ ·)) ∧
      (freqs.Pairwise (· ≤ ·) → ∀ s ≤ freqs.length,
        frequencyBelow freqs s ≤ frequencyBelow freqs (s + 1) ∧
        d.probability s = .ok (frequencyBelow freqs (s + 1) - frequencyBelow freqs s)) := by
  refine ⟨costs_eq_ok_iff, costs_of_not_ordered, ?_, ?_, ?_, ?_⟩
  · intro h
    exact h.probabilities_eq hn
  · intro c' h
    exact h.costs_eq
  · constructor
    · rintro ⟨d, hd⟩
      exact (build_eq_ok.mp hd).1
    · intro h
      exact ⟨_, build_eq_ok.mpr ⟨h, rfl⟩⟩
  · intro d hd
    obtain ⟨⟨-, hf⟩, rfl⟩ := build_eq_ok.mp hd
    have hordered := ordered_ofFrequencyList hf
    refine ⟨costs_eq_ok_iff.trans hordered, ?_⟩
    intro hrising s hs
    exact (hordered.mpr hrising).probability_ofFrequencyList hf hs

theorem costs_succeed_iff_ordered_joints :
    (∃ prices, (ofList [28672, 21504, 13440, 0]).costs = .ok prices ∧
      (ofList [28672, 21504, 13440, 65535]).costs = .ok prices) ∧
    (ofList [28672, 32769, 13440, 0]).costs = .error (.overflow .subtract) ∧
    (∃ d, build [4096, 11264, 19328] 4 = .ok d ∧ d.probability 3 = .ok 13440) ∧
    (¬∃ d, build [4096, 11264, 32769] 4 = .ok d) ∧
    ∃ d, build [4096, 11264, 8192] 4 = .ok d ∧ ¬∃ prices, d.costs = .ok prices := by
  have hn : 0 < 4 := by decide
  obtain ⟨hok, -, -, hsame, hbuild, hbuilt⟩ :=
    costs_succeed_iff_ordered hn (ofList [28672, 21504, 13440, 0]) [4096, 11264, 19328] 4
  obtain ⟨-, hfault, -, -, hbuild', -⟩ :=
    costs_succeed_iff_ordered hn (ofList [28672, 32769, 13440, 0]) [4096, 11264, 32769] 4
  obtain ⟨-, -, -, -, hbuild'', hbuilt''⟩ :=
    costs_succeed_iff_ordered hn (ofList [28672, 21504, 13440, 0]) [4096, 11264, 8192] 4
  refine ⟨?_, hfault ?_, ?_, ?_, ?_⟩
  · obtain ⟨prices, hprices⟩ := hok.mpr ⟨by decide, by decide⟩
    exact ⟨prices, hprices, (hsame _ (by unfold SameEntries; decide)).trans hprices⟩
  · intro h
    exact absurd (h.within 1 (by decide)) (by decide)
  · obtain ⟨d, hd⟩ := hbuild.mpr ⟨rfl, by decide⟩
    exact ⟨d, hd, ((hbuilt d hd).2 (by decide) 3 (by decide)).2⟩
  · rw [hbuild']
    decide
  · obtain ⟨d, hd⟩ := hbuild''.mpr ⟨rfl, by decide⟩
    refine ⟨d, hd, ?_⟩
    rw [(hbuilt'' d hd).1]
    decide

end MotionEntropy.Cdf
