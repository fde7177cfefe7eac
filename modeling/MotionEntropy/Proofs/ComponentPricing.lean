import MotionEntropy.Proofs.ModelPreservation

namespace MotionEntropy

open Logarithm (maxCost)

namespace Tables

variable {t : Tables Cdf} {w : Writer} {p : Precision} {comp : ℤ}

theorem writeComponent_frozen (ht : t.All Cdf.Ordered) (h0 : comp ≠ 0) (h : InRange comp)
    (ha : w.adapts = false) (hw : w.ledger.Fits ((componentCode p t.layout comp).map t.record)) :
    t.writeComponent w p comp =
      .ok (w.after ((componentCode p t.layout comp).map t.record), t) := by
  rw [writeComponent, componentSymbols_eq_code h0 h, ok_bind]
  apply writeSymbols_frozen ht _ ha hw
  intro s hs
  have hs := coded_of_mem_componentCode h hs
  exact ⟨hs.has, hs.lt_alphabet⟩

theorem writeComponent_tally (ht : t.All Cdf.Ordered) (h0 : comp ≠ 0) (h : InRange comp)
    {cost count : ℕ} (hcost : cost + t.componentCost p comp < 2 ^ 64)
    (hcount : count + (componentCode p t.layout comp).length < 2 ^ 64) :
    t.writeComponent ⟨false, .tally cost count⟩ p comp =
      .ok (⟨false, .tally (cost + t.componentCost p comp)
        (count + (componentCode p t.layout comp).length)⟩, t) := by
  have hrecords : ((componentCode p t.layout comp).map t.record).length =
      (componentCode p t.layout comp).length := List.length_map t.record
  rw [componentCost, ← cost_map_record] at hcost ⊢
  rw [← hrecords] at hcount ⊢
  exact writeComponent_frozen ht h0 h rfl ⟨hcost, hcount⟩

end Tables

namespace PriceTable

variable {t : Tables Cdf} {p : Precision} {comp : ℤ}

theorem size_entries : (ofTables t p).entries.size = 2 * reach + 1 := by
  simp only [ofTables, List.size_toArray, List.length_map, List.length_range]

theorem entries_eq (h : comp.natAbs ≤ reach) :
    (ofTables t p).entries[(reach + comp).toNat]? = some (t.componentCost p comp) := by
  have hindex : ((reach : ℤ) + comp).toNat < 2 * reach + 1 := by omega
  simp only [ofTables, List.getElem?_toArray, List.getElem?_map, List.getElem?_range hindex,
    Option.map_some]
  congr 2
  omega

end PriceTable

open PriceTable (reach)

/-- Adding up prices, writing without adaptation and looking up a table come to one cost. -/
theorem component_prices_agree {t : Tables Cdf} (ht : t.All Cdf.Ordered) (p : Precision) :
    ∃ prices table, ComponentPrices.build t p = .ok prices ∧ PriceTable.build t p = .ok table ∧
      table.entries.size = 32767 ∧ table.get 0 = .ok 0 ∧
      ∀ comp, comp ≠ 0 → InRange comp → ∃ cost count, cost < 2 ^ 32 ∧
        prices.quote comp = .ok cost ∧
        t.writeComponent (.counter false) p comp = .ok (⟨false, .tally cost count⟩, t) ∧
        (∀ cost₀ count₀, cost₀ + cost < 2 ^ 64 → count₀ + count < 2 ^ 64 →
          t.writeComponent ⟨false, .tally cost₀ count₀⟩ p comp =
            .ok (⟨false, .tally (cost₀ + cost) (count₀ + count)⟩, t)) ∧
        (comp.natAbs ≤ 16383 → table.get comp = .ok cost ∧
          table.entries[(16383 + comp).toNat]? = some cost) ∧
        (comp.natAbs = 16384 → table.get comp = .error (.broken .priceInReach)) := by
  refine ⟨_, _, ComponentPrices.build_of_ordered ht, PriceTable.build_of_ordered ht,
    PriceTable.size_entries, PriceTable.get_eq (Nat.zero_le _), ?_⟩
  intro comp h0 h
  have hle := Tables.componentCost_le (t := t) (p := p) h
  have hmax : 15 * maxCost = 115200 := by norm_num
  have hlen : (componentCode p t.layout comp).length ≤ 15 := length_componentCode_le h
  refine ⟨t.componentCost p comp, (componentCode p t.layout comp).length, by omega,
    ComponentPrices.quote_eq h0 h, ?_, ?_, ?_, ?_⟩
  · have hcost : 0 + t.componentCost p comp < 2 ^ 64 := by omega
    have hcount : 0 + (componentCode p t.layout comp).length < 2 ^ 64 := by omega
    have hfresh := Tables.writeComponent_tally ht h0 h hcost hcount
    rwa [Nat.zero_add, Nat.zero_add] at hfresh
  · intro cost₀ count₀ hcost hcount
    exact Tables.writeComponent_tally ht h0 h hcost hcount
  · intro hreach
    exact ⟨PriceTable.get_eq hreach, PriceTable.entries_eq hreach⟩
  · intro hedge
    apply PriceTable.get_out
    simp only [reach]
    omega

theorem component_prices_agree_edge : ∃ prices table cost count,
    ComponentPrices.build (.initial .split) .quarterPel = .ok prices ∧
      PriceTable.build (.initial .split) .quarterPel = .ok table ∧
      prices.quote (-16384) = .ok cost ∧
      (Tables.initial .split).writeComponent (.counter false) .quarterPel (-16384) =
        .ok (⟨false, .tally cost count⟩, .initial .split) ∧
      table.get (-16384) = .error (.broken .priceInReach) := by
  have hfit : (Tables.initial .split).Fit .split Cdf.Sound := Tables.initial_fit
  have hordered : (Tables.initial .split).All Cdf.Ordered :=
    hfit.all.mono fun _ h => h.valid.toOrdered
  obtain ⟨prices, table, hprices, htable, -, -, hcosts⟩ :=
    component_prices_agree hordered .quarterPel
  obtain ⟨cost, count, -, hquote, hwrite, -, -, hget⟩ := hcosts (-16384) (by decide) (by decide)
  exact ⟨prices, table, cost, count, hprices, htable, hquote, hwrite, hget rfl⟩

end MotionEntropy
