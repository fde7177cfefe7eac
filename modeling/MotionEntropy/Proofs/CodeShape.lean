import MotionEntropy.Prices
import MotionEntropy.Proofs.SymbolWriting

namespace MotionEntropy

variable {p : Precision} {layout : Layout} {comp : ℤ} {s : Symbol × ℕ}

theorem Magnitude.Coded.find {α : ℕ → Type} (h : Magnitude.Coded p layout s) (t : Tables α)
    (ht : t.layout = layout) : ∃ n, ∃ a : α n, t.find s.1 = .ok ⟨n, a⟩ ∧ s.2 < n := by
  subst ht
  obtain ⟨a, ha⟩ := t.find_of_has h.has
  exact ⟨_, a, ha, h.lt_alphabet⟩

/-- Whether a component is refused by whatever visits its symbols, before it visits any: the
tables are not looked at, and nothing is written. -/
structure Refused (p : Precision) (layout : Layout) (comp : ℤ) (r : Requirement) : Prop where
  symbols : componentSymbols p layout comp = .error (.broken r)
  writing : ∀ (w : Writer) (t : Tables Cdf), t.layout = layout →
    t.writeComponent w p comp = .error (.broken r)
  pricing : ∀ c : ComponentPrices, c.precision = p → c.tables.layout = layout →
    c.quote comp = .error (.broken r)

theorem refused_of_symbols {r : Requirement}
    (h : componentSymbols p layout comp = .error (.broken r)) : Refused p layout comp r where
  symbols := h
  writing := by
    intro w t ht
    rw [Tables.writeComponent, ht, h]
    rfl
  pricing := by
    intro c hp ht
    rw [ComponentPrices.quote, hp, ht, h]
    rfl

/-- The code of a component has as many symbols as its class, the precision and the layout say,
each for a table of its own that exists and has a symbol for the value; any other component is
refused. -/
theorem componentSymbols_wellFormed_or_refused (p : Precision) (layout : Layout) (comp : ℤ) :
    (comp ≠ 0 → InRange comp → ∃ code, componentSymbols p layout comp = .ok code ∧
      code.length = 2 + max 1 (magnitudeClass (comp.natAbs - 1)) + fractionCount p layout +
        eighthCount p ∧
      (code.map Prod.fst).Nodup ∧
      (∀ s ∈ code, layout.Has s.1 ∧ s.2 < layout.alphabet s.1) ∧
      ∀ {α : ℕ → Type} (t : Tables α), t.layout = layout → ∀ s ∈ code,
        ∃ n, ∃ a : α n, t.find s.1 = .ok ⟨n, a⟩ ∧ s.2 < n) ∧
    (comp = 0 → Refused p layout comp .nonzeroComponent) ∧
    (¬InRange comp → Refused p layout comp .componentInRange) := by
  refine ⟨?_, ?_, ?_⟩
  · intro h0 h
    refine ⟨_, componentSymbols_eq_code h0 h, length_componentCode h0, nodup_componentCode, ?_, ?_⟩
    · intro s hs
      have hcoded := coded_of_mem_componentCode h hs
      exact ⟨hcoded.has, hcoded.lt_alphabet⟩
    · intro α t ht s hs
      exact (coded_of_mem_componentCode h hs).find t ht
  · rintro rfl
    exact refused_of_symbols componentSymbols_zero
  · intro h
    exact refused_of_symbols (componentSymbols_out h)

theorem componentSymbols_wellFormed_or_refused_edge :
    (∃ code, componentSymbols .eighthPel .split (-16384) = .ok code ∧ code.length = 15 ∧
      (code.map Prod.fst).Nodup) ∧
    Refused .eighthPel .split 0 .nonzeroComponent ∧
    Refused .eighthPel .split 16385 .componentInRange := by
  obtain ⟨hcode, -, -⟩ := componentSymbols_wellFormed_or_refused .eighthPel .split (-16384)
  obtain ⟨-, hzero, -⟩ := componentSymbols_wellFormed_or_refused .eighthPel .split 0
  obtain ⟨-, -, hout⟩ := componentSymbols_wellFormed_or_refused .eighthPel .split 16385
  obtain ⟨code, hok, hlength, hnodup, -⟩ := hcode (by decide) (by decide)
  exact ⟨⟨code, hok, hlength.trans (by decide), hnodup⟩, hzero rfl, hout (by decide)⟩

end MotionEntropy
