import MotionEntropy.Proofs.CodeInjectivity
import MotionEntropy.Proofs.TableRouting

namespace MotionEntropy

def Symbol.CodedAt (p : Precision) : Symbol → Prop
  | .class0Fraction _ slot | .fraction slot => p ≠ .fullPel ∧ (slot = 0 ∨ .quarterPel ≤ p)
  | .class0Eighth | .eighth => p = .eighthPel
  | _ => True

def Symbol.values (s : Symbol) (code : List (Symbol × ℕ)) : List ℕ :=
  (code.filter fun x => x.1 = s).map Prod.snd

namespace Precision

variable {p q : Precision}

theorem ne_fullPel_of_le (h : p ≤ q) (hp : p ≠ .fullPel) : q ≠ .fullPel := by
  cases p <;> cases q <;> revert h hp <;> decide

theorem quarterPel_le_of_le (h : p ≤ q) (hp : .quarterPel ≤ p) : .quarterPel ≤ q :=
  Nat.le_trans hp h

theorem eq_or_ne_eighthPel_of_le (h : p ≤ q) : p = q ∨ p ≠ .eighthPel := by
  cases p <;> cases q <;> revert h <;> decide

end Precision

namespace Magnitude

variable {m : Magnitude} {p q : Precision} {layout : Layout} {s : Symbol × ℕ}

theorem codedAt_fractionTable {slot : ℕ} : (m.fractionTable slot).CodedAt p ↔
    p ≠ .fullPel ∧ (slot = 0 ∨ .quarterPel ≤ p) := by
  unfold fractionTable
  split <;> rfl

theorem exists_fractionTable_of_mem (h : s ∈ m.fractionSymbols p layout) :
    ∃ slot v, s = (m.fractionTable slot, v) ∧ (m.fractionTable slot).CodedAt p := by
  simp only [codedAt_fractionTable]
  by_cases hp : p = .fullPel
  · rw [fractionSymbols_fullPel hp] at h
    cases h
  · cases layout with
    | joint =>
      rw [fractionSymbols_joint hp] at h
      exact ⟨0, _, List.mem_singleton.mp h, hp, .inl rfl⟩
    | split =>
      rw [fractionSymbols_split hp] at h
      obtain rfl | h := List.mem_cons.mp h
      · exact ⟨0, _, rfl, hp, .inl rfl⟩
      · split at h
        · next hquarter => exact ⟨_, _, List.mem_singleton.mp h, hp, .inr hquarter⟩
        · cases h

theorem codedAt_eighth : (if m.cls = 0 then Symbol.class0Eighth else .eighth).CodedAt p ↔
    p = .eighthPel := by
  split <;> rfl

theorem codedAt_of_mem (h : s ∈ m.symbols p layout) : s.1.CodedAt p := by
  rw [symbols, List.mem_cons, List.mem_append, List.mem_append] at h
  obtain rfl | h | h | h := h
  · trivial
  · obtain ⟨-, rfl⟩ | ⟨-, i, -, rfl⟩ := mem_wholeSymbols h <;> trivial
  · obtain ⟨slot, v, rfl, hcoded⟩ := exists_fractionTable_of_mem h
    exact hcoded
  · obtain ⟨hp, rfl⟩ := mem_eighthSymbols h
    exact codedAt_eighth.mpr hp

theorem fractionSymbols_append (m : Magnitude) (layout : Layout) (h : p ≤ q) :
    ∃ rest, m.fractionSymbols q layout = m.fractionSymbols p layout ++ rest ∧
      ∀ s ∈ rest, ¬s.1.CodedAt p := by
  by_cases hp : p = .fullPel
  · refine ⟨m.fractionSymbols q layout, ?_, ?_⟩
    · rw [fractionSymbols_fullPel hp, List.nil_append]
    · intro s hs hcoded
      obtain ⟨slot, v, rfl, -⟩ := exists_fractionTable_of_mem hs
      exact (codedAt_fractionTable.mp hcoded).1 hp
  · have hq := Precision.ne_fullPel_of_le h hp
    cases layout with
    | joint => exact ⟨[], by rw [fractionSymbols_joint hp, fractionSymbols_joint hq]; rfl, nofun⟩
    | split =>
      rw [fractionSymbols_split hp, fractionSymbols_split hq]
      by_cases hquarter : .quarterPel ≤ p
      · exact ⟨[], by rw [if_pos hquarter, if_pos (Precision.quarterPel_le_of_le h hquarter)]; rfl,
          nofun⟩
      · refine ⟨if .quarterPel ≤ q then [(m.fractionTable (1 + m.fraction / 2), m.fraction % 2)]
          else [], by rw [if_neg hquarter]; rfl, ?_⟩
        intro s hs hcoded
        split at hs
        · rw [List.mem_singleton.mp hs, codedAt_fractionTable] at hcoded
          obtain ⟨-, hslot | hle⟩ := hcoded
          · omega
          · exact hquarter hle
        · cases hs

/-- The higher tier only appends symbols, and only of tables that the lower one has no use for. -/
theorem symbols_append (m : Magnitude) (layout : Layout) (h : p ≤ q) :
    ∃ rest, m.symbols q layout = m.symbols p layout ++ rest ∧ ∀ s ∈ rest, ¬s.1.CodedAt p := by
  obtain rfl | hp := Precision.eq_or_ne_eighthPel_of_le h
  · exact ⟨[], (List.append_nil _).symm, nofun⟩
  · obtain ⟨rest, hrest, hcoded⟩ := fractionSymbols_append m layout h
    refine ⟨rest ++ m.eighthSymbols q, ?_, ?_⟩
    · have heighth : m.eighthSymbols p = [] := if_neg hp
      simp only [symbols, hrest, heighth, List.append_nil, List.append_assoc, List.cons_append]
    · intro s hs
      obtain hs | hs := List.mem_append.mp hs
      · exact hcoded s hs
      · obtain ⟨-, rfl⟩ := mem_eighthSymbols hs
        rw [codedAt_eighth]
        exact hp

end Magnitude

def Visited (p : Precision) (layout : Layout) (s : Symbol) : Prop :=
  ∃ comp code, componentSymbols p layout comp = .ok code ∧ s ∈ code.map Prod.fst

section

variable {p q : Precision} {layout : Layout} {comp : ℤ} {s : Symbol} {code : List (Symbol × ℕ)}

theorem componentSymbols_inversion (h : componentSymbols p layout comp = .ok code) :
    comp ≠ 0 ∧ InRange comp ∧ code = componentCode p layout comp := by
  obtain ⟨_, h0, hrest⟩ := bind_eq_ok.mp h
  obtain ⟨_, hrange, -⟩ := bind_eq_ok.mp hrest
  have h0 := require_eq_ok.mp h0
  have hrange : InRange comp := require_eq_ok.mp hrange
  rw [componentSymbols_eq_code h0 hrange] at h
  cases h
  exact ⟨h0, hrange, rfl⟩

theorem codedAt_of_mem_componentCode {x : Symbol × ℕ} (h : x ∈ componentCode p layout comp) :
    x.1.CodedAt p := by
  by_cases h0 : comp = 0
  · rw [h0, componentCode_zero] at h
    cases h
  · rw [componentCode_of_ne h0] at h
    obtain rfl | h := List.mem_cons.mp h
    · trivial
    · exact Magnitude.codedAt_of_mem h

theorem Visited.codedAt (h : Visited p layout s) : s.CodedAt p := by
  obtain ⟨comp, code, hcode, hs⟩ := h
  obtain ⟨-, -, rfl⟩ := componentSymbols_inversion hcode
  obtain ⟨x, hx, rfl⟩ := List.mem_map.mp hs
  exact codedAt_of_mem_componentCode hx

theorem visited_of_mem {x : Symbol × ℕ} (hrange : InRange comp)
    (h : x ∈ componentCode p layout comp) : Visited p layout x.1 := by
  by_cases h0 : comp = 0
  · rw [h0, componentCode_zero] at h
    cases h
  · exact ⟨comp, _, componentSymbols_eq_code h0 hrange, List.mem_map_of_mem h⟩

theorem componentCode_append (h : p ≤ q) (layout : Layout) (comp : ℤ) :
    ∃ rest, componentCode q layout comp = componentCode p layout comp ++ rest ∧
      ∀ x ∈ rest, ¬x.1.CodedAt p := by
  by_cases h0 : comp = 0
  · exact ⟨[], by rw [h0, componentCode_zero, componentCode_zero]; rfl, nofun⟩
  · obtain ⟨rest, hrest, hcoded⟩ := Magnitude.symbols_append
      (Magnitude.ofNat (comp.natAbs - 1)) layout h
    refine ⟨rest, ?_, hcoded⟩
    rw [componentCode_of_ne h0, componentCode_of_ne h0, hrest, List.cons_append]

theorem Symbol.values_append (s : Symbol) (code code' : List (Symbol × ℕ)) :
    s.values (code ++ code') = s.values code ++ s.values code' := by
  rw [values, List.filter_append, List.map_append]
  rfl

theorem Symbol.values_eq_nil (h : ∀ x ∈ code, x.1 ≠ s) : s.values code = [] := by
  rw [values, List.filter_eq_nil_iff.mpr, List.map_nil]
  intro x hx
  simpa using h x hx

theorem Symbol.values_flatMap (s : Symbol) (f : ℤ → List (Symbol × ℕ)) (comps : List ℤ) :
    s.values (comps.flatMap f) = comps.flatMap fun comp => s.values (f comp) := by
  induction comps with
  | nil => rfl
  | cons comp comps ih => rw [List.flatMap_cons, values_append, ih, List.flatMap_cons]

theorem values_componentCode (h : p ≤ q) (hs : s.CodedAt p) :
    s.values (componentCode q layout comp) = s.values (componentCode p layout comp) := by
  obtain ⟨rest, hrest, hcoded⟩ := componentCode_append h layout comp
  have hnone : s.values rest = [] := by
    apply Symbol.values_eq_nil
    rintro x hx rfl
    exact hcoded x hx hs
  rw [hrest, Symbol.values_append, hnone, List.append_nil]

end

end MotionEntropy
