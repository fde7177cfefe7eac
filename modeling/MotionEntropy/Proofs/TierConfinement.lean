import MotionEntropy.Proofs.PrecisionTiers

namespace MotionEntropy

namespace Tables

def writeComponents (w : Writer) (t : Tables Cdf) (p : Precision) (comps : List ℤ) :
    Except Fault (Writer × Tables Cdf) :=
  comps.foldlM (fun s comp => s.2.writeComponent s.1 p comp) (w, t)

def runCode (p : Precision) (layout : Layout) (comps : List ℤ) : List (Symbol × ℕ) :=
  comps.flatMap (componentCode p layout)

variable {t t' u : Tables Cdf} {p q : Precision} {layout : Layout} {s : Symbol}
  {code code' : List (Symbol × ℕ)} {comp : ℤ} {comps : List ℤ} {w w' : Writer}

theorem adapted_append : t.adapted (code ++ code') = (t.adapted code).adapted code' :=
  List.foldl_append

theorem find_adapted (t : Tables Cdf) (code : List (Symbol × ℕ)) (s : Symbol) :
    (t.adapted code).find s =
      (t.find s).map fun c => ⟨c.1, (s.values code).foldl Cdf.moved c.2⟩ := by
  induction code generalizing t with
  | nil => cases h : t.find s <;> exact h
  | cons x code ih =>
    have hvalues : s.values (x :: code) =
        if x.1 = s then x.2 :: s.values code else s.values code := by
      by_cases hx : x.1 = s <;> simp [Symbol.values, hx]
    have hcons : t.adapted (x :: code) = (t.update x).adapted code := rfl
    rw [hcons, ih, find_update, hvalues]
    cases t.find s with
    | error e => rfl
    | ok c => by_cases hx : x.1 = s <;> simp only [hx, if_true, if_false] <;> rfl

theorem writeSymbols_inversion (h : t.writeSymbols w code = .ok (w', t')) :
    w'.adapts = w.adapts ∧ t' = if w.adapts then t.adapted code else t := by
  induction code generalizing w t with
  | nil =>
    cases h
    exact ⟨rfl, (ite_self _).symm⟩
  | cons x code ih =>
    obtain ⟨place, hplace, h⟩ := bind_eq_ok.mp h
    obtain ⟨⟨w₁, c⟩, hwrite, h⟩ := bind_eq_ok.mp h
    have ha : w₁.adapts = w.adapts :=
      ((Writer.oblivious_write place.table x.2).grows _ _ _ hwrite).adapts_eq.symm
    obtain ⟨ha', rfl⟩ := ih h
    refine ⟨ha'.trans ha, ?_⟩
    rw [ha, Writer.write_table hwrite]
    cases w.adapts with
    | false => exact put_table hplace
    | true =>
      have hcons : t.adapted (x :: code) = (t.update x).adapted code := rfl
      rw [if_pos rfl, if_pos rfl, if_pos rfl, hcons, update_of_place hplace]

theorem writeComponents_inversion (ha : w.adapts = true)
    (h : t.writeComponents w p comps = .ok (w', t')) :
    (∀ comp ∈ comps, InRange comp) ∧ t' = t.adapted (runCode p t.layout comps) := by
  induction comps generalizing w t with
  | nil =>
    cases h
    exact ⟨nofun, rfl⟩
  | cons comp comps ih =>
    obtain ⟨⟨w₁, t₁⟩, hstep, h⟩ := bind_eq_ok.mp h
    obtain ⟨code, hcode, hstep⟩ := bind_eq_ok.mp hstep
    obtain ⟨-, hrange, rfl⟩ := componentSymbols_inversion hcode
    obtain ⟨ha₁, rfl⟩ := writeSymbols_inversion hstep
    rw [if_pos ha] at h
    obtain ⟨hranges, rfl⟩ := ih (ha₁.trans ha) h
    refine ⟨List.forall_mem_cons.mpr ⟨hrange, hranges⟩, ?_⟩
    rw [layout_adapted, ← adapted_append]
    rfl

theorem writeComponents_recorder (ht : t.All Cdf.Valid)
    (hcomps : ∀ comp ∈ comps, comp ≠ 0 ∧ InRange comp) (rs : List Record) :
    ∃ w' t', t.writeComponents ⟨true, .journal rs⟩ p comps = .ok (w', t') := by
  induction comps generalizing t rs with
  | nil => exact ⟨_, _, rfl⟩
  | cons comp comps ih =>
    obtain ⟨⟨h0, hrange⟩, hcomps⟩ := List.forall_mem_cons.mp hcomps
    have hcoded : ∀ x ∈ componentCode p t.layout comp,
        t.layout.Has x.1 ∧ x.2 < t.layout.alphabet x.1 := by
      intro x hx
      have hx := coded_of_mem_componentCode hrange hx
      exact ⟨hx.has, hx.lt_alphabet⟩
    have hwrite := writeSymbols_eq (w := ⟨true, .journal rs⟩) ht hcoded nodup_componentCode trivial
    obtain ⟨w', t', hrest⟩ := ih (ht.adapted fun c s hc => hc.moved s) hcomps
      (rs ++ (componentCode p t.layout comp).map t.record)
    refine ⟨w', t', ?_⟩
    rw [writeComponents, List.foldlM_cons, writeComponent, componentSymbols_eq_code h0 hrange,
      ok_bind, hwrite, ok_bind]
    exact hrest

theorem values_runCode (h : p ≤ q) (hs : s.CodedAt p) :
    s.values (runCode q layout comps) = s.values (runCode p layout comps) := by
  rw [runCode, runCode, Symbol.values_flatMap, Symbol.values_flatMap]
  simp only [values_componentCode h hs]

theorem values_runCode_of_not_visited (hcomps : ∀ comp ∈ comps, InRange comp)
    (hs : ¬Visited p layout s) : s.values (runCode p layout comps) = [] := by
  apply Symbol.values_eq_nil
  rintro x hx rfl
  obtain ⟨comp, hcomp, hx⟩ := List.mem_flatMap.mp hx
  exact hs (visited_of_mem (hcomps comp hcomp) hx)

theorem record_congr {x : Symbol × ℕ} (h : t.find x.1 = t'.find x.1) :
    t.record x = t'.record x := by
  rw [record, record, h]

theorem componentCost_mono (h : p ≤ q) : t.componentCost p comp ≤ t.componentCost q comp := by
  obtain ⟨rest, hrest, -⟩ := componentCode_append h t.layout comp
  rw [componentCost, componentCost, hrest, codeCost, codeCost, List.map_append, List.sum_append]
  exact Nat.le_add_right _ _

theorem componentCost_congr (hlayout : t'.layout = t.layout) (hrange : InRange comp)
    (h : ∀ s, Visited p t.layout s → t.find s = t'.find s) :
    t.componentCost p comp = t'.componentCost p comp := by
  rw [componentCost, componentCost, hlayout, codeCost, codeCost]
  apply congrArg
  apply List.map_congr_left
  intro x hx
  rw [record_congr (h x.1 (visited_of_mem hrange hx))]

end Tables

namespace PriceTable

variable {t t' : Tables Cdf} {p q : Precision}

theorem inRange_of_index {i : ℕ} (h : i < 2 * reach + 1) : InRange ((i : ℤ) - reach) := by
  apply inRange_of_reach
  omega

theorem ofTables_mono (h : p ≤ q) :
    List.Forall₂ (· ≤ ·) (ofTables t p).entries.toList (ofTables t q).entries.toList := by
  simp only [ofTables, List.forall₂_map_left_iff, List.forall₂_map_right_iff, List.forall₂_same]
  intro i _
  exact Tables.componentCost_mono h

theorem ofTables_congr (hlayout : t'.layout = t.layout)
    (h : ∀ s, Visited p t.layout s → t.find s = t'.find s) : ofTables t p = ofTables t' p := by
  have hcosts : ∀ i ∈ List.range (2 * reach + 1),
      t.componentCost p (i - reach) = t'.componentCost p (i - reach) := by
    intro i hi
    exact Tables.componentCost_congr hlayout (inRange_of_index (List.mem_range.mp hi)) h
  rw [ofTables, ofTables, List.map_congr_left hcosts]

end PriceTable

namespace Tables

/-- A tier codes what each lower one codes and then symbols of tables that the lower one leaves
alone, so prices grow with the tier, and a tier neither reads nor adapts the tables above it. -/
theorem tiers_append_and_confine {p q : Precision} (hpq : p ≤ q) (layout : Layout) :
    (∀ comp, comp ≠ 0 → InRange comp → ∃ code rest, componentSymbols p layout comp = .ok code ∧
      componentSymbols q layout comp = .ok (code ++ rest) ∧
      ∀ x ∈ rest, ¬Visited p layout x.1) ∧
    ∀ t : Tables Cdf, t.layout = layout → t.All Cdf.Valid →
      (∃ low high, PriceTable.build t p = .ok low ∧ PriceTable.build t q = .ok high ∧
        List.Forall₂ (· ≤ ·) low.entries.toList high.entries.toList) ∧
      (∀ t' : Tables Cdf, t'.layout = layout → t'.All Cdf.Valid →
        (∀ s, Visited p layout s → t.find s = t'.find s) →
        ∃ prices, PriceTable.build t p = .ok prices ∧ PriceTable.build t' p = .ok prices) ∧
      (∀ comps : List ℤ, (∀ comp ∈ comps, comp ≠ 0 ∧ InRange comp) → ∃ w u v u',
        t.writeComponents (.recorder true) p comps = .ok (w, u) ∧
        t.writeComponents (.recorder true) q comps = .ok (v, u')) ∧
      ∀ (comps : List ℤ) (w v w' v' : Writer) (u u' : Tables Cdf), w.adapts = true →
        v.adapts = true → t.writeComponents w p comps = .ok (w', u) →
        t.writeComponents v q comps = .ok (v', u') → ∀ s,
        (Visited p layout s → u.find s = u'.find s) ∧
          (¬Visited p layout s → u.find s = t.find s) := by
  constructor
  · intro comp h0 hrange
    obtain ⟨rest, hrest, hcoded⟩ := componentCode_append hpq layout comp
    refine ⟨_, rest, componentSymbols_eq_code h0 hrange, ?_, ?_⟩
    · rw [componentSymbols_eq_code h0 hrange, hrest]
    · intro x hx hvisited
      exact hcoded x hx hvisited.codedAt
  · rintro t rfl ht
    refine ⟨?_, ?_, ?_, ?_⟩
    · exact ⟨_, _, PriceTable.build_eq ht, PriceTable.build_eq ht, PriceTable.ofTables_mono hpq⟩
    · intro t' hlayout ht' h
      refine ⟨_, PriceTable.build_eq ht, ?_⟩
      rw [PriceTable.build_eq ht', PriceTable.ofTables_congr hlayout h]
    · intro comps hcomps
      obtain ⟨w, u, hlow⟩ := writeComponents_recorder (p := p) ht hcomps []
      obtain ⟨v, u', hhigh⟩ := writeComponents_recorder (p := q) ht hcomps []
      exact ⟨w, u, v, u', hlow, hhigh⟩
    · intro comps w v w' v' u u' hw hv hlow hhigh s
      obtain ⟨hcomps, rfl⟩ := writeComponents_inversion hw hlow
      obtain ⟨-, rfl⟩ := writeComponents_inversion hv hhigh
      constructor
      · intro hs
        rw [find_adapted, find_adapted, values_runCode hpq hs.codedAt]
      · intro hs
        rw [find_adapted, values_runCode_of_not_visited hcomps hs]
        cases t.find s <;> rfl

theorem tiers_append_and_confine_halfPel :
    (∃ code rest, componentSymbols .halfPel .split (-37) = .ok code ∧
      componentSymbols .eighthPel .split (-37) = .ok (code ++ rest) ∧
      ∀ x ∈ rest, ¬Visited .halfPel .split x.1) ∧
    (∃ prices, PriceTable.build (initial .split) .halfPel = .ok prices ∧
      PriceTable.build { initial .split with eighth := .ofFrequencies #v[1] } .halfPel =
        .ok prices) ∧
    ∃ w u v u',
      (initial .split).writeComponents (.recorder true) .halfPel [5, -37] = .ok (w, u) ∧
      (initial .split).writeComponents (.recorder true) .eighthPel [5, -37] = .ok (v, u') ∧
      u.find (.fraction 0) = u'.find (.fraction 0) ∧
      u.find .eighth = (initial .split).find .eighth := by
  have hvalid : (initial .split).All Cdf.Valid := initial_fit.all.mono fun _ hc => hc.valid
  have heighth : (Cdf.ofFrequencies #v[1]).Valid := (Cdf.ofFrequency_sound (by decide)).valid
  have hplace : (initial .split).place .eighth =
      .ok ⟨2, (initial .split).eighth, fun c => { initial .split with eighth := c }⟩ := rfl
  have hvisited : Visited .halfPel .split (.fraction 0) := by
    have hmem : ((.fraction 0, 1) : Symbol × ℕ) ∈ componentCode .halfPel .split (-37) := by
      decide +kernel
    exact visited_of_mem (by decide) hmem
  have hunvisited : ¬Visited .halfPel .split .eighth := fun h => nomatch h.codedAt
  obtain ⟨hcodes, htables⟩ := tiers_append_and_confine (p := .halfPel) (q := .eighthPel) (by decide)
    .split
  obtain ⟨-, hprices, hwritten, hruns⟩ := htables (initial .split) rfl hvalid
  obtain ⟨w, u, v, u', hlow, hhigh⟩ := hwritten [5, -37] (by decide)
  have htable := hruns [5, -37] _ _ _ _ _ _ rfl rfl hlow hhigh
  refine ⟨hcodes (-37) (by decide) (by decide), hprices _ rfl (hvalid.put hplace heighth) ?_,
    w, u, v, u', hlow, hhigh, (htable _).1 hvisited, (htable _).2 hunvisited⟩
  intro s hs
  have hne : s ≠ .eighth := by
    rintro rfl
    exact hunvisited hs
  exact ((find_put hplace _ s).trans (if_neg hne)).symm

end Tables

end MotionEntropy
