import MotionEntropy.Proofs.DifferenceWriting

namespace MotionEntropy

open Logarithm (maxCost)

theorem word32_of_lt {op : Operation} {v : ℕ} (h : v < 4294967296) : Checked.word32 op v = .ok v :=
  if_pos h

namespace Tables

variable {t : Tables Cdf} {p : Precision} {s : Symbol × ℕ} {code : List (Symbol × ℕ)}

def codeCost (t : Tables Cdf) (code : List (Symbol × ℕ)) : ℕ :=
  (code.map fun s => (t.record s).cost).sum

def componentCost (t : Tables Cdf) (p : Precision) (comp : ℤ) : ℕ :=
  t.codeCost (componentCode p t.layout comp)

theorem codeCost_cons : t.codeCost (s :: code) = (t.record s).cost + t.codeCost code :=
  List.sum_cons

theorem cost_map_record : ((code.map t.record).map Record.cost).sum = t.codeCost code := by
  rw [List.map_map]
  rfl

theorem cost_record_le : (t.record s).cost ≤ maxCost := by
  cases hf : t.find s.1 with
  | error e =>
    rw [record, hf]
    exact Nat.zero_le maxCost
  | ok a =>
    rw [record_of_find hf]
    exact a.2.price_le s.2

theorem codeCost_le {n : ℕ} (h : code.length ≤ n) : t.codeCost code ≤ n * maxCost := by
  have hlength : t.codeCost code ≤ code.length * maxCost := by
    clear h
    induction code with
    | nil => exact Nat.zero_le _
    | cons s code ih =>
      have hs := cost_record_le (t := t) (s := s)
      rw [codeCost_cons, List.length_cons, Nat.succ_mul]
      omega
  exact hlength.trans (Nat.mul_le_mul_right maxCost h)

theorem componentCost_le {comp : ℤ} (h : InRange comp) : t.componentCost p comp ≤ 15 * maxCost :=
  codeCost_le (length_componentCode_le h)

end Tables

namespace Cdf

variable {n : ℕ} {c : Cdf n} {p : Precision} {s : Symbol}

theorem entry_prices {v : ℕ} (h : v < n) : Checked.entry c.prices v = .ok (c.price v) := by
  rw [entry_of_lt h, prices, Vector.getElem_ofFn]

theorem prices_le (i : Fin n) : c.prices.get i ≤ maxCost := by
  have hget : c.prices.get i = c.price i := Vector.getElem_ofFn _
  rw [hget]
  exact c.price_le i

def pricesAt (p : Precision) (s : Symbol) {n : ℕ} (c : Cdf n) : Prices n :=
  if s.pricedAt p then c.prices else .replicate n 0

theorem pricesAt_of_priced (h : s.pricedAt p = true) : pricesAt p s c = c.prices := if_pos h

theorem pricesAt_le (i : Fin n) : (pricesAt p s c).get i ≤ maxCost := by
  unfold pricesAt
  split
  · exact prices_le i
  · have hget : (Vector.replicate n 0).get i = 0 := Vector.getElem_replicate _
    rw [hget]
    exact Nat.zero_le maxCost

end Cdf

namespace FractionTables

variable {f : FractionTables Prices} {d slot n : ℕ} {prices : Prices n}

theorem class0Price_of_at (h : f.class0At d slot = .ok ⟨n, prices⟩) (v : ℕ) :
    f.class0Price d slot v = Checked.entry prices v := by
  cases f with
  | joint class0 other =>
    simp only [class0At] at h
    split_ifs at h with hslot hd
    cases h
    rw [class0Price, entry_of_lt hd, ok_bind]
  | split class0 other =>
    simp only [class0At] at h
    split_ifs at h with hd hslot
    cases h
    rw [class0Price, entry_of_lt hd, ok_bind, entry_of_lt hslot, ok_bind]

theorem otherPrice_of_at (h : f.otherAt slot = .ok ⟨n, prices⟩) (v : ℕ) :
    f.otherPrice slot v = Checked.entry prices v := by
  cases f with
  | joint class0 other =>
    simp only [otherAt] at h
    split_ifs at h
    cases h
    rfl
  | split class0 other =>
    simp only [otherAt] at h
    split_ifs at h with hslot
    cases h
    rw [otherPrice, entry_of_lt hslot, ok_bind]

end FractionTables

namespace ComponentPrices

def ofTables (t : Tables Cdf) (p : Precision) : ComponentPrices :=
  ⟨t.mapNamed (Cdf.pricesAt p), p⟩

variable {t : Tables Cdf} {p : Precision} {s : Symbol × ℕ} {code : List (Symbol × ℕ)}

theorem build_of_ordered (ht : t.All Cdf.Ordered) : build t p = .ok (ofTables t p) := by
  have htables : t.traverse (tablePrices p) = .ok (t.mapNamed (Cdf.pricesAt p)) := by
    apply Tables.traverse_eq
    intro s n c hc
    unfold tablePrices Cdf.pricesAt
    split
    · exact (Tables.all_iff.mp ht s n c hc).costs_eq
    · rfl
  rw [build, htables]
  rfl

theorem build_eq (ht : t.All Cdf.Valid) : build t p = .ok (ofTables t p) :=
  build_of_ordered (ht.mono fun _ h => h.toOrdered)

theorem symbolPrice_of_find {c : ComponentPrices} {n : ℕ} {prices : Prices n}
    (h : c.tables.find s.1 = .ok ⟨n, prices⟩) : c.symbolPrice s = Checked.entry prices s.2 := by
  obtain ⟨s, v⟩ := s
  rw [Tables.find_eq] at h
  cases s with
  | bit i =>
    simp only at h
    split_ifs at h with hi
    cases h
    rw [symbolPrice, entry_of_lt hi, ok_bind]
  | class0Fraction d slot => exact FractionTables.class0Price_of_at h v
  | fraction slot => exact FractionTables.otherPrice_of_at h v
  | _ =>
    cases h
    rfl

theorem symbolPrice_eq (hs : Magnitude.Coded p t.layout s) :
    (ofTables t p).symbolPrice s = .ok (t.record s).cost := by
  obtain ⟨c, hc⟩ := t.find_of_has hs.has
  have hfind := Tables.find_mapNamed (Cdf.pricesAt p) hc
  rw [Cdf.pricesAt_of_priced hs.priced] at hfind
  rw [symbolPrice_of_find hfind, Cdf.entry_prices hs.lt_alphabet, Tables.record_of_find hc]

theorem total_eq (hcode : ∀ s ∈ code, Magnitude.Coded p t.layout s) (hlen : code.length ≤ 15) :
    (ofTables t p).total code = .ok (t.codeCost code) := by
  have hfold (sum : ℕ) (hsum : sum + code.length * maxCost < 4294967296) :
      code.foldlM (fun sum s => do
        Checked.word32 .add (sum + (← (ofTables t p).symbolPrice s))) sum =
          .ok (sum + t.codeCost code) := by
    clear hlen
    induction code generalizing sum with
    | nil => rfl
    | cons s code ih =>
      have hs := Tables.cost_record_le (t := t) (s := s)
      rw [List.length_cons, Nat.succ_mul] at hsum
      rw [List.foldlM_cons, symbolPrice_eq (hcode s (.head _)), ok_bind, word32_of_lt (by omega),
        ok_bind, ih (fun s' hs' => hcode s' (.tail _ hs')) _ (by omega), Tables.codeCost_cons,
        Nat.add_assoc]
  have hmax : code.length * maxCost ≤ 15 * maxCost := Nat.mul_le_mul_right maxCost hlen
  have hsum : 0 + code.length * maxCost < 4294967296 := by
    rw [Nat.zero_add]
    exact hmax.trans_lt (by norm_num)
  rw [total, hfold 0 hsum, Nat.zero_add]

theorem unsignedQuote_eq {z : ℕ} (hz : z < 16384) :
    (ofTables t p).unsignedQuote z = .ok (t.codeCost ((Magnitude.ofNat z).symbols p t.layout)) := by
  have hproper := Magnitude.ofNat_proper hz
  have hlen : ((Magnitude.ofNat z).symbols p t.layout).length ≤ 14 :=
    Magnitude.length_symbols_le hproper
  rw [unsignedQuote, ofTables, Tables.layout_mapNamed]
  apply total_eq
  · intro s hs
    exact Magnitude.coded_of_mem hproper hs
  · exact hlen.trans (by norm_num)

theorem quote_eq {comp : ℤ} (h0 : comp ≠ 0) (h : InRange comp) :
    (ofTables t p).quote comp = .ok (t.componentCost p comp) := by
  have hlayout : (ofTables t p).tables.layout = t.layout := Tables.layout_mapNamed _ t
  rw [quote, hlayout, ofTables, componentSymbols_eq_code h0 h, ok_bind]
  apply total_eq
  · intro s hs
    exact coded_of_mem_componentCode h hs
  · exact length_componentCode_le h

end ComponentPrices

namespace PriceTable

def ofTables (t : Tables Cdf) (p : Precision) : PriceTable :=
  ⟨((List.range (2 * reach + 1)).map fun i : ℕ => t.componentCost p (i - reach)).toArray⟩

variable {t : Tables Cdf} {p : Precision} {comp : ℤ}

theorem inRange_of_reach (h : comp.natAbs ≤ reach) : InRange comp := by
  simp only [reach] at h
  constructor <;> simp only [componentLimit] <;> omega

theorem proper_of_mem_range {z : ℕ} (h : z ∈ List.range reach) : (Magnitude.ofNat z).Proper :=
  Magnitude.ofNat_proper ((List.mem_range.mp h).trans (by norm_num))

theorem signSymbol_of_neg (h : comp < 0) : signSymbol comp = (.sign, 1) := by
  rw [signSymbol, if_pos h]

theorem signSymbol_of_nonneg (h : 0 ≤ comp) : signSymbol comp = (.sign, 0) := by
  rw [signSymbol, if_neg (not_lt.mpr h)]

theorem componentCost_of_sign {z b : ℕ} (h : signSymbol comp = (.sign, b))
    (hz : comp.natAbs = z + 1) : t.componentCost p comp =
      t.codeCost ((Magnitude.ofNat z).symbols p t.layout) + t.sign.price b := by
  have h0 : comp ≠ 0 := by omega
  rw [Tables.componentCost, componentCode_of_ne h0, Tables.codeCost_cons, h, hz, Nat.add_comm]
  rfl

theorem signed_eq {b : ℕ} (hb : b < 2) {f : ℕ → ℤ} (hsign : ∀ z, signSymbol (f z) = (.sign, b))
    (habs : ∀ z, (f z).natAbs = z + 1) :
    ((List.range reach).map fun z => t.codeCost ((Magnitude.ofNat z).symbols p t.layout)).mapM
      (fun v => Checked.word32 .add (v + (ComponentPrices.ofTables t p).tables.sign[b])) =
      .ok ((List.range reach).map fun z => t.componentCost p (f z)) := by
  have hprice : (ComponentPrices.ofTables t p).tables.sign[b] = t.sign.price b := by
    show t.sign.prices[b] = _
    rw [Cdf.prices, Vector.getElem_ofFn]
  rw [hprice, mapM_eq_ok_map (g := fun v => v + t.sign.price b), List.map_map]
  · apply congrArg
    apply List.map_congr_left
    intro z _
    exact (componentCost_of_sign (hsign z) (habs z)).symm
  · intro v hv
    obtain ⟨z, hz, rfl⟩ := List.mem_map.mp hv
    have hlen : ((Magnitude.ofNat z).symbols p t.layout).length ≤ 14 :=
      Magnitude.length_symbols_le (proper_of_mem_range hz)
    apply word32_of_lt
    exact (Nat.add_le_add (t.codeCost_le hlen) (t.sign.price_le b)).trans_lt (by norm_num)

theorem mirrored_eq (f : ℤ → ℕ) (h0 : f 0 = 0) (n : ℕ) :
    ((List.range n).map fun z : ℕ => f (-(z + 1))).reverse ++
      0 :: (List.range n).map (fun z : ℕ => f (z + 1)) =
      (List.range (2 * n + 1)).map fun i : ℕ => f (i - n) := by
  apply List.ext_getElem
  · simp only [List.length_append, List.length_reverse, List.length_map, List.length_range,
      List.length_cons]
    omega
  · intro i hi _
    simp only [List.getElem_append, List.length_reverse, List.length_map, List.length_range,
      List.getElem_reverse, List.getElem_map, List.getElem_range, List.getElem_cons]
    split_ifs with hlow hzero
    · apply congrArg
      omega
    · rw [← h0]
      apply congrArg
      omega
    · apply congrArg
      omega

theorem ofPrices_eq : ofPrices (ComponentPrices.ofTables t p) = .ok (ofTables t p) := by
  have hunsigned : (List.range reach).mapM (ComponentPrices.ofTables t p).unsignedQuote =
      .ok ((List.range reach).map fun z => t.codeCost ((Magnitude.ofNat z).symbols p t.layout)) :=
    mapM_eq_ok_map fun z hz =>
      ComponentPrices.unsignedQuote_eq ((List.mem_range.mp hz).trans (by norm_num))
  have hpositive := signed_eq (t := t) (p := p) (by decide) (f := fun z => z + 1)
    (fun z => signSymbol_of_nonneg (by omega)) (fun z => by omega)
  have hnegative := signed_eq (t := t) (p := p) (by decide) (f := fun z => -(z + 1))
    (fun z => signSymbol_of_neg (by omega)) (fun z => by omega)
  rw [ofPrices, hunsigned, ok_bind, hpositive, ok_bind, hnegative, ok_bind, pure_eq_ok,
    mirrored_eq _ rfl, ofTables]

theorem build_of_ordered (ht : t.All Cdf.Ordered) : build t p = .ok (ofTables t p) := by
  rw [build, ComponentPrices.build_of_ordered ht, ok_bind, ofPrices_eq]

theorem build_eq (ht : t.All Cdf.Valid) : build t p = .ok (ofTables t p) :=
  build_of_ordered (ht.mono fun _ h => h.toOrdered)

theorem get_eq (h : comp.natAbs ≤ reach) :
    (ofTables t p).get comp = .ok (t.componentCost p comp) := by
  have hindex : ((reach : ℤ) + comp).toNat < 2 * reach + 1 := by omega
  rw [get, require_of h, ok_bind, ofTables, Checked.entry]
  simp only [List.size_toArray, List.length_map, List.length_range]
  rw [dif_pos hindex]
  simp only [Array.toVector, Vector.getElem_mk, List.getElem_toArray, List.getElem_map,
    List.getElem_range]
  congr 2
  omega

theorem get_out (h : ¬comp.natAbs ≤ reach) (t : PriceTable) :
    t.get comp = .error (.broken .priceInReach) := by
  rw [get, require_of_not h, error_bind]

end PriceTable

namespace VectorModel

variable {m : VectorModel} {p : Precision} {d : MotionVector}

theorem cost_axisRecords (a : Axis) :
    ((m.axisRecords p d a).map Record.cost).sum = (m.component a).componentCost p (d.along a) :=
  Tables.cost_map_record

theorem cost_records (hd : ∀ a, InRange (d.along a)) :
    ((m.records p d).map Record.cost).sum = m.joints.price d.joint.index +
      m.row.componentCost p (d.along .row) + m.column.componentCost p (d.along .column) := by
  rw [records_of_inRange hd, List.map_append, List.map_append, List.sum_append, List.sum_append,
    cost_axisRecords, cost_axisRecords, List.map_singleton, List.sum_singleton, Nat.add_assoc]
  rfl

end VectorModel

namespace VectorPrices

open PriceTable (reach)

def ofModel (m : VectorModel) (p : Precision) : VectorPrices :=
  ⟨m.joints.prices, .ofTables m.row p, .ofTables m.column p, p⟩

variable {m : VectorModel} {p : Precision} {v r d : MotionVector} {a : Axis}

theorem build_eq (hm : m.All Cdf.Valid) : build m p = .ok (ofModel m p) := by
  have hrow := PriceTable.build_eq (p := p) (t := m.row) (hm.component .row)
  have hcolumn := PriceTable.build_eq (p := p) (t := m.column) (hm.component .column)
  rw [build, hm.joints.costs_eq, ok_bind, hrow, ok_bind, hcolumn, ok_bind]
  rfl

theorem component_ofModel : (ofModel m p).component a = .ofTables (m.component a) p := by
  cases a <;> rfl

theorem quoteAxis_eq {sum : ℕ} (hd : (d.along a).natAbs ≤ reach) (hsum : sum < 2147483648) :
    (if d.joint.moves a then do
      Checked.word32 .add (sum + (← ((ofModel m p).component a).get (d.along a))) else pure sum) =
      .ok (sum + (m.component a).componentCost p (d.along a)) := by
  rw [d.moves_joint a, component_ofModel]
  by_cases h0 : d.along a = 0
  · rw [h0, if_neg (by simp)]
    rfl
  · have hle := Tables.componentCost_le (t := m.component a) (p := p)
      (PriceTable.inRange_of_reach hd)
    have hmax : 15 * maxCost = 115200 := by norm_num
    rw [if_pos (decide_eq_true h0), PriceTable.get_eq hd, ok_bind, word32_of_lt (by omega)]

theorem quoteAxis_out {sum : ℕ} {t : VectorPrices} (hd : ¬(d.along a).natAbs ≤ reach) :
    (if d.joint.moves a then do
      Checked.word32 .add (sum + (← (t.component a).get (d.along a))) else pure sum) =
      .error (.broken .priceInReach) := by
  have h0 : d.along a ≠ 0 := by
    intro h0
    rw [h0] at hd
    exact hd (Nat.zero_le reach)
  rw [d.moves_joint a, if_pos (decide_eq_true h0), PriceTable.get_out hd, error_bind]

theorem joints_ofModel {s : ℕ} (hs : s < 4) :
    (ofModel m p).joints.get ⟨s, hs⟩ = m.joints.price s := by
  show (m.joints.prices)[s] = _
  rw [Cdf.prices, Vector.getElem_ofFn]

theorem sum_lt (hd : (d.along a).natAbs ≤ reach) :
    m.joints.price d.joint.index + (m.component a).componentCost p (d.along a) < 2147483648 := by
  have hjoint := m.joints.price_le d.joint.index
  have hle := Tables.componentCost_le (t := m.component a) (p := p)
    (PriceTable.inRange_of_reach hd)
  exact (Nat.add_le_add hjoint hle).trans_lt (by norm_num)

theorem quote_eq (hs : v.sub r = .ok d) (hd : ∀ a, (d.along a).natAbs ≤ reach) :
    (ofModel m p).quote v r = .ok ((m.records p d).map Record.cost).sum := by
  have hsum := sum_lt (m := m) (p := p) (hd .row)
  have hjoint : m.joints.price d.joint.index < 2147483648 := (Nat.le_add_right _ _).trans_lt hsum
  rw [VectorModel.cost_records fun a => PriceTable.inRange_of_reach (hd a), quote, hs, ok_bind,
    joints_ofModel, Axis.all, List.foldlM_cons, quoteAxis_eq (hd .row) hjoint, ok_bind,
    List.foldlM_cons, quoteAxis_eq (hd .column) hsum, ok_bind]
  rfl

theorem quote_out (hs : v.sub r = .ok d) (hd : ¬∀ a, (d.along a).natAbs ≤ reach) :
    (ofModel m p).quote v r = .error (.broken .priceInReach) := by
  have hjoint : m.joints.price d.joint.index < 2147483648 :=
    (m.joints.price_le _).trans_lt (by norm_num)
  rw [quote, hs, ok_bind, joints_ofModel, Axis.all, List.foldlM_cons]
  by_cases hrow : (d.along .row).natAbs ≤ reach
  · have hcolumn : ¬(d.along .column).natAbs ≤ reach := by
      intro hcolumn
      apply hd
      exact Axis.forall_iff.mpr ⟨hrow, hcolumn⟩
    rw [quoteAxis_eq hrow hjoint, ok_bind, List.foldlM_cons, quoteAxis_out hcolumn, error_bind]
  · rw [quoteAxis_out hrow, error_bind]

end VectorPrices

end MotionEntropy
