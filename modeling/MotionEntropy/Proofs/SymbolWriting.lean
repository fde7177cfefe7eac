import MotionEntropy.Coder
import MotionEntropy.Proofs.CdfValidity
import MotionEntropy.Proofs.ComponentWalk

namespace MotionEntropy

namespace Ledger

def Fits : Ledger → List Record → Prop
  | tally cost count, rs =>
    cost + (rs.map Record.cost).sum < 18446744073709551616 ∧
      count + rs.length < 18446744073709551616
  | journal _, _ => True

instance : (l : Ledger) → (rs : List Record) → Decidable (l.Fits rs)
  | tally _ _, _ => inferInstanceAs (Decidable (_ ∧ _))
  | journal _, _ => inferInstanceAs (Decidable True)

def extend : Ledger → List Record → Ledger
  | tally cost count, rs => tally (cost + (rs.map Record.cost).sum) (count + rs.length)
  | journal records, rs => journal (records ++ rs)

variable {l : Ledger} {r : Record} {rs rs' : List Record}

theorem extend_nil : l.extend [] = l := by
  cases l with
  | tally cost count => rfl
  | journal records => exact congrArg journal (List.append_nil records)

theorem extend_extend : (l.extend rs).extend rs' = l.extend (rs ++ rs') := by
  cases l with
  | tally cost count => simp [extend, Nat.add_assoc]
  | journal records => exact congrArg journal (List.append_assoc records rs rs')

theorem total_journal : (journal rs).total = (rs.map Record.cost).sum := by
  rw [total, List.sum, List.foldr_map]

theorem total_extend : (l.extend rs).total = l.total + (rs.map Record.cost).sum := by
  cases l with
  | tally cost count => rfl
  | journal records => rw [extend, total_journal, total_journal, List.map_append, List.sum_append]

theorem count_extend : (l.extend rs).count = l.count + rs.length := by
  cases l with
  | tally cost count => rfl
  | journal records => exact List.length_append

theorem fits_append : l.Fits (rs ++ rs') ↔ l.Fits rs ∧ (l.extend rs).Fits rs' := by
  cases l with
  | tally cost count =>
    simp only [Fits, extend, List.map_append, List.sum_append, List.length_append]
    omega
  | journal records => exact ⟨fun _ => ⟨trivial, trivial⟩, fun _ => trivial⟩

theorem enter_of_fits (h : l.Fits [r]) : l.enter r = .ok (l.extend [r]) := by
  cases l with
  | tally cost count =>
    obtain ⟨hcost, hcount⟩ := h
    have hcost' : Checked.word64 .add (cost + r.cost) = .ok (cost + r.cost) := if_pos hcost
    have hcount' : Checked.word64 .add (count + 1) = .ok (count + 1) := if_pos hcount
    simp only [enter, hcost', hcount', ok_bind, pure_eq_ok]
    rfl
  | journal records => rfl

end Ledger

namespace Writer

def after (w : Writer) (rs : List Record) : Writer := { w with ledger := w.ledger.extend rs }

variable {w : Writer} {rs rs' : List Record} {n s : ℕ} {c : Cdf n}

theorem after_nil : w.after [] = w := by
  rw [after, Ledger.extend_nil]

theorem after_after : (w.after rs).after rs' = w.after (rs ++ rs') := by
  simp only [after, Ledger.extend_extend]

theorem after_cons {r : Record} : w.after (r :: rs) = (w.after [r]).after rs := by
  rw [after_after, List.singleton_append]

theorem write_frozen (hc : c.Ordered) (hs : s < n) (ha : w.adapts = false)
    (hw : w.ledger.Fits [⟨s, n, c.price s⟩]) :
    w.write c s = .ok (w.after [⟨s, n, c.price s⟩], c) := by
  simp [write, hc.symbolCost_eq hs, Ledger.enter_of_fits hw, ha, after]

theorem write_adapting (hc : c.Valid) (hs : s < n) (ha : w.adapts = true)
    (hw : w.ledger.Fits [⟨s, n, c.price s⟩]) :
    w.write c s = .ok (w.after [⟨s, n, c.price s⟩], c.moved s) := by
  simp [write, hc.symbolCost_eq hs, Ledger.enter_of_fits hw, hc.adapt_eq s, ha, after]

theorem write_eq (hc : c.Valid) (hs : s < n) (hw : w.ledger.Fits [⟨s, n, c.price s⟩]) :
    w.write c s =
      .ok (w.after [⟨s, n, c.price s⟩], if w.adapts then c.moved s else c) := by
  cases ha : w.adapts with
  | true => exact write_adapting hc hs ha hw
  | false => exact write_frozen hc.toOrdered hs ha hw

end Writer

namespace Tables

def record (t : Tables Cdf) (s : Symbol × ℕ) : Record :=
  match t.find s.1 with
  | .ok ⟨n, c⟩ => ⟨s.2, n, c.price s.2⟩
  | .error _ => ⟨s.2, 0, 0⟩

def update (t : Tables Cdf) (s : Symbol × ℕ) : Tables Cdf :=
  match t.place s.1 with
  | .ok p => p.put (p.table.moved s.2)
  | .error _ => t

def adapted (t : Tables Cdf) (code : List (Symbol × ℕ)) : Tables Cdf := code.foldl update t

variable {t : Tables Cdf} {s : Symbol × ℕ} {code : List (Symbol × ℕ)} {w : Writer}
  {P : {n : ℕ} → Cdf n → Prop}

theorem record_of_find {n : ℕ} {c : Cdf n} (h : t.find s.1 = .ok ⟨n, c⟩) :
    t.record s = ⟨s.2, n, c.price s.2⟩ := by
  rw [record, h]

theorem value_record : (t.record s).value = s.2 := by
  rw [record]
  split <;> rfl

theorem update_of_place {p : Place Cdf} (h : t.place s.1 = .ok p) :
    t.update s = p.put (p.table.moved s.2) := by
  rw [update, h]

theorem record_update {s' : Symbol × ℕ} (h : s'.1 ≠ s.1) : (t.update s).record s' = t.record s' := by
  cases hp : t.place s.1 with
  | error e => rw [update, hp]
  | ok p => rw [update_of_place hp, record, find_put hp, if_neg h, record]

theorem layout_update : (t.update s).layout = t.layout := by
  cases hp : t.place s.1 with
  | error e => rw [update, hp]
  | ok p => rw [update_of_place hp, put_layout hp]

theorem All.update (hP : ∀ {n} (c : Cdf n) s, P c → P (c.moved s)) (ht : t.All P) :
    (t.update s).All P := by
  cases hp : t.place s.1 with
  | error e => rw [Tables.update, hp]; exact ht
  | ok p =>
    rw [update_of_place hp]
    exact ht.put hp (hP _ _ (all_iff.mp ht _ _ _ (find_of_place hp)))

theorem layout_adapted : (t.adapted code).layout = t.layout := by
  induction code generalizing t with
  | nil => rfl
  | cons s code ih => exact (ih (t := t.update s)).trans layout_update

theorem All.adapted (hP : ∀ {n} (c : Cdf n) s, P c → P (c.moved s)) (ht : t.All P) :
    (t.adapted code).All P := by
  induction code generalizing t with
  | nil => exact ht
  | cons s code ih => exact ih (ht.update hP)

theorem place_of_has (t : Tables Cdf) {s : Symbol} (h : t.layout.Has s) :
    ∃ p, t.place s = .ok p ∧ p.size = t.layout.alphabet s := by
  obtain ⟨c, hc⟩ := t.find_of_has h
  obtain ⟨p, hp, he⟩ := place_of_find hc
  exact ⟨p, hp, congrArg Sigma.fst he⟩

theorem All.place (ht : t.All P) (h : t.layout.Has s.1) : ∃ p : Place Cdf, t.place s.1 = .ok p ∧
    p.size = t.layout.alphabet s.1 ∧ P p.table ∧
    t.record s = ⟨s.2, p.size, p.table.price s.2⟩ := by
  obtain ⟨p, hp, hsize⟩ := t.place_of_has h
  exact ⟨p, hp, hsize, all_iff.mp ht _ _ _ (find_of_place hp), record_of_find (find_of_place hp)⟩

theorem fits_cons : w.ledger.Fits ((s :: code).map t.record) ↔
    w.ledger.Fits [t.record s] ∧ (w.after [t.record s]).ledger.Fits (code.map t.record) := by
  rw [List.map_cons, ← List.singleton_append, Ledger.fits_append]
  rfl

/-- A writer that does not adapt needs no counter in range, and may meet a table twice. -/
theorem writeSymbols_frozen (ht : t.All Cdf.Ordered)
    (hc : ∀ s ∈ code, t.layout.Has s.1 ∧ s.2 < t.layout.alphabet s.1) (ha : w.adapts = false)
    (hw : w.ledger.Fits (code.map t.record)) :
    t.writeSymbols w code = .ok (w.after (code.map t.record), t) := by
  induction code generalizing w with
  | nil =>
    rw [List.map_nil, Writer.after_nil]
    rfl
  | cons s code ih =>
    obtain ⟨hhas, hlt⟩ := hc s (.head _)
    obtain ⟨p, hp, hsize, hordered, hrecord⟩ := ht.place hhas
    obtain ⟨hfirst, hrest⟩ := fits_cons.mp hw
    rw [← hsize] at hlt
    rw [List.map_cons, Writer.after_cons, writeSymbols, hp, ok_bind]
    rw [hrecord] at hfirst hrest ⊢
    rw [Writer.write_frozen hordered hlt ha hfirst, ok_bind]
    simp only [put_table hp]
    exact ih (fun s' hs' => hc s' (.tail _ hs')) ha hrest

theorem writeSymbols_adapting (ht : t.All Cdf.Valid)
    (hc : ∀ s ∈ code, t.layout.Has s.1 ∧ s.2 < t.layout.alphabet s.1)
    (hn : (code.map Prod.fst).Nodup) (ha : w.adapts = true)
    (hw : w.ledger.Fits (code.map t.record)) :
    t.writeSymbols w code = .ok (w.after (code.map t.record), t.adapted code) := by
  induction code generalizing t w with
  | nil =>
    rw [List.map_nil, Writer.after_nil]
    rfl
  | cons s code ih =>
    obtain ⟨hhas, hlt⟩ := hc s (.head _)
    obtain ⟨p, hp, hsize, hvalid, hrecord⟩ := ht.place hhas
    obtain ⟨hfirst, hrest⟩ := fits_cons.mp hw
    rw [List.map_cons, List.nodup_cons] at hn
    -- No table is met twice, so the prices of the rest are those before this adaptation.
    have hkept : ∀ s' ∈ code, (t.update s).record s' = t.record s' := by
      intro s' hs'
      apply record_update
      intro he
      apply hn.1
      rw [← he]
      exact List.mem_map_of_mem hs'
    have htail : ∀ s' ∈ code, (t.update s).layout.Has s'.1 ∧
        s'.2 < (t.update s).layout.alphabet s'.1 := by
      intro s' hs'
      rw [layout_update]
      exact hc s' (.tail _ hs')
    rw [← hsize] at hlt
    rw [← List.map_congr_left hkept] at hrest
    rw [List.map_cons, Writer.after_cons, writeSymbols, hp, ok_bind, ← List.map_congr_left hkept]
    rw [hrecord] at hfirst hrest ⊢
    rw [Writer.write_adapting hvalid hlt ha hfirst, ok_bind]
    simp only [← update_of_place hp]
    exact ih (ht.update fun c s h => h.moved s) htail hn.2 ha hrest

theorem writeSymbols_eq (ht : t.All Cdf.Valid)
    (hc : ∀ s ∈ code, t.layout.Has s.1 ∧ s.2 < t.layout.alphabet s.1)
    (hn : (code.map Prod.fst).Nodup) (hw : w.ledger.Fits (code.map t.record)) :
    t.writeSymbols w code =
      .ok (w.after (code.map t.record), if w.adapts then t.adapted code else t) := by
  cases ha : w.adapts with
  | true => exact writeSymbols_adapting ht hc hn ha hw
  | false => exact writeSymbols_frozen (ht.mono fun _ h => h.toOrdered) hc ha hw

end Tables

end MotionEntropy
