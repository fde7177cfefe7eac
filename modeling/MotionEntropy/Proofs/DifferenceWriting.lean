import MotionEntropy.Proofs.SymbolWriting

namespace MotionEntropy

theorem Axis.forall_iff {P : Axis → Prop} : (∀ a, P a) ↔ P .row ∧ P .column := by
  constructor
  · intro h
    exact ⟨h .row, h .column⟩
  · rintro ⟨hrow, hcolumn⟩ a
    cases a with
    | row => exact hrow
    | column => exact hcolumn

instance {P : Axis → Prop} [DecidablePred P] : Decidable (∀ a, P a) :=
  decidable_of_iff' _ Axis.forall_iff

namespace MotionVector

def IsWord (v : ℤ) : Prop := -32768 ≤ v ∧ v ≤ 32767

instance (v : ℤ) : Decidable (IsWord v) := inferInstanceAs (Decidable (_ ∧ _))

def gap (v r : MotionVector) (a : Axis) : ℤ := v.along a - r.along a

variable {v r d : MotionVector}

theorem toInt_ofInt {v : ℤ} (h : IsWord v) : (Int16.ofInt v).toInt = v :=
  Int16.toInt_ofInt_of_le h.1 (by have := h.2; omega)

theorem int16_of_word {op : Operation} {v : ℤ} (h : IsWord v) :
    Checked.int16 op v = .ok (Int16.ofInt v) := if_pos h

theorem int16_of_not_word {op : Operation} {v : ℤ} (h : ¬IsWord v) :
    Checked.int16 op v = .error (.overflow op) := if_neg h

theorem sub_of_word (h : ∀ a, IsWord (v.gap r a)) :
    ∃ d, v.sub r = .ok d ∧ ∀ a, d.along a = v.gap r a := by
  have hrow : IsWord (v.row.toInt - r.row.toInt) := h .row
  have hcol : IsWord (v.col.toInt - r.col.toInt) := h .column
  refine ⟨⟨Int16.ofInt (v.row.toInt - r.row.toInt), Int16.ofInt (v.col.toInt - r.col.toInt)⟩, ?_, ?_⟩
  · rw [sub, int16_of_word hrow, ok_bind, int16_of_word hcol, ok_bind, pure_eq_ok]
  · exact Axis.forall_iff.mpr ⟨toInt_ofInt hrow, toInt_ofInt hcol⟩

theorem sub_of_not_word (h : ¬∀ a, IsWord (v.gap r a)) : v.sub r = .error (.overflow .subtract) := by
  by_cases hrow : IsWord (v.row.toInt - r.row.toInt)
  · have hcol : ¬IsWord (v.col.toInt - r.col.toInt) := by
      intro hcol
      apply h
      exact Axis.forall_iff.mpr ⟨hrow, hcol⟩
    rw [sub, int16_of_word hrow, ok_bind, int16_of_not_word hcol, error_bind]
  · rw [sub, int16_of_not_word hrow, error_bind]

theorem along_of_sub (h : v.sub r = .ok d) (a : Axis) : d.along a = v.gap r a := by
  by_cases hw : ∀ a, IsWord (v.gap r a)
  · obtain ⟨d', hd, ha⟩ := sub_of_word hw
    rw [hd] at h
    cases h
    exact ha a
  · rw [sub_of_not_word hw] at h
    cases h

theorem isWord_of_inRange {v : ℤ} (h : InRange v) : IsWord v := by
  obtain ⟨hl, hu⟩ := h
  simp only [componentLimit] at hl hu
  exact ⟨by omega, by omega⟩

end MotionVector

namespace VectorModel

structure All (P : {n : ℕ} → Cdf n → Prop) (m : VectorModel) : Prop where
  joints : P m.joints
  component : ∀ a, (m.component a).All P

def code (m : VectorModel) (p : Precision) (d : MotionVector) (a : Axis) : List (Symbol × ℕ) :=
  componentCode p (m.component a).layout (d.along a)

def axisRecords (m : VectorModel) (p : Precision) (d : MotionVector) (a : Axis) : List Record :=
  (m.code p d a).map (m.component a).record

/-- What writing `d` enters into a ledger, up to the first component out of range. -/
def records (m : VectorModel) (p : Precision) (d : MotionVector) : List Record :=
  ⟨d.joint.index, 4, m.joints.price d.joint.index⟩ ::
    (Axis.all.takeWhile fun a => InRange (d.along a)).flatMap (m.axisRecords p d)

def adaptedAxis (m : VectorModel) (p : Precision) (d : MotionVector) (a : Axis) : Tables Cdf :=
  (m.component a).adapted (m.code p d a)

def adapted (m : VectorModel) (p : Precision) (d : MotionVector) : VectorModel where
  joints := m.joints.moved d.joint.index
  row := m.adaptedAxis p d .row
  column := m.adaptedAxis p d .column

variable {m : VectorModel} {p : Precision} {d : MotionVector} {a : Axis} {w : Writer}

theorem setComponent_component : m.setComponent a (m.component a) = m := by cases a <;> rfl

theorem records_of_inRange (hd : ∀ a, InRange (d.along a)) : m.records p d =
    [⟨d.joint.index, 4, m.joints.price d.joint.index⟩] ++
      (m.axisRecords p d .row ++ m.axisRecords p d .column) := by
  simp [records, Axis.all, hd]

theorem writeAxis_eq (hm : (m.component a).All Cdf.Valid) (hd : InRange (d.along a))
    (hw : w.ledger.Fits (m.axisRecords p d a)) :
    (if d.joint.moves a then m.writeComponent w p a (d.along a) else pure (w, m)) =
      .ok (w.after (m.axisRecords p d a),
        m.setComponent a (if w.adapts then m.adaptedAxis p d a else m.component a)) := by
  rw [d.moves_joint a]
  by_cases h0 : d.along a = 0
  · have hcode : m.code p d a = [] := by rw [code, h0, componentCode_zero]
    have hkept : (if w.adapts then m.adaptedAxis p d a else m.component a) = m.component a := by
      rw [adaptedAxis, hcode]
      exact ite_self _
    rw [hkept, setComponent_component, axisRecords, hcode, List.map_nil, Writer.after_nil]
    simp [h0]
  · have hcoded : ∀ s ∈ m.code p d a, (m.component a).layout.Has s.1 ∧
        s.2 < (m.component a).layout.alphabet s.1 := by
      intro s hs
      have hs := coded_of_mem_componentCode hd hs
      exact ⟨hs.has, hs.lt_alphabet⟩
    have hwrite : (m.component a).writeSymbols w (m.code p d a) = _ :=
      Tables.writeSymbols_eq hm hcoded nodup_componentCode hw
    rw [if_pos (decide_eq_true h0), writeComponent, Tables.writeComponent,
      componentSymbols_eq_code h0 hd, ok_bind, ← code, hwrite]
    rfl

theorem writeAxis_out (hd : ¬InRange (d.along a)) :
    (if d.joint.moves a then m.writeComponent w p a (d.along a) else pure (w, m)) =
      .error (.broken .componentInRange) := by
  have h0 : d.along a ≠ 0 := by
    intro h0
    apply hd
    rw [h0]
    decide
  rw [d.moves_joint a]
  rw [if_pos (decide_eq_true h0), writeComponent, Tables.writeComponent, componentSymbols_out hd]
  rfl

theorem writeJoint_eq (hm : m.joints.Valid)
    (hw : w.ledger.Fits [⟨d.joint.index, 4, m.joints.price d.joint.index⟩]) :
    w.write m.joints d.joint.index =
      .ok (w.after [⟨d.joint.index, 4, m.joints.price d.joint.index⟩],
        if w.adapts then m.joints.moved d.joint.index else m.joints) :=
  Writer.write_eq hm d.joint.index_lt hw

theorem writeDifference_eq (hm : m.All Cdf.Valid) (hd : ∀ a, InRange (d.along a))
    (hw : w.ledger.Fits (m.records p d)) :
    m.writeDifference w p d =
      .ok (w.after (m.records p d), if w.adapts then m.adapted p d else m) := by
  rw [records_of_inRange hd] at hw ⊢
  obtain ⟨hjoint, hrest⟩ := Ledger.fits_append.mp hw
  obtain ⟨hrow, hcolumn⟩ := Ledger.fits_append.mp hrest
  rw [writeDifference, writeJoint_eq hm.joints hjoint, ok_bind, Axis.all]
  simp only [List.foldlM_cons, List.foldlM_nil]
  generalize hjoints : (if w.adapts then m.joints.moved d.joint.index else m.joints) = joints
  rw [writeAxis_eq (m := ⟨joints, m.row, m.column⟩) (a := .row) (hm.component .row) (hd .row) hrow,
    ok_bind]
  simp only [setComponent]
  rw [writeAxis_eq (m := ⟨joints, _, m.column⟩) (a := .column) (hm.component .column) (hd .column)
    hcolumn, ok_bind, pure_eq_ok, ← Writer.after_after, ← Writer.after_after, ← hjoints]
  cases h : w.adapts <;> simp only [Writer.after, h] <;> rfl

theorem writeDifference_out (hm : m.All Cdf.Valid) (hd : ¬∀ a, InRange (d.along a))
    (hw : w.ledger.Fits (m.records p d)) :
    m.writeDifference w p d = .error (.broken .componentInRange) := by
  rw [records, ← List.singleton_append] at hw
  obtain ⟨hjoint, hrest⟩ := Ledger.fits_append.mp hw
  rw [writeDifference, writeJoint_eq hm.joints hjoint, ok_bind, Axis.all]
  simp only [List.foldlM_cons, List.foldlM_nil]
  by_cases hrow : InRange (d.along .row)
  · have hcolumn : ¬InRange (d.along .column) := by
      intro hcolumn
      apply hd
      exact Axis.forall_iff.mpr ⟨hrow, hcolumn⟩
    simp only [Axis.all, hrow, hcolumn, decide_true, decide_false, List.takeWhile_cons, if_true,
      Bool.false_eq_true, if_false, List.flatMap_cons, List.flatMap_nil, List.append_nil] at hrest
    generalize (if w.adapts then m.joints.moved d.joint.index else m.joints) = joints
    rw [writeAxis_eq (m := ⟨joints, m.row, m.column⟩) (a := .row) (hm.component .row) hrow hrest,
      ok_bind]
    simp only
    rw [writeAxis_out hcolumn]
    rfl
  · rw [writeAxis_out hrow]
    rfl

end VectorModel

end MotionEntropy
