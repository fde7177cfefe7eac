import MotionEntropy.Proofs.CodeReading
import MotionEntropy.Proofs.ReferenceSets
import MotionEntropy.Proofs.SessionHistory
import MotionEntropy.Proofs.StreamDecoding
import MotionEntropy.Proofs.VectorRounding

namespace MotionEntropy

namespace ValueStream

abbrev Reader : Type → Type := StateT (List ℕ) Option

def next : Reader ℕ
  | [] => none
  | v :: rest => some (v, rest)

def bits : ℕ → Reader ℕ
  | 0 => pure 0
  | n + 1 => do
    let low ← bits n
    let bit ← next
    return low + bit * 2 ^ n

def whole (cls : ℕ) : Reader ℕ := if cls = 0 then next else bits (classBits cls)

variable (p : Precision) (layout : Layout)

def fraction : Reader ℕ :=
  match layout with
  | .joint => if p = .fullPel then pure 3 else next
  | .split => do
    let high ← if p = .fullPel then pure 1 else next
    let low ← if .quarterPel ≤ p then next else pure 1
    return 2 * high + low

def eighth : Reader ℕ := if p = .eighthPel then next else pure 1

def magnitude : Reader Magnitude := do
  let cls ← next
  let whole ← whole cls
  let fraction ← fraction p layout
  let eighth ← eighth p
  return ⟨cls, whole, fraction, eighth⟩

def component : Reader ℤ := do
  let sign ← next
  let m ← magnitude p layout
  return (-1) ^ sign * (m.toNat + 1)

def joint : Reader Joint := do
  let i ← next
  Joint.all[i]?

def along (j : Joint) (a : Axis) : Reader ℤ := if j.moves a then component p layout else pure 0

def vector (ref : MotionVector) : Reader MotionVector := do
  let j ← joint
  let row ← along p layout j .row
  let col ← along p layout j .column
  return ⟨Int16.ofInt (ref.row.toInt + row), Int16.ofInt (ref.col.toInt + col)⟩

variable {α β : Type}

/-- Whether `r` takes just `vs` off every stream that starts with it, and gives `a`. -/
def Reads (r : Reader α) (vs : List ℕ) (a : α) : Prop := ∀ rest, r (vs ++ rest) = some (a, rest)

variable {r : Reader α} {us vs : List ℕ} {a : α} {b : β} {v : ℕ}

theorem reads_pure (a : α) : Reads (pure a) [] a := fun _ => rfl

theorem reads_next (v : ℕ) : Reads next [v] v := fun _ => rfl

theorem Reads.bind {f : α → Reader β} (h : Reads r us a) (hf : Reads (f a) vs b) :
    Reads (r >>= f) (us ++ vs) b := by
  intro rest
  rw [List.append_assoc, ← hf rest]
  exact congrArg (· >>= fun x => f x.1 x.2) (h (vs ++ rest))

theorem Reads.map (f : α → β) (h : Reads r vs a) : Reads (r >>= fun a => pure (f a)) vs (f a) := by
  rw [← vs.append_nil]
  exact h.bind (reads_pure (f a))

section

variable {p : Precision} {layout : Layout} {m : Magnitude} {comp : ℤ} {d ref mv : MotionVector}
  {x : Axis}

theorem reads_bits (k n : ℕ) :
    Reads (bits n) ((List.range n).map fun i => k >>> i % 2) (k % 2 ^ n) := by
  induction n with
  | zero =>
    rw [pow_zero, Nat.mod_one]
    exact reads_pure 0
  | succ n ih =>
    rw [List.range_succ, List.map_append, Nat.mod_pow_succ, ← Nat.shiftRight_eq_div_pow,
      Nat.mul_comm]
    exact ih.bind ((reads_next _).map _)

theorem reads_whole (hm : m.Proper) :
    Reads (whole m.cls) (m.wholeSymbols.map Prod.snd) m.whole := by
  have hlt := hm.whole_lt
  rw [whole, Magnitude.wholeSymbols]
  split_ifs at hlt ⊢
  · exact reads_next m.whole
  · have hbits := reads_bits m.whole m.cls
    rw [Nat.mod_eq_of_lt hlt] at hbits
    rw [List.map_map]
    exact hbits

theorem reads_fraction (hpl : Aligned p layout) :
    Reads (fraction p layout) ((m.fractionSymbols p layout).map Prod.snd) (m.filled p).fraction := by
  by_cases hp : p = .fullPel
  · subst hp
    cases layout with
    | joint => exact reads_pure 3
    | split => exact reads_pure 3
  · cases layout with
    | joint =>
      have hfraction : (m.filled p).fraction = m.fraction := by
        rw [Magnitude.filled, if_neg hp, if_pos (Precision.quarterPel_le_iff.mpr (hpl.step_lt hp))]
        exact Nat.div_add_mod ..
      rw [Magnitude.fractionSymbols_joint hp, hfraction, fraction, if_neg hp]
      exact reads_next m.fraction
    | split =>
      have hfraction : (m.filled p).fraction =
          2 * (m.fraction / 2) + if .quarterPel ≤ p then m.fraction % 2 else 1 := by
        rw [Magnitude.filled, if_neg hp]
      rw [Magnitude.fractionSymbols_split hp, hfraction, fraction, if_neg hp]
      split_ifs
      · exact (reads_next (m.fraction / 2)).bind ((reads_next (m.fraction % 2)).map _)
      · exact (reads_next (m.fraction / 2)).bind ((reads_pure 1).map _)

theorem reads_eighth : Reads (eighth p) ((m.eighthSymbols p).map Prod.snd) (m.filled p).eighth := by
  have heighth : (m.filled p).eighth = if p = .eighthPel then m.eighth else 1 := rfl
  rw [eighth, Magnitude.eighthSymbols, heighth]
  by_cases hp : p = .eighthPel
  · rw [if_pos hp, if_pos hp, if_pos hp]
    exact reads_next m.eighth
  · rw [if_neg hp, if_neg hp, if_neg hp]
    exact reads_pure 1

theorem reads_magnitude (hpl : Aligned p layout) (hm : m.Proper) :
    Reads (magnitude p layout) ((m.symbols p layout).map Prod.snd) (m.filled p) := by
  rw [Magnitude.symbols, List.map_cons, List.map_append, List.map_append]
  exact (reads_next m.cls).bind ((reads_whole hm).bind ((reads_fraction hpl).bind
    (reads_eighth.map _)))

theorem reads_component (hpl : Aligned p layout) (h0 : comp ≠ 0) (hrange : InRange comp) :
    Reads (component p layout) (componentValues p layout comp) (coarse p comp) := by
  rw [componentValues, componentCode_of_ne h0, List.map_cons, ← Reading.signed_filled h0]
  exact (reads_next _).bind ((reads_magnitude hpl (proper_of_inRange hrange)).map _)

theorem reads_joint (j : Joint) : Reads joint [j.index] j := by
  intro rest
  cases j <;> rfl

theorem reads_along (hpl : Aligned p layout) (hd : InRange (d.along x)) :
    Reads (along p layout d.joint x) (componentValues p layout (d.along x))
      (coarse p (d.along x)) := by
  rw [along, d.moves_joint x]
  by_cases h0 : d.along x = 0
  · rw [h0, coarse_zero, componentValues, componentCode_zero]
    exact reads_pure 0
  · rw [if_pos (decide_eq_true h0)]
    exact reads_component hpl h0 hd

theorem reads_vector (hpl : Aligned p layout) (hd : ∀ a, InRange (d.along a))
    (hgap : ∀ a, d.along a = mv.gap ref a) (hdvd : ∀ a, (p.step : ℤ) ∣ mv.gap ref a) :
    Reads (vector p layout ref) (vectorValues p layout d) mv := by
  have hread (a : Axis) : Reads (along p layout d.joint a) (componentValues p layout (d.along a))
      (mv.gap ref a) := by
    rw [← coarse_of_dvd (hdvd a), ← hgap a]
    exact reads_along hpl (hd a)
  have hrow : ref.row.toInt + mv.gap ref .row = mv.row.toInt := by
    rw [MotionVector.gap, MotionVector.along_row, MotionVector.along_row, add_sub_cancel]
  have hcol : ref.col.toInt + mv.gap ref .column = mv.col.toInt := by
    rw [MotionVector.gap, MotionVector.along_column, MotionVector.along_column, add_sub_cancel]
  have hmv : mv = ⟨Int16.ofInt (ref.row.toInt + mv.gap ref .row),
      Int16.ofInt (ref.col.toInt + mv.gap ref .column)⟩ := by
    rw [hrow, hcol, Int16.ofInt_toInt, Int16.ofInt_toInt]
  rw [hmv]
  exact (reads_joint d.joint).bind ((hread .row).bind ((hread .column).map _))

end

end ValueStream

namespace Predictor

variable {predictor : Predictor} {p : Precision} {frame : RefFrame}

theorem exists_vectorAt_single (predictor : Predictor) (frame : RefFrame) (rank : ℕ) :
    ∃ v, predictor.vectorAt ⟨frame, .absent⟩ 0 rank = .ok v := by
  have hk : RefPair.key ⟨frame, .absent⟩ = .ok frame.index := RefPair.key_single rfl
  have hlt : frame.index < RefPair.keyCount := frame.index_lt.trans (by decide)
  rw [vectorAt, stack_eq hk hlt]
  exact ⟨_, rfl⟩

theorem nearestAndNear_eq (hvalid : ∀ rank < 2, ∀ v,
      predictor.vectorAt ⟨frame, .absent⟩ 0 rank = .ok v → v.IsValid) :
    ∃ best other, predictor.nearestAndNear p frame = .ok (best, other) ∧
      (∀ a, (p.step : ℤ) ∣ best.along a) ∧ ∀ a, (p.step : ℤ) ∣ other.along a := by
  obtain ⟨v, hv⟩ := exists_vectorAt_single predictor frame 0
  obtain ⟨u, hu⟩ := exists_vectorAt_single predictor frame 1
  obtain ⟨best, hbest, hbest'⟩ := MotionVector.lower_eq (p := p) (hvalid 0 (by decide) v hv)
  obtain ⟨other, hother, hother'⟩ := MotionVector.lower_eq (p := p) (hvalid 1 (by decide) u hu)
  refine ⟨best, other, ?_, ?_, ?_⟩
  · rw [nearestAndNear, hv, ok_bind, hu, ok_bind, hbest, ok_bind, hother, ok_bind, pure_eq_ok]
  · intro a
    rw [hbest' a]
    exact dvd_nearest
  · intro a
    rw [hother' a]
    exact dvd_nearest

end Predictor

namespace Session

variable {c : Config} {s₀ s s' : Session} {adapts : Bool} {rs : List Record} {i : ℕ} {x : Pair}

theorem Invariant.journal_write (hs : s.Invariant c)
    (hi : s.pass.writers[i]? = some ⟨adapts, .journal rs⟩)
    (h : s.perform (.writeMotion i x.1 x.2) = .ok s') : Accepted c x ∧
      ∃ rs', s'.pass.writers[i]? = some ⟨adapts, .journal (rs ++ rs')⟩ ∧
        rs'.map Record.value = callValues c x := by
  obtain ⟨hx, hwriters, -⟩ := hs.perform_journal (item_eq_ok.mpr hi) h
  obtain ⟨hlt, -⟩ := List.getElem?_eq_some_iff.mp hi
  have hlayout (a : Axis) := (hs.pass.tile.motion.component a).layout_eq
  refine ⟨hx, _, ?_, values_records hx hlayout⟩
  rw [hwriters]
  exact List.getElem?_set_self hlt

/-- Both predictions round to whole steps, and a vector of whole steps that is written with one of
them can be read from the values recorded for it. -/
theorem predicted_vector_recovered {writers : List Writer} {actions : List Action}
    (hstart : start c writers = .ok s₀) (hrun : actions.foldlM perform s₀ = .ok s)
    {predictor : Predictor} {frame : RefFrame} (hvalid : ∀ rank < 2, ∀ v,
      predictor.vectorAt ⟨frame, .absent⟩ 0 rank = .ok v → v.IsValid) :
    ∃ best other, predictor.nearestAndNear c.precision frame = .ok (best, other) ∧
      ∀ ref ∈ [best, other], (∀ a, (c.precision.step : ℤ) ∣ ref.along a) ∧
        ∀ mv : MotionVector, (∀ a, (c.precision.step : ℤ) ∣ mv.along a) → ∀ i adapts rs s',
          s.pass.writers[i]? = some ⟨adapts, .journal rs⟩ →
          s.perform (.writeMotion i mv ref) = .ok s' →
          ∃ rs', s'.pass.writers[i]? = some ⟨adapts, .journal (rs ++ rs')⟩ ∧
            ValueStream.Reads (ValueStream.vector c.precision c.layout ref)
              (rs'.map Record.value) mv := by
  have hs := (start_invariant hstart).run hrun
  have hpl := Config.aligned (start_eq_ok.mp hstart).1
  obtain ⟨best, other, hbest, hdvd, hdvd'⟩ := Predictor.nearestAndNear_eq (p := c.precision) hvalid
  refine ⟨best, other, hbest, ?_⟩
  intro ref href
  have hstep : ∀ a, (c.precision.step : ℤ) ∣ ref.along a := by
    rw [List.mem_pair] at href
    obtain rfl | rfl := href
    · exact hdvd
    · exact hdvd'
  refine ⟨hstep, ?_⟩
  intro mv hmv i adapts rs s' hi h
  obtain ⟨hx, rs', hi', hvalues⟩ := hs.journal_write (x := (mv, ref)) hi h
  obtain ⟨d, hd, hrange, hgap⟩ := hx.exists_difference
  refine ⟨rs', hi', ?_⟩
  rw [hvalues, callValues_eq hd]
  exact ValueStream.reads_vector hpl hrange hgap fun a => dvd_sub (hmv a) (hstep a)

theorem predicted_vector_recovered_limit :
    ∃ (predictor : Predictor) (s s' : Session) (rs : List Record),
      predictor.vectorAt ⟨.last, .absent⟩ 0 0 = .ok ⟨16383, -5⟩ ∧
      predictor.nearestAndNear .fullPel .last = .ok (⟨16384, -8⟩, ⟨16384, -8⟩) ∧
      start ⟨false, true, false, .split, false⟩ [.recorder true] = .ok s ∧
      s.perform (.writeMotion 0 ⟨16376, 16⟩ ⟨16384, -8⟩) = .ok s' ∧
      s'.pass.writers[0]? = some ⟨true, .journal rs⟩ ∧
      ValueStream.Reads (ValueStream.vector .fullPel .split ⟨16384, -8⟩) (rs.map Record.value)
        ⟨16376, 16⟩ := by
  let predictor : Predictor :=
    ⟨(Vector.replicate _ .empty).set 1 (CandidateStack.empty.setGlobal ⟨16383, -5⟩)⟩
  have hglobal (rank : ℕ) : predictor.vectorAt ⟨.last, .absent⟩ 0 rank = .ok ⟨16383, -5⟩ := rfl
  have hvalid : ∀ rank < 2, ∀ v, predictor.vectorAt ⟨.last, .absent⟩ 0 rank = .ok v →
      v.IsValid := by
    intro rank _ v hv
    rw [hglobal rank] at hv
    cases hv
    decide
  have href : predictor.nearestAndNear .fullPel .last = .ok (⟨16384, -8⟩, ⟨16384, -8⟩) := by
    decide +kernel
  obtain ⟨s', hs'⟩ := exists_ok_of_isOk
    (x := (ofConfig ⟨false, true, false, .split, false⟩ [.recorder true]).perform
      (.writeMotion 0 ⟨16376, 16⟩ ⟨16384, -8⟩)) (by decide +kernel)
  have hstart : start ⟨false, true, false, .split, false⟩ [.recorder true] =
    .ok (ofConfig ⟨false, true, false, .split, false⟩ [.recorder true]) := rfl
  have hrun : [].foldlM perform (ofConfig ⟨false, true, false, .split, false⟩ [.recorder true]) =
    .ok (ofConfig ⟨false, true, false, .split, false⟩ [.recorder true]) := rfl
  obtain ⟨best, other, hbest, h⟩ := predicted_vector_recovered hstart hrun hvalid
  cases hbest.symm.trans href
  obtain ⟨-, hrecovered⟩ := h ⟨16384, -8⟩ (.head _)
  obtain ⟨rs, hrs, hread⟩ := hrecovered ⟨16376, 16⟩ (by decide) 0 true [] s' rfl hs'
  exact ⟨predictor, _, s', rs, hglobal 0, href, hstart, hs', hrs, hread⟩

end Session

end MotionEntropy
