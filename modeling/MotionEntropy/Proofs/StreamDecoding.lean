import MotionEntropy.Proofs.CodeInjectivity
import MotionEntropy.Proofs.WriteAcceptance

namespace MotionEntropy

theorem Joint.index_inj {j j' : Joint} (h : j.index = j'.index) : j = j' := by
  cases j <;> cases j' <;> first | rfl | cases h

theorem Joint.eq_of_moves {j j' : Joint} (h : ∀ a, j.moves a = j'.moves a) : j = j' := by
  have hrow := h .row
  have hcolumn := h .column
  cases j <;> cases j' <;>
    first | rfl | exact absurd hrow (by decide) | exact absurd hcolumn (by decide)

theorem MotionVector.joint_eq_iff {d d' : MotionVector} :
    d.joint = d'.joint ↔ ∀ a, d.along a = 0 ↔ d'.along a = 0 := by
  constructor
  · intro h a
    have hmoves := d.moves_joint a
    rw [h, d'.moves_joint a, decide_eq_decide] at hmoves
    exact not_iff_not.mp hmoves.symm
  · intro h
    apply Joint.eq_of_moves
    intro a
    rw [d.moves_joint a, d'.moves_joint a, decide_eq_decide, ne_eq, ne_eq, h a]

section

variable {p : Precision} {layout : Layout} {d d' : MotionVector} {u v : List ℕ}

def vectorValues (p : Precision) (layout : Layout) (d : MotionVector) : List ℕ :=
  d.joint.index :: (componentValues p layout (d.along .row) ++
    componentValues p layout (d.along .column))

theorem coarse_of_vectorValues (hd : ∀ a, InRange (d.along a)) (hd' : ∀ a, InRange (d'.along a))
    (h : vectorValues p layout d ++ u = vectorValues p layout d' ++ v) :
    (∀ a, coarse p (d.along a) = coarse p (d'.along a)) ∧ u = v := by
  simp only [vectorValues, List.cons_append, List.append_assoc] at h
  obtain ⟨hjoint, h⟩ := List.cons.inj h
  have hzero := MotionVector.joint_eq_iff.mp (Joint.index_inj hjoint)
  obtain ⟨hrow, h⟩ := coarse_of_values (hd .row) (hd' .row) (hzero .row) h
  obtain ⟨hcolumn, h⟩ := coarse_of_values (hd .column) (hd' .column) (hzero .column) h
  exact ⟨Axis.forall_iff.mpr ⟨hrow, hcolumn⟩, h⟩

theorem joint_congr (h : ∀ a, coarse p (d.along a) = coarse p (d'.along a)) :
    d.joint = d'.joint := by
  apply MotionVector.joint_eq_iff.mpr
  intro a
  rw [← coarse_eq_zero_iff (p := p), h a, coarse_eq_zero_iff]

theorem vectorValues_congr (hpl : Aligned p layout)
    (h : ∀ a, coarse p (d.along a) = coarse p (d'.along a)) :
    vectorValues p layout d = vectorValues p layout d' := by
  simp only [vectorValues, componentValues, joint_congr h, componentCode_congr hpl (h _)]

end

namespace VectorModel

variable {m : VectorModel} {p : Precision} {layout : Layout} {d d' : MotionVector}

theorem values_axisRecords (a : Axis) : (m.axisRecords p d a).map Record.value =
    componentValues p (m.component a).layout (d.along a) := by
  rw [axisRecords, List.map_map]
  apply List.map_congr_left
  intro s _
  exact Tables.value_record

theorem values_records (hm : ∀ a, (m.component a).layout = layout)
    (hd : ∀ a, InRange (d.along a)) :
    (m.records p d).map Record.value = vectorValues p layout d := by
  rw [records_of_inRange hd, List.map_append, List.map_append, values_axisRecords,
    values_axisRecords, hm, hm]
  rfl

theorem adapted_congr (hm : ∀ a, (m.component a).layout = layout) (hpl : Aligned p layout)
    (h : ∀ a, coarse p (d.along a) = coarse p (d'.along a)) : m.adapted p d = m.adapted p d' := by
  have hcode (a : Axis) : m.code p d a = m.code p d' a := by
    rw [code, code, componentCode_congr (hm a ▸ hpl) (h a)]
  simp only [adapted, adaptedAxis, hcode, joint_congr h]

end VectorModel

theorem Config.aligned {c : Config} (h : c.validate = .ok ()) : Aligned c.precision c.layout := by
  rintro ⟨hp, hlayout⟩
  unfold Config.precision at hp
  split_ifs at hp with hintegers hhigh hhalf
  simp [Config.validate, hintegers, hhalf, hlayout] at h

namespace Session

abbrev Pair : Type := MotionVector × MotionVector

def writeVectors (s : Session) (calls : List Pair) : Except Fault Session :=
  calls.foldlM (fun s x => s.perform (.writeMotion 0 x.1 x.2)) s

def values (s : Session) : List ℕ :=
  match s.pass.writers with
  | ⟨_, .journal rs⟩ :: _ => rs.map Record.value
  | _ => []

/-- Where a session ends that started under `c` and has written `calls` with one recorder. -/
def Recorded (c : Config) (adapts : Bool) (calls : List Pair) (s : Session) : Prop :=
  ∃ s₀, start c [.recorder adapts] = .ok s₀ ∧ s₀.writeVectors calls = .ok s

structure Recording (c : Config) (adapts : Bool) (rs : List Record) (s : Session) : Prop where
  invariant : s.Invariant c
  writers_eq : s.pass.writers = [⟨adapts, .journal rs⟩]

def motionCall (c : Config) (x : Pair) : Call := .motion c.precision x.1 x.2

def Accepted (c : Config) (x : Pair) : Prop :=
  (motionCall c x).Admissible ∧ ∀ a, InRange ((motionCall c x).gap a)

def callValues (c : Config) (x : Pair) : List ℕ :=
  match x.1.sub x.2 with
  | .ok d => vectorValues c.precision c.layout d
  | .error _ => []

def roundedGap (c : Config) (x : Pair) (a : Axis) : ℤ := coarse c.precision (x.1.gap x.2 a)

def advance (c : Config) (adapts : Bool) (t : TileModel) (x : Pair) : TileModel :=
  if adapts then (motionCall c x).adapted t else t

variable {c : Config} {adapts : Bool} {rs : List Record} {x y : Pair} {s s' : Session}
  {t : TileModel} {calls calls' : List Pair} {u v : List ℕ} {d : MotionVector}

theorem Accepted.exists_difference (hx : Accepted c x) : ∃ d, x.1.sub x.2 = .ok d ∧
    (∀ a, InRange (d.along a)) ∧ ∀ a, d.along a = x.1.gap x.2 a := by
  obtain ⟨d, hd, hgap⟩ := Call.exists_difference hx.2
  refine ⟨d, hd, ?_, hgap⟩
  intro a
  rw [hgap a]
  exact hx.2 a

theorem callValues_eq (hd : x.1.sub x.2 = .ok d) :
    callValues c x = vectorValues c.precision c.layout d := by
  rw [callValues, hd]

theorem roundedGap_eq (hgap : ∀ a, d.along a = x.1.gap x.2 a) (a : Axis) :
    roundedGap c x a = coarse c.precision (d.along a) := by
  rw [roundedGap, hgap a]

theorem roundedGap_of_callValues (hx : Accepted c x) (hy : Accepted c y)
    (h : callValues c x ++ u = callValues c y ++ v) : roundedGap c x = roundedGap c y ∧ u = v := by
  obtain ⟨d, hd, hrange, hgap⟩ := hx.exists_difference
  obtain ⟨d', hd', hrange', hgap'⟩ := hy.exists_difference
  rw [callValues_eq hd, callValues_eq hd'] at h
  obtain ⟨hcoarse, huv⟩ := coarse_of_vectorValues hrange hrange' h
  refine ⟨?_, huv⟩
  funext a
  rw [roundedGap_eq hgap, roundedGap_eq hgap', hcoarse a]

theorem coarse_along_eq (hgap : ∀ a, d.along a = x.1.gap x.2 a) {d' : MotionVector}
    (hgap' : ∀ a, d'.along a = y.1.gap y.2 a) (h : roundedGap c x = roundedGap c y) (a : Axis) :
    coarse c.precision (d.along a) = coarse c.precision (d'.along a) := by
  rw [← roundedGap_eq hgap, ← roundedGap_eq hgap', h]

theorem callValues_congr (hpl : Aligned c.precision c.layout) (hx : Accepted c x)
    (hy : Accepted c y) (h : roundedGap c x = roundedGap c y) : callValues c x = callValues c y := by
  obtain ⟨d, hd, -, hgap⟩ := hx.exists_difference
  obtain ⟨d', hd', -, hgap'⟩ := hy.exists_difference
  rw [callValues_eq hd, callValues_eq hd', vectorValues_congr hpl (coarse_along_eq hgap hgap' h)]

theorem advance_congr (hpl : Aligned c.precision c.layout) (hx : Accepted c x)
    (hy : Accepted c y) (ht : ∀ a, (t.motion.component a).layout = c.layout)
    (h : roundedGap c x = roundedGap c y) : advance c adapts t x = advance c adapts t y := by
  obtain ⟨d, hd, -, hgap⟩ := hx.exists_difference
  obtain ⟨d', hd', -, hgap'⟩ := hy.exists_difference
  have hadapted : t.motion.adapted c.precision d = t.motion.adapted c.precision d' :=
    VectorModel.adapted_congr ht hpl (coarse_along_eq hgap hgap' h)
  have hx' : (motionCall c x).adapted t = { t with motion := t.motion.adapted c.precision d } :=
    Call.adapted_of_difference hd
  have hy' : (motionCall c y).adapted t = { t with motion := t.motion.adapted c.precision d' } :=
    Call.adapted_of_difference hd'
  rw [advance, advance, hx', hy', hadapted]

theorem layout_advance (ht : ∀ a, (t.motion.component a).layout = c.layout) (hx : Accepted c x)
    (a : Axis) : ((advance c adapts t x).motion.component a).layout = c.layout := by
  obtain ⟨d, hd, -, -⟩ := hx.exists_difference
  have hx' : (motionCall c x).adapted t = { t with motion := t.motion.adapted c.precision d } :=
    Call.adapted_of_difference hd
  rw [advance, hx']
  split
  · exact (VectorModel.layout_adapted a).trans (ht a)
  · exact ht a

theorem callValues_ne_nil (hx : Accepted c x) : callValues c x ≠ [] := by
  obtain ⟨d, hd, -, -⟩ := hx.exists_difference
  rw [callValues_eq hd]
  exact List.cons_ne_nil _ _

theorem flatMap_callValues_eq_iff (hpl : Aligned c.precision c.layout)
    (hcalls : ∀ x ∈ calls, Accepted c x) (hcalls' : ∀ x ∈ calls', Accepted c x) :
    calls.flatMap (callValues c) = calls'.flatMap (callValues c) ↔
      calls.map (roundedGap c) = calls'.map (roundedGap c) := by
  -- Every call records at least its joint, so no other run has the values of the empty one.
  induction calls generalizing calls' with
  | nil =>
    cases calls' with
    | nil => exact iff_of_true rfl rfl
    | cons y calls' =>
      refine iff_of_false ?_ nofun
      intro h
      exact callValues_ne_nil (hcalls' y (.head _)) (List.append_eq_nil_iff.mp h.symm).1
  | cons x calls ih =>
    have hx := hcalls x (.head _)
    have hrest : ∀ x ∈ calls, Accepted c x := by
      intro x hx
      exact hcalls x (.tail _ hx)
    cases calls' with
    | nil =>
      refine iff_of_false ?_ nofun
      intro h
      exact callValues_ne_nil hx (List.append_eq_nil_iff.mp h).1
    | cons y calls' =>
      have hy := hcalls' y (.head _)
      have ih := ih hrest fun x h => hcalls' x (.tail _ h)
      rw [List.flatMap_cons, List.flatMap_cons, List.map_cons, List.map_cons]
      constructor
      · intro h
        obtain ⟨hgap, h⟩ := roundedGap_of_callValues hx hy h
        rw [hgap, ih.mp h]
      · intro h
        obtain ⟨hgap, h⟩ := List.cons.inj h
        rw [callValues_congr hpl hx hy hgap, ih.mpr h]

theorem foldl_advance_congr (hpl : Aligned c.precision c.layout)
    (ht : ∀ a, (t.motion.component a).layout = c.layout)
    (hcalls : ∀ x ∈ calls, Accepted c x) (hcalls' : ∀ x ∈ calls', Accepted c x)
    (h : calls.map (roundedGap c) = calls'.map (roundedGap c)) :
    calls.foldl (advance c adapts) t = calls'.foldl (advance c adapts) t := by
  induction calls generalizing calls' t with
  | nil =>
    rw [List.map_nil, eq_comm, List.map_eq_nil_iff] at h
    rw [h]
  | cons x calls ih =>
    cases calls' with
    | nil => cases h
    | cons y calls' =>
      have hx := hcalls x (.head _)
      obtain ⟨hgap, h⟩ := List.cons.inj h
      rw [List.foldl_cons, List.foldl_cons,
        ← advance_congr hpl hx (hcalls' y (.head _)) ht hgap]
      exact ih (layout_advance ht hx) (fun x h => hcalls x (.tail _ h))
        (fun x h => hcalls' x (.tail _ h)) h

theorem Invariant.perform_journal (hs : s.Invariant c) {i : ℕ}
    (hi : Checked.item s.pass.writers i = .ok ⟨adapts, .journal rs⟩)
    (h : s.perform (.writeMotion i x.1 x.2) = .ok s') :
    Accepted c x ∧
      s'.pass.writers = s.pass.writers.set i
        ⟨adapts, .journal (rs ++ (motionCall c x).records s.pass.coder.tile)⟩ ∧
      s'.pass.coder.tile = advance c adapts s.pass.coder.tile x := by
  have hvalid : ((motionCall c x).model s.pass.coder.tile).All Cdf.Valid :=
    Call.model_all hs.pass.tile.valid _
  obtain ⟨pass, hpass, h⟩ := bind_eq_ok.mp h
  obtain ⟨w, hw, hpass⟩ := bind_eq_ok.mp hpass
  cases hi.symm.trans hw
  obtain ⟨⟨w', k⟩, hk, hpass⟩ := bind_eq_ok.mp hpass
  obtain ⟨⟨w'', t⟩, ht, hk⟩ := bind_eq_ok.mp hk
  rw [hs.config_eq] at ht
  have hwrite : (motionCall c x).write ⟨adapts, .journal rs⟩ s.pass.coder.tile = .ok (w'', t) := ht
  have hfits : (Ledger.journal rs).Fits ((motionCall c x).records s.pass.coder.tile) := trivial
  obtain ⟨hadm, hrange⟩ := (Call.write_ok_iff hvalid hfits).mp ⟨_, hwrite⟩
  rw [Call.write_eq hvalid hadm hrange hfits] at hwrite
  cases hwrite
  cases hk
  cases hpass
  cases h
  exact ⟨⟨hadm, hrange⟩, rfl, rfl⟩

theorem Recording.perform (hs : s.Recording c adapts rs)
    (h : s.perform (.writeMotion 0 x.1 x.2) = .ok s') :
    Accepted c x ∧
      s'.Recording c adapts (rs ++ (motionCall c x).records s.pass.coder.tile) ∧
      s'.pass.coder.tile = advance c adapts s.pass.coder.tile x := by
  have hi : Checked.item s.pass.writers 0 = .ok ⟨adapts, .journal rs⟩ := by
    rw [hs.writers_eq]
    rfl
  obtain ⟨hx, hwriters, htile⟩ := hs.invariant.perform_journal hi h
  refine ⟨hx, ⟨hs.invariant.perform h, ?_⟩, htile⟩
  rw [hwriters, hs.writers_eq]
  rfl

theorem values_records (hx : Accepted c x) (ht : ∀ a, (t.motion.component a).layout = c.layout) :
    ((motionCall c x).records t).map Record.value = callValues c x := by
  obtain ⟨d, hd, hrange, -⟩ := hx.exists_difference
  rw [Call.records_of_difference hx.1 hd, callValues_eq hd]
  exact VectorModel.values_records ht hrange

theorem Recording.layout_eq (hs : s.Recording c adapts rs) (a : Axis) :
    (s.pass.coder.tile.motion.component a).layout = c.layout :=
  (hs.invariant.pass.tile.motion.component a).layout_eq

theorem Recording.run (hs : s.Recording c adapts rs) (h : s.writeVectors calls = .ok s') :
    (∀ x ∈ calls, Accepted c x) ∧
      (∃ rs', s'.Recording c adapts (rs ++ rs') ∧
        rs'.map Record.value = calls.flatMap (callValues c)) ∧
      s'.pass.coder.tile = calls.foldl (advance c adapts) s.pass.coder.tile := by
  induction calls generalizing s rs with
  | nil =>
    cases h
    exact ⟨nofun, ⟨[], by rwa [List.append_nil], rfl⟩, rfl⟩
  | cons x calls ih =>
    rw [writeVectors, List.foldlM_cons] at h
    obtain ⟨s₁, hstep, h⟩ := bind_eq_ok.mp h
    obtain ⟨hx, hs₁, htile⟩ := hs.perform hstep
    obtain ⟨hcalls, ⟨rs', hs', hvalues⟩, htile'⟩ := ih hs₁ h
    refine ⟨List.forall_mem_cons.mpr ⟨hx, hcalls⟩,
      ⟨(motionCall c x).records s.pass.coder.tile ++ rs', ?_, ?_⟩, ?_⟩
    · rw [← List.append_assoc]
      exact hs'
    · rw [List.map_append, values_records hx hs.layout_eq, hvalues, List.flatMap_cons]
    · rw [htile', htile, List.foldl_cons]

theorem Recording.values_eq (hs : s.Recording c adapts rs) : s.values = rs.map Record.value := by
  rw [values, hs.writers_eq]

theorem Recorded.run (h : s.Recorded c adapts calls) : (∀ x ∈ calls, Accepted c x) ∧
    s.values = calls.flatMap (callValues c) ∧
    s.pass.coder.tile = calls.foldl (advance c adapts) (.initial c.layout) := by
  obtain ⟨s₀, hstart, h⟩ := h
  have hinvariant := start_invariant hstart
  obtain ⟨-, rfl⟩ := start_eq_ok.mp hstart
  have hs₀ : (ofConfig c [.recorder adapts]).Recording c adapts [] := ⟨hinvariant, rfl⟩
  obtain ⟨hcalls, ⟨rs, hs, hvalues⟩, htile⟩ := hs₀.run h
  refine ⟨hcalls, ?_, htile⟩
  rw [hs.values_eq, List.nil_append, hvalues]

theorem Recorded.aligned (h : s.Recorded c adapts calls) : Aligned c.precision c.layout := by
  obtain ⟨s₀, hstart, -⟩ := h
  exact Config.aligned (start_eq_ok.mp hstart).1

/-- The values of a stream determine each difference as far as it is coded, and the models. -/
theorem values_eq_iff {adapts' : Bool} (h : s.Recorded c adapts calls)
    (h' : s'.Recorded c adapts' calls') :
    (s.values = s'.values ↔ calls.map (roundedGap c) = calls'.map (roundedGap c)) ∧
    (s.values = s'.values → adapts = adapts' → s.pass.coder.tile = s'.pass.coder.tile) ∧
    ((∀ x ∈ calls ++ calls', ∀ a, (c.precision.step : ℤ) ∣ x.1.gap x.2 a) →
      (s.values = s'.values ↔
        calls.map (fun x => x.1.gap x.2) = calls'.map fun x => x.1.gap x.2)) := by
  have hpl := h.aligned
  obtain ⟨hcalls, hvalues, htile⟩ := h.run
  obtain ⟨hcalls', hvalues', htile'⟩ := h'.run
  have hiff : s.values = s'.values ↔ calls.map (roundedGap c) = calls'.map (roundedGap c) := by
    rw [hvalues, hvalues', flatMap_callValues_eq_iff hpl hcalls hcalls']
  refine ⟨hiff, ?_, ?_⟩
  · rintro heq rfl
    have hlayout : ∀ a, ((TileModel.initial c.layout).motion.component a).layout = c.layout :=
      fun a => (TileModel.initial_fit.motion.component a).layout_eq
    rw [htile, htile', foldl_advance_congr hpl hlayout hcalls hcalls' (hiff.mp heq)]
  · intro hdvd
    have hexact : ∀ x ∈ calls ++ calls', roundedGap c x = x.1.gap x.2 := by
      intro x hx
      funext a
      exact coarse_of_dvd (hdvd x hx a)
    rw [hiff, List.map_congr_left fun x hx => hexact x (List.mem_append_left _ hx),
      List.map_congr_left fun x hx => hexact x (List.mem_append_right _ hx)]

theorem values_eq_iff_halfPel : ∃ s s' s'' : Session,
    s.Recorded ⟨false, false, true, .split, false⟩ true [(⟨5, -1⟩, ⟨0, 0⟩)] ∧
    s'.Recorded ⟨false, false, true, .split, false⟩ true [(⟨8, -4⟩, ⟨0, 0⟩)] ∧
    s''.Recorded ⟨false, false, true, .split, false⟩ false
      [(⟨8, -4⟩, ⟨0, 0⟩), (⟨4, 7⟩, ⟨4, 7⟩)] ∧
    s.values = s'.values ∧ s.pass.coder.tile = s'.pass.coder.tile ∧ s'.values ≠ s''.values := by
  obtain ⟨s, hs⟩ := exists_ok_of_isOk (x := (ofConfig ⟨false, false, true, .split, false⟩
    [.recorder true]).writeVectors [(⟨5, -1⟩, ⟨0, 0⟩)]) (by decide +kernel)
  obtain ⟨s', hs'⟩ := exists_ok_of_isOk (x := (ofConfig ⟨false, false, true, .split, false⟩
    [.recorder true]).writeVectors [(⟨8, -4⟩, ⟨0, 0⟩)]) (by decide +kernel)
  obtain ⟨s'', hs''⟩ := exists_ok_of_isOk (x := (ofConfig ⟨false, false, true, .split, false⟩
    [.recorder false]).writeVectors [(⟨8, -4⟩, ⟨0, 0⟩), (⟨4, 7⟩, ⟨4, 7⟩)]) (by decide +kernel)
  have h : s.Recorded ⟨false, false, true, .split, false⟩ true _ := ⟨_, rfl, hs⟩
  have h' : s'.Recorded ⟨false, false, true, .split, false⟩ true _ := ⟨_, rfl, hs'⟩
  have h'' : s''.Recorded ⟨false, false, true, .split, false⟩ false _ := ⟨_, rfl, hs''⟩
  obtain ⟨hiff, htile, -⟩ := values_eq_iff h h'
  obtain ⟨-, -, hexact⟩ := values_eq_iff h' h''
  have hvalues : s.values = s'.values := by
    apply hiff.mpr
    apply congrArg (· :: [])
    funext a
    cases a <;> decide
  have hdvd : ∀ x ∈ [((⟨8, -4⟩, ⟨0, 0⟩) : Pair)] ++ [(⟨8, -4⟩, ⟨0, 0⟩), (⟨4, 7⟩, ⟨4, 7⟩)],
      ∀ a, ((4 : ℕ) : ℤ) ∣ x.1.gap x.2 a := by decide
  refine ⟨s, s', s'', h, h', h'', hvalues, htile hvalues rfl, ?_⟩
  intro heq
  have hlength := congrArg List.length ((hexact hdvd).mp heq)
  cases hlength

end Session

end MotionEntropy
