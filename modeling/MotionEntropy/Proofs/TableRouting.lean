import MotionEntropy.Proofs.LedgerRoom

namespace MotionEntropy

inductive Kind
  | motion
  | blockCopy
  deriving DecidableEq

inductive Part
  | joints
  | component (a : Axis) (s : Symbol)
  deriving DecidableEq

def Part.values (q : Part) (named : List (Part × ℕ)) : List ℕ :=
  (named.filter fun x => x.1 = q).map Prod.snd

def TileModel.ofKind (t : TileModel) : Kind → VectorModel
  | .motion => t.motion
  | .blockCopy => t.blockCopy

theorem TileModel.All.ofKind {P : {n : ℕ} → Cdf n → Prop} {t : TileModel} (ht : t.All P)
    (k : Kind) : (t.ofKind k).All P := by
  cases k with
  | motion => exact ht.motion
  | blockCopy => exact ht.blockCopy

def Call.kind : Call → Kind
  | motion _ _ _ => .motion
  | blockCopy _ _ => .blockCopy

theorem Part.values_cons (q : Part) (x : Part × ℕ) (named : List (Part × ℕ)) :
    q.values (x :: named) = if x.1 = q then x.2 :: q.values named else q.values named := by
  by_cases h : x.1 = q <;> simp [values, h]

namespace Cdf

structure Folds {n : ℕ} (c c' : Cdf n) (values : List ℕ) : Prop where
  foldlM_adapt : values.foldlM adapt c = .ok c'
  count_eq : c'.count = min 32 (c.count + values.length)
  eq_of_nil : values = [] → c' = c

variable {n : ℕ} {c : Cdf n}

theorem count_foldl_moved (hn : 0 < n) (h : c.count ≤ 32) (values : List ℕ) :
    (values.foldl moved c).count = min 32 (c.count + values.length) := by
  induction values generalizing c with
  | nil =>
    rw [List.foldl_nil, List.length_nil]
    omega
  | cons v values ih =>
    have hmoved := moved_count c v hn
    rw [List.foldl_cons, List.length_cons, ih (count_le_of_moved (le_refl 32) h v)]
    omega

theorem Valid.folds (hc : c.Valid) (hn : 0 < n) (h : c.count ≤ 32) (values : List ℕ) :
    c.Folds (values.foldl Cdf.moved c) values where
  foldlM_adapt := hc.foldlM_adapt values
  count_eq := count_foldl_moved hn h values
  eq_of_nil hnone := by
    rw [hnone]
    rfl

end Cdf

namespace Tables

theorem find_update (t : Tables Cdf) (s s' : Symbol) (v : ℕ) : (t.update (s', v)).find s =
    (t.find s).map fun c => ⟨c.1, if s' = s then c.2.moved v else c.2⟩ := by
  cases hp : t.place s' with
  | error e =>
    rw [update, hp]
    by_cases hs : s' = s
    · subst hs
      rw [find, hp]
      rfl
    · simp only [if_neg hs]
      cases t.find s <;> rfl
  | ok p =>
    rw [update_of_place hp, find_put hp]
    by_cases hs : s' = s
    · subst hs
      rw [if_pos rfl, find_of_place hp, Except.map, if_pos rfl]
    · simp only [if_neg hs, if_neg (Ne.symm hs)]
      cases t.find s <;> rfl

theorem size_pos {α : ℕ → Type} {t : Tables α} {s : Symbol} {n : ℕ} {a : α n}
    (h : t.find s = .ok ⟨n, a⟩) : 0 < n := by
  rw [find_eq] at h
  cases s with
  | bit i =>
    simp only at h
    split_ifs at h
    cases h
    decide
  | class0Fraction d slot =>
    cases hf : t.fraction <;> simp only [hf, FractionTables.class0At] at h <;> split_ifs at h <;>
      cases h <;> decide
  | fraction slot =>
    cases hf : t.fraction <;> simp only [hf, FractionTables.otherAt] at h <;> split_ifs at h <;>
      cases h <;> decide
  | _ => cases h; decide

end Tables

namespace VectorModel

def find (m : VectorModel) : Part → Except Fault (Σ n, Cdf n)
  | .joints => .ok ⟨_, m.joints⟩
  | .component a s => (m.component a).find s

def update (m : VectorModel) : Part × ℕ → VectorModel
  | (.joints, v) => { m with joints := m.joints.moved v }
  | (.component a s, v) => m.setComponent a ((m.component a).update (s, v))

/-- What coding `d` names, in writing order. A component of zero has no symbols and names none. -/
def route (m : VectorModel) (p : Precision) (d : MotionVector) : List (Part × ℕ) :=
  (.joints, d.joint.index) :: Axis.all.flatMap fun a =>
    ((componentSymbols p (m.component a).layout (d.along a)).toOption.getD []).map fun s =>
      (.component a s.1, s.2)

variable {m : VectorModel} {p : Precision} {d : MotionVector} {q : Part} {n : ℕ} {c : Cdf n}

theorem component_setComponent (m : VectorModel) (a b : Axis) (t : Tables Cdf) :
    (m.setComponent a t).component b = if a = b then t else m.component b := by
  cases a <;> cases b <;> rfl

theorem setComponent_setComponent (m : VectorModel) (a : Axis) (t t' : Tables Cdf) :
    (m.setComponent a t).setComponent a t' = m.setComponent a t' := by
  cases a <;> rfl

theorem find_update (m : VectorModel) (x : Part × ℕ) (q : Part) : (m.update x).find q =
    (m.find q).map fun c => ⟨c.1, if x.1 = q then c.2.moved x.2 else c.2⟩ := by
  obtain ⟨q', v⟩ := x
  cases q' with
  | joints =>
    cases q with
    | joints => rfl
    | component a s =>
      simp only [reduceCtorEq, if_false]
      show m.find (.component a s) = _
      cases m.find (.component a s) <;> rfl
  | component a s =>
    cases q with
    | joints => cases a <;> rfl
    | component b s' =>
      rw [update, find, component_setComponent]
      by_cases ha : a = b
      · subst ha
        rw [if_pos rfl, Tables.find_update]
        simp only [Part.component.injEq, true_and]
        rfl
      · simp only [Part.component.injEq, ha, false_and, if_false]
        show (m.component b).find s' = ((m.component b).find s').map _
        cases (m.component b).find s' <;> rfl

theorem find_foldl_update (h : m.find q = .ok ⟨n, c⟩) (named : List (Part × ℕ)) :
    (named.foldl update m).find q = .ok ⟨n, (q.values named).foldl Cdf.moved c⟩ := by
  induction named generalizing m c with
  | nil => exact h
  | cons x named ih =>
    have hx : (m.update x).find q = .ok ⟨n, if x.1 = q then c.moved x.2 else c⟩ := by
      rw [find_update, h]
      rfl
    rw [List.foldl_cons, ih hx, Part.values_cons]
    split <;> rfl

theorem size_pos (h : m.find q = .ok ⟨n, c⟩) : 0 < n := by
  cases q with
  | joints =>
    cases h
    decide
  | component a s => exact Tables.size_pos h

theorem All.find {P : {n : ℕ} → Cdf n → Prop} (hm : m.All P) (h : m.find q = .ok ⟨n, c⟩) : P c := by
  cases q with
  | joints =>
    cases h
    exact hm.joints
  | component a s => exact Tables.all_iff.mp (hm.component a) s n c h

/-- Whether each table of `m'` is the one of `m` that it stands for, adapted to the values named for
it. -/
structure Routed (m m' : VectorModel) (named : List (Part × ℕ)) : Prop where
  joints : m.joints.Folds m'.joints (Part.joints.values named)
  row : m.row.Related (fun s {_} c c' => c.Folds c' ((Part.component .row s).values named)) m'.row
  column : m.column.Related
    (fun s {_} c c' => c.Folds c' ((Part.component .column s).values named)) m'.column

theorem routed_foldl_update (hm : m.All fun c => c.Valid ∧ c.count ≤ 32)
    (named : List (Part × ℕ)) : m.Routed (named.foldl update m) named := by
  have hfolds : ∀ q n (c : Cdf n), m.find q = .ok ⟨n, c⟩ →
      ∃ c', (named.foldl update m).find q = .ok ⟨n, c'⟩ ∧ c.Folds c' (q.values named) := by
    intro q n c hfind
    obtain ⟨hc, hcount⟩ := hm.find hfind
    exact ⟨_, find_foldl_update hfind named, hc.folds (size_pos hfind) hcount _⟩
  exact {
    joints := of_exists_found rfl (hfolds .joints _ _ rfl)
    row := Tables.related_of_find fun s => hfolds (.component .row s)
    column := Tables.related_of_find fun s => hfolds (.component .column s) }

theorem foldl_update_component (m : VectorModel) (a : Axis) (code : List (Symbol × ℕ)) :
    (code.map fun s => (Part.component a s.1, s.2)).foldl update m =
      m.setComponent a ((m.component a).adapted code) := by
  induction code generalizing m with
  | nil => exact setComponent_component.symm
  | cons s code ih =>
    rw [List.map_cons, List.foldl_cons, ih, update, component_setComponent, if_pos rfl,
      setComponent_setComponent]
    rfl

theorem symbols_eq_code {layout : Layout} {comp : ℤ} (h : InRange comp) :
    (componentSymbols p layout comp).toOption.getD [] = componentCode p layout comp := by
  by_cases h0 : comp = 0
  · rw [h0, componentCode_zero]
    rfl
  · rw [componentSymbols_eq_code h0 h]
    rfl

theorem route_eq (hd : ∀ a, InRange (d.along a)) : m.route p d =
    (.joints, d.joint.index) :: Axis.all.flatMap fun a =>
      (m.code p d a).map fun s => (.component a s.1, s.2) := by
  simp only [route, code, symbols_eq_code (hd _)]

theorem foldl_update_route (hd : ∀ a, InRange (d.along a)) :
    (m.route p d).foldl update m = m.adapted p d := by
  rw [route_eq hd, List.foldl_cons, List.foldl_flatMap]
  simp only [Axis.all, List.foldl_cons, List.foldl_nil, foldl_update_component]
  rfl

end VectorModel

namespace Call

def route (t : TileModel) (c : Call) : List (Part × ℕ) :=
  match c.difference with
  | .ok d => (c.model t).route c.precision d
  | .error _ => []

/-- What a run names in the models of one kind, which only the calls of that kind write to. -/
def runRoute (t : TileModel) (calls : List Call) (k : Kind) : List (Part × ℕ) :=
  (calls.filter fun c => c.kind = k).flatMap (route t)

variable {c : Call} {calls : List Call} {t t' : TileModel} {w w' : Writer} {k : Kind}

theorem ofKind_kind (c : Call) (t : TileModel) : t.ofKind c.kind = c.model t := by cases c <;> rfl

theorem ofKind_setModel (c : Call) (t : TileModel) (m : VectorModel) (k : Kind) :
    (c.setModel t m).ofKind k = if c.kind = k then m else t.ofKind k := by
  cases c <;> cases k <;> rfl

theorem Accepted.exists_difference (hc : c.Accepted) :
    ∃ d, c.difference = .ok d ∧ (∀ a, d.along a = c.gap a) ∧ ∀ a, InRange (d.along a) := by
  obtain ⟨d, hd, hgap⟩ := Call.exists_difference hc.2
  refine ⟨d, hd, hgap, ?_⟩
  intro a
  rw [hgap a]
  exact hc.2 a

theorem ofKind_adapted (hc : c.Accepted) (t : TileModel) (k : Kind) : (c.adapted t).ofKind k =
    (if c.kind = k then c.route t else []).foldl VectorModel.update (t.ofKind k) := by
  obtain ⟨d, hd, -, hrange⟩ := hc.exists_difference
  rw [adapted_of_difference hd, ofKind_setModel, route, hd]
  by_cases hk : c.kind = k
  · subst hk
    rw [if_pos rfl, if_pos rfl, ofKind_kind, VectorModel.foldl_update_route hrange]
  · rw [if_neg hk, if_neg hk]
    rfl

theorem layout_adapted (hc : c.Accepted) (t : TileModel) (k : Kind) (a : Axis) :
    (((c.adapted t).ofKind k).component a).layout = ((t.ofKind k).component a).layout := by
  obtain ⟨d, hd, -, -⟩ := hc.exists_difference
  rw [adapted_of_difference hd, ofKind_setModel]
  split
  · next hk =>
    rw [← hk, ofKind_kind]
    exact VectorModel.layout_adapted a
  · rfl

theorem route_congr
    (h : ∀ k a, ((t'.ofKind k).component a).layout = ((t.ofKind k).component a).layout)
    (c : Call) : c.route t' = c.route t := by
  rw [route, route]
  cases c.difference with
  | error e => rfl
  | ok d => simp only [VectorModel.route, ← ofKind_kind, h]

theorem runRoute_cons (t : TileModel) (c : Call) (calls : List Call) (k : Kind) :
    runRoute t (c :: calls) k = (if c.kind = k then c.route t else []) ++ runRoute t calls k := by
  by_cases hk : c.kind = k <;> simp [runRoute, hk]

theorem ofKind_foldl_adapted (hc : ∀ c ∈ calls, c.Accepted) (t : TileModel) (k : Kind) :
    (calls.foldl adapted t).ofKind k =
      (runRoute t calls k).foldl VectorModel.update (t.ofKind k) := by
  induction calls generalizing t with
  | nil => rfl
  | cons c calls ih =>
    -- Adapting keeps the layouts, and a route depends on nothing else of the models.
    have hroute : runRoute (c.adapted t) calls k = runRoute t calls k := by
      simp only [runRoute]
      rw [funext (route_congr (layout_adapted (hc c (.head _)) t))]
    rw [List.foldl_cons, ih fun c' hc' => hc c' (.tail _ hc'), ofKind_adapted (hc c (.head _)),
      hroute, runRoute_cons, List.foldl_append]

/-- A run leaves each table adapted to exactly the values that its calls name for that table. -/
theorem tables_fold_routed_values (ht : t.All fun c => c.Valid ∧ c.count ≤ 32)
    (ha : w.adapts = true) (h : writeAll w t calls = .ok (w', t')) :
    t.motion.Routed t'.motion (runRoute t calls .motion) ∧
      t.blockCopy.Routed t'.blockCopy (runRoute t calls .blockCopy) := by
  have hvalid : ∀ c ∈ calls, (c.model t).All Cdf.Valid := by
    intro c _
    rw [← ofKind_kind]
    exact (ht.ofKind c.kind).mono fun _ h => h.1
  obtain ⟨hc, rfl⟩ := writeAll_inversion hvalid ha h
  have hrouted (k : Kind) :
      (t.ofKind k).Routed ((calls.foldl adapted t).ofKind k) (runRoute t calls k) := by
    rw [ofKind_foldl_adapted hc]
    exact VectorModel.routed_foldl_update (ht.ofKind k) _
  exact ⟨hrouted .motion, hrouted .blockCopy⟩

def mixedTile : TileModel :=
  ⟨(VectorModel.initial .joint).setComponent .row (.initial .split), .initial .joint⟩

def mixedCalls : List Call :=
  [motion .quarterPel ⟨5, -300⟩ ⟨0, 0⟩, blockCopy ⟨8, 0⟩ ⟨0, 16⟩,
    motion .quarterPel ⟨0, -298⟩ ⟨0, 2⟩]

theorem tables_fold_routed_values_mixed : ∃ w' t',
    writeAll (.recorder true) mixedTile mixedCalls = .ok (w', t') ∧
    (mixedTile.motion.column.bits.get 0).Folds (t'.motion.column.bits.get 0) [1, 1] ∧
    (mixedTile.motion.column.bits.get 1).Folds (t'.motion.column.bits.get 1) [0, 0] ∧
    (∃ class0 other, t'.motion.column.fraction = .joint class0 other ∧ other.count = 2) ∧
    t'.motion.row.class0Eighth = .ofFrequencies #v[128 * 160] := by
  have hinitial : (VectorModel.initial .joint).All fun c => c.Valid ∧ c.count ≤ 32 :=
    VectorModel.initial_fit.tables.mono fun _ hc => ⟨hc.valid, hc.count_le⟩
  have hrow : (Tables.initial .split).All fun c => c.Valid ∧ c.count ≤ 32 :=
    Tables.initial_fit.all.mono fun _ hc => ⟨hc.valid, hc.count_le⟩
  have hmixed : mixedTile.motion.All fun c => c.Valid ∧ c.count ≤ 32 :=
    ⟨hinitial.joints, Axis.forall_iff.mpr ⟨hrow, hinitial.component .column⟩⟩
  obtain ⟨⟨w', t'⟩, hrun⟩ := exists_ok_of_isOk (x := writeAll (.recorder true) mixedTile mixedCalls)
    (by decide +kernel)
  obtain ⟨hmotion, -⟩ := tables_fold_routed_values (t := mixedTile) ⟨hmixed, hinitial⟩ rfl hrun
  have hbit (i : Fin offsetBits) (values : List ℕ)
      (hvalues : (Part.component .column (.bit i)).values
        (runRoute mixedTile mixedCalls .motion) = values) :
      (mixedTile.motion.column.bits.get i).Folds (t'.motion.column.bits.get i) values := by
    rw [← hvalues]
    exact hmotion.column.bits i
  refine ⟨w', t', hrun, hbit 0 [1, 1] (by decide +kernel), hbit 1 [0, 0] (by decide +kernel),
    ?_, ?_⟩
  · have hfraction := hmotion.column.fraction
    generalize t'.motion.column.fraction = f at hfraction ⊢
    cases hfraction with
    | joint hclass0 hother => exact ⟨_, _, rfl, hother.count_eq.trans (by decide +kernel)⟩
  · exact hmotion.row.class0Eighth.eq_of_nil (by decide +kernel)

end Call

end MotionEntropy
