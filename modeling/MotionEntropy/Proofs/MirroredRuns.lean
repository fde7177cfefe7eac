import MotionEntropy.Proofs.StreamDecoding
import MotionEntropy.Proofs.TableRouting

namespace MotionEntropy

def Part.IsSign (q : Part) : Prop := ∃ a, q = .component a .sign

/-- Two values for one table, which differ just where it is the sign of an axis on which the gaps
`g` and `g'` have opposite signs. -/
structure Flips (g g' : Axis → ℤ) (x x' : Part × ℕ) : Prop where
  part_eq : x'.1 = x.1
  value_ne_iff : x'.2 ≠ x.2 ↔ ∃ a, x.1 = .component a .sign ∧ g a * g' a < 0

variable {g g' : Axis → ℤ} {d d' : MotionVector} {x x' : Part × ℕ} {l l' : List (Part × ℕ)}
  {p : Precision}

theorem Flips.value_eq (h : Flips g g' x x') (hx : ¬x.1.IsSign) : x'.2 = x.2 := by
  by_contra hne
  obtain ⟨a, ha, -⟩ := h.value_ne_iff.mp hne
  exact hx ⟨a, ha⟩

theorem flips_self (hx : ¬x.1.IsSign) : Flips g g' x x where
  part_eq := rfl
  value_ne_iff := iff_of_false (fun h => h rfl) fun ⟨a, ha, _⟩ => hx ⟨a, ha⟩

theorem MotionVector.joint_of_natAbs (h : ∀ a, (d.along a).natAbs = (d'.along a).natAbs) :
    d.joint = d'.joint := by
  apply joint_eq_iff.mpr
  intro a
  rw [← Int.natAbs_eq_zero, h a, Int.natAbs_eq_zero]

section

variable {layout : Layout} {v v' : ℤ}

theorem signSymbol_ne_iff (h : v.natAbs = v'.natAbs) (h0 : v ≠ 0) :
    (signSymbol v').2 ≠ (signSymbol v).2 ↔ v * v' < 0 := by
  rw [mul_neg_iff, signSymbol, signSymbol]
  split_ifs <;> simp <;> omega

theorem forall₂_componentCode (a : Axis) (h : (g a).natAbs = (g' a).natAbs) :
    List.Forall₂ (Flips g g') ((componentCode p layout (g a)).map fun s => (.component a s.1, s.2))
      ((componentCode p layout (g' a)).map fun s => (.component a s.1, s.2)) := by
  by_cases h0 : g a = 0
  · have h0' : g' a = 0 := by omega
    rw [h0, h0', componentCode_zero]
    exact .nil
  · have h0' : g' a ≠ 0 := by omega
    rw [componentCode_of_ne h0, componentCode_of_ne h0', ← h, List.map_cons, List.map_cons]
    refine .cons ⟨rfl, ?_⟩ ?_
    · rw [signSymbol_ne_iff h h0]
      constructor
      · intro hneg
        exact ⟨a, rfl, hneg⟩
      · rintro ⟨b, hb, hneg⟩
        rwa [(Part.component.inj hb).1]
    · -- Past the sign both magnitudes have the same symbols, none of them another sign.
      rw [List.forall₂_map_left_iff, List.forall₂_map_right_iff, List.forall₂_same]
      intro s hs
      apply flips_self
      rintro ⟨b, hb⟩
      have hpart := Magnitude.sign_lt_part s.1 (List.mem_map_of_mem hs)
      rw [(Part.component.inj hb).2] at hpart
      exact lt_irrefl _ hpart

end

namespace VectorModel

variable {m m' : VectorModel}

def record (m : VectorModel) (x : Part × ℕ) : Record :=
  match m.find x.1 with
  | .ok ⟨n, c⟩ => ⟨x.2, n, c.price x.2⟩
  | .error _ => ⟨x.2, 0, 0⟩

structure AlikeButSigns (m m' : VectorModel) : Prop where
  find_eq : ∀ q : Part, ¬q.IsSign → m'.find q = m.find q
  layout_eq : ∀ a, (m'.component a).layout = (m.component a).layout

theorem AlikeButSigns.refl (m : VectorModel) : m.AlikeButSigns m := ⟨fun _ _ => rfl, fun _ => rfl⟩

theorem forall₂_route (m : VectorModel) (hd : ∀ a, InRange (d.along a))
    (hd' : ∀ a, InRange (d'.along a)) (h : ∀ a, (d.along a).natAbs = (d'.along a).natAbs) :
    List.Forall₂ (Flips d.along d'.along) (m.route p d) (m.route p d') := by
  rw [route_eq hd, route_eq hd', MotionVector.joint_of_natAbs h]
  refine .cons (flips_self ?_) ?_
  · rintro ⟨a, ha⟩
    cases ha
  · simp only [Axis.all, List.flatMap_cons, List.flatMap_nil, List.append_nil]
    exact List.rel_append (forall₂_componentCode .row (h .row))
      (forall₂_componentCode .column (h .column))

theorem route_congr_layout (h : ∀ a, (m'.component a).layout = (m.component a).layout) :
    m'.route p d = m.route p d := by
  simp only [route, h]

theorem records_eq_route (hd : ∀ a, InRange (d.along a)) :
    m.records p d = (m.route p d).map m.record := by
  rw [records_of_inRange hd, route_eq hd]
  simp only [Axis.all, List.flatMap_cons, List.flatMap_nil, List.append_nil, List.map_cons,
    List.map_append, List.map_map]
  rfl

/-- Tables other than those of signs are led through the same values, so they stay equal while the
tables of signs drift apart. -/
theorem find_foldl_flips (h : List.Forall₂ (Flips g g') l l')
    (hm : ∀ q : Part, ¬q.IsSign → m'.find q = m.find q) (q : Part) (hq : ¬q.IsSign) :
    (l'.foldl update m').find q = (l.foldl update m).find q := by
  induction h generalizing m m' with
  | nil => exact hm q hq
  | cons hx _ ih =>
    apply ih
    intro q hq
    rw [find_update, find_update, hm q hq, hx.part_eq]
    split
    · next he => rw [hx.value_eq (he ▸ hq)]
    · rfl

theorem AlikeButSigns.adapted (hm : m.AlikeButSigns m') (hd : ∀ a, InRange (d.along a))
    (hd' : ∀ a, InRange (d'.along a)) (h : ∀ a, (d.along a).natAbs = (d'.along a).natAbs) :
    (m.adapted p d).AlikeButSigns (m'.adapted p d') where
  find_eq q hq := by
    rw [← foldl_update_route hd, ← foldl_update_route hd', route_congr_layout hm.layout_eq]
    exact find_foldl_flips (m.forall₂_route hd hd' h) hm.find_eq q hq
  layout_eq a := by
    rw [layout_adapted, layout_adapted, hm.layout_eq a]

theorem value_record (m : VectorModel) (x : Part × ℕ) : (m.record x).value = x.2 := by
  rw [record]
  split <;> rfl

end VectorModel

structure MirroredRecords (g g' : Axis → ℤ) (x : Part × ℕ) (r : Record × Record) : Prop where
  value_eq : r.1.value = x.2
  alphabet_eq : r.2.alphabet = r.1.alphabet
  value_ne_iff : r.2.value ≠ r.1.value ↔ ∃ a, x.1 = .component a .sign ∧ g a * g' a < 0
  cost_eq : ¬x.1.IsSign → r.2.cost = r.1.cost

theorem Flips.records {m m' : VectorModel} (hm : m.AlikeButSigns m') (h : Flips g g' x x') :
    MirroredRecords g g' x (m.record x, m'.record x') where
  value_eq := m.value_record x
  alphabet_eq := by
    obtain ⟨q, v⟩ := x
    obtain ⟨q', v'⟩ := x'
    obtain rfl : q' = q := h.part_eq
    by_cases hq : q'.IsSign
    · obtain ⟨a, rfl⟩ := hq
      rfl
    · simp only [VectorModel.record, hm.find_eq q' hq]
      cases m.find q' <;> rfl
  value_ne_iff := by
    rw [VectorModel.value_record, VectorModel.value_record]
    exact h.value_ne_iff
  cost_eq hx := by
    have hxx' : x' = x := Prod.ext h.part_eq (h.value_eq hx)
    rw [hxx', VectorModel.record, VectorModel.record, hm.find_eq x.1 hx]

theorem forall₂_zip_map {α β : Type} {R : α → α → Prop} {S : α → β × β → Prop} {f f' : α → β}
    {xs xs' : List α} (h : List.Forall₂ R xs xs') (hS : ∀ x x', R x x' → S x (f x, f' x')) :
    List.Forall₂ S xs ((xs.map f).zip (xs'.map f')) := by
  induction h with
  | nil => exact .nil
  | cons hx _ ih => exact .cons (hS _ _ hx) ih

theorem Tables.componentCost_mirrored {t : Tables Cdf} {v v' : ℤ} (h : v.natAbs = v'.natAbs) :
    (t.componentCost p v' : ℤ) - t.componentCost p v =
      if v * v' < 0 then (t.sign.price (signSymbol v').2 : ℤ) - t.sign.price (signSymbol v).2
      else 0 := by
  by_cases h0 : v = 0
  · have h0' : v' = 0 := by omega
    rw [h0, h0', if_neg (by norm_num), sub_self]
  · have hcost : t.componentCost p v = t.codeCost ((Magnitude.ofNat (v.natAbs - 1)).symbols p
        t.layout) + t.sign.price (signSymbol v).2 :=
      PriceTable.componentCost_of_sign rfl (by omega)
    have hcost' : t.componentCost p v' = t.codeCost ((Magnitude.ofNat (v.natAbs - 1)).symbols p
        t.layout) + t.sign.price (signSymbol v').2 :=
      PriceTable.componentCost_of_sign rfl (by omega)
    rw [hcost, hcost']
    split
    · push_cast
      ring
    · next hneg =>
      rw [← signSymbol_ne_iff h h0, not_not] at hneg
      rw [hneg, sub_self]

namespace Call

/-- Two motion vectors of one precision whose differences are equal but for signs of axes. -/
structure Mirrored (c c' : Call) : Prop where
  motion : c.kind = .motion
  motion' : c'.kind = .motion
  precision_eq : c'.precision = c.precision
  natAbs_eq : ∀ a, (c.gap a).natAbs = (c'.gap a).natAbs

def namedPairs (t : TileModel) (calls calls' : List Call) : List ((Call × Call) × Part × ℕ) :=
  (calls.zip calls').flatMap fun cc => (cc.1.route t).map fun x => (cc, x)

variable {c c' : Call} {calls calls' : List Call} {t t' u u' : TileModel} {w w' : Writer}

theorem model_of_motion (h : c.kind = .motion) (t : TileModel) : c.model t = t.motion := by
  rw [← ofKind_kind, h]
  rfl

theorem route_of_difference (hd : c.difference = .ok d) :
    c.route t = (c.model t).route c.precision d := by
  rw [route, hd]

theorem motion_adapted (h : c.kind = .motion) (hd : c.difference = .ok d) (t : TileModel) :
    (c.adapted t).motion = t.motion.adapted c.precision d := by
  rw [adapted_of_difference hd, model_of_motion h]
  exact (ofKind_setModel c t _ .motion).trans (if_pos h)

theorem Mirrored.symm (h : c.Mirrored c') : c'.Mirrored c :=
  ⟨h.motion', h.motion, h.precision_eq.symm, fun a => (h.natAbs_eq a).symm⟩

theorem Mirrored.records (h : c.Mirrored c') (hc : c.Accepted) (hc' : c'.Accepted)
    (ht : t.motion.AlikeButSigns t'.motion) :
    List.Forall₂ (MirroredRecords c.gap c'.gap) (c.route t) ((c.records t).zip (c'.records t')) ∧
      (c.records t).length = (c'.records t').length := by
  obtain ⟨d, hd, hgap, hrange⟩ := hc.exists_difference
  obtain ⟨d', hd', hgap', hrange'⟩ := hc'.exists_difference
  have hroute := t.motion.forall₂_route (p := c.precision) hrange hrange' fun a => by
    rw [hgap a, hgap' a, h.natAbs_eq a]
  rw [funext hgap, funext hgap'] at hroute
  rw [records_of_difference hc.1 hd, records_of_difference hc'.1 hd', route_of_difference hd,
    model_of_motion h.motion, model_of_motion h.motion', h.precision_eq,
    VectorModel.records_eq_route hrange, VectorModel.records_eq_route hrange',
    VectorModel.route_congr_layout ht.layout_eq]
  constructor
  · exact forall₂_zip_map hroute fun x x' hx => hx.records ht
  · rw [List.length_map, List.length_map, hroute.length_eq]

theorem Mirrored.adapted (h : c.Mirrored c') (hc : c.Accepted) (hc' : c'.Accepted)
    (ht : t.motion.AlikeButSigns t'.motion) :
    (c.adapted t).motion.AlikeButSigns (c'.adapted t').motion := by
  obtain ⟨d, hd, hgap, hrange⟩ := hc.exists_difference
  obtain ⟨d', hd', hgap', hrange'⟩ := hc'.exists_difference
  rw [motion_adapted h.motion hd, motion_adapted h.motion' hd', h.precision_eq]
  apply ht.adapted hrange hrange'
  intro a
  rw [hgap a, hgap' a, h.natAbs_eq a]

theorem namedPairs_cons (hc : c.Accepted) (t : TileModel) (calls calls' : List Call) :
    namedPairs t (c :: calls) (c' :: calls') =
      (c.route t).map (fun x => ((c, c'), x)) ++ namedPairs (c.adapted t) calls calls' := by
  simp only [namedPairs, List.zip_cons_cons, List.flatMap_cons, route_congr (layout_adapted hc t)]

theorem mirrored_run (h : List.Forall₂ Mirrored calls calls') (hc : ∀ c ∈ calls, c.Accepted)
    (hc' : ∀ c ∈ calls', c.Accepted) (ht : t.motion.AlikeButSigns t'.motion) :
    (runRecords t calls).length = (runRecords t' calls').length ∧
      List.Forall₂ (fun y r => MirroredRecords y.1.1.gap y.1.2.gap y.2 r)
        (namedPairs t calls calls') ((runRecords t calls).zip (runRecords t' calls')) ∧
      (calls.foldl adapted t).motion.AlikeButSigns (calls'.foldl adapted t').motion := by
  induction h generalizing t t' with
  | nil => exact ⟨rfl, .nil, ht⟩
  | cons hcc _ ih =>
    obtain ⟨hhead, hc⟩ := List.forall_mem_cons.mp hc
    obtain ⟨hhead', hc'⟩ := List.forall_mem_cons.mp hc'
    obtain ⟨hrecords, hlength⟩ := hcc.records hhead hhead' ht
    obtain ⟨hlengths, hpairs, hmodels⟩ := ih hc hc' (hcc.adapted hhead hhead' ht)
    refine ⟨?_, ?_, hmodels⟩
    · rw [runRecords, runRecords, List.length_append, List.length_append, hlength, hlengths]
    · rw [runRecords, runRecords, namedPairs_cons hhead, List.zip_append hlength]
      apply List.rel_append _ hpairs
      exact List.forall₂_map_left_iff.mpr hrecords

theorem blockCopy_foldl_adapted (hk : ∀ c ∈ calls, c.kind = .motion)
    (hc : ∀ c ∈ calls, c.Accepted) (t : TileModel) :
    (calls.foldl adapted t).blockCopy = t.blockCopy := by
  have hnone : runRoute t calls .blockCopy = [] := by
    rw [runRoute, List.filter_eq_nil_iff.mpr, List.flatMap_nil]
    intro c hmem
    simp [hk c hmem]
  have hrun := ofKind_foldl_adapted hc t .blockCopy
  rwa [hnone] at hrun

theorem writeAll_recorder (ht : t.motion.All Cdf.Valid) (hk : ∀ c ∈ calls, c.kind = .motion)
    (h : writeAll (.recorder true) t calls = .ok (w, u)) :
    (∀ c ∈ calls, c.Accepted) ∧ w = ⟨true, .journal (runRecords t calls)⟩ ∧
      u = calls.foldl adapted t := by
  have hvalid : ∀ c ∈ calls, (c.model t).All Cdf.Valid := by
    intro c hc
    rw [model_of_motion (hk c hc)]
    exact ht
  obtain ⟨hc, rfl⟩ := writeAll_inversion hvalid rfl h
  have hfits : (Writer.recorder true).ledger.Fits (runRecords t calls) := trivial
  rw [writeAll_eq hvalid hc rfl hfits] at h
  cases h
  exact ⟨hc, rfl, rfl⟩

theorem motion_of_mirrored (h : List.Forall₂ Mirrored calls calls') :
    ∀ c ∈ calls, c.kind = .motion := by
  have hboth := h.imp fun _ _ h => And.intro h.motion h
  exact ((List.forall₂_and_left _ _).mp hboth).1

theorem exists_quote {m : VectorModel} (hr : c.InReach) :
    ∃ d : MotionVector, (∀ a, d.along a = c.gap a) ∧
      (VectorPrices.ofModel m p).quote c.target c.reference =
        .ok (m.joints.price d.joint.index + m.row.componentCost p (c.gap .row) +
          m.column.componentCost p (c.gap .column)) := by
  obtain ⟨d, hd, hgap⟩ := exists_difference (inRange_of_inReach hr)
  have hreach : ∀ a, (d.along a).natAbs ≤ PriceTable.reach := by
    intro a
    rw [hgap a]
    exact hr a
  refine ⟨d, hgap, ?_⟩
  rw [VectorPrices.quote_eq hd hreach,
    VectorModel.cost_records fun a => PriceTable.inRange_of_reach (hreach a), hgap, hgap]

theorem Mirrored.quotes {m : VectorModel} (hm : m.All Cdf.Valid) (h : c.Mirrored c')
    (hr : c.InReach) : ∃ prices k k', VectorPrices.build m c.precision = .ok prices ∧
      prices.quote c.target c.reference = .ok k ∧ prices.quote c'.target c'.reference = .ok k' ∧
      (k' : ℤ) - k = ((Axis.all.filter fun a => c.gap a * c'.gap a < 0).map fun a =>
        ((m.component a).sign.price (signSymbol (c'.gap a)).2 : ℤ) -
          (m.component a).sign.price (signSymbol (c.gap a)).2).sum := by
  have hr' : c'.InReach := by
    intro a
    rw [← h.natAbs_eq a]
    exact hr a
  obtain ⟨d, hgap, hquote⟩ := exists_quote (m := m) (p := c.precision) hr
  obtain ⟨d', hgap', hquote'⟩ := exists_quote (m := m) (p := c.precision) hr'
  have hjoint : d.joint = d'.joint := by
    apply MotionVector.joint_of_natAbs
    intro a
    rw [hgap a, hgap' a, h.natAbs_eq a]
  refine ⟨_, _, _, VectorPrices.build_eq hm, hquote, hquote', ?_⟩
  have hrow := Tables.componentCost_mirrored (t := m.row) (p := c.precision) (h.natAbs_eq .row)
  have hcolumn := Tables.componentCost_mirrored (t := m.column) (p := c.precision)
    (h.natAbs_eq .column)
  have hsum (f : Axis → ℤ) :
      ((Axis.all.filter fun a => c.gap a * c'.gap a < 0).map f).sum =
        (if c.gap .row * c'.gap .row < 0 then f .row else 0) +
          if c.gap .column * c'.gap .column < 0 then f .column else 0 := by
    simp only [Axis.all, List.filter_cons, List.filter_nil, decide_eq_true_eq]
    split_ifs <;> simp
  rw [hsum, hjoint]
  simp only [VectorModel.component, ← hrow, ← hcolumn]
  push_cast
  ring

/-- Runs that mirror each other record the same but for the signs of the axes that are flipped, and
leave the same tables but for those of signs. For one such pair of vectors, the prices in one list
differ by the costs of the flipped signs. -/
theorem mirrored_runs_differ_in_signs (ht : t.motion.All Cdf.Valid) :
    (∀ calls calls' w w' u u', List.Forall₂ Mirrored calls calls' →
      writeAll (.recorder true) t calls = .ok (w, u) →
      writeAll (.recorder true) t calls' = .ok (w', u') →
      (∃ rs rs', w = ⟨true, .journal rs⟩ ∧ w' = ⟨true, .journal rs'⟩ ∧ rs.length = rs'.length ∧
        List.Forall₂ (fun y r => MirroredRecords y.1.1.gap y.1.2.gap y.2 r)
          (namedPairs t calls calls') (rs.zip rs')) ∧
      u.motion.AlikeButSigns u'.motion ∧ u.blockCopy = t.blockCopy ∧ u'.blockCopy = t.blockCopy) ∧
    ∀ c c' : Call, c.Mirrored c' → c.InReach → ∃ (cost : Axis → ℕ → ℕ) (prices : VectorPrices)
      (k k' : ℕ), (∀ a, ∀ b < 2, (t.motion.component a).sign.symbolCost b = .ok (cost a b)) ∧
      VectorPrices.build t.motion c.precision = .ok prices ∧
      prices.quote c.target c.reference = .ok k ∧ prices.quote c'.target c'.reference = .ok k' ∧
      (k' : ℤ) - k = ((Axis.all.filter fun a => c.gap a * c'.gap a < 0).map fun a =>
        (cost a (signSymbol (c'.gap a)).2 : ℤ) - cost a (signSymbol (c.gap a)).2).sum := by
  constructor
  · intro calls calls' w w' u u' hcalls h h'
    have hcalls' : List.Forall₂ Mirrored calls' calls := hcalls.flip.imp fun _ _ h => h.symm
    have hk := motion_of_mirrored hcalls
    have hk' := motion_of_mirrored hcalls'
    obtain ⟨hc, rfl, rfl⟩ := writeAll_recorder ht hk h
    obtain ⟨hc', rfl, rfl⟩ := writeAll_recorder ht hk' h'
    obtain ⟨hlength, hpairs, hmodels⟩ := mirrored_run hcalls hc hc' (.refl t.motion)
    exact ⟨⟨_, _, rfl, rfl, hlength, hpairs⟩, hmodels, blockCopy_foldl_adapted hk hc t,
      blockCopy_foldl_adapted hk' hc' t⟩
  · intro c c' h hr
    obtain ⟨prices, k, k', hbuild, hquote, hquote', hdiff⟩ := h.quotes ht hr
    refine ⟨fun a b => (t.motion.component a).sign.price b, prices, k, k', ?_, hbuild, hquote,
      hquote', hdiff⟩
    intro a b hb
    exact (ht.component a).sign.symbolCost_eq hb

theorem mirrored_runs_differ_in_signs_initial : (∃ rs rs' u u',
      writeAll (.recorder true) (.initial .split) [motion .quarterPel ⟨37, -300⟩ ⟨-5, 0⟩,
        motion .eighthPel ⟨-3, 0⟩ ⟨0, 0⟩] = .ok (⟨true, .journal rs⟩, u) ∧
      writeAll (.recorder true) (.initial .split) [motion .quarterPel ⟨-42, -300⟩ ⟨0, 0⟩,
        motion .eighthPel ⟨3, 0⟩ ⟨0, 0⟩] = .ok (⟨true, .journal rs'⟩, u') ∧
      rs.length = rs'.length ∧ u.motion.AlikeButSigns u'.motion) ∧
    ∃ (cost : Axis → ℕ → ℕ) (prices : VectorPrices) (k k' : ℕ),
      (VectorModel.initial .split).row.sign.symbolCost 1 = .ok (cost .row 1) ∧
      prices.quote ⟨37, -300⟩ ⟨-5, 0⟩ = .ok k ∧ prices.quote ⟨-42, -300⟩ ⟨0, 0⟩ = .ok k' ∧
      (k' : ℤ) - k = cost .row 1 - cost .row 0 := by
  have hvalid : (TileModel.initial .split).motion.All Cdf.Valid :=
    TileModel.initial_fit.valid.motion
  have hfirst : (motion .quarterPel ⟨37, -300⟩ ⟨-5, 0⟩).Mirrored
      (motion .quarterPel ⟨-42, -300⟩ ⟨0, 0⟩) :=
    ⟨rfl, rfl, rfl, Axis.forall_iff.mpr ⟨by decide, by decide⟩⟩
  have hsecond : (motion .eighthPel ⟨-3, 0⟩ ⟨0, 0⟩).Mirrored (motion .eighthPel ⟨3, 0⟩ ⟨0, 0⟩) :=
    ⟨rfl, rfl, rfl, Axis.forall_iff.mpr ⟨by decide, by decide⟩⟩
  obtain ⟨⟨w, u⟩, h⟩ := exists_ok_of_isOk (x := writeAll (.recorder true) (.initial .split)
    [motion .quarterPel ⟨37, -300⟩ ⟨-5, 0⟩, motion .eighthPel ⟨-3, 0⟩ ⟨0, 0⟩]) (by decide +kernel)
  obtain ⟨⟨w', u'⟩, h'⟩ := exists_ok_of_isOk (x := writeAll (.recorder true) (.initial .split)
    [motion .quarterPel ⟨-42, -300⟩ ⟨0, 0⟩, motion .eighthPel ⟨3, 0⟩ ⟨0, 0⟩]) (by decide +kernel)
  obtain ⟨hruns, hquotes⟩ := mirrored_runs_differ_in_signs hvalid
  obtain ⟨⟨rs, rs', rfl, rfl, hlength, -⟩, hmodels, -, -⟩ :=
    hruns _ _ _ _ _ _ (.cons hfirst (.cons hsecond .nil)) h h'
  obtain ⟨cost, prices, k, k', hcost, -, hquote, hquote', hdiff⟩ :=
    hquotes _ _ hfirst (Axis.forall_iff.mpr ⟨by decide, by decide⟩)
  refine ⟨⟨rs, rs', u, u', h, h', hlength, hmodels⟩,
    ⟨cost, prices, k, k', hcost .row 1 (by decide), hquote, hquote', hdiff.trans ?_⟩⟩
  exact List.sum_singleton

end Call

end MotionEntropy
