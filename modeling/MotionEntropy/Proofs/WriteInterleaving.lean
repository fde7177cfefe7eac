import MotionEntropy.Proofs.SessionHistory
import MotionEntropy.Proofs.StreamDecoding
import MotionEntropy.Proofs.TableRouting

namespace MotionEntropy

namespace VectorModel

def runRecords (p : Precision) : VectorModel → List MotionVector → List (List Record)
  | _, [] => []
  | m, d :: ds => m.records p d :: runRecords p (m.adapted p d) ds

def runAdapted (p : Precision) (m : VectorModel) (ds : List MotionVector) : VectorModel :=
  ds.foldl (fun m d => m.adapted p d) m

end VectorModel

theorem TileModel.All.adapted {t : TileModel} (ht : t.All Cdf.Valid) (c : Call) :
    (c.adapted t).All Cdf.Valid := by
  have hmodel (c' : Call) : (c'.model (c.adapted t)).All Cdf.Valid :=
    Call.model_adapted (fun c s h => h.moved s) (Call.model_all ht c')
  exact ⟨hmodel (.motion .fullPel .zero .zero), hmodel (.blockCopy .zero .zero)⟩

namespace Kind

def select {α : Type} (k : Kind) (l : List (Kind × α)) : List α :=
  l.filterMap fun x => if x.1 = k then some x.2 else none

def precision (c : Config) : Kind → Precision
  | motion => c.precision
  | blockCopy => .fullPel

def call (c : Config) (x : MotionVector × MotionVector) : Kind → Call
  | motion => .motion c.precision x.1 x.2
  | blockCopy => .blockCopy x.1 x.2

theorem select_cons {α : Type} (k k' : Kind) (x : α) (l : List (Kind × α)) :
    k.select ((k', x) :: l) = if k' = k then x :: k.select l else k.select l := by
  by_cases h : k' = k <;> simp [select, h]

end Kind

namespace Session

variable {c : Config} {s₀ s s' : Session} {a : Action} {actions : List Action} {k : Kind}
  {w : Kind → ℕ} {rs : Kind → List Record} {xs : Kind → List Pair} {x : Pair} {call : Call} {i : ℕ}
  {js : List Record}

def journal (s : Session) (i : ℕ) : List Record :=
  match s.pass.writers[i]? with
  | some ⟨_, .journal rs⟩ => rs
  | _ => []

def writing (w : Kind → ℕ) (x : Pair) : Kind → Action
  | .motion => .writeMotion (w .motion) x.1 x.2
  | .blockCopy => .writeBlockCopy (w .blockCopy) x.1 x.2

/-- Writes vectors of both kinds in the order given, each kind `k` through the writer `w k`, and
notes for each vector what it adds to the journal. -/
def transcript (w : Kind → ℕ) : Session → List (Kind × Pair) →
    Except Fault (List (Kind × List Record) × Session)
  | s, [] => .ok ([], s)
  | s, (k, x) :: rest => do
    let s₁ ← s.perform (writing w x k)
    let (noted, s') ← transcript w s₁ rest
    return ((k, (s₁.journal (w k)).drop (s.journal (w k)).length) :: noted, s')

def difference (x : Pair) : MotionVector := (x.1.sub x.2).toOption.getD .zero

def model (s : Session) (k : Kind) : VectorModel := s.pass.coder.tile.ofKind k

def recordsOf (s : Session) (k : Kind) (xs : List Pair) : List (List Record) :=
  (s.model k).runRecords (k.precision s.config) (xs.map difference)

def adaptedTo (s : Session) (k : Kind) (xs : List Pair) : VectorModel :=
  (s.model k).runAdapted (k.precision s.config) (xs.map difference)

/-- Where a session arrives that still has the vectors `xs k` of each kind `k` to write, whatever
the order: neither kind touches a model, a writer or a peak that the other depends on. -/
def settled (w : Kind → ℕ) (rs : Kind → List Record) (s : Session) (xs : Kind → List Pair) :
    Session :=
  { s with pass := { s.pass with
    coder := ⟨⟨s.adaptedTo .motion (xs .motion), s.adaptedTo .blockCopy (xs .blockCopy)⟩,
      (xs .motion).foldl (fun peak x => peak.map (max x.1.fullPelMagnitude)) s.pass.coder.peak⟩
    writers :=
      (s.pass.writers.set (w .motion)
          ⟨true, .journal (rs .motion ++ (s.recordsOf .motion (xs .motion)).flatten)⟩).set
        (w .blockCopy)
        ⟨true, .journal (rs .blockCopy ++ (s.recordsOf .blockCopy (xs .blockCopy)).flatten)⟩ } }

structure Ready (w : Kind → ℕ) (rs : Kind → List Record) (s : Session) : Prop where
  apart : w .motion ≠ w .blockCopy
  valid : s.pass.coder.tile.All Cdf.Valid
  writer : ∀ k, s.pass.writers[w k]? = some ⟨true, .journal (rs k)⟩

theorem journal_eq {adapts : Bool} (h : s.pass.writers[i]? = some ⟨adapts, .journal js⟩) :
    s.journal i = js := by
  rw [journal, h]

theorem write?_writing (w : Kind → ℕ) (x : Pair) (k : Kind) (c : Config) :
    (writing w x k).write? c = some (w k, k.call c x) := by
  cases k <;> rfl

theorem accepted_of_perform (hs : s.pass.coder.tile.All Cdf.Valid)
    (ha : a.write? s.config = some (i, call)) (h : s.perform a = .ok s') : call.Accepted := by
  rw [perform_write ha] at h
  obtain ⟨w, -, h⟩ := bind_eq_ok.mp h
  obtain ⟨⟨w', t⟩, hwrite, -⟩ := bind_eq_ok.mp h
  exact (Call.write_inversion (Call.model_all hs call) hwrite).1

theorem perform_accepted (hs : s.pass.coder.tile.All Cdf.Valid)
    (ha : a.write? s.config = some (i, call))
    (hi : s.pass.writers[i]? = some ⟨true, .journal js⟩) (hc : call.Accepted) :
    s.perform a = .ok { s with pass := { s.pass with
      coder := ⟨call.adapted s.pass.coder.tile, a.raise s.pass.coder.peak⟩
      writers := s.pass.writers.set i
        ⟨true, .journal (js ++ call.records s.pass.coder.tile)⟩ } } := by
  have hfits : (Ledger.journal js).Fits (call.records s.pass.coder.tile) := trivial
  rw [perform_write ha, item_eq_ok.mpr hi, ok_bind,
    Call.write_eq (Call.model_all hs call) hc.1 hc.2 hfits, ok_bind]
  rfl

theorem difference_eq (hc : (k.call c x).Accepted) :
    (k.call c x).difference = .ok (difference x) := by
  obtain ⟨d, hd, -, -⟩ := hc.exists_difference
  have hsub : x.1.sub x.2 = .ok d := by
    cases k <;> exact hd
  rw [hd, difference, hsub]
  rfl

def wrote (w : Kind → ℕ) (rs : Kind → List Record) (s : Session) (k : Kind) (x : Pair) : Session :=
  { s with pass := { s.pass with
    coder :=
      ⟨(k.call s.config x).adapted s.pass.coder.tile, (writing w x k).raise s.pass.coder.peak⟩
    writers := s.pass.writers.set (w k)
      ⟨true, .journal (rs k ++ (s.recordsOf k [x]).flatten)⟩ } }

def grown (rs : Kind → List Record) (s : Session) (k : Kind) (x : Pair) : Kind → List Record :=
  Function.update rs k (rs k ++ (s.recordsOf k [x]).flatten)

theorem model_wrote (hx : (k.call s.config x).Accepted) (k' : Kind) :
    (s.wrote w rs k x).model k' = if k = k' then s.adaptedTo k [x] else s.model k' := by
  have hd := difference_eq hx
  show ((k.call s.config x).adapted s.pass.coder.tile).ofKind k' = _
  rw [Call.adapted_of_difference hd, Call.ofKind_setModel]
  cases k <;> rfl

theorem recordsOf_singleton (s : Session) (k : Kind) (x : Pair) : s.recordsOf k [x] =
    [(s.model k).records (k.precision s.config) (difference x)] := rfl

theorem Ready.perform_eq (hs : Ready w rs s) (hx : (k.call s.config x).Accepted) :
    s.perform (writing w x k) = .ok (s.wrote w rs k x) := by
  rw [perform_accepted hs.valid (write?_writing w x k s.config) (hs.writer k) hx,
    Call.records_of_difference hx.1 (difference_eq hx), wrote, recordsOf_singleton,
    List.flatten_singleton]
  cases k <;> rfl

theorem Ready.index_inj (hs : Ready w rs s) {k k' : Kind} (h : w k = w k') : k = k' := by
  cases k <;> cases k' <;> first | rfl | exact absurd h hs.apart | exact absurd h.symm hs.apart

theorem Ready.wrote (hs : Ready w rs s) (k : Kind) (x : Pair) :
    Ready w (s.grown rs k x) (s.wrote w rs k x) where
  apart := hs.apart
  valid := hs.valid.adapted _
  writer k' := by
    show (s.pass.writers.set (w k) _)[w k']? = _
    by_cases h : k' = k
    · subst h
      obtain ⟨hlt, -⟩ := List.getElem?_eq_some_iff.mp (hs.writer k')
      rw [List.getElem?_set_self hlt, grown, Function.update_self]
    · rw [List.getElem?_set_ne fun he => h (hs.index_inj he.symm), hs.writer k', grown,
        Function.update_of_ne h]

theorem recordsOf_cons (w : Kind → ℕ) (rs : Kind → List Record) (hx : (k.call s.config x).Accepted)
    (k' : Kind) (l : List (Kind × Pair)) : s.recordsOf k' (k'.select ((k, x) :: l)) =
      (if k = k' then s.recordsOf k [x] else []) ++
        (s.wrote w rs k x).recordsOf k' (k'.select l) := by
  rw [Kind.select_cons, recordsOf, recordsOf, recordsOf, model_wrote hx]
  split
  · next h =>
    subst h
    rfl
  · rfl

theorem adaptedTo_cons (w : Kind → ℕ) (rs : Kind → List Record) (hx : (k.call s.config x).Accepted)
    (k' : Kind) (l : List (Kind × Pair)) : s.adaptedTo k' (k'.select ((k, x) :: l)) =
      (s.wrote w rs k x).adaptedTo k' (k'.select l) := by
  rw [Kind.select_cons, adaptedTo, adaptedTo, model_wrote hx]
  split
  · next h =>
    subst h
    rfl
  · rfl

theorem journal_cons (hx : (k.call s.config x).Accepted) (k' : Kind) (l : List (Kind × Pair)) :
    rs k' ++ (s.recordsOf k' (k'.select ((k, x) :: l))).flatten =
      s.grown rs k x k' ++ ((s.wrote w rs k x).recordsOf k' (k'.select l)).flatten := by
  rw [recordsOf_cons w rs hx, List.flatten_append, ← List.append_assoc]
  congr 1
  by_cases h : k = k'
  · subst h
    rw [if_pos rfl, grown, Function.update_self]
  · rw [if_neg h, grown, Function.update_of_ne (Ne.symm h), List.flatten_nil, List.append_nil]

theorem Ready.settled_cons (hs : Ready w rs s) (hx : (k.call s.config x).Accepted)
    (l : List (Kind × Pair)) :
    settled w (s.grown rs k x) (s.wrote w rs k x) (fun k' => k'.select l) =
      settled w rs s fun k' => k'.select ((k, x) :: l) := by
  have hwriters (v v' v'' : Writer) : ((s.pass.writers.set (w k) v).set (w .motion) v').set
      (w .blockCopy) v'' = (s.pass.writers.set (w .motion) v').set (w .blockCopy) v'' := by
    cases k with
    | motion => rw [List.set_set]
    | blockCopy => rw [List.set_comm _ _ hs.apart.symm, List.set_set]
  have hpeak : (Kind.motion.select ((k, x) :: l)).foldl
      (fun peak x => peak.map (max x.1.fullPelMagnitude)) s.pass.coder.peak =
      (Kind.motion.select l).foldl (fun peak x => peak.map (max x.1.fullPelMagnitude))
        ((writing w x k).raise s.pass.coder.peak) := by
    cases k <;> rfl
  simp only [settled, hpeak, adaptedTo_cons w rs hx, journal_cons (w := w) hx]
  rw [← hwriters]
  rfl

theorem Ready.settled_nil (hs : Ready w rs s) : (settled w rs s fun _ => []) = s := by
  have hset (k : Kind) : s.pass.writers.set (w k)
      ⟨true, .journal (rs k ++ (s.recordsOf k []).flatten)⟩ = s.pass.writers := by
    obtain ⟨hlt, hget⟩ := List.getElem?_eq_some_iff.mp (hs.writer k)
    show s.pass.writers.set (w k) ⟨true, .journal (rs k ++ [])⟩ = _
    rw [List.append_nil, ← hget, List.set_getElem_self]
  rw [settled, hset .motion, hset .blockCopy]
  rfl

theorem Ready.writer_settled (hs : Ready w rs s) (xs : Kind → List Pair) (k : Kind) :
    (settled w rs s xs).pass.writers[w k]? =
      some ⟨true, .journal (rs k ++ (s.recordsOf k (xs k)).flatten)⟩ := by
  have hlt (k : Kind) : w k < s.pass.writers.length :=
    (List.getElem?_eq_some_iff.mp (hs.writer k)).1
  cases k with
  | motion =>
    exact (List.getElem?_set_ne hs.apart.symm).trans (List.getElem?_set_self (hlt .motion))
  | blockCopy => exact List.getElem?_set_self ((hlt .blockCopy).trans_eq (List.length_set ..).symm)

theorem Ready.drop_journal (hs : Ready w rs s) (k : Kind) (x : Pair) :
    ((s.wrote w rs k x).journal (w k)).drop (s.journal (w k)).length =
      (s.recordsOf k [x]).flatten := by
  rw [journal_eq (hs.writer k), journal_eq ((hs.wrote k x).writer k), grown, Function.update_self,
    List.drop_left]

theorem Ready.transcript_eq (hs : Ready w rs s) {l : List (Kind × Pair)}
    (hl : ∀ k : Kind, ∀ x ∈ k.select l, (k.call s.config x).Accepted) :
    ∃ noted, s.transcript w l = .ok (noted, settled w rs s fun k => k.select l) ∧
      ∀ k : Kind, k.select noted = s.recordsOf k (k.select l) := by
  -- Along the merged list both writers stay ready, and what is left settles where it would have.
  induction l generalizing s rs with
  | nil =>
    refine ⟨[], ?_, fun _ => rfl⟩
    rw [transcript]
    exact congrArg (fun s => Except.ok ([], s)) hs.settled_nil.symm
  | cons y l ih =>
    obtain ⟨k, x⟩ := y
    have hx : (k.call s.config x).Accepted := by
      apply hl k
      rw [Kind.select_cons, if_pos rfl]
      exact .head _
    have hrest : ∀ k' : Kind, ∀ x' ∈ k'.select l, (k'.call s.config x').Accepted := by
      intro k' x' hx'
      apply hl k'
      rw [Kind.select_cons]
      split
      · exact .tail _ hx'
      · exact hx'
    obtain ⟨noted, hrun, hnoted⟩ := ih (hs.wrote k x) hrest
    refine ⟨(k, (s.recordsOf k [x]).flatten) :: noted, ?_, ?_⟩
    · rw [transcript, hs.perform_eq hx, ok_bind, hrun, ok_bind, hs.drop_journal,
        hs.settled_cons hx]
      rfl
    · intro k'
      rw [Kind.select_cons, hnoted, recordsOf_cons w rs hx, recordsOf_singleton,
        List.flatten_singleton]
      split <;> rfl

/-- In whatever order the vectors of two kinds are merged, every vector enters the same records, and
the session ends in the same state. -/
theorem interleavings_agree {writers : List Writer} (hstart : start c writers = .ok s₀)
    (hrun : actions.foldlM Session.perform s₀ = .ok s) (hw : w .motion ≠ w .blockCopy)
    (hwriters : ∀ k, s.pass.writers[w k]? = some ⟨true, .journal (rs k)⟩)
    (hxs : ∀ k, ∀ x ∈ xs k, ∃ s', s.perform (writing w x k) = .ok s') :
    ∃ (recs : Kind → List (List Record)) (s' : Session),
      (∀ k, s'.pass.writers[w k]? = some ⟨true, .journal (rs k ++ (recs k).flatten)⟩) ∧
      ∀ l : List (Kind × Pair), (∀ k : Kind, k.select l = xs k) →
        ∃ noted, s.transcript w l = .ok (noted, s') ∧ ∀ k : Kind, k.select noted = recs k := by
  have hvalid := ((start_invariant hstart).run hrun).pass.tile.valid
  have hs : Ready w rs s := ⟨hw, hvalid, hwriters⟩
  refine ⟨fun k => s.recordsOf k (xs k), settled w rs s xs, hs.writer_settled xs, ?_⟩
  intro l hl
  obtain rfl := funext hl
  apply hs.transcript_eq
  intro k x hx
  obtain ⟨s', h⟩ := hxs k x hx
  exact accepted_of_perform hvalid (write?_writing w x k s.config) h

theorem interleavings_agree_standard : ∃ s noted noted' s',
    start { Config.standard with tracksPeak := true } [.recorder true, .recorder true] = .ok s ∧
    s.transcript (fun k => if k = .motion then 0 else 1) [(.motion, ⟨37, -300⟩, ⟨-5, 0⟩),
      (.motion, ⟨36, -300⟩, ⟨36, 0⟩), (.blockCopy, ⟨8, -24⟩, ⟨0, 0⟩)] = .ok (noted, s') ∧
    s.transcript (fun k => if k = .motion then 0 else 1) [(.motion, ⟨37, -300⟩, ⟨-5, 0⟩),
      (.blockCopy, ⟨8, -24⟩, ⟨0, 0⟩), (.motion, ⟨36, -300⟩, ⟨36, 0⟩)] = .ok (noted', s') ∧
    ∀ k : Kind, k.select noted = k.select noted' := by
  have hxs : ∀ k : Kind, ∀ x ∈ k.select [(.motion, ⟨37, -300⟩, ⟨-5, 0⟩),
      (.motion, ⟨36, -300⟩, ⟨36, 0⟩), (.blockCopy, ⟨8, -24⟩, ⟨0, 0⟩)],
      ∃ s', (ofConfig { Config.standard with tracksPeak := true }
        [.recorder true, .recorder true]).perform
          (writing (fun k => if k = .motion then 0 else 1) x k) = .ok s' := by
    intro k x hx
    apply exists_ok_of_isOk
    revert x hx
    cases k <;> decide +kernel
  have hrun : [].foldlM Session.perform (ofConfig { Config.standard with tracksPeak := true }
      [.recorder true, .recorder true]) = .ok (ofConfig { Config.standard with tracksPeak := true }
        [.recorder true, .recorder true]) := rfl
  have hwriters : ∀ k : Kind,
      [Writer.recorder true, .recorder true][if k = .motion then 0 else 1]? =
        some ⟨true, .journal []⟩ := by
    rintro (_ | _) <;> rfl
  obtain ⟨recs, s', -, hall⟩ := interleavings_agree
    (c := { Config.standard with tracksPeak := true }) rfl hrun (by decide) hwriters hxs
  obtain ⟨noted, hrun, hnoted⟩ := hall _ fun _ => rfl
  obtain ⟨noted', hrun', hnoted'⟩ := hall [(.motion, ⟨37, -300⟩, ⟨-5, 0⟩),
    (.blockCopy, ⟨8, -24⟩, ⟨0, 0⟩), (.motion, ⟨36, -300⟩, ⟨36, 0⟩)] (by rintro (_ | _) <;> rfl)
  exact ⟨_, noted, noted', s', rfl, hrun, hrun', fun k => (hnoted k).trans (hnoted' k).symm⟩

end Session

end MotionEntropy
