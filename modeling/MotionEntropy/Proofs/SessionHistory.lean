import Mathlib.Data.List.Forall2
import MotionEntropy.Proofs.LedgerRoom

namespace MotionEntropy

theorem item_eq_ok {α : Type} {xs : List α} {i : ℕ} {x : α} :
    Checked.item xs i = .ok x ↔ xs[i]? = some x := by
  rw [Checked.item, List.getElem?_eq_some_iff]
  split
  · next h =>
    constructor
    · intro he
      cases he
      exact ⟨h, rfl⟩
    · rintro ⟨-, rfl⟩
      rfl
  · next h =>
    constructor
    · intro he
      cases he
    · rintro ⟨hlt, -⟩
      exact absurd hlt h

theorem exists_getElem?_of_forall₂ {α β : Type} {R : α → β → Prop} {xs : List α} {ys : List β}
    (h : List.Forall₂ R xs ys) {i : ℕ} {y : β} (hy : ys[i]? = some y) :
    ∃ x, xs[i]? = some x ∧ R x y := by
  induction h generalizing i with
  | nil => cases hy
  | cons hxy _ ih =>
    cases i with
    | zero =>
      cases hy
      exact ⟨_, rfl, hxy⟩
    | succ i => exact ih hy

namespace MotionVector

theorem fullPelMagnitude_le {v : MotionVector} (h : v.IsValid) : v.fullPelMagnitude ≤ 2047 := by
  obtain ⟨⟨hrl, hru⟩, hcl, hcu⟩ := h
  simp only [componentLimit] at hrl hru hcl hcu
  rw [fullPelMagnitude]
  omega

end MotionVector

namespace Writer

def AllLighter (vs ws : List Writer) : Prop :=
  ∀ (i : ℕ) (w : Writer), ws[i]? = some w → ∃ v, vs[i]? = some v ∧ v.Lighter w

variable {us vs ws : List Writer} {v w : Writer} {i : ℕ}

theorem AllLighter.refl (ws : List Writer) : AllLighter ws ws := fun _ w h => ⟨w, h, .refl w⟩

theorem AllLighter.trans (h : AllLighter us vs) (h' : AllLighter vs ws) : AllLighter us ws := by
  intro i w hw
  obtain ⟨v, hv, hvw⟩ := h' i w hw
  obtain ⟨u, hu, huv⟩ := h i v hv
  exact ⟨u, hu, huv.trans hvw⟩

theorem AllLighter.set (h : AllLighter vs ws) (hvw : v.Lighter w) :
    AllLighter (vs.set i v) (ws.set i w) := by
  intro j w' hw'
  rw [List.getElem?_set] at hw' ⊢
  split_ifs at hw' with hij hlt
  · cases hw'
    obtain ⟨u, hu, -⟩ := h i _ (List.getElem?_eq_getElem hlt)
    obtain ⟨hlt', -⟩ := List.getElem?_eq_some_iff.mp hu
    exact ⟨v, by rw [if_pos hij, if_pos hlt'], hvw⟩
  · obtain ⟨u, hu, huw⟩ := h j w' hw'
    exact ⟨u, by rw [if_neg hij, hu], huw⟩

theorem allLighter_set {w' : Writer} (hi : ws[i]? = some w) (h : w.Lighter w') :
    AllLighter ws (ws.set i w') := by
  intro j v hv
  rw [List.getElem?_set] at hv
  split_ifs at hv with hij hlt
  · cases hv
    exact ⟨w, hij ▸ hi, h⟩
  · exact ⟨v, hv, .refl v⟩

end Writer

open Writer (AllLighter)

theorem Call.admissible_of_write {c : Call} {w : Writer} {t : TileModel} {r : Writer × TileModel}
    (h : c.write w t = .ok r) : c.Admissible := by
  rw [write_eq_checked] at h
  obtain ⟨_, hc, -⟩ := bind_eq_ok.mp h
  exact check_eq_ok.mp hc

namespace Session

def Action.write? (c : Config) : Action → Option (ℕ × Call)
  | writeMotion i mv ref => some (i, .motion c.precision mv ref)
  | writeBlockCopy i dv ref => some (i, .blockCopy dv ref)
  | _ => none

def Action.magnitude? : Action → Option ℕ
  | writeMotion _ mv _ => some mv.fullPelMagnitude
  | _ => none

def Action.raise (a : Action) (peak : Option ℕ) : Option ℕ :=
  match a.magnitude? with
  | some k => peak.map (max k)
  | none => peak

def highest (actions : List Action) : ℕ := (actions.filterMap Action.magnitude?).foldr max 0

structure History where
  events : List Action
  saved : List (List Action)

namespace History

def empty : History := ⟨[], []⟩

/-- Writes and resets are events; a rollback puts those of a checkpoint in place of the present. -/
def note (h : History) : Action → History
  | .checkpoint => { h with saved := h.saved ++ [h.events] }
  | .rollback mark => { h with events := h.saved[mark]?.getD [] }
  | .priceMotion | .priceBlockCopy => h
  | a => { h with events := h.events ++ [a] }

end History

def surviving (actions : List Action) : List Action := (actions.foldl History.note .empty).events

variable {c : Config} {s₀ s s' r : Session} {a : Action} {actions events : List Action}
  {h : History} {t t' : TileModel} {ws ws' : List Writer} {p p' : Pass}

theorem perform_write {i : ℕ} {call : Call} (ha : a.write? s.config = some (i, call)) :
    s.perform a = do
      let w ← Checked.item s.pass.writers i
      let (w, tile) ← call.write w s.pass.coder.tile
      return { s with pass := { s.pass with
        coder := ⟨tile, a.raise s.pass.coder.peak⟩
        writers := s.pass.writers.set i w } } := by
  cases a <;> cases ha <;>
    simp only [perform, passing, Pass.perform, Pass.writing, Coder.writeMotion,
      Coder.writeBlockCopy, Call.write, bind_assoc, pure_bind, Action.raise, Action.magnitude?]

inductive Step (c : Config) (s : Pass) : Action → Pass → Prop
  | write {a : Action} {i : ℕ} {call : Call} {w w' : Writer} {t : TileModel}
      (ha : a.write? c = some (i, call)) (hw : s.writers[i]? = some w)
      (h : call.write w s.coder.tile = .ok (w', t)) :
      Step c s a ⟨⟨t, a.raise s.coder.peak⟩, s.writers.set i w', s.saved⟩
  | checkpoint : Step c s .checkpoint { s with saved := s.saved ++ [s.coder.tile] }
  | rollback {mark : ℕ} {t : TileModel} (h : s.saved[mark]? = some t) :
      Step c s (.rollback mark) { s with coder := { s.coder with tile := t } }
  | resetCounts : Step c s .resetCounts { s with coder := s.coder.resetCounts }
  | priceMotion : Step c s .priceMotion s
  | priceBlockCopy : Step c s .priceBlockCopy s

theorem step_of_perform (h : s.perform a = .ok s') :
    s'.config = s.config ∧ Step s.config s.pass a s'.pass := by
  cases hw : a.write? s.config with
  | some x =>
    rw [perform_write hw] at h
    obtain ⟨w, hi, h⟩ := bind_eq_ok.mp h
    obtain ⟨⟨w', t⟩, hwrite, h⟩ := bind_eq_ok.mp h
    cases h
    exact ⟨rfl, .write hw (item_eq_ok.mp hi) hwrite⟩
  | none =>
    cases a with
    | writeMotion i mv ref => cases hw
    | writeBlockCopy i dv ref => cases hw
    | priceMotion =>
      obtain ⟨prices, -, h⟩ := bind_eq_ok.mp h
      cases h
      exact ⟨rfl, .priceMotion⟩
    | priceBlockCopy =>
      obtain ⟨prices, -, h⟩ := bind_eq_ok.mp h
      cases h
      exact ⟨rfl, .priceBlockCopy⟩
    | checkpoint =>
      cases h
      exact ⟨rfl, .checkpoint⟩
    | rollback mark =>
      obtain ⟨pass, hpass, h⟩ := bind_eq_ok.mp h
      obtain ⟨t, ht, hpass⟩ := bind_eq_ok.mp hpass
      cases hpass
      cases h
      exact ⟨rfl, .rollback (item_eq_ok.mp ht)⟩
    | resetCounts =>
      cases h
      exact ⟨rfl, .resetCounts⟩

/-- Performed from `s₀`, the actions end with the models `t`, and leave in each writer the room
that it has in `ws`. -/
def Replays (s₀ : Session) (actions : List Action) (t : TileModel) (ws : List Writer) : Prop :=
  ∃ r, actions.foldlM Session.perform s₀ = .ok r ∧ r.config = s₀.config ∧
    r.pass.coder.tile = t ∧ AllLighter r.pass.writers ws

theorem Replays.mono (hr : Replays s₀ actions t ws) (h : AllLighter ws ws') :
    Replays s₀ actions t ws' := by
  obtain ⟨r, hrun, hconfig, htile, hws⟩ := hr
  exact ⟨r, hrun, hconfig, htile, hws.trans h⟩

theorem Replays.perform (hr : Replays s₀ actions t ws)
    (h : ∀ r : Session, r.config = s₀.config → r.pass.coder.tile = t →
      AllLighter r.pass.writers ws → ∃ r', r.perform a = .ok r' ∧ r'.config = r.config ∧
        r'.pass.coder.tile = t' ∧ AllLighter r'.pass.writers ws') :
    Replays s₀ (actions ++ [a]) t' ws' := by
  obtain ⟨r, hrun, hconfig, htile, hws⟩ := hr
  obtain ⟨r', hr', hconfig', htile', hws'⟩ := h r hconfig htile hws
  refine ⟨r', ?_, hconfig'.trans hconfig, htile', hws'⟩
  rw [List.foldlM_append, hrun, ok_bind, List.foldlM_cons, hr']
  rfl

theorem Replays.write {i : ℕ} {call : Call} {w w' : Writer} (hr : Replays s₀ actions t ws)
    (ha : a.write? s₀.config = some (i, call)) (hw : ws[i]? = some w)
    (h : call.write w t = .ok (w', t')) : Replays s₀ (actions ++ [a]) t' (ws.set i w') := by
  apply hr.perform
  rintro r hconfig rfl hws
  obtain ⟨v, hv, hvw⟩ := hws i w hw
  obtain ⟨v', hv', hvw'⟩ := (Call.oblivious_write _ call).eased _ _ _ _ hvw h
  rw [perform_write (hconfig ▸ ha), item_eq_ok.mpr hv, ok_bind, hv', ok_bind]
  exact ⟨_, rfl, rfl, rfl, hws.set hvw'⟩

theorem Replays.resetCounts (hr : Replays s₀ actions t ws) :
    Replays s₀ (actions ++ [.resetCounts]) t.resetCounts ws := by
  apply hr.perform
  rintro r - rfl hws
  exact ⟨_, rfl, rfl, rfl, hws⟩

structure Recounts (s₀ : Session) (h : History) (p : Pass) : Prop where
  present : Replays s₀ h.events p.coder.tile p.writers
  saved : List.Forall₂ (fun events t => Replays s₀ events t p.writers) h.saved p.saved

theorem note_of_write {x : ℕ × Call} (ha : a.write? c = some x) (h : History) :
    h.note a = { h with events := h.events ++ [a] } := by
  cases a <;> first | rfl | cases ha

theorem Recounts.step (hp : Recounts s₀ h p) (hstep : Step s₀.config p a p') :
    Recounts s₀ (h.note a) p' := by
  cases hstep with
  | write ha hw hcall =>
    have hgrown := Writer.allLighter_set hw ((Call.oblivious_write _ _).grows _ _ _ hcall)
    rw [note_of_write ha]
    exact ⟨hp.present.write ha hw hcall, hp.saved.imp fun _ _ hr => hr.mono hgrown⟩
  | checkpoint => exact ⟨hp.present, List.rel_append hp.saved (.cons hp.present .nil)⟩
  | rollback ht =>
    obtain ⟨events, he, hr⟩ := exists_getElem?_of_forall₂ hp.saved ht
    refine ⟨?_, hp.saved⟩
    rw [History.note, he]
    exact hr
  | resetCounts => exact ⟨hp.present.resetCounts, hp.saved⟩
  | priceMotion => exact hp
  | priceBlockCopy => exact hp

theorem Recounts.run (hs : Recounts s₀ h s.pass) (hconfig : s.config = s₀.config)
    (hrun : actions.foldlM Session.perform s = .ok s') :
    Recounts s₀ (actions.foldl History.note h) s'.pass := by
  induction actions generalizing s h with
  | nil =>
    cases hrun
    exact hs
  | cons a actions ih =>
    rw [List.foldlM_cons] at hrun
    obtain ⟨s₁, hperform, hrun⟩ := bind_eq_ok.mp hrun
    obtain ⟨hconfig', hstep⟩ := step_of_perform hperform
    rw [hconfig] at hconfig' hstep
    exact ih (hs.step hstep) hconfig' hrun

theorem start_recounts {writers : List Writer} (hstart : start c writers = .ok s₀) :
    Recounts s₀ .empty s₀.pass := by
  obtain ⟨-, rfl⟩ := start_eq_ok.mp hstart
  exact ⟨⟨_, rfl, rfl, rfl, .refl _⟩, .nil⟩

theorem Step.peak_eq (hstep : Step c p a p') : p'.coder.peak = a.raise p.coder.peak := by
  cases hstep <;> rfl

theorem Step.magnitude_le {k : ℕ} (hstep : Step c p a p') (hk : a.magnitude? = some k) :
    k ≤ 2047 := by
  cases hstep with
  | write ha hw hcall =>
    cases a <;> cases hk
    cases ha
    exact MotionVector.fullPelMagnitude_le (Call.admissible_of_write hcall)
  | _ => cases hk

theorem highest_cons (a : Action) (actions : List Action) :
    highest (a :: actions) =
      a.magnitude?.elim (highest actions) fun k => max k (highest actions) := by
  cases h : a.magnitude? <;> simp [highest, h]

theorem peak_of_run (hrun : actions.foldlM Session.perform s = .ok s') :
    s'.pass.coder.peak = s.pass.coder.peak.map (max (highest actions)) ∧
      highest actions ≤ 2047 := by
  induction actions generalizing s with
  | nil =>
    cases hrun
    refine ⟨?_, Nat.zero_le _⟩
    cases s'.pass.coder.peak <;> simp [highest]
  | cons a actions ih =>
    rw [List.foldlM_cons] at hrun
    obtain ⟨s₁, hperform, hrun⟩ := bind_eq_ok.mp hrun
    obtain ⟨-, hstep⟩ := step_of_perform hperform
    obtain ⟨hpeak, hle⟩ := ih hrun
    rw [hpeak, hstep.peak_eq, highest_cons, Action.raise]
    cases hk : a.magnitude? with
    | none => exact ⟨rfl, hle⟩
    | some k =>
      refine ⟨?_, max_le (hstep.magnitude_le hk) hle⟩
      simp only [Option.map_map, Option.elim_some]
      congr 1
      funext q
      simp only [Function.comp_apply]
      omega

/-- Rollbacks undo what the models have learnt, and no more than that: the models are those of a
run of the surviving events alone, the peak is that of all vectors ever written. -/
theorem run_replays_survivors {writers : List Writer} (hstart : start c writers = .ok s₀)
    (hrun : actions.foldlM Session.perform s₀ = .ok s) :
    (∃ r, (surviving actions).foldlM Session.perform s₀ = .ok r ∧
      r.pass.coder.tile = s.pass.coder.tile) ∧
    s.pass.coder.peak = (if c.tracksPeak then some (highest actions) else none) ∧
    highest actions ≤ 2047 ∧
    ∀ (more : List Action) (s' : Session), more.foldlM Session.perform s = .ok s' →
      s'.pass.coder.peak =
        if c.tracksPeak then some (max (highest actions) (highest more)) else none := by
  obtain ⟨⟨r, hreplay, -, htile, -⟩, -⟩ := (start_recounts hstart).run rfl hrun
  obtain ⟨hpeak, hle⟩ := peak_of_run hrun
  have hpeak₀ : s₀.pass.coder.peak = if c.tracksPeak then some 0 else none := by
    obtain ⟨-, rfl⟩ := start_eq_ok.mp hstart
    rfl
  have hpeak' : s.pass.coder.peak = if c.tracksPeak then some (highest actions) else none := by
    rw [hpeak, hpeak₀]
    split
    · exact congrArg some (Nat.max_zero _)
    · rfl
  refine ⟨⟨r, hreplay, htile⟩, hpeak', hle, ?_⟩
  intro more s' hmore
  rw [(peak_of_run hmore).1, hpeak']
  split
  · exact congrArg some (max_comm _ _)
  · rfl

theorem run_replays_survivors_standard : ∃ s₀ s r : Session,
    start { Config.standard with tracksPeak := true } [.counter true, .recorder false] = .ok s₀ ∧
    [.writeMotion 0 ⟨95, -40⟩ ⟨0, 0⟩, .checkpoint, .writeMotion 1 ⟨-300, 8⟩ ⟨-299, 8⟩,
      .writeMotion 0 ⟨1, 0⟩ ⟨0, 0⟩, .resetCounts, .rollback 0,
      .writeBlockCopy 0 ⟨8, -24⟩ ⟨0, 0⟩].foldlM Session.perform s₀ = .ok s ∧
    [.writeMotion 0 ⟨95, -40⟩ ⟨0, 0⟩, .writeBlockCopy 0 ⟨8, -24⟩ ⟨0, 0⟩].foldlM
      Session.perform s₀ = .ok r ∧
    r.pass.coder.tile = s.pass.coder.tile ∧ s.pass.coder.peak = some 37 := by
  obtain ⟨s, hs⟩ := exists_ok_of_isOk (x := [.writeMotion 0 ⟨95, -40⟩ ⟨0, 0⟩, .checkpoint,
    .writeMotion 1 ⟨-300, 8⟩ ⟨-299, 8⟩, .writeMotion 0 ⟨1, 0⟩ ⟨0, 0⟩, .resetCounts, .rollback 0,
    .writeBlockCopy 0 ⟨8, -24⟩ ⟨0, 0⟩].foldlM Session.perform
      (.ofConfig { Config.standard with tracksPeak := true } [.counter true, .recorder false]))
    (by decide +kernel)
  obtain ⟨⟨r, hr, htile⟩, hpeak, -, -⟩ :=
    run_replays_survivors (c := { Config.standard with tracksPeak := true }) rfl hs
  exact ⟨_, s, r, rfl, hs, hr, htile, hpeak⟩

end Session

end MotionEntropy
